import OmsFormal.SlackPhases

/-!
# From the entry of a call to its reroute

A report or a timeout books what it brings and then either returns or reroutes
the leaves of the booked parent. Nothing else reaches `dispatch_child_orders`
outside of a fresh signal.
-/

namespace OmsFormal.Oms
open Sor Rounding OMSOrderPool
set_option autoImplicit false

section Call
variable (cfg : ExecCoreConfig) (w : World)

/-- The flow of a call, up to its dispatch if it has one. -/
def Call.flow : Call → Core → Flow
  | .signal sig, s => signalFlow cfg w sig s
  | .report rep, s => reportFlow cfg w rep s
  | .visit slot idx, s =>
    match s.timerWheel.entryAt slot idx with
    | none => .finished s
    | some e => timeoutFlow cfg w e.childId (s.setWheel (s.timerWheel.deactivate e))

theorem Call.apply_eq_flow (c : Call) (s : Core) : c.apply cfg w s = (c.flow cfg w s).run cfg w := by
  cases c with
  | signal sig => rfl
  | report rep => rfl
  | visit slot idx =>
    simp only [Call.apply, TimerWheel.visitEntry, Call.flow]
    cases s.timerWheel.entryAt slot idx <;> rfl

/-- The parent a report or a timer visit is about. -/
def Call.subject (c : Call) (s : Core) : Option ℕ :=
  match c with
  | .signal _ => none
  | .report rep => some (s.parentOf rep.childId)
  | .visit slot idx => (s.timerWheel.entryAt slot idx).map fun e => s.parentOf e.childId

/-- `flow` is the reroute of the parent that was booked in `b`; a fill relabels it first. -/
structure Flow.Reroutes (pid : ℕ) (b : Core) (flow : Flow) : Prop where
  starts : reroutes pid b = true
  leaves : rerouteLeaves cfg w pid b = flow ∨
    rerouteLeaves cfg w pid (b.setParentState pid .partiallyFilled) = flow

end Call

variable {cfg : ExecCoreConfig} {w : World} {s s1 : Core} {pid p cid : ℕ} {rep : ExecutionReport}
  {buf : List ChildOrder} {ctx : RoutingContext}

theorem handleFill_reroutes (h : handleFill cfg w cid pid rep s = .dispatching s1 p buf ctx) :
    (Flow.dispatching s1 p buf ctx).Reroutes cfg w pid (bookFill cfg w cid pid rep s) := by
  simp only [handleFill] at h
  split at h
  · cases h
  · rename_i hleft
    split at h
    · rename_i hall
      refine ⟨?_, Or.inr h⟩
      rw [← reroutes_setParentState, reroutes, hall]
      simpa [Core.setParentState] using hleft
    · cases h

theorem handleCancelReject_reroutes
    (h : handleCancelReject cfg w cid pid rep s = .dispatching s1 p buf ctx) :
    (Flow.dispatching s1 p buf ctx).Reroutes cfg w pid (bookCancel cfg w cid pid rep s) := by
  simp only [handleCancelReject] at h
  split at h
  · rename_i hleft
    split at h
    · rename_i hall
      refine ⟨?_, Or.inl h⟩
      rw [reroutes, hall]
      simpa using hleft.ne'
    · cases h
  · cases h

theorem reportFlow_reroutes (h : reportFlow cfg w rep s = .dispatching s1 p buf ctx) :
    ∃ b, reportEntry cfg w rep s = (.booked (s.parentOf rep.childId), b) ∧
      (Flow.dispatching s1 p buf ctx).Reroutes cfg w (s.parentOf rep.childId) b := by
  simp only [reportFlow] at h
  split at h
  · cases h
  · rename_i hc
    split at h
    · cases h
    · rename_i hp
      unfold reportEntry
      rw [if_neg (not_or.mpr ⟨hc, hp⟩)]
      cases hkind : rep.execType <;> rw [hkind] at h
      · cases h
      · exact ⟨_, rfl, handleFill_reroutes h⟩
      · exact ⟨_, rfl, handleFill_reroutes h⟩
      · exact ⟨_, rfl, handleCancelReject_reroutes h⟩
      · exact ⟨_, rfl, handleCancelReject_reroutes h⟩
      · cases h

/-- A call that is no signal dispatches only by rerouting the parent it booked. -/
theorem Call.flow_reroutes {c : Call} (hc : ∀ sig, c ≠ .signal sig)
    (h : c.flow cfg w s = .dispatching s1 p buf ctx) :
    ∃ pid b, c.subject s = some pid ∧ c.entry cfg w s = (.booked pid, b) ∧
      (Flow.dispatching s1 p buf ctx).Reroutes cfg w pid b := by
  cases c with
  | signal sig => exact absurd rfl (hc sig)
  | report rep =>
    obtain ⟨b, hentry, hreroutes⟩ := reportFlow_reroutes h
    exact ⟨_, b, rfl, hentry, hreroutes⟩
  | visit slot idx =>
    simp only [Call.flow] at h
    simp only [Call.subject, Call.entry]
    cases he : s.timerWheel.entryAt slot idx with
    | none =>
      rw [he] at h
      cases h
    | some e =>
      rw [he] at h
      simp only [timeoutFlow] at h
      split at h
      · cases h
      · rename_i hrange
        split at h
        · rename_i hworks
          obtain ⟨b, hentry, hreroutes⟩ := reportFlow_reroutes h
          refine ⟨_, b, rfl, ?_, hreroutes⟩
          simp only [timeoutEntry]
          rw [if_pos ⟨Nat.lt_of_not_ge hrange, hworks⟩]
          exact hentry
        · cases h

end OmsFormal.Oms
