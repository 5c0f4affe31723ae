import OmsFormal.ReduceOnly

/-!
# A reroute and its own reservation

A reduce-only reroute clamps what is left against the position less the open-lot
counter of its side. The counter is there for the other orders of the instrument,
but lots that the router left out of the last round are still reserved in it for
the order itself. So the reroute of an order that is alone on its instrument asks
for all it can close exactly if nothing is reserved or everything fits beside it.
-/

namespace OmsFormal.Oms
open Sor OMSOrderPool GuardedRun
set_option autoImplicit false

variable {cfg : ExecCoreConfig} {w : World} {s : Core} {pid : ℕ}

section Target

/-- The target a reroute hands to the router, if it asks at all. -/
def rerouteTarget (pid : ℕ) (s : Core) : Option ℤ :=
  if (s.pool.parents pid).reduceOnly ∧ ((trimmed pid s).pool.parents pid).leavesQtyLots = 0 then none
  else some ((trimmed pid s).pool.parents pid).leavesQtyLots

/-- A reroute closes its parent, or routes it for that target. -/
theorem rerouteLeaves_target (cfg : ExecCoreConfig) (w : World) (pid : ℕ) (s : Core) :
    rerouteLeaves cfg w pid s =
      match rerouteTarget pid s with
      | none => .finished (closeReduceOnlyDone pid (trimmed pid s))
      | some target =>
        routeLeaves w pid { rerouteContext cfg w pid s with targetLots := target } (trimmed pid s) := by
  rw [rerouteLeaves_eq, rerouteTarget]
  split
  · rfl
  · rfl

theorem rerouteTarget_setParentState (st : OrderState) :
    rerouteTarget pid (s.setParentState pid st) = rerouteTarget pid s := by
  have hflag : ((s.setParentState pid st).pool.parents pid).reduceOnly = (s.pool.parents pid).reduceOnly := by
    simp [Core.setParentState]
  simp only [rerouteTarget, hflag, (trimmed_setParentState pid s st).1]

/-- A parent flagged reduce-only, alone on its instrument and on the side that closes the position. -/
structure SoleReducer (pid : ℕ) (s : Core) : Prop where
  reduceOnly : (s.pool.parents pid).reduceOnly = true
  sole : ∀ q, s.pool.ParentInUse q → (s.pool.parents q).instrId = (s.pool.parents pid).instrId → q = pid
  reduces : reducesSomething (s.pool.parents pid).dir
    (s.pos.instruments (s.pool.parents pid).instrId).netQtyLots = true

/-- The reroute of a sole reducer asks for all it has left and can close. A fill relabels the
parent before its reroute and a cancel does not. -/
def RerouteWhole (pid : ℕ) (s : Core) : Prop :=
  let parent := s.pool.parents pid
  SoleReducer pid s → ∀ st : OrderState, rerouteTarget pid (s.setParentState pid st) =
    some (min parent.leavesQtyLots |(s.pos.instruments parent.instrId).netQtyLots|)

/-- Nothing is reserved on the side of a sole reducer, or its leaves fit into the position beside
what is. -/
def ReservationClear (pid : ℕ) (s : Core) : Prop :=
  let parent := s.pool.parents pid
  let p := s.pos.instruments parent.instrId
  SoleReducer pid s → p.openLots parent.dir = 0 ∨
    parent.leavesQtyLots ≤ |p.netQtyLots| ∧ parent.leavesQtyLots + p.openLots parent.dir ≤ |p.netQtyLots|

/-- What the clamp makes of a reduce-only quantity on the closing side. -/
theorem clampReduceOnly_of_reduces {pos : PositionTable} {instr : ℕ} {dir : OrderDir} (qty : ℤ)
    (hinstr : instr < kMaxInstruments) (h : reducesSomething dir (pos.instruments instr).netQtyLots = true) :
    clampReduceOnly pos instr dir qty true =
      if closable dir (pos.instruments instr).netQtyLots ≤ (pos.instruments instr).openLots dir then 0
      else min qty
        (closable dir (pos.instruments instr).netQtyLots - (pos.instruments instr).openLots dir) := by
  rw [clampReduceOnly, if_neg (Nat.not_le.mpr hinstr), clampReduceOnlyImpl, headroom_of_reduces h]
  simp only [Bool.not_true, Bool.false_and, Bool.false_eq_true, if_false, h]
  by_cases hroom : closable dir (pos.instruments instr).netQtyLots ≤ (pos.instruments instr).openLots dir
  · rw [if_pos (by omega), if_pos hroom]
  · rw [if_neg (by omega), if_neg hroom]
    split_ifs <;> omega

/-- The leaves with which a sole reducer asks the router. -/
theorem SoleReducer.trimmed_leaves (h : SoleReducer pid s) :
    ((trimmed pid s).pool.parents pid).leavesQtyLots = min (s.pool.parents pid).leavesQtyLots
      (clampReduceOnly s.pos (s.pool.parents pid).instrId (s.pool.parents pid).dir
        (s.pool.parents pid).leavesQtyLots true) := by
  rw [trimmed_record]
  simp only [ParentOrder.giveUp, excessLots, h.reduceOnly, if_true, sub_sub_cancel]

theorem rerouteWhole_iff (hinstr : (s.pool.parents pid).instrId < kMaxInstruments)
    (hleaves : 1 ≤ (s.pool.parents pid).leavesQtyLots) : RerouteWhole pid s ↔ ReservationClear pid s := by
  refine forall_congr' fun h => ?_
  have hclosable : 1 ≤ closable (s.pool.parents pid).dir
      (s.pos.instruments (s.pool.parents pid).instrId).netQtyLots := closable_of_reduces.mp h.reduces
  have htrim := h.trimmed_leaves
  rw [clampReduceOnly_of_reduces _ hinstr h.reduces] at htrim
  have hlabel : (∀ st : OrderState, rerouteTarget pid (s.setParentState pid st) =
      some (min (s.pool.parents pid).leavesQtyLots
        |(s.pos.instruments (s.pool.parents pid).instrId).netQtyLots|)) ↔
        rerouteTarget pid s = some (min (s.pool.parents pid).leavesQtyLots
          |(s.pos.instruments (s.pool.parents pid).instrId).netQtyLots|) := by
    simp only [rerouteTarget_setParentState]
    exact ⟨fun hall => hall .pendingNew, fun hone _ => hone⟩
  rw [hlabel]
  simp only [rerouteTarget, h.reduceOnly, true_and]
  rw [← abs_of_reduces h.reduces]
  generalize closable (s.pool.parents pid).dir
    (s.pos.instruments (s.pool.parents pid).instrId).netQtyLots = room at hclosable htrim ⊢
  generalize ((trimmed pid s).pool.parents pid).leavesQtyLots = target at htrim ⊢
  generalize (s.pos.instruments (s.pool.parents pid).instrId).openLots (s.pool.parents pid).dir =
    spoken at htrim ⊢
  -- the target is never zero where there is something to close, so closing early is wrong
  have hasked : (if target = 0 then none else some target) =
      some (min (s.pool.parents pid).leavesQtyLots room) ↔
        target = min (s.pool.parents pid).leavesQtyLots room := by
    split
    · rename_i hzero
      refine iff_of_false (Option.some_ne_none _).symm ?_
      omega
    · exact Option.some_inj
  rw [hasked, htrim]
  split_ifs <;> omega

end Target

section Run

/-- A call that reroutes a sole reducer asks the router for all of it that can be closed. -/
def Event.RerouteWhole (cfg : ExecCoreConfig) : Event → Core → Prop
  | .call w c, s => c.OnReroute cfg w Oms.RerouteWhole s
  | .env _, _ => True

def Event.ReservationClear (cfg : ExecCoreConfig) : Event → Core → Prop
  | .call w c, s => c.OnReroute cfg w Oms.ReservationClear s
  | .env _, _ => True

theorem Call.OnReroute.congr {P Q : ℕ → Core → Prop} {c : Call}
    (h : ∀ pid b, c.entry cfg w s = (.booked pid, b) → reroutes pid b = true → (P pid b ↔ Q pid b)) :
    c.OnReroute cfg w P s ↔ c.OnReroute cfg w Q s := by
  unfold Call.OnReroute
  split
  · rename_i pid b hentry
    exact forall_congr' (h pid b hentry)
  · exact Iff.rfl

/-- A call that reroutes has booked a parent that is in use and has something left. -/
theorem booked_leaves {c : Call} {b : Core} (h : c.Admissible cfg canonical w s) (hs : Healthy canonical s)
    (hentry : c.entry cfg w s = (.booked pid, b)) (hreroutes : reroutes pid b = true) :
    (b.pool.parents pid).instrId < kMaxInstruments ∧ 1 ≤ (b.pool.parents pid).leavesQtyLots := by
  have hhealthy := entered_healthy h.sound (h.entered hs) h.scaled hs
  rw [hentry] at hhealthy
  obtain ⟨hu, hstore⟩ := hhealthy.store
  have hnn : 0 ≤ (b.pool.parents pid).leavesQtyLots := (hhealthy.qty.1 pid hu).leaves_nonneg
  have hleft := (reroutes_iff.mp hreroutes).1
  exact ⟨(hstore.ok pid).instr hu, by omega⟩

theorem event_rerouteWhole {e : Event} (hs : Healthy canonical s) (h : e.Admissible cfg canonical s) :
    e.RerouteWhole cfg s ↔ e.ReservationClear cfg s := by
  cases e with
  | env e => exact Iff.rfl
  | call w c =>
    refine Call.OnReroute.congr fun pid b hentry hreroutes => ?_
    obtain ⟨hinstr, hleaves⟩ := booked_leaves h hs hentry hreroutes
    exact rerouteWhole_iff hinstr hleaves

/-- In a run with canonical lots, every reroute of an order alone on its instrument asks for all it
has left and can close exactly if each finds nothing reserved on its side or fits beside what is. -/
theorem run_rerouteWhole_iff {evs : List Event} (h0 : Fresh s)
    (h : Along (step cfg) (Event.Admissible cfg canonical) s evs) :
    Along (step cfg) (Event.RerouteWhole cfg) s evs ↔ Along (step cfg) (Event.ReservationClear cfg) s evs :=
  h.along_iff (Healthy canonical) (fun _ _ hs he => step_healthy hs he)
    (fun _ _ hs he => event_rerouteWhole hs he) h0.healthy

/-- A long of twenty lots is bought, and closed over a book that shows sixteen. -/
def Sample.closeRun : List Event :=
  [.call (world 20) (.signal (signal .buy 20 false)),
   .call (world 20) (.report (report 0 .fill 20)),
   .call (world 16) (.signal (signal .sell 20 true)),
   .call (world 16) (.report (report 0 .fill 16))]

theorem Sample.close_admissible :
    Along (step config) (Event.Admissible config canonical) (start 0) closeRun := by
  refine ⟨⟨by decide, fun _ => scaled 20 _, sound 20⟩, ⟨⟨?_, ?_⟩, fun _ _ => scaled 20 _, sound 20⟩,
    ⟨by decide, fun _ => scaled 16 _, sound 16⟩, ⟨⟨?_, ?_⟩, fun _ _ => scaled 16 _, sound 16⟩, trivial⟩
  · refine firstChildLive ?_ ?_ <;> with_unfolding_all rfl
  · intro _
    decide +kernel
  · refine firstChildLive ?_ ?_ <;> with_unfolding_all rfl
  · intro _
    decide +kernel

theorem Sample.onlyParent {b : Core} {q : ℕ} (hfree : b.pool.parentFree = List.range' 1 4095)
    (h : b.pool.ParentInUse q) : q = 0 := by
  have hnot : q ∉ List.range' 1 4095 := hfree ▸ h.2
  have hbound : q < 4096 := h.1
  rw [List.mem_range'_1] at hnot
  omega

/-- The state in which the reroute of that run starts. -/
def Sample.closeBooked : Core :=
  ((Call.report (report 0 .fill 16)).entry config (world 16)
    (run (step config) (start 0) (closeRun.take 3))).2

theorem Sample.closeBooked_sole : SoleReducer 0 closeBooked := by
  refine ⟨by decide +kernel, fun q hq _ => ?_, by decide +kernel⟩
  exact onlyParent (by with_unfolding_all rfl) hq

/-- The four lots the router left out are reserved for the sale itself, so its reroute sees no room
and gives them up with the position still open. -/
theorem leftover_given_up :
    Along (step Sample.config) (Event.Admissible Sample.config canonical) (Sample.start 0) Sample.closeRun ∧
    ((run (step Sample.config) (Sample.start 0) Sample.closeRun).pos.instruments 0).netQtyLots = 4 ∧
    ¬ Along (step Sample.config) (Event.RerouteWhole Sample.config) (Sample.start 0) Sample.closeRun := by
  refine ⟨Sample.close_admissible, by decide +kernel, fun h => ?_⟩
  obtain ⟨-, -, -, hfill, -⟩ := h
  have hentry : (Call.report (Sample.report 0 .fill 16)).entry Sample.config (Sample.world 16)
      (run (step Sample.config) (Sample.start 0) (Sample.closeRun.take 3)) =
        (.booked 0, Sample.closeBooked) :=
    Prod.ext (by with_unfolding_all rfl) rfl
  have hwhole := Call.OnReroute.of_entry hfill hentry (by decide +kernel) Sample.closeBooked_sole
    .partiallyFilled
  have htarget : rerouteTarget 0 Sample.closeBooked = none := by decide +kernel
  rw [rerouteTarget_setParentState, htarget] at hwhole
  exact absurd hwhole (Option.some_ne_none _).symm

/-- Over a book that shows all twenty lots the sale is filled in part, canceled and sent again. -/
def Sample.canceledCloseRun : List Event :=
  [.call (world 20) (.signal (signal .sell 20 true)),
   .call (world 20) (.report (report 0 .partialFill 5)),
   .call (world 20) (.report (report 0 .canceled 0))]

theorem Sample.canceledClose_admissible :
    Along (step config) (Event.Admissible config canonical) (start 20) canceledCloseRun := by
  refine ⟨⟨by decide, fun _ => scaled 20 _, sound 20⟩, ⟨⟨?_, ?_⟩, fun _ _ => scaled 20 _, sound 20⟩,
    ⟨⟨?_, ?_⟩, fun _ _ => scaled 20 _, sound 20⟩, trivial⟩
  · refine firstChildLive ?_ ?_ <;> with_unfolding_all rfl
  · intro _
    decide +kernel
  · refine firstChildLive ?_ ?_ <;> with_unfolding_all rfl
  · intro hfill
    cases hfill

theorem run_rerouteWhole_iff_canceled :
    Along (step Sample.config) (Event.ReservationClear Sample.config) (Sample.start 20)
        Sample.canceledCloseRun ∧
      Along (step Sample.config) (Event.RerouteWhole Sample.config) (Sample.start 20)
        Sample.canceledCloseRun := by
  have hclear : Along (step Sample.config) (Event.ReservationClear Sample.config) (Sample.start 20)
      Sample.canceledCloseRun := by
    refine ⟨?_, ?_, ?_, trivial⟩
    · exact Call.OnReroute.of_not_startsReroute (by with_unfolding_all rfl)
    · exact Call.OnReroute.of_not_startsReroute (by decide +kernel)
    · refine Call.OnReroute.of_booked fun _ => Or.inl ?_
      decide +kernel
  exact ⟨hclear, (run_rerouteWhole_iff (Sample.fresh 20) Sample.canceledClose_admissible).mpr hclear⟩

end Run

end OmsFormal.Oms
