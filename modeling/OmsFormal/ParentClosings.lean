import OmsFormal.SlackPhases
import OmsFormal.DeadReports

/-!
# Which calls close their parent

A booked report closes its parent when the parent is filled, or when its reroute
has nothing to send. In every other case the parent stays in use: it waits for its
other children, or it gets a new one. There is always a child to give it, since the
reroute has just handed its old children back.
-/

namespace OmsFormal.Oms
open Sor OMSOrderPool
set_option autoImplicit false

/-- The parent a report was booked for is filled, or its reroute has nothing to send. -/
def Concludes (cfg : ExecCoreConfig) (w : World) (pid : ℕ) (s : Core) : Prop :=
  (s.pool.parents pid).leavesQtyLots = 0 ∨
    (reroutes pid s = true ∧ asked w pid (trimmedContext cfg w pid s) (trimmed pid s) = [])

instance (cfg : ExecCoreConfig) (w : World) (pid : ℕ) (s : Core) : Decidable (Concludes cfg w pid s) :=
  inferInstanceAs (Decidable (_ ∨ _))

/-- Something to send, a child to send it as, and an empty parent to list it. -/
structure CanSend (pid : ℕ) (buf : List ChildOrder) (s : Core) : Prop where
  inUse : s.pool.ParentInUse pid
  count : (s.pool.parents pid).childCount = 0
  child : s.pool.childFree ≠ []
  order : buf ≠ []

variable {cfg : ExecCoreConfig} {w : World} {s : Core} {pid : ℕ}

section Dispatch

/-- A dispatch that sends its first child order keeps its parent. -/
theorem CanSend.dispatch {buf : List ChildOrder} (h : CanSend pid buf s) (ctx : RoutingContext) :
    (dispatchChildOrders cfg w pid buf ctx s).pool.ParentInUse pid := by
  obtain ⟨co, rest, rfl⟩ := List.exists_cons_of_ne_nil h.order
  obtain ⟨cid, free, hfree⟩ := List.exists_cons_of_ne_nil h.child
  have hroom : (s.pool.parents pid).childCount < ParentOrder.kMaxChildrenPerParent := by
    rw [h.count]
    decide
  have hloop : dispatchLoop cfg w pid ctx 0 (co :: rest) s =
      dispatchLoop cfg w pid ctx 1 rest (sendChild cfg w pid ctx cid free co s) :=
    dispatchLoop_send h.count hroom hfree
  -- from the first child on, the parent is in use and lists something
  have hkept : (dispatchLoop cfg w pid ctx 0 (co :: rest) s).1.pool.ParentInUse pid ∧
      ((dispatchLoop cfg w pid ctx 0 (co :: rest) s).1.pool.parents pid).childCount ≠ 0 := by
    rw [hloop]
    apply dispatchLoop_rule (fun _ s => s.pool.ParentInUse pid ∧ (s.pool.parents pid).childCount ≠ 0)
    · intro co rest s cid free hs _ _
      exact ⟨hs.1, by rw [sendChild_count]; exact Nat.succ_ne_zero _⟩
    · intro co rest s hs hnone
      have hsame := allocFailed_sameRecords hnone
      refine ⟨(inUse_of_parentFree hsame.parentFree _).mpr hs.1, ?_⟩
      rw [hsame.parents _ hs.1]
      exact hs.2
    · rw [sendChild_count, h.count]
    · exact ⟨h.inUse, by rw [sendChild_count]; exact Nat.succ_ne_zero _⟩
  unfold dispatchChildOrders
  simp only [releaseGap_pool]
  rw [if_neg hkept.2, releaseGap_pool]
  exact hkept.1

/-- However the flow ends, parent `pid` is then in use exactly if `P`. -/
def Flow.Keeps (pid : ℕ) (P : Prop) (flow : Flow) : Prop :=
  flow.Sat pid (fun s => s.pool.ParentInUse pid ↔ P) fun s buf _ => P ∧ CanSend pid buf s

theorem Flow.Keeps.inUse_iff {P : Prop} {flow : Flow} (h : flow.Keeps pid P) :
    (flow.run cfg w).pool.ParentInUse pid ↔ P := by
  apply Flow.Sat.run h
  rintro s buf ctx ⟨hP, hsend⟩
  exact iff_of_true (hsend.dispatch ctx) hP

theorem not_inUse_retire {pool pool' : OMSOrderPool} {rec : ParentOrder} (h : pool' = pool.retire pid rec) :
    ¬ pool'.ParentInUse pid := by
  rw [h]
  exact retire_gone pool pid rec

end Dispatch

section Reroute

theorem concludes_setParentState (st : OrderState) :
    Concludes cfg w pid (s.setParentState pid st) ↔ Concludes cfg w pid s := by
  have hleaves : ((s.setParentState pid st).pool.parents pid).leavesQtyLots =
      (s.pool.parents pid).leavesQtyLots := by
    simp [Core.setParentState]
  simp only [Concludes, hleaves, reroutes_setParentState, trimmedContext_setParentState, asked_setParentState]

theorem concludes_of_reroutes (h : reroutes pid s = true) :
    Concludes cfg w pid s ↔ asked w pid (trimmedContext cfg w pid s) (trimmed pid s) = [] := by
  simp only [Concludes, (reroutes_iff.mp h).1, h, false_or, true_and]

/-- A reroute hands the old children back before it asks for new ones. -/
theorem trimmed_childFree_ne (hstore : StoreAt (.booked pid, s))
    (hlisted : (s.pool.parents pid).childIds ≠ [])
    (hall : allChildrenTerminal s.pool (s.pool.parents pid) = true) :
    (trimmed pid s).pool.childFree ≠ [] := by
  rw [trimmed_pool (terminal_of_allChildrenTerminal hstore.2 hstore.1 hall)]
  intro hnone
  have hback : (s.pool.parents pid).childIds.reverse ++ s.pool.childFree = [] := hnone
  exact hlisted (List.reverse_eq_nil_iff.mp (List.append_eq_nil_iff.mp hback).1)

/-- A reroute keeps its parent exactly if it has something to send. -/
theorem rerouteLeaves_keeps (hstore : StoreAt (.booked pid, s))
    (hlisted : (s.pool.parents pid).childIds ≠ []) (hr : reroutes pid s = true) :
    (rerouteLeaves cfg w pid s).Keeps pid (¬ Concludes cfg w pid s) := by
  obtain ⟨hleft, hall⟩ := reroutes_iff.mp hr
  obtain ⟨hu, htrim, hcount⟩ : StoreAt (.trimmed pid (trimmedContext cfg w pid s), trimmed pid s) :=
    micro_store (.trim hleft hall) hstore
  have hflag : ((trimmed pid s).pool.parents pid).reduceOnly = (s.pool.parents pid).reduceOnly :=
    trimmed_reduceOnly s
  rw [concludes_of_reroutes hr]
  apply rerouteLeaves_sat
  · intro hreduce hgone
    obtain ⟨st, hpool⟩ := closeReduceOnlyDone_retire htrim hu hcount
    have hnone : asked w pid (trimmedContext cfg w pid s) (trimmed pid s) = [] :=
      if_pos ⟨by rw [hflag]; exact hreduce, hgone⟩
    exact iff_of_false (not_inUse_retire hpool) (not_not.mpr hnone)
  · intro hsplit
    obtain ⟨st, hpool⟩ := closeUnfilled_retire w .noLiquidity htrim hu hcount
    have hnone : asked w pid (trimmedContext cfg w pid s) (trimmed pid s) = [] := by
      rw [asked, hsplit, ite_self]
    exact iff_of_false (not_inUse_retire hpool) (not_not.mpr hnone)
  · intro hkeep hsplit
    have hasked : asked w pid (trimmedContext cfg w pid s) (trimmed pid s) =
        w.router.optimalSplit (trimmedContext cfg w pid s) :=
      if_neg fun hc => hkeep (by rw [← hflag]; exact hc.1) hc.2
    refine ⟨by rw [hasked]; exact hsplit, hu, ?_, trimmed_childFree_ne hstore hlisted hall, hsplit⟩
    simp only [setParentState_pool, modifyParent_parents, Function.update_self]
    exact hcount

end Reroute

section Report
variable {cid : ℕ} {rep : ExecutionReport}

theorem not_concludes_of_waiting (hleft : (s.pool.parents pid).leavesQtyLots ≠ 0)
    (hwait : allChildrenTerminal s.pool (s.pool.parents pid) = false) : ¬ Concludes cfg w pid s := by
  simp [Concludes, reroutes, hleft, hwait]

theorem handleFill_keeps (hstore : StoreAt (.booked pid, bookFill cfg w cid pid rep s))
    (hlisted : ((bookFill cfg w cid pid rep s).pool.parents pid).childIds ≠ []) :
    (handleFill cfg w cid pid rep s).Keeps pid (¬ Concludes cfg w pid (bookFill cfg w cid pid rep s)) := by
  apply handleFill_sat
  · intro hfilled
    obtain ⟨st, hpool⟩ := closeFilled_retire hstore.2 hstore.1
    exact iff_of_false (not_inUse_retire hpool) (not_not.mpr (Or.inl hfilled))
  · rintro s1 rfl hleft
    have hmarked :
        StoreAt (.booked pid, (bookFill cfg w cid pid rep s).setParentState pid .partiallyFilled) :=
      ⟨hstore.1, setParentState_storeInv _ hstore.2⟩
    have hleft' : (((bookFill cfg w cid pid rep s).setParentState pid .partiallyFilled).pool.parents
        pid).leavesQtyLots ≠ 0 := by
      simpa [Core.setParentState] using hleft
    rw [← concludes_setParentState .partiallyFilled]
    constructor
    · intro hwait
      exact iff_of_true hmarked.1 (not_concludes_of_waiting hleft' hwait)
    · intro hall
      refine rerouteLeaves_keeps hmarked ?_ (reroutes_iff.mpr ⟨hleft', hall⟩)
      rw [setParentState_childIds]
      exact hlisted

theorem handleCancelReject_keeps (hstore : StoreAt (.booked pid, bookCancel cfg w cid pid rep s))
    (hlisted : ((bookCancel cfg w cid pid rep s).pool.parents pid).childIds ≠ [])
    (hnonneg : 0 ≤ ((bookCancel cfg w cid pid rep s).pool.parents pid).leavesQtyLots) :
    (handleCancelReject cfg w cid pid rep s).Keeps pid
      (¬ Concludes cfg w pid (bookCancel cfg w cid pid rep s)) := by
  apply handleCancelReject_sat
  · intro hgone
    obtain ⟨st, hpool⟩ := closeFilled_retire hstore.2 hstore.1
    exact iff_of_false (not_inUse_retire hpool) (not_not.mpr (Or.inl (le_antisymm hgone hnonneg)))
  · rintro s1 rfl hleft
    constructor
    · intro hwait
      exact iff_of_true hstore.1 (not_concludes_of_waiting hleft.ne' hwait)
    · intro hall
      exact rerouteLeaves_keeps hstore hlisted (reroutes_iff.mpr ⟨hleft.ne', hall⟩)

theorem onExecutionReport_fill (hc : rep.childId < kMaxTotalChildren)
    (hp : s.parentOf rep.childId < kMaxParentOrders) (hkind : rep.execType.isFill = true) :
    onExecutionReport cfg w rep s =
      (handleFill cfg w rep.childId (s.parentOf rep.childId) rep s).run cfg w := by
  rw [onExecutionReport_eq hc hp]
  cases hexec : rep.execType with
  | partialFill => rfl
  | fill => rfl
  | _ => simp [hexec, ExecType.isFill] at hkind

theorem onExecutionReport_end (hc : rep.childId < kMaxTotalChildren)
    (hp : s.parentOf rep.childId < kMaxParentOrders) (hkind : rep.execType.isEnd = true) :
    onExecutionReport cfg w rep s =
      (handleCancelReject cfg w rep.childId (s.parentOf rep.childId) rep s).run cfg w := by
  rw [onExecutionReport_eq hc hp]
  cases hexec : rep.execType with
  | canceled => rfl
  | rejected => rfl
  | _ => simp [hexec, ExecType.isEnd] at hkind

/-- A fill keeps the parent of its child in use unless it concludes it. -/
theorem filled_inUse_iff (hs : StoreInv Quiet s.pool) (hc : s.pool.ChildInUse rep.childId)
    (hkind : rep.execType.isFill = true) :
    (onExecutionReport cfg w rep s).pool.ParentInUse (s.parentOf rep.childId) ↔
      ¬ Concludes cfg w (s.parentOf rep.childId)
        (bookFill cfg w rep.childId (s.parentOf rep.childId) rep s) := by
  have hids : ((bookFill cfg w rep.childId (s.parentOf rep.childId) rep s).pool.parents
      (s.parentOf rep.childId)).childIds = (s.pool.parents (s.parentOf rep.childId)).childIds := by
    rw [bookFill_pool, modifyParent_parents, Function.update_self]
    exact ParentOrder.SameSlots.childIds ⟨rfl, rfl, rfl, rfl, rfl⟩
  have hlisted : ((bookFill cfg w rep.childId (s.parentOf rep.childId) rep s).pool.parents
      (s.parentOf rep.childId)).childIds ≠ [] := by
    rw [hids]
    exact List.ne_nil_of_mem (hs.mem_childIds hc)
  rw [onExecutionReport_fill hc.1 (hs.parentOf_inUse hc).1 hkind]
  exact (handleFill_keeps (bookFill_storeInv hs hc) hlisted).inUse_iff

/-- So does a cancel, a reject or a timeout. -/
theorem ended_inUse_iff (hs : StoreInv Quiet s.pool) (hc : s.pool.ChildInUse rep.childId)
    (hkind : rep.execType.isEnd = true)
    (hnonneg : 0 ≤ (s.pool.parents (s.parentOf rep.childId)).leavesQtyLots) :
    (onExecutionReport cfg w rep s).pool.ParentInUse (s.parentOf rep.childId) ↔
      ¬ Concludes cfg w (s.parentOf rep.childId)
        (bookCancel cfg w rep.childId (s.parentOf rep.childId) rep s) := by
  have hrec : (bookCancel cfg w rep.childId (s.parentOf rep.childId) rep s).pool.parents
      (s.parentOf rep.childId) =
        { s.pool.parents (s.parentOf rep.childId) with lastUpdateNs := rep.recvNs } := by
    rw [bookCancel_pool, modifyParent_parents, Function.update_self]
    rfl
  have hlisted : ((bookCancel cfg w rep.childId (s.parentOf rep.childId) rep s).pool.parents
      (s.parentOf rep.childId)).childIds ≠ [] := by
    rw [hrec]
    exact List.ne_nil_of_mem (hs.mem_childIds hc)
  rw [onExecutionReport_end hc.1 (hs.parentOf_inUse hc).1 hkind]
  have hnonneg' : 0 ≤ ((bookCancel cfg w rep.childId (s.parentOf rep.childId) rep s).pool.parents
      (s.parentOf rep.childId)).leavesQtyLots := by
    rw [hrec]
    exact hnonneg
  exact (handleCancelReject_keeps (bookCancel_storeInv hs rep hc) hlisted hnonneg').inUse_iff

end Report

section Call
variable {c : Call} {b : Core} {r : ℕ → ℕ → ℕ}

/-- A timer that goes off for a live child is a cancel report made up for it. -/
theorem visit_apply {slot idx : ℕ} {e : TimerEntry} (he : s.timerWheel.entryAt slot idx = some e)
    (hc : e.childId < kMaxTotalChildren) (hw : (s.pool.children e.childId).state.working = true) :
    (Call.visit slot idx).apply cfg w s = onExecutionReport cfg w
      (timeoutReport e.childId (s.pool.children e.childId)) (s.setWheel (s.timerWheel.deactivate e)) := by
  have hw' : ((s.setWheel (s.timerWheel.deactivate e)).pool.children e.childId).state.working = true := hw
  simp only [Call.apply, TimerWheel.visitEntry, he, onTimeout, timeoutFlow]
  rw [if_neg (Nat.not_le.mpr hc), if_pos hw']
  rfl

/-- A call that books a report keeps the parent in use unless the booking concludes it. -/
theorem call_inUse_iff (h : c.Admissible cfg r w s) (hs : Healthy r s)
    (hentry : c.entry cfg w s = (.booked pid, b)) :
    (c.apply cfg w s).pool.ParentInUse pid ↔ ¬ Concludes cfg w pid b := by
  have hnonneg (cid : ℕ) (hc : s.pool.ChildInUse cid) : 0 ≤ (s.pool.parents (s.parentOf cid)).leavesQtyLots :=
    (hs.qty _ (hs.store.parentOf_inUse hc)).leaves_nonneg
  have hentered := h.entered hs
  rw [hentry] at hentered
  cases hentered with
  | filled hlive hkind => exact filled_inUse_iff hs.store hlive.1 hkind
  | ended hlive hkind => exact ended_inUse_iff hs.store hlive.1 hkind (hnonneg _ hlive.1)
  | @expired slot idx e he hlive =>
    rw [visit_apply he hlive.1.1 (hs.store.working_of_live hlive)]
    have hc : (s.setWheel (s.timerWheel.deactivate e)).pool.ChildInUse
        (timeoutReport e.childId (s.pool.children e.childId)).childId := hlive.1
    exact ended_inUse_iff hs.store hc rfl (hnonneg _ hlive.1)

/-- No call touches the parents other than the one of its entry. -/
theorem call_inUse_other (h : c.Admissible cfg r w s) (hs : Healthy r s) {q : ℕ}
    (hq : (c.entry cfg w s).1 ≠ .idle → q ≠ (c.entry cfg w s).1.pid) :
    (c.apply cfg w s).pool.ParentInUse q ↔ (c.entry cfg w s).2.pool.ParentInUse q := by
  have hend := call_invariant (fun a => HealthyAt cfg w r a ∧
      (a.1 ≠ .idle → q ≠ a.1.pid) ∧ (a.2.pool.ParentInUse q ↔ (c.entry cfg w s).2.pool.ParentInUse q)) c
    (fun a b hm ⟨ha, hpid, hsame⟩ => by
      have hne : q ≠ a.1.pid := hpid hm.not_idle
      refine ⟨micro_healthy h.sound hm ha, fun hidle => by rw [hm.pid_eq hidle]; exact hne, ?_⟩
      exact ((micro_local hm ha.store).inUse q hne).trans hsame)
    ⟨entered_healthy h.sound (h.entered hs) h.scaled hs, hq, Iff.rfl⟩
  exact hend.2.2

end Call

end OmsFormal.Oms
