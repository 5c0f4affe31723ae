import OmsFormal.DeadReports

/-!
# Which reports about dead children do harm

In every state that well-formed reports and harmless ones lead to, `Harmless` is
exact: any other report about a dead child changes something in use. A parent in
use waits for a child that works, so the report is booked and nothing more; the
record of a freed parent is retired, so a report booked on it closes the parent
again or sends its leaves once more.
-/

namespace OmsFormal.Oms
open Sor Rounding OMSOrderPool GuardedRun
set_option autoImplicit false

variable {cfg : ExecCoreConfig} {w : World} {rep : ExecutionReport} {s : Core} {pid cid : ℕ}
  {r : ℕ → ℕ → ℕ}

section Moves

/-- An id went to or came from a free list. -/
def Moved (s s' : Core) : Prop :=
  s'.pool.parentFree.length = s.pool.parentFree.length + 1 ∨
    s'.pool.childFree.length < s.pool.childFree.length

theorem Untouched.not_moved {s' : Core} (h : Untouched s s') : ¬ Moved s s' := by
  rintro (hparent | hchild)
  · rw [h.records.parentFree] at hparent
    omega
  · rw [h.records.childFree] at hchild
    omega

/-- A dispatch allocates a child, or closes its parent. -/
theorem dispatch_moved {s1 : Core} {ctx : RoutingContext} {buf : List ChildOrder}
    (hparent : s1.pool.parentFree = s.pool.parentFree) (hchild : s1.pool.childFree = s.pool.childFree)
    (h0 : (s1.pool.parents pid).childCount = 0) :
    Moved s (dispatchChildOrders cfg w pid buf ctx s1) := by
  refine dispatchChildOrders_rule (fun _ s2 => s2.pool.parentFree = s.pool.parentFree ∧
    (s2.pool.childFree = s.pool.childFree ∧ (s2.pool.parents pid).childCount = 0 ∨
      s2.pool.childFree.length < s.pool.childFree.length)) _ ?_ ?_ ?_ h0 ⟨hparent, Or.inl ⟨hchild, h0⟩⟩
  · rintro co rest s2 cid free ⟨hpf, hcf⟩ _ hfree
    refine ⟨hpf, Or.inr ?_⟩
    have hlen : s2.pool.childFree.length ≤ s.pool.childFree.length := by
      rcases hcf with ⟨hsame, _⟩ | hlt
      · rw [hsame]
      · exact hlt.le
    rw [hfree] at hlen
    exact hlen
  · rintro co rest s2 ⟨hpf, hcf⟩ hfree
    have hsame := allocFailed_sameRecords hfree
    have hrec : s2.pool.allocChild.2.parents = s2.pool.parents := by simp only [allocChild, hfree]
    simp only [hsame.parentFree, hsame.childFree, hrec]
    exact ⟨hpf, hcf⟩
  · rintro rest s2 ⟨hpf, hcf⟩
    unfold finishDispatch
    simp only [releaseGap_pool]
    split
    · refine Or.inl ?_
      simp [closeUnfilled, notifyReject, Core.setParentState, hpf]
    · rename_i hcount
      refine Or.inr ?_
      rw [releaseGap_pool]
      exact hcf.resolve_left fun h => hcount h.2

/-- A reroute of a parent without children frees it or sends a new child. -/
theorem rerouteLeaves_moved (hids : (s.pool.parents pid).childIds = []) :
    Moved s ((rerouteLeaves cfg w pid s).run cfg w) := by
  have hparent : (trimmed pid s).pool.parentFree = s.pool.parentFree := by
    rw [trimmed_eq]
    simp [releaseChildren]
  have hchild : (trimmed pid s).pool.childFree = s.pool.childFree := by
    rw [trimmed_eq]
    simp [releaseChildren, hids]
  have hsat : (rerouteLeaves cfg w pid s).Sat pid (Moved s) fun s1 _ _ =>
      s1.pool.parentFree = s.pool.parentFree ∧ s1.pool.childFree = s.pool.childFree ∧
      (s1.pool.parents pid).childCount = 0 := by
    apply rerouteLeaves_sat
    · intro _ _
      exact Or.inl (by simp [closeReduceOnlyDone, Core.setParentState, hparent])
    · intro _
      exact Or.inl (by simp [closeUnfilled, notifyReject, Core.setParentState, hparent])
    · intro _ _
      exact ⟨hparent, hchild, by simp [Core.setParentState, trimmed_childCount]⟩
  exact hsat.run fun s1 buf ctx h => dispatch_moved h.1 h.2.1 h.2.2

theorem closeFilled_moved {s1 : Core} (hparent : s1.pool.parentFree = s.pool.parentFree) :
    Moved s (closeFilled pid s1) :=
  Or.inl (by simp [closeFilled, Core.setParentState, hparent])

theorem Moved.of_same {s1 s2 : Core} (h : Moved s1 s2) (hparent : s1.pool.parentFree = s.pool.parentFree)
    (hchild : s1.pool.childFree = s.pool.childFree) : Moved s s2 := by
  rw [Moved, hparent, hchild] at h
  exact h

theorem allTerminal_of_empty {pool : OMSOrderPool} {parent : ParentOrder} (h : parent.childIds = []) :
    allChildrenTerminal pool parent = true := by
  rw [allChildrenTerminal_iff, h]
  simp

/-- An end report booked on a retired parent frees or sends something. -/
theorem handleCancelReject_moved (hrec : (s.pool.parents pid).Retired) :
    Moved s ((handleCancelReject cfg w cid pid rep s).run cfg w) := by
  have hbooked : (bookCancel cfg w cid pid rep s).pool.parents pid =
      { s.pool.parents pid with lastUpdateNs := rep.recvNs } := by
    simp [bookCancel]
  unfold handleCancelReject
  simp only
  split
  · rename_i hleft
    rw [hbooked] at hleft
    have hids : ((bookCancel cfg w cid pid rep s).pool.parents pid).childIds = [] := by
      rw [hbooked]
      exact hrec.empty.resolve_left (ne_of_gt hleft)
    rw [if_pos (allTerminal_of_empty hids)]
    exact (rerouteLeaves_moved hids).of_same rfl rfl
  · exact closeFilled_moved rfl

theorem handleFill_moved (hrec : (s.pool.parents pid).Retired)
    (hlots : toCanonicalLots cfg w (s.pool.children cid) (s.pool.parents pid).instrId rep.fillQtyLots = 0) :
    Moved s ((handleFill cfg w cid pid rep s).run cfg w) := by
  have hids : ((bookFill cfg w cid pid rep s).pool.parents pid).childIds = (s.pool.parents pid).childIds := by
    simp only [bookFill, modifyParent_parents, modifyChild_parents, Function.update_self]
    rfl
  have hleaves : ((bookFill cfg w cid pid rep s).pool.parents pid).leavesQtyLots =
      (s.pool.parents pid).leavesQtyLots := by
    rw [hrec.total]
    simp [bookFill, ParentOrder.fill, hlots]
  unfold handleFill
  simp only
  split
  · exact closeFilled_moved rfl
  · rename_i hleft
    have hnone : (((bookFill cfg w cid pid rep s).setParentState pid .partiallyFilled).pool.parents
        pid).childIds = [] := by
      rw [setParentState_childIds, hids]
      exact hrec.empty.resolve_left (by rw [← hleaves]; exact hleft)
    rw [if_pos (allTerminal_of_empty hnone)]
    exact (rerouteLeaves_moved hnone).of_same rfl rfl

end Moves

section Extract

/-- Every parent that is not in use is retired. -/
def OMSOrderPool.FreeParents (pool : OMSOrderPool) : Prop :=
  ∀ p, ¬ pool.ParentInUse p → (pool.parents p).Retired

/-- A parent in use waits for a child other than the dead one. -/
theorem Healthy.waits (hs : Healthy r s) (hu : s.pool.ParentInUse pid) (hdead : ¬ s.pool.ChildLive cid) :
    ∃ k ∈ (s.pool.parents pid).childIds, k ≠ cid ∧ (s.pool.children k).state.working = true := by
  obtain ⟨k, hk, hworks⟩ := hs.store.alive pid hu id
  refine ⟨k, hk, ?_, hworks⟩
  rintro rfl
  exact hdead ⟨((hs.store.ok pid).owned hu k hk).1, OrderState.not_terminal_of_working hworks⟩

theorem terminal_of_dead (hdead : ¬ s.pool.ChildLive cid) (hu : s.pool.ChildInUse cid) :
    (s.pool.children cid).state.terminal = true := by
  by_contra h
  exact hdead ⟨hu, by simpa using h⟩

theorem updated_eq {α : Type} {f : ℕ → α} {i : ℕ} {x : α} (h : Function.update f i x i = f i) : x = f i := by
  rwa [Function.update_self] at h

theorem StaleEnd.of_untouched (hs : Healthy r s) (hdead : ¬ s.pool.ChildLive rep.childId)
    (hu : s.pool.ParentInUse (s.parentOf rep.childId))
    (h : Untouched s ((handleCancelReject cfg w rep.childId (s.parentOf rep.childId) rep s).run cfg w)) :
    StaleEnd cfg w rep s := by
  obtain ⟨k, hk, hne, hworks⟩ := hs.waits hu hdead
  have hq := hs.qty _ hu
  have hpos : 0 < (s.pool.parents (s.parentOf rep.childId)).leavesQtyLots :=
    hq.leaves_pos (hs.store.alive _ hu id)
  rw [handleCancelReject_waits hpos hk hne hworks] at h
  have hparent := updated_eq (h.records.parents _ hu)
  have hinstr := congrFun (congrArg PositionTable.instruments h.pos)
    (s.pool.parents (s.parentOf rep.childId)).instrId
  have hlots : toCanonicalLots cfg w (s.pool.children rep.childId)
      (s.pool.parents (s.parentOf rep.childId)).instrId (s.pool.children rep.childId).leavesQtyLots = 0 := by
    have hopen := congrArg
      (fun p => InstrumentPosition.openLots p (s.pool.parents (s.parentOf rep.childId)).dir) hinstr
    simp only [bookCancel, PositionTable.modify, Function.update_self, releaseOpen_openLots, if_true] at hopen
    omega
  have hmargin := h.marginMonitor
  simp only [bookCancel] at hmargin
  refine ⟨⟨hu, hpos, ?_, ⟨k, hk, hne, hworks⟩, ?_, TimerWheel.cancel_eq_self.mp h.timerWheel, ?_⟩, hlots,
    fun hc => ?_, ?_⟩
  · have htotal := hq.total
    omega
  · exact (congrArg ParentOrder.lastUpdateNs hparent).symm
  · have htable := congrArg PositionTable.margin h.pos
    simp only [bookCancel, PositionTable.modify, hmargin] at htable
    exact htable.symm
  · have hchild := updated_eq (h.records.children _ hc)
    exact ⟨(congrArg ChildOrderState.leavesQtyLots hchild).symm, (congrArg ChildOrderState.state hchild).symm⟩
  · rw [hlots] at hmargin
    exact onRelease_zero.mp hmargin

theorem lots_eq_zero_of_net {dir : OrderDir} {lots : ℤ} {price : ℚ} {p : InstrumentPosition}
    (h : (p.applyFill dir lots price).netQtyLots = p.netQtyLots) : lots = 0 := by
  cases dir <;> simpa [InstrumentPosition.applyFill] using h

theorem handleFill_net (i : ℕ) :
    (((handleFill cfg w cid pid rep s).run cfg w).pos.instruments i).netQtyLots =
      ((bookFill cfg w cid pid rep s).pos.instruments i).netQtyLots :=
  Steps.invariant (J := fun a => (a.2.pos.instruments i).netQtyLots =
      ((bookFill cfg w cid pid rep s).pos.instruments i).netQtyLots)
    (fun _ _ hm ha => (micro_net hm i).trans ha) handleFill_steps rfl

theorem handleFill_lots (h : Untouched s ((handleFill cfg w cid pid rep s).run cfg w)) :
    toCanonicalLots cfg w (s.pool.children cid) (s.pool.parents pid).instrId rep.fillQtyLots = 0 := by
  have hnet := congrArg InstrumentPosition.netQtyLots
    (congrFun (congrArg PositionTable.instruments h.pos) (s.pool.parents pid).instrId)
  rw [handleFill_net] at hnet
  simp only [bookFill, PositionTable.modify, Function.update_self, releaseOpen_net] at hnet
  exact lots_eq_zero_of_net hnet

theorem StaleFill.of_untouched (hs : Healthy r s) (hdead : ¬ s.pool.ChildLive rep.childId)
    (hu : s.pool.ParentInUse (s.parentOf rep.childId))
    (h : Untouched s ((handleFill cfg w rep.childId (s.parentOf rep.childId) rep s).run cfg w)) :
    StaleFill cfg w rep s := by
  obtain ⟨k, hk, hne, hworks⟩ := hs.waits hu hdead
  have hq := hs.qty _ hu
  have htotal := hq.total
  have hpos : 0 < (s.pool.parents (s.parentOf rep.childId)).leavesQtyLots :=
    hq.leaves_pos (hs.store.alive _ hu id)
  have hlots := handleFill_lots h
  have href := cfg.instruments.lotSize_pos (s.pool.parents (s.parentOf rep.childId)).instrId
  have hbooked : (bookFill cfg w rep.childId (s.parentOf rep.childId) rep s).pool.parents
      (s.parentOf rep.childId) = ParentOrder.fill 0 (rep.fillPriceTicks *
        (w.states (s.pool.children rep.childId).exchangeId).book.tickSize)
        (cfg.instruments.lotSize (s.pool.parents (s.parentOf rep.childId)).instrId) rep.recvNs
        (s.pool.parents (s.parentOf rep.childId)) := by
    simp only [bookFill, modifyParent_parents, modifyChild_parents, Function.update_self, hlots]
  rw [ParentOrder.fill_zero _ _ href] at hbooked
  have hleft : ((bookFill cfg w rep.childId (s.parentOf rep.childId) rep s).pool.parents
      (s.parentOf rep.childId)).leavesQtyLots ≠ 0 := by
    rw [hbooked]
    simp only
    omega
  rw [handleFill_waits hleft hk hne hworks] at h
  have hparent := h.records.parents _ hu
  rw [setParentState_pool, modifyParent_parents, Function.update_self, hbooked] at hparent
  have hmargin := h.marginMonitor
  simp only [bookFill, Core.setParentState] at hmargin
  refine ⟨⟨hu, hpos, by omega, ⟨k, hk, hne, hworks⟩, ?_, TimerWheel.cancel_eq_self.mp h.timerWheel, ?_⟩,
    hlots,
    fun hc => ?_, ?_, fun hcum => ?_, fun hnet => ?_⟩
  · exact (congrArg ParentOrder.lastUpdateNs hparent).symm
  · have htable := congrArg PositionTable.margin h.pos
    simp only [bookFill, Core.setParentState, PositionTable.modify, hmargin] at htable
    exact htable.symm
  · have hchild := updated_eq (h.records.children _ hc)
    have hcum := congrArg ChildOrderState.cumQtyLots hchild
    have hleaves := congrArg ChildOrderState.leavesQtyLots hchild
    have hstate := congrArg ChildOrderState.state hchild
    have hterm := terminal_of_dead hdead hc
    simp only [ChildOrderState.fill] at hcum hleaves hstate
    have hlast : (s.pool.children rep.childId).qtyLots -
        ((s.pool.children rep.childId).cumQtyLots + rep.fillQtyLots) = 0 := by
      by_contra hopen
      rw [if_neg hopen] at hstate
      rw [← hstate] at hterm
      cases hterm
    rw [if_pos hlast] at hstate
    exact ⟨by omega, hstate.symm, by omega, by omega⟩
  · exact (congrArg ParentOrder.state hparent).symm
  · have hprice := congrArg ParentOrder.avgFillPrice hparent
    simp only [if_neg (not_lt.mpr hcum)] at hprice
    exact hprice.symm
  · have hinstr := congrFun (congrArg PositionTable.instruments h.pos)
      (s.pool.parents (s.parentOf rep.childId)).instrId
    simp only [bookFill, Core.setParentState, PositionTable.modify, Function.update_self, hlots,
      applyFill_zero] at hinstr
    have havg := congrArg InstrumentPosition.avgEntryPrice hinstr
    cases hdir : (s.pool.parents (s.parentOf rep.childId)).dir <;>
      simpa [hdir, InstrumentPosition.releaseOpen, hnet] using havg.symm

/-- Any other report about a dead child changes something in use. -/
theorem Harmless.of_untouched (hs : Healthy r s) (hfree : s.pool.FreeParents)
    (hdead : ¬ s.pool.ChildLive rep.childId) (h : Untouched s (onExecutionReport cfg w rep s)) :
    Harmless cfg w rep s := by
  by_cases hc : rep.childId ≥ kMaxTotalChildren
  · exact Or.inl hc
  by_cases hp : s.parentOf rep.childId ≥ kMaxParentOrders
  · exact Or.inr (Or.inl hp)
  refine Or.inr (Or.inr ?_)
  rw [onExecutionReport_eq (Nat.lt_of_not_ge hc) (Nat.lt_of_not_ge hp)] at h
  -- a parent that is not in use is closed or rerouted, and that moves an id
  have hfill : Untouched s ((handleFill cfg w rep.childId (s.parentOf rep.childId) rep s).run cfg w) →
      StaleFill cfg w rep s := by
    intro h
    by_cases hu : s.pool.ParentInUse (s.parentOf rep.childId)
    · exact StaleFill.of_untouched hs hdead hu h
    · exact absurd (handleFill_moved (hfree _ hu) (handleFill_lots h)) h.not_moved
  have hend : Untouched s ((handleCancelReject cfg w rep.childId (s.parentOf rep.childId) rep s).run cfg w) →
      StaleEnd cfg w rep s := by
    intro h
    by_cases hu : s.pool.ParentInUse (s.parentOf rep.childId)
    · exact StaleEnd.of_untouched hs hdead hu h
    · exact absurd (handleCancelReject_moved (hfree _ hu)) h.not_moved
  cases hexec : rep.execType with
  | new =>
    rw [hexec] at h
    intro hu
    have hstate := congrArg ChildOrderState.state (updated_eq (h.records.children _ hu))
    have hterm := terminal_of_dead hdead hu
    rw [← hstate] at hterm
    cases hterm
  | partialFill =>
    rw [hexec] at h
    exact hfill h
  | fill =>
    rw [hexec] at h
    exact hfill h
  | canceled =>
    rw [hexec] at h
    exact hend h
  | rejected =>
    rw [hexec] at h
    exact hend h
  | replaced => exact trivial

end Extract

end OmsFormal.Oms
