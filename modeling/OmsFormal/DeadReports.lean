import OmsFormal.Settlement

/-!
# Reports about dead children

A late or repeated report names a child that is no longer allocated, or that is
allocated and already terminal. `on_execution_report` checks neither: it books
the report on whatever the stale record says. `Harmless` lists the reports that
change nothing in use, in any state at all.
-/

namespace OmsFormal.Oms
open Sor Rounding OMSOrderPool GuardedRun
set_option autoImplicit false

/-- The records in use, the free lists, the positions, the margin, the timers and the gateway
queues are the same. -/
structure Untouched (s s' : Core) : Prop where
  records : SameRecords s.pool s'.pool
  pos : s'.pos = s.pos
  marginMonitor : s'.marginMonitor = s.marginMonitor
  timerWheel : s'.timerWheel = s.timerWheel
  gateways : s'.gateways = s.gateways

theorem Untouched.refl (s : Core) : Untouched s s :=
  ⟨⟨fun _ _ => rfl, fun _ _ => rfl, rfl, rfl⟩, rfl, rfl, rfl, rfl⟩

section Conditions
variable (cfg : ExecCoreConfig) (w : World) (rep : ExecutionReport) (s : Core)

/-- The parent in the child's record is in use, waits for another child and was last updated by
this very report; no timer runs under the record's id and the margin is up to date. -/
structure Stale : Prop where
  inUse : s.pool.ParentInUse (s.parentOf rep.childId)
  leaves : 0 < (s.pool.parents (s.parentOf rep.childId)).leavesQtyLots
  total : (s.pool.parents (s.parentOf rep.childId)).leavesQtyLots =
    (s.pool.parents (s.parentOf rep.childId)).totalQtyLots -
      (s.pool.parents (s.parentOf rep.childId)).cumQtyLots
  waits : ∃ k ∈ (s.pool.parents (s.parentOf rep.childId)).childIds, k ≠ rep.childId ∧
    (s.pool.children k).state.working = true
  stamp : (s.pool.parents (s.parentOf rep.childId)).lastUpdateNs = rep.recvNs
  unarmed : ∀ e ∈ s.timerWheel.active, e.childId ≠ (s.pool.children rep.childId).childId
  margin : s.pos.margin = s.marginMonitor.recomputeAvailable

/-- An end report that has nothing left to release and finds its child in that end state. -/
structure StaleEnd : Prop extends Stale rep s where
  lots : toCanonicalLots cfg w (s.pool.children rep.childId)
    (s.pool.parents (s.parentOf rep.childId)).instrId (s.pool.children rep.childId).leavesQtyLots = 0
  child : s.pool.ChildInUse rep.childId → (s.pool.children rep.childId).leavesQtyLots = 0 ∧
    (s.pool.children rep.childId).state = if rep.execType = .canceled then .canceled else .rejected
  locked : 0 ≤ s.marginMonitor.lockedMargin

/-- A fill of no lots on a parent that is already marked and priced by it. -/
structure StaleFill : Prop extends Stale rep s where
  lots : toCanonicalLots cfg w (s.pool.children rep.childId)
    (s.pool.parents (s.parentOf rep.childId)).instrId rep.fillQtyLots = 0
  child : s.pool.ChildInUse rep.childId → rep.fillQtyLots = 0 ∧
    (s.pool.children rep.childId).state = .filled ∧ (s.pool.children rep.childId).leavesQtyLots = 0 ∧
    (s.pool.children rep.childId).qtyLots = (s.pool.children rep.childId).cumQtyLots
  marked : (s.pool.parents (s.parentOf rep.childId)).state = .partiallyFilled
  price : (s.pool.parents (s.parentOf rep.childId)).cumQtyLots ≤ 0 →
    (s.pool.parents (s.parentOf rep.childId)).avgFillPrice =
      rep.fillPriceTicks * (w.states (s.pool.children rep.childId).exchangeId).book.tickSize
  flat : (s.pos.instruments (s.pool.parents (s.parentOf rep.childId)).instrId).netQtyLots = 0 →
    (s.pos.instruments (s.pool.parents (s.parentOf rep.childId)).instrId).avgEntryPrice = 0

/-- The reports about a dead child that change nothing in use. -/
def Harmless : Prop :=
  rep.childId ≥ kMaxTotalChildren ∨ s.parentOf rep.childId ≥ kMaxParentOrders ∨
  match rep.execType with
  | .new => ¬ s.pool.ChildInUse rep.childId
  | .partialFill => StaleFill cfg w rep s
  | .fill => StaleFill cfg w rep s
  | .canceled => StaleEnd cfg w rep s
  | .rejected => StaleEnd cfg w rep s
  | .replaced => True

end Conditions

variable {cfg : ExecCoreConfig} {w : World} {rep : ExecutionReport} {s : Core} {pid cid : ℕ}

section Books

theorem TimerWheel.cancel_eq_self {c : ℕ} {wheel : TimerWheel} :
    wheel.cancel c = wheel ↔ ∀ e ∈ wheel.active, e.childId ≠ c := by
  rcases TimerWheel.cancel_cases c wheel with ⟨hsame, hnone⟩ | ⟨e, he, hc, hcancel⟩
  · exact ⟨fun _ => hnone, fun _ => hsame⟩
  · refine ⟨fun hsame => ?_, fun hnone => absurd hc (hnone e he)⟩
    have hactive := congrArg (fun w => w.active.length) (hcancel.symm.trans hsame)
    have hpos := List.length_pos_of_mem he
    simp only [TimerWheel.deactivate, List.length_erase_of_mem he] at hactive
    omega

/-- A fill of no lots moves the average entry price of a flat position only. -/
theorem applyFill_zero (dir : OrderDir) (price : ℚ) (p : InstrumentPosition) :
    p.applyFill dir 0 price =
      { p with avgEntryPrice := if p.netQtyLots = 0 then 0 else p.avgEntryPrice } := by
  have hside : p.applyFill dir 0 price = p.applyFill .buy 0 price := by
    cases dir with
    | buy => rfl
    | sell => simp [InstrumentPosition.applyFill]
  rw [hside]
  simp only [InstrumentPosition.applyFill, add_zero]
  by_cases hnet : p.netQtyLots = 0
  · simp [hnet]
  · have habs : (if p.netQtyLots < 0 then -(p.netQtyLots : ℚ) else p.netQtyLots) = |(p.netQtyLots : ℚ)| := by
      split
      · rename_i h
        rw [abs_of_neg (by exact_mod_cast h)]
      · rename_i h
        rw [abs_of_nonneg (by exact_mod_cast not_lt.mp h)]
    have hone : (1 : ℚ) ≤ |(p.netQtyLots : ℚ)| := by exact_mod_cast Int.one_le_abs hnet
    have hbig : |(p.netQtyLots : ℚ)| > 1 / 1000000000 := by
      refine lt_of_lt_of_le ?_ hone
      norm_num
    rw [habs, if_pos hbig, if_neg hnet]
    simp only [if_true, Int.cast_zero, mul_zero, add_zero]
    rw [mul_div_cancel_right₀ _ (by positivity)]

/-- A fill of no lots stamps the parent, and prices it if it has no fills yet. -/
theorem ParentOrder.fill_zero (p : ParentOrder) (px : ℚ) {ref : ℚ} (href : 0 < ref) (recv : ℕ) :
    ParentOrder.fill 0 px ref recv p = { p with
      leavesQtyLots := p.totalQtyLots - p.cumQtyLots
      lastUpdateNs := recv
      avgFillPrice := if 0 < p.cumQtyLots then p.avgFillPrice else px } := by
  simp only [ParentOrder.fill, add_zero, Int.cast_zero, zero_mul, mul_zero]
  by_cases hcum : 0 < p.cumQtyLots
  · have hcast : (0 : ℚ) < p.cumQtyLots * ref := mul_pos (by exact_mod_cast hcum) href
    rw [if_pos hcast, if_pos hcum, mul_div_cancel_right₀ _ hcast.ne']
  · have hcast : ¬ (p.cumQtyLots : ℚ) * ref > 0 := by
      have hle : (p.cumQtyLots : ℚ) ≤ 0 := by exact_mod_cast not_lt.mp hcum
      exact not_lt.mpr (mul_nonpos_of_nonpos_of_nonneg hle href.le)
    rw [if_neg hcast, if_neg hcum]

theorem ChildOrderState.fill_self {c : ChildOrderState} (hstate : c.state = .filled)
    (hleaves : c.leavesQtyLots = 0) (hqty : c.qtyLots = c.cumQtyLots) : c.fill 0 = c := by
  obtain ⟨childId, parentId, price, qtyLots, cumQtyLots, leavesQtyLots, state, _⟩ := c
  simp only at hstate hleaves hqty
  simp [ChildOrderState.fill, hstate, hleaves, hqty]

theorem onRelease_zero {m : MarginMonitor} {mc : MarginConfig} {price lot : ℚ} :
    m.onRelease mc 0 price lot = m ↔ 0 ≤ m.lockedMargin := by
  simp only [MarginMonitor.onRelease, Int.cast_zero, zero_mul, sub_zero]
  constructor
  · intro h
    have hlocked := congrArg MarginMonitor.lockedMargin h
    simp only at hlocked
    split at hlocked
    · rename_i hpos
      exact hpos.le
    · exact hlocked.le
  · intro h
    rcases h.lt_or_eq with hpos | hzero
    · simp [hpos]
    · rw [← hzero, if_neg (lt_irrefl _), hzero]

theorem onFill_zero {m : MarginMonitor} {mc : MarginConfig} {price lot : ℚ} :
    m.onFill mc 0 price lot = m := by
  simp [MarginMonitor.onFill]

end Books

section Waiting

/-- A parent with a child at work other than the reported one keeps waiting. -/
theorem not_allTerminal (pool : OMSOrderPool) (parent : ParentOrder) {k : ℕ} (hk : k ∈ parent.childIds)
    (hworks : (pool.children k).state.working = true) : allChildrenTerminal pool parent = false := by
  by_contra h
  have hall := (allChildrenTerminal_iff pool parent).mp (by simpa using h) k hk
  rw [hworks] at hall
  cases hall

/-- What a fill leaves when its parent neither closes nor reroutes. -/
theorem handleFill_waits {k : ℕ} (hleft : ((bookFill cfg w cid pid rep s).pool.parents pid).leavesQtyLots ≠ 0)
    (hk : k ∈ (s.pool.parents pid).childIds) (hne : k ≠ cid)
    (hworks : (s.pool.children k).state.working = true) :
    (handleFill cfg w cid pid rep s).run cfg w =
      (bookFill cfg w cid pid rep s).setParentState pid .partiallyFilled := by
  have hids : (((bookFill cfg w cid pid rep s).setParentState pid .partiallyFilled).pool.parents
      pid).childIds = (s.pool.parents pid).childIds := by
    simp only [bookFill, Core.setParentState, modifyParent_parents, modifyChild_parents, Function.update_self]
    rfl
  have hwait := not_allTerminal ((bookFill cfg w cid pid rep s).setParentState pid .partiallyFilled).pool
    (((bookFill cfg w cid pid rep s).setParentState pid .partiallyFilled).pool.parents pid) (hids ▸ hk)
    (by simpa [bookFill, Core.setParentState, hne] using hworks)
  unfold handleFill
  simp only [hleft, if_false, hwait, Bool.false_eq_true]
  rfl

theorem handleCancelReject_waits {k : ℕ} (hleft : 0 < (s.pool.parents pid).leavesQtyLots)
    (hk : k ∈ (s.pool.parents pid).childIds) (hne : k ≠ cid)
    (hworks : (s.pool.children k).state.working = true) :
    (handleCancelReject cfg w cid pid rep s).run cfg w = bookCancel cfg w cid pid rep s := by
  have hrec : (bookCancel cfg w cid pid rep s).pool.parents pid =
      { s.pool.parents pid with lastUpdateNs := rep.recvNs } := by
    simp [bookCancel]
  have hwait := not_allTerminal (bookCancel cfg w cid pid rep s).pool
    ((bookCancel cfg w cid pid rep s).pool.parents pid) (by rw [hrec]; exact hk)
    (by simpa [bookCancel, hne] using hworks)
  have hleft' : ((bookCancel cfg w cid pid rep s).pool.parents pid).leavesQtyLots > 0 := by
    rw [hrec]
    exact hleft
  unfold handleCancelReject
  simp only [hleft', if_true, hwait, Bool.false_eq_true, if_false]
  rfl

theorem onExecutionReport_eq (hc : rep.childId < kMaxTotalChildren)
    (hp : s.parentOf rep.childId < kMaxParentOrders) :
    onExecutionReport cfg w rep s = match rep.execType with
      | .partialFill => (handleFill cfg w rep.childId (s.parentOf rep.childId) rep s).run cfg w
      | .fill => (handleFill cfg w rep.childId (s.parentOf rep.childId) rep s).run cfg w
      | .canceled => (handleCancelReject cfg w rep.childId (s.parentOf rep.childId) rep s).run cfg w
      | .rejected => (handleCancelReject cfg w rep.childId (s.parentOf rep.childId) rep s).run cfg w
      | .new => acknowledge rep.childId s
      | .replaced => s := by
  have hp' : ¬ (s.pool.children rep.childId).parentId ≥ kMaxParentOrders := Nat.not_le.mpr hp
  unfold onExecutionReport reportFlow
  rw [if_neg (Nat.not_le.mpr hc)]
  simp only [hp', if_false]
  cases rep.execType <;> rfl

theorem onExecutionReport_of_range
    (h : rep.childId ≥ kMaxTotalChildren ∨ s.parentOf rep.childId ≥ kMaxParentOrders) :
    onExecutionReport cfg w rep s = s := by
  unfold onExecutionReport reportFlow
  split
  · rfl
  · rename_i hc
    have hp : (s.pool.children rep.childId).parentId ≥ kMaxParentOrders := h.resolve_left hc
    simp only [hp, if_true]
    rfl

end Waiting

section Enough

theorem children_of_same {f : ChildOrderState → ChildOrderState}
    (hchild : s.pool.ChildInUse cid → f (s.pool.children cid) = s.pool.children cid) {c : ℕ}
    (hc : s.pool.ChildInUse c) :
    Function.update s.pool.children cid (f (s.pool.children cid)) c = s.pool.children c := by
  by_cases hcid : c = cid
  · subst hcid
    rw [Function.update_self]
    exact hchild hc
  · rw [Function.update_of_ne hcid]

theorem StaleEnd.parents (h : StaleEnd cfg w rep s) :
    (bookCancel cfg w rep.childId (s.parentOf rep.childId) rep s).pool.parents = s.pool.parents := by
  simp only [bookCancel, modifyParent_parents, modifyChild_parents, ← h.stamp]
  exact Function.update_eq_self _ _

theorem StaleEnd.untouched (h : StaleEnd cfg w rep s) :
    Untouched s ((handleCancelReject cfg w rep.childId (s.parentOf rep.childId) rep s).run cfg w) := by
  obtain ⟨k, hk, hne, hworks⟩ := h.waits
  rw [handleCancelReject_waits h.leaves hk hne hworks]
  refine ⟨?_, ?_, ?_, TimerWheel.cancel_eq_self.mpr h.unarmed, rfl⟩
  · refine ⟨fun q _ => congrFun h.parents q, fun c hc => children_of_same (fun hu => ?_) hc, rfl, rfl⟩
    obtain ⟨hleaves, hstate⟩ := h.child hu
    simp only [ChildOrderState.cancel, ← hstate, ← hleaves]
  · simp only [bookCancel, h.lots, onRelease_zero.mpr h.locked, PositionTable.modify_releaseOpen_zero,
      ← h.margin]
  · simp only [bookCancel, h.lots, onRelease_zero.mpr h.locked]

theorem StaleFill.parents (h : StaleFill cfg w rep s) :
    (bookFill cfg w rep.childId (s.parentOf rep.childId) rep s).pool.parents = s.pool.parents := by
  have href := cfg.instruments.lotSize_pos (s.pool.parents (s.parentOf rep.childId)).instrId
  have hrecord := ParentOrder.fill_zero (s.pool.parents (s.parentOf rep.childId))
    (rep.fillPriceTicks * (w.states (s.pool.children rep.childId).exchangeId).book.tickSize) href rep.recvNs
  have hprice : (if 0 < (s.pool.parents (s.parentOf rep.childId)).cumQtyLots then
      (s.pool.parents (s.parentOf rep.childId)).avgFillPrice
      else rep.fillPriceTicks * (w.states (s.pool.children rep.childId).exchangeId).book.tickSize) =
      (s.pool.parents (s.parentOf rep.childId)).avgFillPrice := by
    split
    · rfl
    · rename_i hcum
      exact (h.price (not_lt.mp hcum)).symm
  rw [hprice, ← h.total, ← h.stamp] at hrecord
  simp only [bookFill, modifyParent_parents, modifyChild_parents, h.lots, ← h.stamp, hrecord]
  exact Function.update_eq_self _ _

theorem StaleFill.untouched (h : StaleFill cfg w rep s) :
    Untouched s ((handleFill cfg w rep.childId (s.parentOf rep.childId) rep s).run cfg w) := by
  obtain ⟨k, hk, hne, hworks⟩ := h.waits
  have hbooked := congrFun h.parents (s.parentOf rep.childId)
  rw [handleFill_waits (by rw [hbooked]; exact h.leaves.ne') hk hne hworks]
  refine ⟨⟨fun q _ => ?_, fun c hc => children_of_same (fun hu => ?_) hc, rfl, rfl⟩, ?_, ?_,
    TimerWheel.cancel_eq_self.mpr h.unarmed, rfl⟩
  · rw [setParentState_pool, modifyParent_parents, h.parents, ← h.marked]
    exact congrFun (Function.update_eq_self _ _) q
  · obtain ⟨hlots, hstate, hleaves, hqty⟩ := h.child hu
    rw [hlots]
    exact ChildOrderState.fill_self hstate hleaves hqty
  · have hflat :
        (if (s.pos.instruments (s.pool.parents (s.parentOf rep.childId)).instrId).netQtyLots = 0 then 0
          else (s.pos.instruments (s.pool.parents (s.parentOf rep.childId)).instrId).avgEntryPrice) =
        (s.pos.instruments (s.pool.parents (s.parentOf rep.childId)).instrId).avgEntryPrice := by
      split
      · rename_i hnet
        exact (h.flat hnet).symm
      · rfl
    simp only [bookFill, Core.setParentState, h.lots, onFill_zero, ← h.margin]
    rw [PositionTable.modify_eq_self, applyFill_zero, hflat]
    cases (s.pool.parents (s.parentOf rep.childId)).dir <;> simp [InstrumentPosition.releaseOpen]
  · simp only [bookFill, Core.setParentState, h.lots, onFill_zero]

/-- What holds of the state before the report, and of what each harmless report leaves, holds after it. -/
theorem Harmless.rule {P : Core → Prop} (h : Harmless cfg w rep s) (hignored : P s)
    (hacked : ¬ s.pool.ChildInUse rep.childId → P (acknowledge rep.childId s))
    (hfilled : StaleFill cfg w rep s →
      P ((handleFill cfg w rep.childId (s.parentOf rep.childId) rep s).run cfg w))
    (hended : StaleEnd cfg w rep s →
      P ((handleCancelReject cfg w rep.childId (s.parentOf rep.childId) rep s).run cfg w)) :
    P (onExecutionReport cfg w rep s) := by
  by_cases hrange : rep.childId ≥ kMaxTotalChildren ∨ s.parentOf rep.childId ≥ kMaxParentOrders
  · rw [onExecutionReport_of_range hrange]
    exact hignored
  obtain ⟨hc, hp⟩ := not_or.mp hrange
  have hkind := (h.resolve_left hc).resolve_left hp
  rw [onExecutionReport_eq (Nat.lt_of_not_ge hc) (Nat.lt_of_not_ge hp)]
  cases hexec : rep.execType with
  | new =>
    rw [hexec] at hkind
    exact hacked hkind
  | partialFill =>
    rw [hexec] at hkind
    exact hfilled hkind
  | fill =>
    rw [hexec] at hkind
    exact hfilled hkind
  | canceled =>
    rw [hexec] at hkind
    exact hended hkind
  | rejected =>
    rw [hexec] at hkind
    exact hended hkind
  | replaced => exact hignored

theorem Harmless.untouched (h : Harmless cfg w rep s) : Untouched s (onExecutionReport cfg w rep s) := by
  refine h.rule (Untouched.refl s) (fun hfree => ⟨?_, rfl, rfl, rfl, rfl⟩) StaleFill.untouched
    StaleEnd.untouched
  rw [acknowledge_pool]
  exact SameRecords.modifyFreeChild hfree _

end Enough

end OmsFormal.Oms
