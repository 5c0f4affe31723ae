import OmsFormal.DispatchCases

/-!
# Signals that die

A signal can end without a live parent at six places. Five of them give the
parent back before anything else was touched. At the last one, where no child could
be allocated, the whole quantity has been reserved: what is released is the
quantity of the split, and what is rejected is the clamped quantity, so the trace
is clean only when both are what was asked for.
-/

namespace OmsFormal.Oms
open Sor Rounding OMSOrderPool GuardedRun
set_option autoImplicit false

section Property
variable (cfg : ExecCoreConfig) (w : World)

def Flow.Dies : Flow → Prop
  | .finished _ => True
  | .dispatching s pid buf ctx => ((dispatchLoop cfg w pid ctx 0 buf s).1.pool.parents pid).childCount = 0

/-- The signal ends without a live parent: it is turned down on the way, or no child of its
dispatch could be allocated. -/
def SignalDies (sig : StrategyOrderSignal) (s : Core) : Prop := (signalFlow cfg w sig s).Dies cfg w

/-- The state is as before, and one reject was pushed for the whole signal. -/
structure NoTrace (sig : StrategyOrderSignal) (s s' : Core) : Prop where
  parentFree : s'.pool.parentFree = s.pool.parentFree
  childFree : s'.pool.childFree = s.pool.childFree
  pos : s'.pos = s.pos
  margin : s'.marginMonitor = s.marginMonitor
  timerWheel : s'.timerWheel = s.timerWheel
  gateways : s'.gateways = s.gateways
  reject : ∃ reason, s'.rejectQueue = spscPush kOutboundQueueSize
    ⟨sig.qtyLots, sig.instrId, sig.dir, sig.strategyId, reason, w.rejectNs⟩ s.rejectQueue

def Flow.Clean (sig : StrategyOrderSignal) (s : Core) : Flow → Prop
  | .finished _ => True
  | .dispatching _ _ buf ctx => s.pool.childFree = [] →
      gapLots ctx buf = effectiveQty sig s.pos ∧
      (effectiveQty sig s.pos = sig.qtyLots ∨ kOutboundQueueSize ≤ s.rejectQueue.length + 1)

/-- A signal that would be dispatched with no child left to allocate was not clamped (or its
reject is lost anyway), and the split covers all of it. -/
def CleanExit (sig : StrategyOrderSignal) (s : Core) : Prop := (signalFlow cfg w sig s).Clean sig s

end Property

variable {cfg : ExecCoreConfig} {w : World} {sig : StrategyOrderSignal} {s : Core}

theorem Refused.noTrace {s' : Core} (h : Refused w sig s s') : NoTrace w sig s s' := by
  obtain ⟨reason, heq⟩ := h.rest
  refine ⟨h.records.parentFree, h.records.childFree, h.pos, ?_, h.timerWheel, ?_, reason, ?_⟩
  · rw [heq]
    rfl
  · rw [heq]
    rfl
  · rw [heq]
    rfl

section EmptyDispatch
variable (cfg w) (ctx : RoutingContext) {pid : ℕ} {free : List ℕ} {buf : List ChildOrder}

/-- A dispatch that finds no child to allocate sends nothing. -/
theorem dispatchLoop_childless {s1 : Core} (hbuf : buf ≠ []) (hnone : s1.pool.childFree = [])
    (hcount : (s1.pool.parents pid).childCount = 0) :
    dispatchLoop cfg w pid ctx 0 buf s1 = ({ s1 with pool := s1.pool.allocChild.2 }, buf) := by
  obtain ⟨co, rest, rfl⟩ := List.exists_cons_of_ne_nil hbuf
  exact dispatchLoop_noChild (by rw [hcount]; decide) hnone

theorem allocChild_parents (pool : OMSOrderPool) : pool.allocChild.2.parents = pool.parents := by
  unfold allocChild
  split <;> rfl

theorem dispatchLoop_count {s1 : Core} (hbuf : buf ≠ []) (hsome : s1.pool.childFree ≠ [])
    (hcount : (s1.pool.parents pid).childCount = 0) :
    ((dispatchLoop cfg w pid ctx 0 buf s1).1.pool.parents pid).childCount ≠ 0 := by
  obtain ⟨co, rest, rfl⟩ := List.exists_cons_of_ne_nil hbuf
  obtain ⟨cid, free, hfree⟩ := List.exists_cons_of_ne_nil hsome
  have hroom : (s1.pool.parents pid).childCount < ParentOrder.kMaxChildrenPerParent := by
    rw [hcount]
    decide
  rw [dispatchLoop_send hcount hroom hfree]
  refine dispatchLoop_rule (fun _ s => (s.pool.parents pid).childCount ≠ 0) ?_ ?_ 1 rest _ ?_ ?_
  · intro co rest s cid free _ _ _
    rw [sendChild_count]
    exact Nat.succ_ne_zero _
  · intro co rest s hs hnil
    simpa only [allocChild, hnil] using hs
  · rw [sendChild_count, hcount]
  · rw [sendChild_count]
    exact Nat.succ_ne_zero _

theorem dispatchLoop_parentFree (buf : List ChildOrder) {s1 : Core}
    (hcount : (s1.pool.parents pid).childCount = 0) :
    (dispatchLoop cfg w pid ctx 0 buf s1).1.pool.parentFree = s1.pool.parentFree :=
  dispatchLoop_rule (fun _ s => s.pool.parentFree = s1.pool.parentFree) (fun _ _ _ _ _ h _ _ => h)
    (fun _ _ _ h hnil => by simpa only [allocChild, hnil] using h) 0 buf s1 hcount rfl

end EmptyDispatch

section Exit
variable {pid : ℕ} {free : List ℕ}

theorem releaseOpen_reserveOpen (dir : OrderDir) (p : InstrumentPosition) (a b : ℤ) :
    (p.reserveOpen dir a).releaseOpen dir b = p.reserveOpen dir (a - b) := by
  cases dir <;> simp [InstrumentPosition.reserveOpen, InstrumentPosition.releaseOpen, add_sub_assoc]

theorem reserveOpen_eq_self {dir : OrderDir} {p : InstrumentPosition} {a : ℤ} :
    p.reserveOpen dir a = p ↔ a = 0 := by
  constructor
  · intro h
    have hlots := congrArg (fun p => p.openLots dir) h
    simpa using hlots
  · rintro rfl
    cases dir <;> simp [InstrumentPosition.reserveOpen]

/-- The last exit: the parent goes back, the gap is released, the leaves are rejected. -/
structure EmptyExit (w : World) (sig : StrategyOrderSignal) (gap : ℤ) (s s' : Core) : Prop where
  parentFree : s'.pool.parentFree = s.pool.parentFree
  childFree : s'.pool.childFree = s.pool.childFree
  pos : s'.pos = s.pos.modify sig.instrId
    (InstrumentPosition.reserveOpen sig.dir (effectiveQty sig s.pos - max gap 0))
  margin : s'.marginMonitor = s.marginMonitor
  timerWheel : s'.timerWheel = s.timerWheel
  gateways : s'.gateways = s.gateways
  reject : s'.rejectQueue = spscPush kOutboundQueueSize ⟨effectiveQty sig s.pos, sig.instrId, sig.dir,
    sig.strategyId, .childPoolExhausted, w.rejectNs⟩ s.rejectQueue

/-- The gap release as one update, also when there is nothing to release. -/
theorem releaseGap_eq (ctx : RoutingContext) (rest : List ChildOrder) (s : Core) :
    releaseGap pid ctx rest s = { s with
      pos := s.pos.modify (s.pool.parents pid).instrId
        (InstrumentPosition.releaseOpen (s.pool.parents pid).dir (max (gapLots ctx rest) 0)) } := by
  unfold releaseGap
  split
  · rename_i hgap
    rw [max_eq_left (le_of_lt hgap)]
  · rename_i hgap
    rw [max_eq_right (not_lt.mp hgap), PositionTable.modify_releaseOpen_zero]

theorem dispatchEmpty_exit (cfg : ExecCoreConfig) (w : World) (sig : StrategyOrderSignal)
    (ctx : RoutingContext) {buf : List ChildOrder} (hfree : s.pool.parentFree = pid :: free)
    (hnone : s.pool.childFree = []) (hbuf : buf ≠ []) :
    EmptyExit w sig (gapLots ctx buf) s
      (dispatchChildOrders cfg w pid buf ctx (reserved w sig pid free s)) := by
  have hrec := reserved_record w s sig pid free
  have hnone' : (reserved w sig pid free s).pool.childFree = [] := hnone
  have hcount : ((reserved w sig pid free s).pool.parents pid).childCount = 0 := by
    rw [hrec]
    rfl
  have halloc : (reserved w sig pid free s).pool.allocChild.2 =
      { (reserved w sig pid free s).pool with
        childAllocFailures := (reserved w sig pid free s).pool.childAllocFailures + 1 } := by
    simp only [allocChild, hnone']
  have hrun : dispatchChildOrders cfg w pid buf ctx (reserved w sig pid free s) =
      closeUnfilled w pid .childPoolExhausted
        (releaseGap pid ctx buf { reserved w sig pid free s with
          pool := (reserved w sig pid free s).pool.allocChild.2 }) := by
    simp only [dispatchChildOrders, dispatchLoop_childless cfg w ctx hbuf hnone' hcount, releaseGap_pool]
    rw [if_pos (by rw [allocChild_parents]; exact hcount)]
  have hid : ((reserved w sig pid free s).pool.parents pid).parentId = pid := by rw [hrec]; rfl
  have hinstr : ((reserved w sig pid free s).pool.parents pid).instrId = sig.instrId := by rw [hrec]; rfl
  have hdir : ((reserved w sig pid free s).pool.parents pid).dir = sig.dir := by rw [hrec]; rfl
  have hstrategy : ((reserved w sig pid free s).pool.parents pid).strategyId = sig.strategyId := by
    rw [hrec]; rfl
  have hleaves : ((reserved w sig pid free s).pool.parents pid).leavesQtyLots = effectiveQty sig s.pos := by
    rw [hrec]; rfl
  rw [hrun, releaseGap_eq, halloc]
  refine ⟨?_, rfl, ?_, rfl, rfl, rfl, ?_⟩
  · change ((reserved w sig pid free s).pool.parents pid).parentId :: free = s.pool.parentFree
    rw [hid, hfree]
  · change (s.pos.modify sig.instrId (InstrumentPosition.reserveOpen sig.dir (effectiveQty sig s.pos))).modify
      ((reserved w sig pid free s).pool.parents pid).instrId (InstrumentPosition.releaseOpen
        ((reserved w sig pid free s).pool.parents pid).dir (max (gapLots ctx buf) 0)) = _
    rw [hinstr, hdir, PositionTable.modify_modify]
    simp only [releaseOpen_reserveOpen]
  · change spscPush kOutboundQueueSize ⟨((reserved w sig pid free s).pool.parents pid).leavesQtyLots,
      ((reserved w sig pid free s).pool.parents pid).instrId,
        ((reserved w sig pid free s).pool.parents pid).dir,
      ((reserved w sig pid free s).pool.parents pid).strategyId, .childPoolExhausted, w.rejectNs⟩
      s.rejectQueue = _
    rw [hinstr, hdir, hstrategy, hleaves]

theorem spscPush_inj {α : Type} {n : ℕ} {x y : α} {q : List α} (h : spscPush n x q = spscPush n y q) :
    x = y ∨ n ≤ q.length + 1 := by
  unfold spscPush at h
  split at h
  · simpa using Or.inl h
  · rename_i hfull
    exact Or.inr (not_lt.mp hfull)

theorem spscPush_full {α : Type} {n : ℕ} {q : List α} (h : n ≤ q.length + 1) (x : α) : spscPush n x q = q :=
  if_neg (not_lt.mpr h)

/-- The last exit is clean exactly when the gap is the reservation and the leaves are the request. -/
theorem EmptyExit.noTrace_iff {s' : Core} {gap : ℤ} (h : EmptyExit w sig gap s s')
    (hqty : 1 ≤ effectiveQty sig s.pos) :
    NoTrace w sig s s' ↔ gap = effectiveQty sig s.pos ∧
      (effectiveQty sig s.pos = sig.qtyLots ∨ kOutboundQueueSize ≤ s.rejectQueue.length + 1) := by
  constructor
  · intro hclean
    have hpos := h.pos.symm.trans hclean.pos
    rw [PositionTable.modify_eq_self, reserveOpen_eq_self] at hpos
    obtain ⟨reason, hreject⟩ := hclean.reject
    refine ⟨by omega, ?_⟩
    rcases spscPush_inj (h.reject.symm.trans hreject) with heq | hfull
    · exact Or.inl (congrArg OrderReject.qtyLots heq)
    · exact Or.inr hfull
  · rintro ⟨hgap, hreject⟩
    refine ⟨h.parentFree, h.childFree, ?_, h.margin, h.timerWheel, h.gateways, .childPoolExhausted, ?_⟩
    · rw [h.pos, PositionTable.modify_eq_self, reserveOpen_eq_self]
      omega
    · rw [h.reject]
      rcases hreject with heq | hfull
      · rw [heq]
      · rw [spscPush_full hfull, spscPush_full hfull]

end Exit

/-- A signal that dies leaves no trace exactly when it was turned down before it was dispatched, or
no child was left for a dispatch of all that was asked for. -/
theorem deadSignal_noTrace_iff (cfg : ExecCoreConfig) (w : World) (sig : StrategyOrderSignal) (s : Core)
    (hqty : 1 ≤ sig.qtyLots) :
    (SignalDies cfg w sig s → NoTrace w sig s (onStrategyOrder cfg w sig s)) ↔ CleanExit cfg w sig s := by
  rcases signal_cases cfg w sig s with ⟨s', hflow, hrefused⟩ | ⟨pid, free, hfree, _, heff, hsplit, hflow⟩
  · simp only [SignalDies, Flow.Dies, CleanExit, Flow.Clean, onStrategyOrder, hflow]
    exact ⟨fun _ => trivial, fun _ _ => hrefused.noTrace⟩
  · have hcount : ((reserved w sig pid free s).pool.parents pid).childCount = 0 := by
      rw [reserved_record]
      rfl
    have hpos : 1 ≤ effectiveQty sig s.pos := by
      have := clampReduceOnly_nonneg s.pos sig.instrId sig.dir (zero_le_one.trans hqty) sig.reduceOnly
      unfold effectiveQty at heff ⊢
      omega
    simp only [SignalDies, Flow.Dies, CleanExit, Flow.Clean, onStrategyOrder, hflow]
    by_cases hnone : s.pool.childFree = []
    · have hnone' : (reserved w sig pid free s).pool.childFree = [] := hnone
      have hloop := dispatchLoop_childless cfg w (admittedContext cfg w sig pid free s) hsplit hnone' hcount
      have hexit := (dispatchEmpty_exit cfg w sig (admittedContext cfg w sig pid free s) hfree hnone
        hsplit).noTrace_iff hpos
      simp only [hloop, allocChild_parents, hcount, hnone, true_imp_iff]
      exact hexit
    · have hsome : (reserved w sig pid free s).pool.childFree ≠ [] := hnone
      have hlives := dispatchLoop_count cfg w (admittedContext cfg w sig pid free s) hsplit hsome hcount
      exact ⟨fun _ hnil => absurd hnil hnone, fun _ hdies => absurd hdies hlives⟩

/-- Where the parents' free list is valid, the signals that die are those that bring no parent to
life. -/
theorem signalDies_iff (hvalid : FreeStack.Valid kMaxParentOrders s.pool.parentFree) :
    SignalDies cfg w sig s ↔
      ∀ p, (onStrategyOrder cfg w sig s).pool.ParentInUse p → s.pool.ParentInUse p := by
  rcases signal_cases cfg w sig s with ⟨s', hflow, hrefused⟩ | ⟨pid, free, hfree, _, _, hsplit, hflow⟩
  · simp only [SignalDies, Flow.Dies, onStrategyOrder, hflow, true_iff]
    exact fun p => (inUse_of_parentFree hrefused.records.parentFree p).mp
  · have hcount : ((reserved w sig pid free s).pool.parents pid).childCount = 0 := by
      rw [reserved_record]
      rfl
    simp only [SignalDies, Flow.Dies, onStrategyOrder, hflow]
    by_cases hnone : s.pool.childFree = []
    · have hnone' : (reserved w sig pid free s).pool.childFree = [] := hnone
      have hexit := dispatchEmpty_exit cfg w sig (admittedContext cfg w sig pid free s) hfree hnone hsplit
      simp only [dispatchLoop_childless cfg w _ hsplit hnone' hcount, allocChild_parents, hcount, true_iff]
      exact fun p => (inUse_of_parentFree hexit.parentFree p).mp
    · have hsome : (reserved w sig pid free s).pool.childFree ≠ [] := hnone
      have hlives := dispatchLoop_count cfg w (admittedContext cfg w sig pid free s) hsplit hsome hcount
      have hlist := dispatchLoop_parentFree cfg w (admittedContext cfg w sig pid free s)
        (signalSplit w sig (admittedContext cfg w sig pid free s)) hcount
      refine ⟨fun hdies => absurd hdies hlives, fun h => absurd (h pid ?_) ?_⟩
      · simp only [Flow.run, dispatchChildOrders, releaseGap_pool, if_neg hlives, ParentInUse, hlist]
        exact (hfree ▸ hvalid).head_inUse
      · rw [ParentInUse, hfree]
        exact FreeStack.not_inUse_head

section Samples

instance (flow : Flow) : Decidable (flow.Dies cfg w) :=
  match flow with
  | .finished _ => inferInstanceAs (Decidable True)
  | .dispatching _ _ _ _ => inferInstanceAs (Decidable (_ = _))

instance (flow : Flow) : Decidable (flow.Clean sig s) :=
  match flow with
  | .finished _ => inferInstanceAs (Decidable True)
  | .dispatching _ _ _ _ => inferInstanceAs (Decidable (_ → _ ∧ _))

/-- No liquidity: the venue offers nothing. -/
theorem deadSignal_noTrace_noLiquidity :
    SignalDies Sample.config (Sample.world 0) (Sample.signal .buy 4 false) (Sample.start 0) ∧
    NoTrace (Sample.world 0) (Sample.signal .buy 4 false) (Sample.start 0)
      (onStrategyOrder Sample.config (Sample.world 0) (Sample.signal .buy 4 false) (Sample.start 0)) := by
  have hdies : (signalFlow Sample.config (Sample.world 0) (Sample.signal .buy 4 false) (Sample.start 0)).Dies
      Sample.config (Sample.world 0) := by decide +kernel
  have hclean : (signalFlow Sample.config (Sample.world 0) (Sample.signal .buy 4 false)
      (Sample.start 0)).Clean (Sample.signal .buy 4 false) (Sample.start 0) := by decide +kernel
  exact ⟨hdies, (deadSignal_noTrace_iff _ _ _ _ (by decide)).mpr hclean hdies⟩

end Samples

end OmsFormal.Oms
