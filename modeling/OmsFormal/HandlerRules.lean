import OmsFormal.ExecutionCore
import OmsFormal.StoreOperations

/-!
# How the handlers are composed

One equation or rule per handler. Later arguments name what holds at each stage
(a booked report, a cleared parent, a dispatch in progress) and never unfold a
handler again.
-/

namespace OmsFormal.Oms
open Sor Rounding OMSOrderPool
set_option autoImplicit false

variable {cfg : ExecCoreConfig} {w : World} {pid : ℕ}

section Stages
variable {s : Core}

/-- What `dispatchOne` leaves behind, allocation included. -/
def sendChild (cfg : ExecCoreConfig) (w : World) (pid : ℕ) (ctx : RoutingContext) (cid : ℕ)
    (free : List ℕ) (co : ChildOrder) (s : Core) : Core :=
  let child := newChild w (s.pool.parents pid).parentId ctx cid co
  { s with
    pool := s.pool.attachChild pid cid free child
    timerWheel := (s.timerWheel.insert cid w.dispatchNs (timeoutNs cfg co.type)).2
    gateways := pushOutbound cfg (outboundOrder child (s.pool.parents pid).instrId) s.gateways }

theorem dispatchOne_eq_sendChild (cfg : ExecCoreConfig) (w : World) (pid : ℕ) (ctx : RoutingContext)
    (co : ChildOrder) {cid : ℕ} {free : List ℕ} (hfree : s.pool.childFree = cid :: free) :
    dispatchOne cfg w pid ctx (s.pool.parents pid).childCount cid co
      { s with pool := s.pool.allocChild.2 } = sendChild cfg w pid ctx cid free co s := by
  simp only [dispatchOne, sendChild, allocChild, hfree, modifyChild, modifyParent, attachChild,
    Function.update_idem]

/-- The end of `dispatch_child_orders`, once the loop has left `rest` unsent. -/
def finishDispatch (w : World) (pid : ℕ) (ctx : RoutingContext) (rest : List ChildOrder) (s : Core) :
    Core :=
  let s := releaseGap pid ctx rest s
  if (s.pool.parents pid).childCount = 0 then closeUnfilled w pid .childPoolExhausted s else s

@[simp] theorem releaseGap_pool (ctx : RoutingContext) (rest : List ChildOrder) :
    (releaseGap pid ctx rest s).pool = s.pool := by
  unfold releaseGap
  split <;> rfl

@[simp] theorem releaseGap_timerWheel (ctx : RoutingContext) (rest : List ChildOrder) :
    (releaseGap pid ctx rest s).timerWheel = s.timerWheel := by
  unfold releaseGap
  split <;> rfl

@[simp] theorem releaseGap_gateways (ctx : RoutingContext) (rest : List ChildOrder) :
    (releaseGap pid ctx rest s).gateways = s.gateways := by
  unfold releaseGap
  split <;> rfl

@[simp] theorem releaseGap_rejectQueue (ctx : RoutingContext) (rest : List ChildOrder) :
    (releaseGap pid ctx rest s).rejectQueue = s.rejectQueue := by
  unfold releaseGap
  split <;> rfl

/-- Closing a parent that has no children left frees the parent alone. -/
theorem closeUnfilled_pool {reason : RejectReason} (hid : (s.pool.parents pid).parentId = pid)
    (hids : (s.pool.parents pid).childIds = []) :
    (closeUnfilled w pid reason s).pool = s.pool.retire pid { s.pool.parents pid with
      state := if (s.pool.parents pid).cumQtyLots > 0 then .partiallyFilled else .rejected } := by
  simp [closeUnfilled, notifyReject, Core.setParentState, modifyParent, freeParent, retire, hid, hids]

theorem closeReduceOnlyDone_pool (hid : (s.pool.parents pid).parentId = pid)
    (hids : (s.pool.parents pid).childIds = []) :
    (closeReduceOnlyDone pid s).pool = s.pool.retire pid { s.pool.parents pid with
      state := if (s.pool.parents pid).cumQtyLots > 0 then .filled else .rejected } := by
  simp [closeReduceOnlyDone, Core.setParentState, modifyParent, freeParent, retire, hid, hids]

theorem closeFilled_pool (hid : (s.pool.parents pid).parentId = pid) :
    (closeFilled pid s).pool = s.pool.retire pid { s.pool.parents pid with state := .filled } := by
  simp [closeFilled, Core.setParentState, modifyParent, freeParent, retire, freeSlots_eq, hid]

theorem releaseChildren_pool
    (hterm : ∀ c ∈ (s.pool.parents pid).childIds, (s.pool.children c).state.terminal = true) :
    (releaseChildren pid s).pool = s.pool.clearChildren pid := by
  have hall : (s.pool.parents pid).childIds.filter (fun c => (s.pool.children c).state.terminal) =
      (s.pool.parents pid).childIds := List.filter_eq_self.mpr hterm
  simp [releaseChildren, modifyParent, freeSlots_eq, clearChildren, hall]

theorem allChildrenTerminal_iff (pool : OMSOrderPool) (parent : ParentOrder) :
    allChildrenTerminal pool parent = true ↔
      ∀ c ∈ parent.childIds, (pool.children c).state.working = false := by
  simp only [allChildrenTerminal, ParentOrder.childIds, ParentOrder.slots, List.all_eq_true,
    List.mem_range, List.mem_map, List.mem_filter, Bool.not_eq_true', Bool.and_eq_false_imp]
  constructor
  · rintro h c ⟨slot, ⟨hslot, hhas⟩, rfl⟩
    exact h slot hslot hhas
  · intro h slot hslot hhas
    exact h _ ⟨slot, ⟨hslot, hhas⟩, rfl⟩

theorem terminal_of_allChildrenTerminal {idle : ℕ → Prop} (hinv : StoreInv idle s.pool)
    (hu : s.pool.ParentInUse pid)
    (h : allChildrenTerminal s.pool (s.pool.parents pid) = true) :
    ∀ c ∈ (s.pool.parents pid).childIds, (s.pool.children c).state.terminal = true := by
  intro c hc
  obtain ⟨hcu, hcp⟩ := (hinv.ok pid).owned hu c hc
  have hidle := (allChildrenTerminal_iff _ _).mp h c hc
  rcases (hinv.ok pid).settled c hcu hcp with hw | ht
  · rw [hidle] at hw
    cases hw
  · exact ht

end Stages

section DispatchRule

theorem sendChild_count (cfg : ExecCoreConfig) (w : World) (ctx : RoutingContext) {free : List ℕ} (cid : ℕ)
    (co : ChildOrder) (s : Core) : ((sendChild cfg w pid ctx cid free co s).pool.parents pid).childCount =
      (s.pool.parents pid).childCount + 1 := by
  simp [sendChild, attachChild, ParentOrder.addChild]

section Rounds
variable {ctx : RoutingContext} {co : ChildOrder} {rest : List ChildOrder} {i cid : ℕ}
  {free : List ℕ} {s : Core}

theorem dispatchLoop_full (hfull : (s.pool.parents pid).childCount ≥ ParentOrder.kMaxChildrenPerParent) :
    dispatchLoop cfg w pid ctx i (co :: rest) s = (s, co :: rest) := if_pos hfull

theorem dispatchLoop_noChild (hroom : (s.pool.parents pid).childCount < ParentOrder.kMaxChildrenPerParent)
    (hfree : s.pool.childFree = []) :
    dispatchLoop cfg w pid ctx i (co :: rest) s = ({ s with pool := s.pool.allocChild.2 }, co :: rest) := by
  simp only [dispatchLoop, if_neg (Nat.not_le.mpr hroom), allocChild, hfree]

theorem dispatchLoop_send (hi : (s.pool.parents pid).childCount = i)
    (hroom : (s.pool.parents pid).childCount < ParentOrder.kMaxChildrenPerParent)
    (hfree : s.pool.childFree = cid :: free) :
    dispatchLoop cfg w pid ctx i (co :: rest) s =
      dispatchLoop cfg w pid ctx (i + 1) rest (sendChild cfg w pid ctx cid free co s) := by
  have halloc : s.pool.allocChild = (some cid, s.pool.allocChild.2) := by
    simp only [allocChild, hfree]
  have hsend := dispatchOne_eq_sendChild cfg w pid ctx co hfree
  rw [hi] at hsend
  simp only [dispatchLoop, if_neg (Nat.not_le.mpr hroom)]
  rw [halloc]
  simp only [hsend]

end Rounds

/-- The dispatch loop: whatever each sent child preserves holds when the loop stops, with the
child orders that were not sent. -/
theorem dispatchLoop_rule {ctx : RoutingContext} (P : List ChildOrder → Core → Prop)
    (hone : ∀ co rest s cid free, P (co :: rest) s →
      (s.pool.parents pid).childCount < ParentOrder.kMaxChildrenPerParent →
      s.pool.childFree = cid :: free → P rest (sendChild cfg w pid ctx cid free co s))
    (hfail : ∀ co rest s, P (co :: rest) s → s.pool.childFree = [] →
      P (co :: rest) { s with pool := s.pool.allocChild.2 })
    (i : ℕ) (buf : List ChildOrder) (s : Core) (hi : (s.pool.parents pid).childCount = i)
    (h : P buf s) :
    P (dispatchLoop cfg w pid ctx i buf s).2 (dispatchLoop cfg w pid ctx i buf s).1 := by
  induction buf generalizing i s with
  | nil => exact h
  | cons co rest ih =>
    rcases Nat.lt_or_ge (s.pool.parents pid).childCount ParentOrder.kMaxChildrenPerParent with hroom | hfull
    · cases hfree : s.pool.childFree with
      | nil =>
        rw [dispatchLoop_noChild hroom hfree]
        exact hfail co rest s h hfree
      | cons cid free =>
        rw [dispatchLoop_send hi hroom hfree]
        apply ih (i + 1) _ _ (hone co rest s cid free h hroom hfree)
        rw [sendChild_count, hi]
    · rw [dispatchLoop_full hfull]
      exact h

theorem dispatchChildOrders_rule {ctx : RoutingContext} (P : List ChildOrder → Core → Prop)
    (Done : Core → Prop)
    (hone : ∀ co rest s cid free, P (co :: rest) s →
      (s.pool.parents pid).childCount < ParentOrder.kMaxChildrenPerParent →
      s.pool.childFree = cid :: free → P rest (sendChild cfg w pid ctx cid free co s))
    (hfail : ∀ co rest s, P (co :: rest) s → s.pool.childFree = [] →
      P (co :: rest) { s with pool := s.pool.allocChild.2 })
    (hend : ∀ rest s, P rest s → Done (finishDispatch w pid ctx rest s))
    {buf : List ChildOrder} {s : Core} (h0 : (s.pool.parents pid).childCount = 0) (h : P buf s) :
    Done (dispatchChildOrders cfg w pid buf ctx s) :=
  hend _ _ (dispatchLoop_rule P hone hfail 0 buf s h0 h)

end DispatchRule

/-- A flow that is either finished in a `Done` state or about to dispatch for `pid` from a
`Ready` one. -/
def Flow.Sat (pid : ℕ) (Done : Core → Prop)
    (Ready : Core → List ChildOrder → RoutingContext → Prop) : Flow → Prop
  | .finished s => Done s
  | .dispatching s p buf ctx => p = pid ∧ Ready s buf ctx

theorem Flow.Sat.run {Done : Core → Prop} {Ready : Core → List ChildOrder → RoutingContext → Prop}
    {flow : Flow} (h : flow.Sat pid Done Ready)
    (hd : ∀ s buf ctx, Ready s buf ctx → Done (dispatchChildOrders cfg w pid buf ctx s)) :
    Done (flow.run cfg w) := by
  cases flow with
  | finished s => exact h
  | dispatching s p buf ctx =>
    obtain ⟨rfl, hr⟩ := h
    exact hd s buf ctx hr

/-- `ctx` asks for the leaves of parent `pid`, in its direction and its instrument's unit. -/
structure RouteFor (cfg : ExecCoreConfig) (w : World) (pid : ℕ) (ctx : RoutingContext) (s : Core) :
    Prop where
  states : ctx.states = w.states
  dir : ctx.dir = (s.pool.parents pid).dir
  target : ctx.targetLots = (s.pool.parents pid).leavesQtyLots
  reference : ctx.referenceLotSize = cfg.instruments.lotSize (s.pool.parents pid).instrId

theorem RouteFor.resolve {ctx : RoutingContext} {s : Core} (h : RouteFor cfg w pid ctx s) :
    resolveReferenceLotSize ctx = cfg.instruments.lotSize (s.pool.parents pid).instrId := by
  rw [resolveReferenceLotSize_of_pos, h.reference]
  rw [h.reference]
  exact cfg.instruments.lotSize_pos _

section Reroute

/-- The state in which a reroute asks the router: children released, leaves re-clamped. -/
def trimmed (pid : ℕ) (s : Core) : Core :=
  if (s.pool.parents pid).reduceOnly then shrinkReduceOnly pid (releaseChildren pid s)
  else releaseChildren pid s

/-- Lots a reroute gives up: what a reduce-only parent has left above the current headroom. -/
def excessLots (pid : ℕ) (s : Core) : ℤ :=
  let parent := s.pool.parents pid
  if parent.reduceOnly then
    parent.leavesQtyLots - min parent.leavesQtyLots
      (clampReduceOnly s.pos parent.instrId parent.dir parent.leavesQtyLots true)
  else 0

theorem excessLots_nonneg (pid : ℕ) (s : Core) : 0 ≤ excessLots pid s := by
  simp only [excessLots]
  split
  · exact sub_nonneg.mpr (min_le_left _ _)
  · exact le_rfl

/-- What is given up and what is kept of the parent's quantities. -/
def ParentOrder.giveUp (excess : ℤ) (p : ParentOrder) : ParentOrder :=
  { p with totalQtyLots := p.totalQtyLots - excess, leavesQtyLots := p.leavesQtyLots - excess }

@[simp] theorem PositionTable.modify_releaseOpen_zero (pos : PositionTable) (i : ℕ) (dir : OrderDir) :
    pos.modify i (InstrumentPosition.releaseOpen dir 0) = pos := by
  have hsame : InstrumentPosition.releaseOpen dir 0 (pos.instruments i) = pos.instruments i := by
    cases dir <;> simp [InstrumentPosition.releaseOpen]
  simp [PositionTable.modify, hsame]

theorem shrinkReduceOnly_eq (s : Core) (hflag : (s.pool.parents pid).reduceOnly = true) :
    shrinkReduceOnly pid s =
      { s with
        pos := s.pos.modify (s.pool.parents pid).instrId
          (InstrumentPosition.releaseOpen (s.pool.parents pid).dir (excessLots pid s))
        pool := s.pool.modifyParent pid (ParentOrder.giveUp (excessLots pid s)) } := by
  by_cases h : clampReduceOnly s.pos (s.pool.parents pid).instrId (s.pool.parents pid).dir
      (s.pool.parents pid).leavesQtyLots true < (s.pool.parents pid).leavesQtyLots
  · have hexcess : excessLots pid s = (s.pool.parents pid).leavesQtyLots -
        clampReduceOnly s.pos (s.pool.parents pid).instrId (s.pool.parents pid).dir
          (s.pool.parents pid).leavesQtyLots true := by
      rw [excessLots, if_pos hflag, min_eq_right h.le]
    rw [shrinkReduceOnly, if_pos h, hexcess]
    simp only [modifyParent, ParentOrder.giveUp, sub_sub_cancel]
  · have hexcess : excessLots pid s = 0 := by
      rw [excessLots, if_pos hflag, min_eq_left (not_lt.mp h), sub_self]
    rw [shrinkReduceOnly, if_neg h, hexcess]
    simp [modifyParent, ParentOrder.giveUp]

theorem releaseChildren_record (pid : ℕ) (s : Core) :
    (releaseChildren pid s).pool.parents pid =
      { s.pool.parents pid with childCount := 0, childMask := 0 } := by
  simp [releaseChildren]

theorem excessLots_releaseChildren (s : Core) :
    excessLots pid (releaseChildren pid s) = excessLots pid s := by
  simp [excessLots, releaseChildren]

/-- Trimming releases the children and gives the excess up, in the counter and in the record. -/
theorem trimmed_eq (s : Core) :
    trimmed pid s =
      { s with
        pos := s.pos.modify (s.pool.parents pid).instrId
          (InstrumentPosition.releaseOpen (s.pool.parents pid).dir (excessLots pid s))
        pool := (releaseChildren pid s).pool.modifyParent pid
          (ParentOrder.giveUp (excessLots pid s)) } := by
  have hrec := releaseChildren_record pid s
  have hpos : (releaseChildren pid s).pos = s.pos := rfl
  unfold trimmed
  split
  · rename_i hflag
    rw [shrinkReduceOnly_eq _ (by rw [hrec]; exact hflag), excessLots_releaseChildren, hrec, hpos]
    rfl
  · rename_i hflag
    have hexcess : excessLots pid s = 0 := by
      rw [excessLots, if_neg hflag]
    rw [hexcess]
    simp [releaseChildren, modifyParent, ParentOrder.giveUp]

theorem trimmed_record (pid : ℕ) (s : Core) :
    (trimmed pid s).pool.parents pid =
      ParentOrder.giveUp (excessLots pid s)
        { s.pool.parents pid with childCount := 0, childMask := 0 } := by
  rw [trimmed_eq]
  simp [releaseChildren_record]

/-- The request a reroute hands to the router. -/
def trimmedContext (cfg : ExecCoreConfig) (w : World) (pid : ℕ) (s : Core) : RoutingContext :=
  { rerouteContext cfg w pid s with targetLots := ((trimmed pid s).pool.parents pid).leavesQtyLots }

theorem trimmedContext_routeFor (s : Core) :
    RouteFor cfg w pid (trimmedContext cfg w pid s) (trimmed pid s) := by
  have h := trimmed_record pid s
  refine ⟨rfl, ?_, rfl, ?_⟩ <;> rw [h] <;> rfl

theorem rerouteLeaves_eq (s : Core) :
    rerouteLeaves cfg w pid s =
      if (s.pool.parents pid).reduceOnly ∧ ((trimmed pid s).pool.parents pid).leavesQtyLots = 0 then
        .finished (closeReduceOnlyDone pid (trimmed pid s))
      else routeLeaves w pid (trimmedContext cfg w pid s) (trimmed pid s) := by
  cases hr : (s.pool.parents pid).reduceOnly with
  | true => simp [rerouteLeaves, trimmedContext, trimmed, hr]
  | false =>
    have hleaves := congrArg ParentOrder.leavesQtyLots (releaseChildren_record pid s)
    simp only [rerouteLeaves, trimmedContext, trimmed, hr, Bool.false_eq_true, if_false, false_and,
      hleaves]
    rfl

/-- Every reroute ends in one of three exits: reduced away, no liquidity, or a dispatch. -/
theorem rerouteLeaves_sat {Done : Core → Prop}
    {Ready : Core → List ChildOrder → RoutingContext → Prop} {s : Core}
    (hdone : (s.pool.parents pid).reduceOnly = true →
      ((trimmed pid s).pool.parents pid).leavesQtyLots = 0 →
      Done (closeReduceOnlyDone pid (trimmed pid s)))
    (hnone : w.router.optimalSplit (trimmedContext cfg w pid s) = [] →
      Done (closeUnfilled w pid .noLiquidity (trimmed pid s)))
    (hready : ((s.pool.parents pid).reduceOnly = true →
        ((trimmed pid s).pool.parents pid).leavesQtyLots ≠ 0) →
      w.router.optimalSplit (trimmedContext cfg w pid s) ≠ [] →
      Ready ((trimmed pid s).setParentState pid .pendingNew)
        (w.router.optimalSplit (trimmedContext cfg w pid s)) (trimmedContext cfg w pid s)) :
    (rerouteLeaves cfg w pid s).Sat pid Done Ready := by
  rw [rerouteLeaves_eq]
  split
  · rename_i h
    exact hdone h.1 h.2
  · rename_i h
    unfold routeLeaves
    split
    · rename_i hsplit
      exact hnone hsplit
    · rename_i co rest hsplit
      refine ⟨rfl, ?_⟩
      rw [← hsplit]
      exact hready (fun hr hl => h ⟨hr, hl⟩) (by rw [hsplit]; exact List.cons_ne_nil _ _)

end Reroute

section Report
variable {cid : ℕ} {rep : ExecutionReport} {s : Core} {Done : Core → Prop}
  {Ready : Core → List ChildOrder → RoutingContext → Prop}

theorem handleFill_sat
    (hclose : ((bookFill cfg w cid pid rep s).pool.parents pid).leavesQtyLots = 0 →
      Done (closeFilled pid (bookFill cfg w cid pid rep s)))
    (hgo : ∀ s1, s1 = (bookFill cfg w cid pid rep s).setParentState pid .partiallyFilled →
      ((bookFill cfg w cid pid rep s).pool.parents pid).leavesQtyLots ≠ 0 →
      (allChildrenTerminal s1.pool (s1.pool.parents pid) = false → Done s1) ∧
      (allChildrenTerminal s1.pool (s1.pool.parents pid) = true →
        (rerouteLeaves cfg w pid s1).Sat pid Done Ready)) :
    (handleFill cfg w cid pid rep s).Sat pid Done Ready := by
  unfold handleFill
  simp only
  split
  · rename_i h
    exact hclose h
  · rename_i h
    obtain ⟨hkeep, hre⟩ := hgo _ rfl h
    split
    · rename_i hall
      exact hre hall
    · rename_i hall
      exact hkeep (by simpa using hall)

theorem handleCancelReject_sat
    (hclose : ((bookCancel cfg w cid pid rep s).pool.parents pid).leavesQtyLots ≤ 0 →
      Done (closeFilled pid (bookCancel cfg w cid pid rep s)))
    (hgo : ∀ s1, s1 = bookCancel cfg w cid pid rep s →
      (s1.pool.parents pid).leavesQtyLots > 0 →
      (allChildrenTerminal s1.pool (s1.pool.parents pid) = false → Done s1) ∧
      (allChildrenTerminal s1.pool (s1.pool.parents pid) = true →
        (rerouteLeaves cfg w pid s1).Sat pid Done Ready)) :
    (handleCancelReject cfg w cid pid rep s).Sat pid Done Ready := by
  unfold handleCancelReject
  simp only
  split
  · rename_i h
    obtain ⟨hkeep, hre⟩ := hgo _ rfl h
    split
    · rename_i hall
      exact hre hall
    · rename_i hall
      exact hkeep (by simpa using hall)
  · rename_i h
    exact hclose (not_lt.mp h)

end Report

section Signal
variable {sig : StrategyOrderSignal} {s : Core}

def admitted (w : World) (sig : StrategyOrderSignal) (pid : ℕ) (free : List ℕ) (s : Core) : Core :=
  { s with
    pool := s.pool.openParent pid free
      (ParentOrder.setQuantity w sig (effectiveQty sig s.pos)
        (ParentOrder.copySignal w sig (reduceOnlyInForce sig s.pos)
          { ParentOrder.reset with parentId := pid })) }

/-- The admitted state with its parent pending and its quantity reserved. -/
def reserved (w : World) (sig : StrategyOrderSignal) (pid : ℕ) (free : List ℕ) (s : Core) : Core :=
  let s1 := (admitted w sig pid free s).setParentState pid .pendingNew
  { s1 with
    pos := s.pos.modify sig.instrId
      (InstrumentPosition.reserveOpen sig.dir (effectiveQty sig s.pos)) }

def admittedContext (cfg : ExecCoreConfig) (w : World) (sig : StrategyOrderSignal) (pid : ℕ)
    (free : List ℕ) (s : Core) : RoutingContext :=
  signalContext cfg w sig ((admitted w sig pid free s).pool.parents pid) (effectiveQty sig s.pos)

theorem admittedContext_routeFor (free : List ℕ) :
    RouteFor cfg w pid (admittedContext cfg w sig pid free s) (admitted w sig pid free s) := by
  refine ⟨rfl, rfl, ?_, rfl⟩
  simp [admittedContext, signalContext, buildRoutingContext, admitted, openParent,
    ParentOrder.setQuantity]

theorem admitted_childCount (free : List ℕ) :
    ((admitted w sig pid free s).pool.parents pid).childCount = 0 := by
  simp [admitted, openParent, ParentOrder.setQuantity, ParentOrder.copySignal, ParentOrder.reset,
    ParentOrder.zero]

/-- The record of a parent that is done: its quantities add up, and if it has leaves it lists no
child. -/
structure ParentOrder.Retired (p : ParentOrder) : Prop where
  total : p.leavesQtyLots = p.totalQtyLots - p.cumQtyLots
  empty : p.leavesQtyLots = 0 ∨ p.childIds = []

theorem ParentOrder.Retired.setState {p : ParentOrder} (h : p.Retired) (st : OrderState) :
    ({ p with state := st } : ParentOrder).Retired := ⟨h.total, h.empty⟩

theorem childIds_of_noMask {p : ParentOrder} (h : p.childMask = 0) : p.childIds = [] := by
  simp [ParentOrder.childIds, ParentOrder.slots, ParentOrder.hasChild, h]

/-- A signal either dies, with its parent (if any) back on the free list and one record of that
parent rewritten, or is admitted, reserved and about to be dispatched. -/
theorem signalFlow_sat {Done : Core → Prop}
    {Ready : Core → List ChildOrder → RoutingContext → Prop}
    (hblock : approve cfg.notionalGate cfg.instruments w.reply sig = false →
      Done (notifyReject w sig.instrId sig.dir sig.strategyId sig.qtyLots .notionalGateBlock s))
    (hexhausted : s.pool.parentFree = [] →
      Done (notifyReject w sig.instrId sig.dir sig.strategyId sig.qtyLots .parentPoolExhausted
        { s with pool := s.pool.allocParent.2 }))
    (hreject : ∀ pid free rec reason, s.pool.parentFree = pid :: free → rec.Retired →
      Done (rejectParent w pid sig reason { s with pool := s.pool.openParent pid free rec }))
    (hready : ∀ free, s.pool.parentFree = pid :: free → sig.instrId < kMaxInstruments →
      effectiveQty sig s.pos ≠ 0 →
      validate cfg.riskLimits cfg.instruments s.pos
        { sig with qtyLots := effectiveQty sig s.pos } = .ok →
      signalSplit w sig (admittedContext cfg w sig pid free s) ≠ [] →
      Ready (reserved w sig pid free s) (signalSplit w sig (admittedContext cfg w sig pid free s))
        (admittedContext cfg w sig pid free s))
    (hpid : ∀ p free, s.pool.parentFree = p :: free → p = pid) :
    (signalFlow cfg w sig s).Sat pid Done Ready := by
  unfold signalFlow
  split
  · rename_i h
    exact hblock h
  · cases hfree : s.pool.parentFree with
    | nil =>
      have hx := hexhausted hfree
      simp only [allocParent, hfree] at hx ⊢
      exact hx
    | cons p free =>
      obtain rfl := hpid p free hfree
      have hopened (b : Bool) (qty : ℤ) : (ParentOrder.setQuantity w sig qty (ParentOrder.copySignal w sig b
          { ParentOrder.reset with parentId := p })).Retired :=
        ⟨(sub_zero _).symm, Or.inr (childIds_of_noMask rfl)⟩
      simp only [allocParent, hfree, modifyParent, Function.update_self, Function.update_idem]
      split
      · exact hreject p free _ _ hfree ⟨rfl, Or.inl rfl⟩
      · rename_i hqty
        split
        · rename_i hval
          have hinstr : sig.instrId < kMaxInstruments := by
            by_contra hbad
            simp [validate, not_lt.mp hbad] at hval
          have hr := hready free hfree hinstr (fun h0 => hqty ⟨hinstr, h0⟩) hval
          simp only [admittedContext, admitted, openParent, Function.update_self] at hr
          split
          · exact hreject p free _ _ hfree (hopened _ _)
          · rename_i co rest hsplit
            refine ⟨rfl, ?_⟩
            rw [hsplit] at hr
            have hr' := hr (List.cons_ne_nil _ _)
            simpa only [reserved, admitted, openParent, Core.setParentState, modifyParent,
              Function.update_self, Function.update_idem] using hr'
        · exact hreject p free _ _ hfree (hopened _ _)

/-- A signal that dies leaves nothing behind but one reject for its own quantity. -/
structure Refused (w : World) (sig : StrategyOrderSignal) (s s' : Core) : Prop where
  records : SameRecords s.pool s'.pool
  retired : ∀ p, (s.pool.parents p).Retired → (s'.pool.parents p).Retired
  rest : ∃ reason, s' = notifyReject w sig.instrId sig.dir sig.strategyId sig.qtyLots reason
    { s with pool := s'.pool }

theorem Refused.pos {s' : Core} (h : Refused w sig s s') : s'.pos = s.pos := by
  obtain ⟨reason, heq⟩ := h.rest
  rw [heq]
  rfl

theorem Refused.timerWheel {s' : Core} (h : Refused w sig s s') : s'.timerWheel = s.timerWheel := by
  obtain ⟨reason, heq⟩ := h.rest
  rw [heq]
  rfl

theorem rejectParent_refused {free : List ℕ} {rec : ParentOrder} (reason : RejectReason)
    (hfree : s.pool.parentFree = pid :: free) (hrec : rec.Retired) :
    Refused w sig s
      (rejectParent w pid sig reason { s with pool := s.pool.openParent pid free rec }) := by
  have hpool : (rejectParent w pid sig reason { s with pool := s.pool.openParent pid free rec }).pool =
      s.pool.modifyParent pid fun _ => { rec with state := .rejected } := by
    simp [rejectParent, notifyReject, Core.setParentState, modifyParent, openParent, freeParent, hfree]
  refine ⟨?_, fun p hp => ?_, reason, rfl⟩
  · rw [hpool]
    exact SameRecords.modifyFree (open_fresh hfree) _
  · rw [hpool, modifyParent_parents]
    by_cases hpid : p = pid
    · rw [hpid, Function.update_self]
      exact hrec.setState _
    · rw [Function.update_of_ne hpid]
      exact hp

theorem signal_cases (cfg : ExecCoreConfig) (w : World) (sig : StrategyOrderSignal) (s : Core) :
    (∃ s', signalFlow cfg w sig s = .finished s' ∧ Refused w sig s s') ∨
    (∃ pid free, s.pool.parentFree = pid :: free ∧ sig.instrId < kMaxInstruments ∧
      effectiveQty sig s.pos ≠ 0 ∧
      signalSplit w sig (admittedContext cfg w sig pid free s) ≠ [] ∧
      signalFlow cfg w sig s = .dispatching (reserved w sig pid free s) pid
        (signalSplit w sig (admittedContext cfg w sig pid free s))
        (admittedContext cfg w sig pid free s)) := by
  have hsat : (signalFlow cfg w sig s).Sat (s.pool.parentFree.headD 0) (Refused w sig s)
      fun s' buf ctx => ∃ free, s.pool.parentFree = s.pool.parentFree.headD 0 :: free ∧
        sig.instrId < kMaxInstruments ∧ effectiveQty sig s.pos ≠ 0 ∧
        signalSplit w sig (admittedContext cfg w sig (s.pool.parentFree.headD 0) free s) ≠ [] ∧
        s' = reserved w sig (s.pool.parentFree.headD 0) free s ∧
        buf = signalSplit w sig (admittedContext cfg w sig (s.pool.parentFree.headD 0) free s) ∧
        ctx = admittedContext cfg w sig (s.pool.parentFree.headD 0) free s := by
    apply signalFlow_sat
    · intro _
      exact ⟨⟨fun _ _ => rfl, fun _ _ => rfl, rfl, rfl⟩, fun _ => id, _, rfl⟩
    · intro hnil
      refine ⟨?_, ?_, _, rfl⟩
      · simp only [notifyReject, allocParent, hnil]
        exact ⟨fun _ _ => rfl, fun _ _ => rfl, hnil.symm, rfl⟩
      · simp only [notifyReject, allocParent, hnil]
        exact fun _ => id
    · intro p free rec reason hfree hrec
      exact rejectParent_refused reason hfree hrec
    · intro free hfree hinstr hqty _ hsplit
      exact ⟨free, hfree, hinstr, hqty, hsplit, rfl, rfl, rfl⟩
    · intro p free hfree
      rw [hfree]
      rfl
  cases hflow : signalFlow cfg w sig s with
  | finished s' =>
    rw [hflow] at hsat
    exact Or.inl ⟨s', rfl, hsat⟩
  | dispatching s' p buf ctx =>
    rw [hflow] at hsat
    obtain ⟨rfl, free, hfree, hinstr, hqty, hsplit, rfl, rfl, rfl⟩ := hsat
    exact Or.inr ⟨_, free, hfree, hinstr, hqty, hsplit, rfl⟩

end Signal

end OmsFormal.Oms
