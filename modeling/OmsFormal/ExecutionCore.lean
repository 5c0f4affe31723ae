import OmsFormal.RoutingEngine
import OmsFormal.OrderPool
import OmsFormal.PreTradeChecks
import OmsFormal.TimerWheel
import OmsFormal.BookSnapshot

/-!
# The execution core

One thread owns the order store, the positions, the timer wheel and the queues,
and runs every signal, report and timeout to completion. Each handler ends in at
most one call of `dispatch_child_orders`, always in tail position, so the
handlers return a `Flow`: either a finished state or that one pending call.
Logging is left out; `assert` is read as in a release build.
-/

namespace OmsFormal.Oms
open Sor Rounding
set_option autoImplicit false

/-- `outbound ex` says whether gateway `ex` has a queue attached. -/
structure ExecCoreConfig where
  fees : FeeMatrix
  riskLimits : RiskLimits
  instruments : InstrumentTable
  notionalGate : NotionalGateConfig
  margin : MarginConfig
  childTimeoutNs : ℕ
  makerTimeoutNs : ℕ
  activeExchanges : ℕ
  outbound : ℕ → Bool

/-- What one call reads from outside the execution thread: the live venue states, the
router's answers, the operator's reply, and the readings of `now_ns()` in call order. -/
structure World where
  states : ℕ → ExchangeState
  router : Router
  reply : Option (List Char)
  createNs : ℕ
  decisionNs : ℕ
  dispatchNs : ℕ
  rejectNs : ℕ

/-- The queues hold what the consumer has not taken yet, oldest first. -/
structure Core where
  pool : OMSOrderPool
  pos : PositionTable
  timerWheel : TimerWheel
  bookCache : BookSnapshotCache
  marginMonitor : MarginMonitor
  gateways : ℕ → List OutboundOrder
  rejectQueue : List OrderReject

/-- A ring of `n` cells stores `n - 1` values; a push beyond that is dropped. -/
def spscPush {α : Type} (n : ℕ) (x : α) (q : List α) : List α :=
  if q.length + 1 < n then q ++ [x] else q

def kGatewayQueueSize : ℕ := 512
def kOutboundQueueSize : ℕ := 1024

def Core.init (cfg : ExecCoreConfig) (nowNs : ℕ) : Core where
  pool := OMSOrderPool.init
  pos := ⟨fun _ => InstrumentPosition.zero, MarginState.update cfg.margin.equityUsd 0⟩
  timerWheel := TimerWheel.init nowNs
  bookCache := BookSnapshotCache.init
  marginMonitor := MarginMonitor.init cfg.margin
  gateways _ := []
  rejectQueue := []

namespace ChildOrderState

def fill (fillQtyLots : ℤ) (c : ChildOrderState) : ChildOrderState :=
  let cum := c.cumQtyLots + fillQtyLots
  let leaves := c.qtyLots - cum
  { c with
    cumQtyLots := cum
    leavesQtyLots := leaves
    state := if leaves = 0 then .filled else .partiallyFilled }

def cancel (execType : ExecType) (c : ChildOrderState) : ChildOrderState :=
  { c with
    leavesQtyLots := 0
    state := if execType = .canceled then .canceled else .rejected }

end ChildOrderState

/-- Parent accounting of one canonical fill, with the running average price. -/
def ParentOrder.fill (fillCanonical : ℤ) (fillPx refLotSize : ℚ) (recvNs : ℕ) (p : ParentOrder) :
    ParentOrder :=
  let cum := p.cumQtyLots + fillCanonical
  let prevCum : ℚ := p.cumQtyLots * refLotSize
  let fillQty : ℚ := fillCanonical * refLotSize
  let totalCum : ℚ := cum * refLotSize
  { p with
    cumQtyLots := cum
    leavesQtyLots := p.totalQtyLots - cum
    lastUpdateNs := recvNs
    avgFillPrice := if prevCum > 0 then (p.avgFillPrice * prevCum + fillPx * fillQty) / totalCum
      else fillPx }

def Core.setParentState (pid : ℕ) (st : OrderState) (s : Core) : Core :=
  { s with pool := s.pool.modifyParent pid fun p => { p with state := st } }

/-- What is left to do when a handler is through with its own work. -/
inductive Flow where
  | finished (s : Core)
  | dispatching (s : Core) (pid : ℕ) (buf : List ChildOrder) (ctx : RoutingContext)

section Handlers
variable (cfg : ExecCoreConfig) (w : World)

def notifyReject (instrId : ℕ) (dir : OrderDir) (strategyId : ℕ) (qtyLots : ℤ)
    (reason : RejectReason) (s : Core) : Core :=
  { s with
    rejectQueue := spscPush kOutboundQueueSize
      ⟨qtyLots, instrId, dir, strategyId, reason, w.rejectNs⟩ s.rejectQueue }

def toCanonicalLots (child : ChildOrderState) (instrId : ℕ) (nativeLots : ℤ) : ℤ :=
  roundHalfAway (nativeLots * (w.states child.exchangeId).book.lotSize
    / cfg.instruments.lotSize instrId)

def buildRoutingContext (parent : ParentOrder) (targetLots : ℤ) : RoutingContext where
  states := w.states
  activeExchanges := cfg.activeExchanges
  dir := parent.dir
  targetLots := targetLots
  limitPrice := if parent.limitPrice > 0 then parent.limitPrice * (w.states 0).book.tickSize else 0
  referenceLotSize := cfg.instruments.lotSize parent.instrId
  decisionNs := w.decisionNs
  shortVolFactor := 0
  bookImbalance := 0

/-- The record `dispatch_child_orders` writes for child order `co`. -/
def newChild (parentId : ℕ) (ctx : RoutingContext) (cid : ℕ) (co : ChildOrder) : ChildOrderState :=
  let book := (w.states co.exchangeId).book
  let qtyLots := toLots co.qty book.lotSize
  { childId := cid
    parentId := parentId
    price := if co.price > 0 then toTicks co.price book.tickSize else 0
    qtyLots := qtyLots
    cumQtyLots := 0
    leavesQtyLots := qtyLots
    state := .pendingNew
    exchangeId := co.exchangeId
    levelIdx := co.levelIdx
    orderType := co.type
    dir := ctx.dir
    sentNs := w.dispatchNs }

def outboundOrder (child : ChildOrderState) (instrId : ℕ) : OutboundOrder :=
  { childId := child.childId
    price := child.price
    qtyLots := child.qtyLots
    dir := child.dir
    orderType := child.orderType
    exchangeId := child.exchangeId
    instrId := instrId }

/-- Push to the gateway of the order's venue; a full queue or a missing one loses the order. -/
def pushOutbound (out : OutboundOrder) (gateways : ℕ → List OutboundOrder) :
    ℕ → List OutboundOrder :=
  if out.exchangeId < kMaxExchanges ∧ cfg.outbound out.exchangeId = true then
    Function.update gateways out.exchangeId
      (spscPush kGatewayQueueSize out (gateways out.exchangeId))
  else gateways

def timeoutNs (type : Sor.OrderType) : ℕ :=
  match type with
  | .maker => cfg.makerTimeoutNs
  | .taker => cfg.childTimeoutNs

/-- One round of the dispatch loop, after `alloc_child` returned `cid`. A failed timer insert
is ignored, as in the source. -/
def dispatchOne (pid : ℕ) (ctx : RoutingContext) (i cid : ℕ) (co : ChildOrder) (s : Core) : Core :=
  let parent := s.pool.parents pid
  let child := newChild w parent.parentId ctx cid co
  { s with
    pool := (s.pool.modifyChild cid fun _ => child).modifyParent pid (ParentOrder.addChild i cid)
    timerWheel := (s.timerWheel.insert cid w.dispatchNs (timeoutNs cfg co.type)).2
    gateways := pushOutbound cfg (outboundOrder child parent.instrId) s.gateways }

/-- The dispatch loop; returns the child orders that never made it out. -/
def dispatchLoop (pid : ℕ) (ctx : RoutingContext) : ℕ → List ChildOrder → Core → Core × List ChildOrder
  | _, [], s => (s, [])
  | i, co :: rest, s =>
    if (s.pool.parents pid).childCount ≥ ParentOrder.kMaxChildrenPerParent then (s, co :: rest)
    else
      match s.pool.allocChild with
      | (none, pool) => ({ s with pool := pool }, co :: rest)
      | (some cid, pool) =>
        dispatchLoop pid ctx (i + 1) rest (dispatchOne cfg w pid ctx i cid co { s with pool := pool })

/-- Canonical lots of the child orders that never reached a gateway. -/
def gapLots (ctx : RoutingContext) (rest : List ChildOrder) : ℤ :=
  roundHalfAway ((rest.map ChildOrder.qty).sum / resolveReferenceLotSize ctx)

def releaseGap (pid : ℕ) (ctx : RoutingContext) (rest : List ChildOrder) (s : Core) : Core :=
  if gapLots ctx rest > 0 then
    let parent := s.pool.parents pid
    { s with
      pos := s.pos.modify parent.instrId
        (InstrumentPosition.releaseOpen parent.dir (gapLots ctx rest)) }
  else s

/-- Close a parent that cannot get any further report, handing its leaves back to the strategy. -/
def closeUnfilled (pid : ℕ) (reason : RejectReason) (s : Core) : Core :=
  let parent := s.pool.parents pid
  let st := if parent.cumQtyLots > 0 then OrderState.partiallyFilled else .rejected
  let s := notifyReject w parent.instrId parent.dir parent.strategyId parent.leavesQtyLots reason
    (s.setParentState pid st)
  { s with pool := s.pool.freeParent parent.parentId }

def dispatchChildOrders (pid : ℕ) (buf : List ChildOrder) (ctx : RoutingContext) (s : Core) : Core :=
  let r := dispatchLoop cfg w pid ctx 0 buf s
  let s := releaseGap pid ctx r.2 r.1
  if (s.pool.parents pid).childCount = 0 then closeUnfilled w pid .childPoolExhausted s else s

def Flow.run : Flow → Core
  | .finished s => s
  | .dispatching s pid buf ctx => dispatchChildOrders cfg w pid buf ctx s

def allChildrenTerminal (pool : OMSOrderPool) (parent : ParentOrder) : Bool :=
  (List.range ParentOrder.kMaxChildrenPerParent).all fun slot =>
    !(parent.hasChild slot && (pool.children (parent.children slot)).state.working)

/-- Every share of the parent is filled: free its children and the parent itself. -/
def closeFilled (pid : ℕ) (s : Core) : Core :=
  let parent := s.pool.parents pid
  let s := s.setParentState pid .filled
  { s with pool := (s.pool.freeSlots parent fun _ => true).freeParent parent.parentId }

/-- The cleanup loop of `reroute_leaves`. -/
def releaseChildren (pid : ℕ) (s : Core) : Core :=
  { s with
    pool := (s.pool.freeSlots (s.pool.parents pid)
      fun c => (s.pool.children c).state.terminal).modifyParent pid
        fun p => { p with childCount := 0, childMask := 0 } }

/-- The re-clamp of a reduce-only parent against the current position. -/
def shrinkReduceOnly (pid : ℕ) (s : Core) : Core :=
  let parent := s.pool.parents pid
  let safeQty := clampReduceOnly s.pos parent.instrId parent.dir parent.leavesQtyLots true
  if safeQty < parent.leavesQtyLots then
    let excess := parent.leavesQtyLots - safeQty
    { s with
      pos := s.pos.modify parent.instrId (InstrumentPosition.releaseOpen parent.dir excess)
      pool := s.pool.modifyParent pid fun p =>
        { p with totalQtyLots := p.totalQtyLots - excess, leavesQtyLots := safeQty } }
  else s

/-- The reduce-only exit of `reroute_leaves`: nothing left that is still safe to reduce. -/
def closeReduceOnlyDone (pid : ℕ) (s : Core) : Core :=
  let parent := s.pool.parents pid
  let st := if parent.cumQtyLots > 0 then OrderState.filled else .rejected
  let s := s.setParentState pid st
  { s with pool := s.pool.freeParent parent.parentId }

def routeLeaves (pid : ℕ) (ctx : RoutingContext) (s : Core) : Flow :=
  match w.router.optimalSplit ctx with
  | [] => .finished (closeUnfilled w pid .noLiquidity s)
  | co :: rest => .dispatching (s.setParentState pid .pendingNew) pid (co :: rest) ctx

def rerouteContext (pid : ℕ) (s : Core) : RoutingContext :=
  let parent := s.pool.parents pid
  let inputs := s.bookCache.getRoutingInputs parent.dir (UInt64.ofNat w.decisionNs)
  { buildRoutingContext cfg w parent parent.leavesQtyLots with
    shortVolFactor := inputs.shortVolFactor
    bookImbalance := inputs.bookImbalance }

def rerouteLeaves (pid : ℕ) (s : Core) : Flow :=
  let ctx := rerouteContext cfg w pid s
  if (s.pool.parents pid).reduceOnly then
    let s := shrinkReduceOnly pid (releaseChildren pid s)
    if (s.pool.parents pid).leavesQtyLots = 0 then .finished (closeReduceOnlyDone pid s)
    else routeLeaves w pid { ctx with targetLots := (s.pool.parents pid).leavesQtyLots } s
  else routeLeaves w pid ctx (releaseChildren pid s)

/-- The bookkeeping of `handle_fill`, before it decides how to go on. -/
def bookFill (cid pid : ℕ) (rep : ExecutionReport) (s : Core) : Core :=
  let child := s.pool.children cid
  let parent := s.pool.parents pid
  let fillPx := rep.fillPriceTicks * (w.states child.exchangeId).book.tickSize
  let refLotSize := cfg.instruments.lotSize parent.instrId
  let fillCanonical := toCanonicalLots cfg w child parent.instrId rep.fillQtyLots
  let margin := s.marginMonitor.onFill cfg.margin fillCanonical fillPx refLotSize
  { s with
    pool := (s.pool.modifyChild cid (ChildOrderState.fill rep.fillQtyLots)).modifyParent pid
      (ParentOrder.fill fillCanonical fillPx refLotSize rep.recvNs)
    timerWheel := s.timerWheel.cancel child.childId
    marginMonitor := margin
    pos := { s.pos with margin := margin.recomputeAvailable }.modify parent.instrId fun p =>
      (p.applyFill parent.dir fillCanonical fillPx).releaseOpen parent.dir fillCanonical }

def handleFill (cid pid : ℕ) (rep : ExecutionReport) (s : Core) : Flow :=
  let s := bookFill cfg w cid pid rep s
  if (s.pool.parents pid).leavesQtyLots = 0 then .finished (closeFilled pid s)
  else
    let s := s.setParentState pid .partiallyFilled
    if allChildrenTerminal s.pool (s.pool.parents pid) then rerouteLeaves cfg w pid s
    else .finished s

/-- The bookkeeping of `handle_cancel_reject`, before it decides how to go on. -/
def bookCancel (cid pid : ℕ) (rep : ExecutionReport) (s : Core) : Core :=
  let child := s.pool.children cid
  let parent := s.pool.parents pid
  let book := (w.states child.exchangeId).book
  let refLotSize := cfg.instruments.lotSize parent.instrId
  let lostCanonical := toCanonicalLots cfg w child parent.instrId child.leavesQtyLots
  let margin := s.marginMonitor.onRelease cfg.margin lostCanonical (child.price * book.tickSize) refLotSize
  { s with
    pool := (s.pool.modifyChild cid (ChildOrderState.cancel rep.execType)).modifyParent pid
      fun p => { p with lastUpdateNs := rep.recvNs }
    timerWheel := s.timerWheel.cancel child.childId
    marginMonitor := margin
    pos := { s.pos with margin := margin.recomputeAvailable }.modify parent.instrId
      (InstrumentPosition.releaseOpen parent.dir lostCanonical) }

def handleCancelReject (cid pid : ℕ) (rep : ExecutionReport) (s : Core) : Flow :=
  let s := bookCancel cfg w cid pid rep s
  if (s.pool.parents pid).leavesQtyLots > 0 then
    if allChildrenTerminal s.pool (s.pool.parents pid) then rerouteLeaves cfg w pid s
    else .finished s
  else .finished (closeFilled pid s)

def reportFlow (rep : ExecutionReport) (s : Core) : Flow :=
  if rep.childId ≥ kMaxTotalChildren then .finished s
  else
    let pid := (s.pool.children rep.childId).parentId
    if pid ≥ kMaxParentOrders then .finished s
    else
      match rep.execType with
      | .partialFill => handleFill cfg w rep.childId pid rep s
      | .fill => handleFill cfg w rep.childId pid rep s
      | .canceled => handleCancelReject cfg w rep.childId pid rep s
      | .rejected => handleCancelReject cfg w rep.childId pid rep s
      | .new => .finished { s with
          pool := s.pool.modifyChild rep.childId fun c => { c with state := .pendingNew } }
      | .replaced => .finished s

def onExecutionReport (rep : ExecutionReport) (s : Core) : Core := (reportFlow cfg w rep s).run cfg w

/-- The cancel report the timer callback makes up for child `c`. -/
def timeoutReport (cid : ℕ) (c : ChildOrderState) : ExecutionReport :=
  { childId := cid, fillPriceTicks := 0, fillQtyLots := 0, execType := .canceled,
    exchangeId := c.exchangeId, exchangeNs := 0, recvNs := c.sentNs }

/-- The timer callback. -/
def timeoutFlow (cid : ℕ) (s : Core) : Flow :=
  if cid ≥ kMaxTotalChildren then .finished s
  else if (s.pool.children cid).state.working then
    reportFlow cfg w (timeoutReport cid (s.pool.children cid)) s
  else .finished s

def onTimeout (cid : ℕ) (s : Core) : Core := (timeoutFlow cfg w cid s).run cfg w

/-- The common end of a signal that dies after its parent was allocated. -/
def rejectParent (pid : ℕ) (sig : StrategyOrderSignal) (reason : RejectReason) (s : Core) : Core :=
  let s := s.setParentState pid .rejected
  notifyReject w sig.instrId sig.dir sig.strategyId sig.qtyLots reason
    { s with pool := s.pool.freeParent pid }

def rejectReasonOf : RiskRejectReason → RejectReason
  | .positionLimit => .riskPositionLimit
  | .notional => .riskNotional
  | .margin => .riskMargin
  | _ => .riskFatFinger

/-- The signal's fields, copied into a freshly allocated parent. -/
def ParentOrder.copySignal (sig : StrategyOrderSignal) (reduceOnly : Bool) (p : ParentOrder) :
    ParentOrder :=
  { p with
    instrId := sig.instrId
    dir := sig.dir
    orderType := sig.orderType
    strategyId := sig.strategyId
    createNs := if sig.signalNs ≠ 0 then sig.signalNs else w.createNs
    state := .new
    reduceOnly := reduceOnly }

/-- The clamped quantity and the limit in the first venue's ticks. -/
def ParentOrder.setQuantity (sig : StrategyOrderSignal) (effectiveQty : ℤ) (p : ParentOrder) :
    ParentOrder :=
  { p with
    totalQtyLots := effectiveQty
    leavesQtyLots := effectiveQty
    limitPrice := if sig.limitPriceUsd > 0 then toTicks sig.limitPriceUsd (w.states 0).book.tickSize
      else 0 }

def reduceOnlyInForce (sig : StrategyOrderSignal) (pos : PositionTable) : Bool :=
  decide (sig.instrId < kMaxInstruments) &&
    (sig.reduceOnly || (pos.instruments sig.instrId).unwindOnly)

def effectiveQty (sig : StrategyOrderSignal) (pos : PositionTable) : ℤ :=
  clampReduceOnly pos sig.instrId sig.dir sig.qtyLots sig.reduceOnly

/-- The routing request of a fresh signal. -/
def signalContext (sig : StrategyOrderSignal) (parent : ParentOrder) (qty : ℤ) : RoutingContext :=
  { buildRoutingContext cfg w parent qty with
    shortVolFactor := sig.shortVolFactor
    bookImbalance := sig.bookImbalance }

def signalSplit (sig : StrategyOrderSignal) (ctx : RoutingContext) : List ChildOrder :=
  match sig.orderType with
  | .maker => w.router.makerPlacement ctx
  | .taker => w.router.optimalSplit ctx

def signalFlow (sig : StrategyOrderSignal) (s : Core) : Flow :=
  if approve cfg.notionalGate cfg.instruments w.reply sig = false then
    .finished (notifyReject w sig.instrId sig.dir sig.strategyId sig.qtyLots .notionalGateBlock s)
  else
    match s.pool.allocParent with
    | (none, pool) => .finished (notifyReject w sig.instrId sig.dir sig.strategyId sig.qtyLots
        .parentPoolExhausted { s with pool := pool })
    | (some pid, pool) =>
      let qty := effectiveQty sig s.pos
      let s := { s with
        pool := pool.modifyParent pid (ParentOrder.copySignal w sig (reduceOnlyInForce sig s.pos)) }
      if sig.instrId < kMaxInstruments ∧ qty = 0 then
        .finished (rejectParent w pid sig .reduceOnlyViolation s)
      else
        let s := { s with pool := s.pool.modifyParent pid (ParentOrder.setQuantity w sig qty) }
        match validate cfg.riskLimits cfg.instruments s.pos { sig with qtyLots := qty } with
        | .ok =>
          let ctx := signalContext cfg w sig (s.pool.parents pid) qty
          match signalSplit w sig ctx with
          | [] => .finished (rejectParent w pid sig .noLiquidity s)
          | co :: rest =>
            let s := s.setParentState pid .pendingNew
            .dispatching
              { s with pos := s.pos.modify sig.instrId (InstrumentPosition.reserveOpen sig.dir qty) }
              pid (co :: rest) ctx
        | reason => .finished (rejectParent w pid sig (rejectReasonOf reason) s)

def onStrategyOrder (sig : StrategyOrderSignal) (s : Core) : Core := (signalFlow cfg w sig s).run cfg w

end Handlers

def Core.setWheel (wheel : TimerWheel) (s : Core) : Core := { s with timerWheel := wheel }

/-- One iteration of the execution loop: the signals and reports the queue pops return, each
with the world it is handled in, then the timer wheel. `worlds` gives the world of the callback
at a wheel clock and slot position. -/
def Core.tick (cfg : ExecCoreConfig) (signals : List (World × StrategyOrderSignal))
    (reports : List (World × ExecutionReport)) (worlds : ℕ → ℕ → World) (now : ℕ) (s : Core) : Core :=
  let s := signals.foldl (fun s x => onStrategyOrder cfg x.1 x.2 s) s
  let s := reports.foldl (fun s x => onExecutionReport cfg x.1 x.2 s) s
  TimerWheel.tick Core.timerWheel Core.setWheel
    (fun clock idx cid s => onTimeout cfg (worlds clock idx) cid s) now s

end OmsFormal.Oms
