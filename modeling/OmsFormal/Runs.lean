import OmsFormal.HandlerSteps
import OmsFormal.GuardedRun

/-!
# Runs of the execution core

A run interleaves the calls of the execution thread with what other threads do
between them. A timer visit is one position of the slot scan, so the states of a
run include those between two callbacks of one `check_slot` pass. `entry` is the
state in which a call has booked its own effect; the rest of the call is small
steps.
-/

namespace OmsFormal.Oms
open Sor Rounding OMSOrderPool GuardedRun
set_option autoImplicit false

inductive Call where
  | signal (sig : StrategyOrderSignal)
  | report (rep : ExecutionReport)
  | visit (slot idx : ℕ)

/-- What happens outside the calls: the wheel clock, the operator, the feeds and the consumers
of the queues. -/
inductive Env where
  | advance
  | setUnwindMode (instrId : ℕ) (enabled : Bool)
  | onMarkPrice (markUsd lotSize : ℚ) (instrId : ℕ)
  | onRestMargin (equity used : ℚ) (tsNs : ℕ)
  | onBookSnapshot (exchangeId : ℕ) (snapshot : ExchangeSnapshot)
  | gatewayPop (exchangeId : ℕ)
  | rejectPop

inductive Event where
  | call (w : World) (c : Call)
  | env (e : Env)

def Core.setUnwindMode (instrId : ℕ) (enabled : Bool) (s : Core) : Core :=
  if instrId < kMaxInstruments then
    { s with pos := s.pos.modify instrId fun p => { p with unwindOnly := enabled } }
  else s

def Core.onMarkPrice (markUsd lotSize : ℚ) (instrId : ℕ) (s : Core) : Core :=
  match s.marginMonitor.onMarkPrice (s.pos.instruments instrId) markUsd lotSize with
  | none => s
  | some m => { s with marginMonitor := m, pos := { s.pos with margin := m.recomputeAvailable } }

def Core.onRestMargin (equity used : ℚ) (tsNs : ℕ) (s : Core) : Core :=
  let m := s.marginMonitor.onRestUpdate equity used tsNs
  { s with marginMonitor := m, pos := { s.pos with margin := m.recomputeAvailable } }

def Core.onBookSnapshot (exchangeId : ℕ) (snapshot : ExchangeSnapshot) (s : Core) : Core :=
  if exchangeId < kMaxExchanges then
    { s with bookCache := ⟨Function.update s.bookCache.exchanges exchangeId snapshot⟩ }
  else s

def Env.apply : Env → Core → Core
  | .advance, s => s.setWheel s.timerWheel.advance
  | .setUnwindMode i b, s => s.setUnwindMode i b
  | .onMarkPrice mark lot i, s => s.onMarkPrice mark lot i
  | .onRestMargin equity used ts, s => s.onRestMargin equity used ts
  | .onBookSnapshot ex snap, s => s.onBookSnapshot ex snap
  | .gatewayPop ex, s => { s with gateways := Function.update s.gateways ex (s.gateways ex).tail }
  | .rejectPop, s => { s with rejectQueue := s.rejectQueue.tail }

section Step
variable (cfg : ExecCoreConfig)

def Call.apply (w : World) : Call → Core → Core
  | .signal sig, s => onStrategyOrder cfg w sig s
  | .report rep, s => onExecutionReport cfg w rep s
  | .visit slot idx, s => TimerWheel.visitEntry Core.timerWheel Core.setWheel
      (fun _ _ cid s => onTimeout cfg w cid s) slot idx s

def step : Event → Core → Core
  | .call w c, s => c.apply cfg w s
  | .env e, s => e.apply s

end Step

section Entry
variable (cfg : ExecCoreConfig) (w : World)

def acknowledge (cid : ℕ) (s : Core) : Core :=
  { s with pool := s.pool.modifyChild cid fun c => { c with state := .pendingNew } }

def reportEntry (rep : ExecutionReport) (s : Core) : Phase × Core :=
  let pid := (s.pool.children rep.childId).parentId
  if rep.childId ≥ kMaxTotalChildren ∨ pid ≥ kMaxParentOrders then (.idle, s)
  else
    match rep.execType with
    | .partialFill => (.booked pid, bookFill cfg w rep.childId pid rep s)
    | .fill => (.booked pid, bookFill cfg w rep.childId pid rep s)
    | .canceled => (.booked pid, bookCancel cfg w rep.childId pid rep s)
    | .rejected => (.booked pid, bookCancel cfg w rep.childId pid rep s)
    | .new => (.idle, acknowledge rep.childId s)
    | .replaced => (.idle, s)

def timeoutEntry (cid : ℕ) (s : Core) : Phase × Core :=
  if cid < kMaxTotalChildren ∧ (s.pool.children cid).state.working = true then
    reportEntry cfg w (timeoutReport cid (s.pool.children cid)) s
  else (.idle, s)

def Flow.entry : Flow → Phase × Core
  | .finished s => (.idle, s)
  | .dispatching s pid buf ctx => (.sending pid ctx buf, s)

def Call.entry : Call → Core → Phase × Core
  | .signal sig, s => (signalFlow cfg w sig s).entry
  | .report rep, s => reportEntry cfg w rep s
  | .visit slot idx, s =>
    match s.timerWheel.entryAt slot idx with
    | none => (.idle, s)
    | some e => timeoutEntry cfg w e.childId (s.setWheel (s.timerWheel.deactivate e))

end Entry

section EntrySteps
variable {cfg : ExecCoreConfig} {w : World} {s : Core}

theorem report_steps (rep : ExecutionReport) :
    Steps cfg w (reportEntry cfg w rep s) (.idle, onExecutionReport cfg w rep s) := by
  unfold reportEntry onExecutionReport reportFlow
  by_cases hc : rep.childId ≥ kMaxTotalChildren
  · simp only [hc, true_or, if_true]
    exact .refl
  · by_cases hp : (s.pool.children rep.childId).parentId ≥ kMaxParentOrders
    · simp only [hc, hp, or_true, if_true, if_false]
      exact .refl
    · simp only [hc, hp, or_self, if_false]
      cases rep.execType with
      | new => exact .refl
      | partialFill => exact handleFill_steps
      | fill => exact handleFill_steps
      | canceled => exact handleCancelReject_steps
      | rejected => exact handleCancelReject_steps
      | replaced => exact .refl

theorem timeout_steps (cid : ℕ) :
    Steps cfg w (timeoutEntry cfg w cid s) (.idle, onTimeout cfg w cid s) := by
  unfold timeoutEntry onTimeout timeoutFlow
  by_cases hc : cid ≥ kMaxTotalChildren
  · simp only [hc, Nat.not_lt.mpr hc, false_and, if_true, if_false]
    exact .refl
  · simp only [hc, Nat.lt_of_not_ge hc, true_and, if_false]
    split
    · exact report_steps _
    · exact .refl

theorem signal_steps (sig : StrategyOrderSignal) :
    Steps cfg w (signalFlow cfg w sig s).entry (.idle, onStrategyOrder cfg w sig s) := by
  unfold onStrategyOrder
  rcases signal_cases cfg w sig s with ⟨s', hflow, _⟩ | ⟨pid, free, _, _, _, _, hflow⟩
  · rw [hflow]
    exact .refl
  · rw [hflow]
    refine dispatchChildOrders_steps ?_ .refl
    simp [reserved, Core.setParentState, admitted_childCount]

/-- Every call is its entry followed by small steps. -/
theorem call_steps (c : Call) : Steps cfg w (c.entry cfg w s) (.idle, c.apply cfg w s) := by
  cases c with
  | signal sig => exact signal_steps sig
  | report rep => exact report_steps rep
  | visit slot idx =>
    simp only [Call.entry, Call.apply, TimerWheel.visitEntry]
    cases s.timerWheel.entryAt slot idx with
    | none => exact .refl
    | some e => exact timeout_steps e.childId

theorem call_of_idle {c : Call} {s' : Core} (h : c.entry cfg w s = (.idle, s')) : c.apply cfg w s = s' := by
  have hsteps : Steps cfg w (c.entry cfg w s) (.idle, c.apply cfg w s) := call_steps c
  rw [h] at hsteps
  exact congrArg Prod.snd hsteps.of_idle

/-- The call rule: a phase-indexed invariant that the entry establishes and every small step
keeps holds when the call returns. -/
theorem call_invariant (J : Phase × Core → Prop) (c : Call)
    (hmicro : ∀ a b, Micro cfg w a b → J a → J b) (hentry : J (c.entry cfg w s)) :
    J (.idle, c.apply cfg w s) :=
  (call_steps c).invariant hmicro hentry

end EntrySteps

/-! A small set-up for concrete runs: one venue, lots of a thousandth, nothing that blocks. -/

namespace Sample

def config : ExecCoreConfig where
  fees := ⟨fun _ => 0, fun _ => 0⟩
  riskLimits := ⟨fun _ => 0, fun _ => 0, 0, 0⟩
  instruments := ⟨fun _ => 0⟩
  notionalGate := ⟨50000, 500000⟩
  margin := ⟨1 / 10, 1000⟩
  childTimeoutNs := 2000000000
  makerTimeoutNs := 5000000000
  activeExchanges := 1
  outbound _ := true

/-- Offers `depth` lots at the touch of either side. -/
def venue (depth : ℤ) : ExchangeState where
  book :=
    { sides := fun
        | .bid => [⟨99, depth⟩]
        | .ask => [⟨100, depth⟩]
      tickSize := 1
      lotSize := 1 / 1000
      isValid := true }
  latency := ⟨500⟩
  lot := .upTo 1000
  exchangeId := 0
  enabled := true

def engine : RoutingEngine := ⟨config.fees, fun _ => 1⟩

def world (depth : ℤ) : World where
  states _ := venue depth
  router := engine.router
  reply := none
  createNs := 1
  decisionNs := 1
  dispatchNs := 1
  rejectNs := 1

def signal (dir : OrderDir) (qty : ℤ) (reduceOnly : Bool) : StrategyOrderSignal where
  limitPriceUsd := 0
  qtyLots := qty
  instrId := 0
  dir := dir
  strategyId := 0
  orderType := .taker
  reduceOnly := reduceOnly
  signalNs := 1
  shortVolFactor := 0
  bookImbalance := 0

def report (cid : ℕ) (kind : ExecType) (qty : ℤ) : ExecutionReport where
  childId := cid
  fillPriceTicks := 100
  fillQtyLots := qty
  execType := kind
  exchangeId := 0
  exchangeNs := 1
  recvNs := 1

/-- A core that has not traded yet but holds `net` lots of instrument 0. -/
def start (net : ℤ) : Core :=
  let s := Core.init config 0
  { s with pos := s.pos.modify 0 fun p => { p with netQtyLots := net } }

end Sample

end OmsFormal.Oms
