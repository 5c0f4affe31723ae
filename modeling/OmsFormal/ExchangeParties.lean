import OmsFormal.UnwindMode
import OmsFormal.Exposure

/-!
# The core and its exchanges

Each gateway takes orders off its queue and hands them to its exchange, which
executes them in parts, as long as it likes, until the order is used up or the
exchange itself ends it. What it reports arrives later, the fills of an order in
any order and its end after them. `OutboundOrder` has no cancel message, so the
core cannot take an order back. Who an order was sent for is remembered beside
the model: parents are numbered in the order in which they were opened.
-/

namespace OmsFormal.Oms
open Sor Rounding OMSOrderPool GuardedRun
set_option autoImplicit false

/-- An order at its exchange: who it was sent for, what was executed, and the reports under way. -/
structure ExchangeOrder where
  order : OutboundOrder
  owner : ℕ
  executed : ℤ
  reports : List ExecutionReport
  ended : Option ExecutionReport
  deriving DecidableEq, Repr

namespace ExchangeOrder

def received (order : OutboundOrder) (owner : ℕ) : ExchangeOrder := ⟨order, owner, 0, [], none⟩

/-- Executed, but not yet known to the core. -/
def unreported (x : ExchangeOrder) : ℤ := (x.reports.map ExecutionReport.fillQtyLots).sum

def execute (rep : ExecutionReport) (x : ExchangeOrder) : ExchangeOrder :=
  { x with executed := x.executed + rep.fillQtyLots, reports := rep :: x.reports }

def deliver (j : ℕ) (x : ExchangeOrder) : ExchangeOrder := { x with reports := x.reports.eraseIdx j }

/-- Executed and reported to the last lot. -/
def Done (x : ExchangeOrder) : Prop := x.executed = x.order.qtyLots ∧ x.reports = []

instance (x : ExchangeOrder) : Decidable x.Done := inferInstanceAs (Decidable (_ ∧ _))

end ExchangeOrder

/-- The core, the orders that left it, and the account of every parent ever opened. `tags ex` says
who the orders in the queue of gateway `ex` were sent for. -/
structure Market where
  core : Core
  opened : ℕ
  owner : ℕ → ℕ
  accepted : ℕ → ℤ
  executed : ℕ → ℤ
  tags : ℕ → List ℕ
  orders : List ExchangeOrder

inductive Move where
  | signal (w : World) (sig : StrategyOrderSignal)
  | visit (w : World) (slot idx : ℕ)
  | env (e : Env)
  | take (exchangeId : ℕ)
  | execute (i : ℕ) (rep : ExecutionReport)
  | close (i : ℕ) (rep : ExecutionReport)
  | acknowledge (w : World) (i : ℕ) (rep : ExecutionReport)
  | deliver (w : World) (i j : ℕ)
  | deliverEnd (w : World) (i : ℕ)

namespace Market

def start (s : Core) : Market where
  core := s
  opened := 0
  owner _ := 0
  accepted _ := 0
  executed _ := 0
  tags _ := []
  orders := []

def openParent (pid : ℕ) (total : ℤ) (M : Market) : Market :=
  { M with
    opened := M.opened + 1
    owner := Function.update M.owner pid M.opened
    accepted := Function.update M.accepted M.opened total }

/-- A signal opens a parent if it gets to its dispatch. -/
def register : Flow → Market → Market
  | .finished _, M => M
  | .dispatching s pid _ _, M => M.openParent pid (s.pool.parents pid).totalQtyLots

section Steps
variable (cfg : ExecCoreConfig)

def before (w : World) (c : Call) (M : Market) : Market :=
  match c with
  | .signal sig => M.register (signalFlow cfg w sig M.core)
  | _ => M

/-- A call of the core. What it adds to the queues is tagged with the parents it was sent for. -/
def call (w : World) (c : Call) (M : Market) : Market :=
  let s := c.apply cfg w M.core
  let owner := (M.before cfg w c).owner
  { M.before cfg w c with
    core := s
    tags := fun ex => M.tags ex ++ ((s.gateways ex).drop (M.core.gateways ex).length).map fun o =>
      owner (s.parentOf o.childId) }

/-- The gateway takes the next order off its queue and sends it to its exchange. -/
def take (ex : ℕ) (M : Market) : Market :=
  match M.core.gateways ex, M.tags ex with
  | o :: _, n :: tags =>
    { M with
      core := (Env.gatewayPop ex).apply M.core
      tags := Function.update M.tags ex tags
      orders := .received o n :: M.orders }
  | _, _ => M

def execute (i : ℕ) (rep : ExecutionReport) (M : Market) : Market :=
  match M.orders[i]? with
  | none => M
  | some x =>
    { M with
      executed := Function.update M.executed x.owner (M.executed x.owner + rep.fillQtyLots)
      orders := M.orders.set i (x.execute rep) }

/-- The exchange cancels or rejects what is left of an order. -/
def close (i : ℕ) (rep : ExecutionReport) (M : Market) : Market :=
  match M.orders[i]? with
  | none => M
  | some x => { M with orders := M.orders.set i { x with ended := some rep } }

def deliver (w : World) (i j : ℕ) (M : Market) : Market :=
  match M.orders[i]? with
  | none => M
  | some x =>
    match x.reports[j]? with
    | none => M
    | some rep =>
      { M.call cfg w (.report rep) with
        orders := if (x.deliver j).Done then M.orders.eraseIdx i else M.orders.set i (x.deliver j) }

def deliverEnd (w : World) (i : ℕ) (M : Market) : Market :=
  match M.orders[i]? with
  | none => M
  | some x =>
    match x.ended with
    | none => M
    | some rep => { M.call cfg w (.report rep) with orders := M.orders.eraseIdx i }

def step : Move → Market → Market
  | .signal w sig, M => M.call cfg w (.signal sig)
  | .visit w slot idx, M => M.call cfg w (.visit slot idx)
  | .env e, M => { M with core := e.apply M.core }
  | .take ex, M => M.take ex
  | .execute i rep, M => M.execute i rep
  | .close i rep, M => M.close i rep
  | .acknowledge w _ rep, M => M.call cfg w (.report rep)
  | .deliver w i j, M => M.deliver cfg w i j
  | .deliverEnd w i, M => M.deliverEnd cfg w i

end Steps

/-- The order of child `c` waits for its gateway or is at its exchange. -/
def Out (M : Market) (c : ℕ) : Prop :=
  (∃ ex, ∃ o ∈ M.core.gateways ex, o.childId = c) ∨ ∃ x ∈ M.orders, x.order.childId = c

end Market

/-- What an exchange can do: fill what is left of an order that has not ended, end one that is not
used up, and report what happened to the child the order is for. -/
def Move.Possible : Move → Market → Prop
  | .env e, _ => ∀ ex, e ≠ .gatewayPop ex
  | .execute i rep, M => ∃ x, M.orders[i]? = some x ∧ x.ended = none ∧
      rep.childId = x.order.childId ∧ rep.execType.isFill = true ∧ 1 ≤ rep.fillQtyLots ∧
      x.executed + rep.fillQtyLots ≤ x.order.qtyLots
  | .close i rep, M => ∃ x, M.orders[i]? = some x ∧ x.ended = none ∧
      rep.childId = x.order.childId ∧ rep.execType.isEnd = true ∧
      (x.executed < x.order.qtyLots ∨ x.order.qtyLots ≤ 0)
  | .acknowledge _ i rep, M => ∃ x, M.orders[i]? = some x ∧ rep.childId = x.order.childId ∧
      rep.execType = .new
  | .deliver _ i j, M => ∃ x, M.orders[i]? = some x ∧ j < x.reports.length
  | .deliverEnd _ i, M => ∃ x, M.orders[i]? = some x ∧ x.ended.isSome ∧ x.reports = []
  | _, _ => True

/-- The call of the core that a move makes. -/
def Move.call : Move → Market → Option (World × Call)
  | .signal w sig, _ => some (w, .signal sig)
  | .visit w slot idx, _ => some (w, .visit slot idx)
  | .acknowledge w _ rep, _ => some (w, .report rep)
  | .deliver w i j, M => ((M.orders[i]?).bind fun x => x.reports[j]?).map fun rep => (w, .report rep)
  | .deliverEnd w i, M => ((M.orders[i]?).bind fun x => x.ended).map fun rep => (w, .report rep)
  | _, _ => none

/-- The exchanges keep to their part, signals ask for at least one lot, the router is sound, and all
lot sizes are the canonical one. -/
structure Move.Legal (cfg : ExecCoreConfig) (m : Move) (M : Market) : Prop where
  possible : m.Possible M
  asks : ∀ w sig, m = .signal w sig → 1 ≤ sig.qtyLots
  scaled : ∀ w c, m.call M = some (w, c) → c.Scaled cfg canonical w M.core
  sound : ∀ w c, m.call M = some (w, c) → w.router.Sound

/-- No timer fires for a child whose order is out. -/
def Move.Patient : Move → Market → Prop
  | .visit _ slot idx, M => ∀ e, M.core.timerWheel.entryAt slot idx = some e → ¬ M.Out e.childId
  | _, _ => True

/-- What keeps a run from executing too much. -/
structure Move.Safe (cfg : ExecCoreConfig) (m : Move) (M : Market) : Prop where
  legal : m.Legal cfg M
  patient : m.Patient M

end OmsFormal.Oms
