import OmsFormal.RoutingTypes

/-!
# Order management types

Signals, execution reports, rejects and outbound orders, and the one table that
says what a lot of each instrument is. Canonical quantities count lots of
`InstrumentTable.lotSize`, native quantities lots of one venue's book.
-/

namespace OmsFormal.Oms
open Sor
set_option autoImplicit false

def kMaxParentOrders : ℕ := 4096
def kMaxTotalChildren : ℕ := kMaxParentOrders * 8
def kMaxInstruments : ℕ := 64
def kInvalidOrderId : ℕ := 0xFFFFFFFF

structure InstrumentTable where
  instruments : ℕ → ℚ

namespace InstrumentTable

def kFallbackLotSize : ℚ := 1 / 1000

def lotSize (t : InstrumentTable) (id : ℕ) : ℚ :=
  if id < kMaxInstruments ∧ t.instruments id > 0 then t.instruments id else kFallbackLotSize

theorem lotSize_pos (t : InstrumentTable) (id : ℕ) : 0 < t.lotSize id := by
  unfold lotSize
  split
  · rename_i h
    exact h.2
  · norm_num [kFallbackLotSize]

end InstrumentTable

inductive OrderState where
  | new | pendingNew | partiallyFilled | filled | pendingCancel | canceled | rejected
  deriving DecidableEq, Repr

/-- Still working at the venue, as far as the order store knows. -/
def OrderState.working : OrderState → Bool
  | .pendingNew => true
  | .partiallyFilled => true
  | _ => false

def OrderState.terminal : OrderState → Bool
  | .filled => true
  | .canceled => true
  | .rejected => true
  | _ => false

theorem OrderState.not_terminal_of_working {st : OrderState} (h : st.working = true) :
    st.terminal = false := by
  cases st <;> simp_all [OrderState.working, OrderState.terminal]

inductive ExecType where
  | new | partialFill | fill | canceled | rejected | replaced
  deriving DecidableEq, Repr

structure StrategyOrderSignal where
  limitPriceUsd : ℚ
  qtyLots : ℤ
  instrId : ℕ
  dir : OrderDir
  strategyId : ℕ
  orderType : Sor.OrderType
  reduceOnly : Bool
  signalNs : ℕ
  shortVolFactor : ℚ
  bookImbalance : ℚ
  deriving DecidableEq

/-- `fillQtyLots` counts native lots of the reporting child's venue. -/
structure ExecutionReport where
  childId : ℕ
  fillPriceTicks : ℤ
  fillQtyLots : ℤ
  execType : ExecType
  exchangeId : ℕ
  exchangeNs : ℕ
  recvNs : ℕ
  deriving DecidableEq, Repr

inductive RejectReason where
  | riskFatFinger | riskPositionLimit | riskNotional | riskMargin | notionalGateBlock
  | parentPoolExhausted | childPoolExhausted | noLiquidity | reduceOnlyViolation
  deriving DecidableEq, Repr

structure OrderReject where
  qtyLots : ℤ
  instrId : ℕ
  dir : OrderDir
  strategyId : ℕ
  reason : RejectReason
  rejectNs : ℕ
  deriving DecidableEq, Repr

/-- What goes on the wire to a gateway. There is no cancel message. -/
structure OutboundOrder where
  childId : ℕ
  price : ℤ
  qtyLots : ℤ
  dir : OrderDir
  orderType : Sor.OrderType
  exchangeId : ℕ
  instrId : ℕ
  deriving DecidableEq, Repr

end OmsFormal.Oms
