import OmsFormal.Positions

/-!
# Pre-trade checks

The notional confirmation gate, the risk engine and the reduce-only clamp: what
stands between a signal and the router.
-/

namespace OmsFormal.Oms
open Sor
set_option autoImplicit false

structure RiskLimits where
  maxOrderLots : ℕ → ℤ
  maxNetLots : ℕ → ℤ
  maxNotionalUsd : ℚ
  minMarginRequired : ℚ

inductive RiskRejectReason where
  | ok | fatFinger | positionLimit | margin | notional | disabled
  deriving DecidableEq, Repr

section RiskEngine
variable (limits : RiskLimits) (instruments : InstrumentTable) (pos : PositionTable)

def checkFatFinger (sig : StrategyOrderSignal) : RiskRejectReason :=
  let max := limits.maxOrderLots sig.instrId
  if max > 0 ∧ sig.qtyLots > max then .fatFinger else .ok

def checkPosition (sig : StrategyOrderSignal) : RiskRejectReason :=
  let max := limits.maxNetLots sig.instrId
  if max = 0 then .ok
  else
    let net := (pos.instruments sig.instrId).netQtyLots
    let proposed := match sig.dir with
      | .buy => net + sig.qtyLots
      | .sell => net - sig.qtyLots
    let absProposed := if proposed < 0 then -proposed else proposed
    if absProposed > max then .positionLimit else .ok

def checkMargin (sig : StrategyOrderSignal) : RiskRejectReason :=
  let notional := sig.qtyLots * instruments.lotSize sig.instrId * sig.limitPriceUsd
  if limits.maxNotionalUsd > 0 ∧ sig.limitPriceUsd > 0 ∧ notional > limits.maxNotionalUsd then .notional
  else if pos.margin.marginAvailable < limits.minMarginRequired then .margin
  else .ok

def validate (sig : StrategyOrderSignal) : RiskRejectReason :=
  if sig.instrId ≥ kMaxInstruments then .disabled
  else if checkFatFinger limits sig ≠ .ok then .fatFinger
  else if checkPosition limits pos sig ≠ .ok then .positionLimit
  else checkMargin limits instruments pos sig

end RiskEngine

/-- A BUY reduces a short, a SELL a long. -/
def reducesSomething (dir : OrderDir) (net : ℤ) : Bool :=
  match dir with
  | .buy => decide (net < 0)
  | .sell => decide (net > 0)

/-- Lots of the confirmed position not yet spoken for by orders in the same direction. -/
def headroom (p : InstrumentPosition) (dir : OrderDir) : ℤ :=
  (if p.netQtyLots < 0 then -p.netQtyLots else p.netQtyLots) - p.openLots dir

def clampReduceOnlyImpl (p : InstrumentPosition) (dir : OrderDir) (qtyLots : ℤ)
    (reduceOnlyRequested : Bool) : ℤ :=
  if !reduceOnlyRequested && !p.unwindOnly then qtyLots
  else if !reducesSomething dir p.netQtyLots then 0
  else if headroom p dir ≤ 0 then 0
  else if qtyLots < headroom p dir then qtyLots
  else headroom p dir

def clampReduceOnly (pos : PositionTable) (instrId : ℕ) (dir : OrderDir) (qtyLots : ℤ)
    (reduceOnlyRequested : Bool) : ℤ :=
  if instrId ≥ kMaxInstruments then qtyLots
  else clampReduceOnlyImpl (pos.instruments instrId) dir qtyLots reduceOnlyRequested

structure NotionalGateConfig where
  autoApproveUsd : ℚ
  hardBlockUsd : ℚ

/-- The operator's line at the prompt, `none` when it cannot be read. -/
def promptConfirmation (reply : Option (List Char)) : Bool :=
  match reply with
  | none => false
  | some line => line.take 3 == "yes".toList

def approve (cfg : NotionalGateConfig) (instruments : InstrumentTable) (reply : Option (List Char))
    (sig : StrategyOrderSignal) : Bool :=
  if sig.limitPriceUsd ≤ 0 then true
  else
    let notional := sig.qtyLots * instruments.lotSize sig.instrId * sig.limitPriceUsd
    if cfg.hardBlockUsd > 0 ∧ notional > cfg.hardBlockUsd then false
    else if notional ≤ cfg.autoApproveUsd then true
    else promptConfirmation reply

end OmsFormal.Oms
