import OmsFormal.OmsTypes
import Mathlib.Logic.Function.Basic

/-!
# Positions and margin

Per-instrument position and open-lot counters, and the margin monitor that
writes the available margin into the same table.
-/

namespace OmsFormal.Oms
open Sor
set_option autoImplicit false

structure InstrumentPosition where
  netQtyLots : ℤ
  openBuyLots : ℤ
  openSellLots : ℤ
  avgEntryPrice : ℚ
  unwindOnly : Bool
  deriving DecidableEq

namespace InstrumentPosition

def zero : InstrumentPosition := ⟨0, 0, 0, 0, false⟩

def applyFill (dir : OrderDir) (lots : ℤ) (price : ℚ) (p : InstrumentPosition) : InstrumentPosition :=
  let signedLots := match dir with
    | .buy => lots
    | .sell => -lots
  let prev := p.netQtyLots
  let next := prev + signedLots
  let prevAbs : ℚ := if prev < 0 then -prev else prev
  let nextAbs : ℚ := if next < 0 then -next else next
  let nextAvg : ℚ :=
    if nextAbs > 1 / 1000000000 then
      if decide (prev ≥ 0) = decide (next ≥ 0) then
        (p.avgEntryPrice * prevAbs + price * lots) / (prevAbs + lots)
      else price
    else 0
  { p with netQtyLots := next, avgEntryPrice := nextAvg }

def openLots (p : InstrumentPosition) : OrderDir → ℤ
  | .buy => p.openBuyLots
  | .sell => p.openSellLots

def reserveOpen (dir : OrderDir) (lots : ℤ) (p : InstrumentPosition) : InstrumentPosition :=
  match dir with
  | .buy => { p with openBuyLots := p.openBuyLots + lots }
  | .sell => { p with openSellLots := p.openSellLots + lots }

def releaseOpen (dir : OrderDir) (lots : ℤ) (p : InstrumentPosition) : InstrumentPosition :=
  match dir with
  | .buy => { p with openBuyLots := p.openBuyLots - lots }
  | .sell => { p with openSellLots := p.openSellLots - lots }

end InstrumentPosition

structure MarginState where
  totalEquity : ℚ
  marginUsed : ℚ
  marginAvailable : ℚ
  deriving DecidableEq

def MarginState.update (equity used : ℚ) : MarginState := ⟨equity, used, equity - used⟩

structure PositionTable where
  instruments : ℕ → InstrumentPosition
  margin : MarginState

def PositionTable.modify (id : ℕ) (f : InstrumentPosition → InstrumentPosition)
    (t : PositionTable) : PositionTable :=
  { t with instruments := Function.update t.instruments id (f (t.instruments id)) }

theorem PositionTable.modify_modify (pos : PositionTable) (i : ℕ)
    (f g : InstrumentPosition → InstrumentPosition) :
    (pos.modify i f).modify i g = pos.modify i fun p => g (f p) := by
  simp [PositionTable.modify]

theorem PositionTable.modify_eq_self {pos : PositionTable} {i : ℕ}
    {f : InstrumentPosition → InstrumentPosition} :
    pos.modify i f = pos ↔ f (pos.instruments i) = pos.instruments i := by
  constructor
  · intro h
    have hi := congrFun (congrArg PositionTable.instruments h) i
    simpa [PositionTable.modify] using hi
  · intro h
    simp [PositionTable.modify, h]

structure MarginConfig where
  initialMarginRate : ℚ
  equityUsd : ℚ

structure MarginMonitor where
  localEquity : ℚ
  lockedMargin : ℚ
  upnl : ℚ
  restUpdateNs : ℕ
  deriving DecidableEq

namespace MarginMonitor

def init (cfg : MarginConfig) : MarginMonitor := ⟨cfg.equityUsd, 0, 0, 0⟩

/-- The margin state `recompute_available` writes: positive unrealised profit does not count. -/
def recomputeAvailable (m : MarginMonitor) : MarginState :=
  MarginState.update (m.localEquity + if m.upnl < 0 then m.upnl else 0) m.lockedMargin

def onFill (cfg : MarginConfig) (fillLots : ℤ) (fillPriceUsd lotSize : ℚ) (m : MarginMonitor) :
    MarginMonitor :=
  let notional := fillLots * lotSize * fillPriceUsd
  { m with lockedMargin := m.lockedMargin + notional * cfg.initialMarginRate }

def onRelease (cfg : MarginConfig) (lots : ℤ) (priceUsd lotSize : ℚ) (m : MarginMonitor) :
    MarginMonitor :=
  let marginDelta := lots * lotSize * priceUsd * cfg.initialMarginRate
  { m with lockedMargin := if m.lockedMargin > marginDelta then m.lockedMargin - marginDelta else 0 }

def onRestUpdate (equityUsd usedMarginUsd : ℚ) (tsNs : ℕ) (m : MarginMonitor) : MarginMonitor :=
  { m with localEquity := equityUsd, lockedMargin := usedMarginUsd, restUpdateNs := tsNs }

/-- `none` when the position is flat and the call returns early. -/
def onMarkPrice (p : InstrumentPosition) (markUsd lotSize : ℚ) (m : MarginMonitor) :
    Option MarginMonitor :=
  if p.netQtyLots = 0 ∨ p.avgEntryPrice ≤ 0 then none
  else some { m with upnl := (markUsd - p.avgEntryPrice) * (p.netQtyLots * lotSize) }

end MarginMonitor

end OmsFormal.Oms
