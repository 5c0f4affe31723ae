import OmsFormal.OmsTypes

/-!
# Book snapshots

The volatility and imbalance the feed handler leaves for reroutes. Timestamps
are 64-bit unsigned, and the age of a snapshot is their wrapping difference.
-/

namespace OmsFormal.Oms
open Sor
set_option autoImplicit false

structure ExchangeSnapshot where
  volFactor : ℚ
  bookImbalance : ℚ
  midPriceUsd : ℚ
  lastUpdateNs : UInt64
  deriving DecidableEq

def kMaxStaleNs : UInt64 := 2000000000

/-- The freshness flag of `ExchangeSnapshot::read`. -/
def ExchangeSnapshot.fresh (s : ExchangeSnapshot) (nowNs : UInt64) : Bool :=
  decide (s.lastUpdateNs > 0) && decide (nowNs - s.lastUpdateNs < kMaxStaleNs)

structure BookSnapshotCache where
  exchanges : ℕ → ExchangeSnapshot

structure RoutingInputs where
  shortVolFactor : ℚ
  bookImbalance : ℚ
  dataFresh : Bool
  deriving DecidableEq

namespace BookSnapshotCache

def init : BookSnapshotCache := ⟨fun _ => ⟨0, 0, 0, 0⟩⟩

/-- The scan keeps the freshest snapshot so far together with its timestamp. -/
def getRoutingInputs (c : BookSnapshotCache) (dir : OrderDir) (nowNs : UInt64) : RoutingInputs :=
  ((List.range kMaxExchanges).foldl (fun (best : UInt64 × RoutingInputs) i =>
    let r := c.exchanges i
    if r.fresh nowNs && decide (r.lastUpdateNs > best.1) then
      (r.lastUpdateNs,
        { shortVolFactor := r.volFactor
          bookImbalance := match dir with
            | .buy => r.bookImbalance
            | .sell => -r.bookImbalance
          dataFresh := true })
    else best) (0, ⟨0, 0, false⟩)).2

end BookSnapshotCache

end OmsFormal.Oms
