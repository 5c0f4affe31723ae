import OmsFormal.Rounding

/-!
# Smart order router: books, venues and routing requests

The data the router reads and writes. Prices are integer ticks and quantities
integer lots of one venue; every `double` of the source is an exact rational.
Fields that no modelled function reads (cumulative depth, sequence numbers,
update times) are left out.
-/

namespace OmsFormal.Sor
open Rounding
set_option autoImplicit false

def kMaxExchanges : ℕ := 5
def kMaxDepth : ℕ := 20
def kMaxChildOrders : ℕ := kMaxExchanges * kMaxDepth

def toTicks (price tickSize : ℚ) : ℤ := roundHalfAway (price / tickSize)
def toLots (qty lotSize : ℚ) : ℤ := truncate (qty / lotSize)
def fromLots (lots : ℤ) (lotSize : ℚ) : ℚ := lots * lotSize

inductive Side where
  | bid | ask
  deriving DecidableEq, Repr

inductive OrderDir where
  | buy | sell
  deriving DecidableEq, Repr

inductive OrderType where
  | maker | taker
  deriving DecidableEq, Repr

structure FeeMatrix where
  maker : ℕ → ℚ
  taker : ℕ → ℚ

/-- One price level of a book side, quantity in the venue's native lots. -/
structure Level where
  priceTicks : ℤ
  qtyLots : ℤ
  deriving DecidableEq, Repr

/-- `sides` is best-first; the length of a side is the source's `count`. -/
structure NormalizedBook where
  sides : Side → List Level
  tickSize : ℚ
  lotSize : ℚ
  isValid : Bool

structure LatencyTracker where
  ewmaRttUs : ℚ

namespace LatencyTracker

def kPenaltyBpsPerUs : ℚ := 1 / 1000
def kVolSensitivity : ℚ := 2
def kImbSensitivity : ℚ := 3 / 2

def latencyCostAdj (t : LatencyTracker) : ℚ := kPenaltyBpsPerUs * t.ewmaRttUs * (1 / 10000)

def dynamicCostAdj (t : LatencyTracker) (volFactor directionalImb : ℚ) : ℚ :=
  let base := kPenaltyBpsPerUs * t.ewmaRttUs * (1 / 10000)
  let volScale := 1 + kVolSensitivity * volFactor
  let imbPos := if directionalImb > 0 then directionalImb else 0
  base * volScale * (1 + kImbSensitivity * imbPos)

end LatencyTracker

/-- Size limits of one venue in real-world units. A minimum order size is an
amount, never negative. -/
structure LotConstraints where
  minQty : ℚ
  maxQty : ℚ
  minQty_nonneg : 0 ≤ minQty

/-- A venue with no minimum size. -/
def LotConstraints.upTo (maxQty : ℚ) : LotConstraints := ⟨0, maxQty, le_rfl⟩

structure ExchangeState where
  book : NormalizedBook
  latency : LatencyTracker
  lot : LotConstraints
  exchangeId : ℕ
  enabled : Bool

/-- Everything one routing decision needs. `limitPrice = 0` is no limit and
`referenceLotSize = 0` falls back to the first venue's lot size. -/
structure RoutingContext where
  states : ℕ → ExchangeState
  activeExchanges : ℕ
  dir : OrderDir
  targetLots : ℤ
  limitPrice : ℚ
  referenceLotSize : ℚ
  decisionNs : ℕ
  shortVolFactor : ℚ
  bookImbalance : ℚ

structure ChildOrder where
  price : ℚ
  qty : ℚ
  effectiveCost : ℚ
  exchangeId : ℕ
  levelIdx : ℕ
  type : OrderType
  dir : OrderDir
  deriving DecidableEq

structure CostSlice where
  effectiveTicks : ℤ
  availableLots : ℤ
  rawPriceTicks : ℤ
  exchangeId : ℕ
  levelIdx : ℕ
  deriving DecidableEq, Repr

structure SplitResult where
  success : Bool
  childCount : ℕ
  filledQty : ℚ
  unfilledQty : ℚ
  totalEffectiveCost : ℚ
  avgEffectivePrice : ℚ
  spreadCaptureBps : ℚ
  marketImpactBps : ℚ
  adverseSelectionEst : ℚ
  deriving DecidableEq

/-- A value-initialised result, what a router returns before it finds anything. -/
def SplitResult.empty : SplitResult :=
  ⟨false, 0, 0, 0, 0, 0, 0, 0, 0⟩

def resolveReferenceLotSize (ctx : RoutingContext) : ℚ :=
  if ctx.referenceLotSize > 0 then ctx.referenceLotSize else (ctx.states 0).book.lotSize

/-- The canonical lots of a child order, in the unit of its routing request. -/
def ChildOrder.lots (co : ChildOrder) (refLotSize : ℚ) : ℤ := roundHalfAway (co.qty / refLotSize)

/-- What a routing decision may hand back: at most `kMaxChildOrders` children,
each a whole positive number of canonical lots, together at most the target. -/
structure Allocation (ctx : RoutingContext) (out : List ChildOrder) : Prop where
  count : out.length ≤ kMaxChildOrders
  whole : ∀ co ∈ out, co.qty = co.lots (resolveReferenceLotSize ctx) * resolveReferenceLotSize ctx
  pos : ∀ co ∈ out, 1 ≤ co.lots (resolveReferenceLotSize ctx)
  total : (out.map fun co => co.lots (resolveReferenceLotSize ctx)).sum ≤ ctx.targetLots

theorem Allocation.nil {ctx : RoutingContext} (h : 0 ≤ ctx.targetLots) : Allocation ctx [] :=
  ⟨by simp, by simp, by simp, by simpa using h⟩

/-- A child written as a whole number of canonical lots has that many. -/
theorem ChildOrder.lots_of_qty {co : ChildOrder} {ref : ℚ} (hr : 0 < ref) {n : ℤ}
    (h : co.qty = n * ref) : co.lots ref = n := by
  rw [ChildOrder.lots, h, roundHalfAway_mul_div hr]

theorem resolveReferenceLotSize_of_pos {ctx : RoutingContext} (h : 0 < ctx.referenceLotSize) :
    resolveReferenceLotSize ctx = ctx.referenceLotSize := if_pos h

end OmsFormal.Sor
