import OmsFormal.RoutingTypes

/-!
# The routing engine

`calculateOptimalSplit` merges the sorted book sides of the active venues by
effective price and sweeps the merged slices greedily; `calculateMakerPlacement`
posts one order at the best fee-adjusted touch. `exp` stands for the standard
library's exponential, the one function here that leaves the rationals.
-/

namespace OmsFormal.Sor
open Rounding
set_option autoImplicit false

structure RoutingEngine where
  fees : FeeMatrix
  exp : ℚ → ℚ

def kLatDecay : ℚ := 2 / 10000
def kVolFillPenalty : ℚ := 1 / 10
def kImbFillPenalty : ℚ := 8 / 100
def kMinFillRate : ℚ := 1 / 2

/-- The merge cursor of one venue: all per-venue scalars, computed once. -/
structure Cursor where
  state : ExchangeState
  levels : List Level
  tickSize : ℚ
  lotSize : ℚ
  lotRatio : ℚ
  fillRate : ℚ
  penaltyTicks : ℤ
  dirSign : ℤ
  limitTicks : ℤ
  minLots : ℤ
  maxLots : ℤ
  levelIdx : ℕ
  exhausted : Bool

def Cursor.level (c : Cursor) : Level := c.levels.getD c.levelIdx ⟨0, 0⟩

/-- The loop of `seek_next_valid`; the fuel is the number of levels left. -/
def seekLoop : ℕ → Cursor → Cursor
  | 0, c => { c with exhausted := true }
  | fuel + 1, c =>
    let pt := c.level.priceTicks
    if c.limitTicks ≠ 0 ∧ c.dirSign > 0 ∧ pt > c.limitTicks then { c with exhausted := true }
    else if c.limitTicks ≠ 0 ∧ c.dirSign < 0 ∧ pt < c.limitTicks then { c with exhausted := true }
    else if c.level.qtyLots ≥ c.minLots then c
    else seekLoop fuel { c with levelIdx := c.levelIdx + 1 }

def seekNextValid (c : Cursor) : Cursor := seekLoop (c.levels.length - c.levelIdx) c

def dirSign : OrderDir → ℤ
  | .buy => 1
  | .sell => -1

/-- A taker crosses into the opposite side of the book. -/
def takerSide : OrderDir → Side
  | .buy => .ask
  | .sell => .bid

/-- A maker rests on its own side of the book. -/
def makerSide : OrderDir → Side
  | .buy => .bid
  | .sell => .ask

def directionalImbalance (dir : OrderDir) (bookImbalance : ℚ) : ℚ :=
  match dir with
  | .buy => if bookImbalance > 0 then bookImbalance else 0
  | .sell => if bookImbalance < 0 then -bookImbalance else 0

namespace RoutingEngine

def estimateFillRate (eng : RoutingEngine) (rttUs volFactor directionalImb : ℚ) : ℚ :=
  let lat := eng.exp (-kLatDecay * rttUs)
  let vol := 1 - kVolFillPenalty * volFactor
  let imbPos := if directionalImb > 0 then directionalImb else 0
  let imb := 1 - kImbFillPenalty * imbPos
  let rate := lat * vol * imb
  if rate > kMinFillRate then rate else kMinFillRate

/-- The cursor of venue `state` before its first `seek_next_valid`. -/
def openCursor (eng : RoutingEngine) (ctx : RoutingContext) (state : ExchangeState) : Cursor :=
  let levels := state.book.sides (takerSide ctx.dir)
  let directionalImb := directionalImbalance ctx.dir ctx.bookImbalance
  let combinedAdj := eng.fees.taker state.exchangeId
    + state.latency.dynamicCostAdj ctx.shortVolFactor directionalImb
  let refTicks := (levels.head?.map Level.priceTicks).getD 0
  { state := state
    levels := levels
    tickSize := state.book.tickSize
    lotSize := state.book.lotSize
    lotRatio := state.book.lotSize / resolveReferenceLotSize ctx
    fillRate := eng.estimateFillRate state.latency.ewmaRttUs ctx.shortVolFactor directionalImb
    penaltyTicks := roundHalfAway (refTicks * combinedAdj)
    dirSign := dirSign ctx.dir
    limitTicks := if ctx.limitPrice > 0 then roundHalfAway (ctx.limitPrice / state.book.tickSize) else 0
    minLots := roundHalfAway (state.lot.minQty / state.book.lotSize)
    maxLots := truncate (state.lot.maxQty / state.book.lotSize)
    levelIdx := 0
    exhausted := levels.isEmpty }

/-- The cursors of the enabled venues that have a level to offer, in venue order. -/
def openCursors (eng : RoutingEngine) (ctx : RoutingContext) : List Cursor :=
  (List.range ctx.activeExchanges).filterMap fun ex =>
    let state := ctx.states ex
    if !state.enabled || !state.book.isValid then none
    else
      let c := eng.openCursor ctx state
      let c := if c.exhausted then c else seekNextValid c
      if c.exhausted then none else some c

end RoutingEngine

/-- Linear scan for the smallest effective price, first cursor on a tie. -/
def scanBest : List Cursor → ℕ → Option (ℕ × ℤ) → Option (ℕ × ℤ)
  | [], _, best => best
  | c :: cs, k, best =>
    if c.exhausted then scanBest cs (k + 1) best
    else
      let eff := c.dirSign * c.level.priceTicks + c.penaltyTicks
      match best with
      | none => scanBest cs (k + 1) (some (k, eff))
      | some (_, bestEff) =>
        if eff < bestEff then scanBest cs (k + 1) (some (k, eff)) else scanBest cs (k + 1) best

/-- The merge loop of `build_cost_slices`. Every round advances one cursor, so
the number of levels bounds the rounds. -/
def mergeLoop : ℕ → List Cursor → List CostSlice → List CostSlice
  | 0, _, slices => slices
  | fuel + 1, cursors, slices =>
    if kMaxChildOrders ≤ slices.length then slices
    else
      match scanBest cursors 0 none with
      | none => slices
      | some (bestK, bestEff) =>
        match cursors[bestK]? with
        | none => slices
        | some c =>
          let lv := c.level
          let clamped := if lv.qtyLots < c.maxLots then lv.qtyLots else c.maxLots
          let adjLots := truncate (clamped * c.fillRate)
          let cursors := cursors.set bestK (seekNextValid { c with levelIdx := c.levelIdx + 1 })
          if adjLots = 0 then mergeLoop fuel cursors slices
          else
            let canonicalLots := roundHalfAway (adjLots * c.lotRatio)
            if canonicalLots = 0 then mergeLoop fuel cursors slices
            else
              mergeLoop fuel cursors (slices ++
                [{ effectiveTicks := bestEff
                   availableLots := canonicalLots
                   rawPriceTicks := lv.priceTicks
                   exchangeId := c.state.exchangeId
                   levelIdx := c.levelIdx }])

def levelCount (cursors : List Cursor) : ℕ := (cursors.map fun c => c.levels.length).sum

def RoutingEngine.buildCostSlices (eng : RoutingEngine) (ctx : RoutingContext) : List CostSlice :=
  let cursors := eng.openCursors ctx
  mergeLoop (levelCount cursors + 1) cursors []

/-- The accumulators of the greedy sweep. -/
structure GreedyState where
  remainingLots : ℤ
  out : List ChildOrder
  totalEffectiveCost : ℚ
  filledQty : ℚ
  childCount : ℕ
  bestRawTicks : ℤ
  worstRawTicks : ℤ
  adverse : ℚ

/-- One slice of the greedy sweep. -/
def greedyStep (ctx : RoutingContext) (slice : CostSlice) (g : GreedyState) : GreedyState :=
  let refLotSize := resolveReferenceLotSize ctx
  let state := ctx.states slice.exchangeId
  let fillLots := if g.remainingLots < slice.availableLots then g.remainingLots else slice.availableLots
  let minLots := roundHalfAway (state.lot.minQty / refLotSize)
  if fillLots < minLots then g
  else
    let tickSz := state.book.tickSize
    let fillQty := fillLots * refLotSize
    let rawPrice := slice.rawPriceTicks * tickSz
    let effCost := fillQty * (slice.effectiveTicks * tickSz)
    { remainingLots := g.remainingLots - fillLots
      out := g.out ++ [{ price := rawPrice, qty := fillQty, effectiveCost := effCost,
                         exchangeId := slice.exchangeId, levelIdx := slice.levelIdx,
                         type := .taker, dir := ctx.dir }]
      totalEffectiveCost := g.totalEffectiveCost + effCost
      filledQty := g.filledQty + fillQty
      childCount := g.childCount + 1
      bestRawTicks := if g.childCount = 0 then slice.rawPriceTicks else g.bestRawTicks
      worstRawTicks := slice.rawPriceTicks
      adverse := g.adverse + fillQty * rawPrice * state.latency.latencyCostAdj }

def greedyLoop (ctx : RoutingContext) : List CostSlice → GreedyState → GreedyState
  | [], g => g
  | slice :: rest, g =>
    if g.remainingLots = 0 then g else greedyLoop ctx rest (greedyStep ctx slice g)

def greedyFill (slices : List CostSlice) (ctx : RoutingContext) : SplitResult × List ChildOrder :=
  let refLotSize := resolveReferenceLotSize ctx
  if slices.isEmpty then
    ({ SplitResult.empty with unfilledQty := fromLots ctx.targetLots refLotSize }, [])
  else
    let g := greedyLoop ctx slices ⟨ctx.targetLots, [], 0, 0, 0, 0, 0, 0⟩
    let result : SplitResult :=
      { SplitResult.empty with
        success := decide (g.remainingLots = 0)
        childCount := g.childCount
        filledQty := g.filledQty
        unfilledQty := fromLots g.remainingLots refLotSize
        totalEffectiveCost := g.totalEffectiveCost }
    if g.filledQty > 1 / 1000000000 then
      let tickDiff := match ctx.dir with
        | .buy => g.worstRawTicks - g.bestRawTicks
        | .sell => g.bestRawTicks - g.worstRawTicks
      ({ result with
          avgEffectivePrice := g.totalEffectiveCost / g.filledQty
          adverseSelectionEst := g.adverse
          marketImpactBps := if g.bestRawTicks > 0 then tickDiff / g.bestRawTicks * 10000 else 0 }, g.out)
    else (result, g.out)

/-- The best touch seen so far by the maker scan. -/
structure MakerTouch where
  state : ExchangeState
  rawTicks : ℤ
  effTicks : ℤ

namespace RoutingEngine

def calculateOptimalSplit (eng : RoutingEngine) (ctx : RoutingContext) :
    SplitResult × List ChildOrder :=
  greedyFill (eng.buildCostSlices ctx) ctx

/-- The touch venue `state` offers a maker order, unless it breaks the limit. -/
def makerTouch (eng : RoutingEngine) (ctx : RoutingContext) (state : ExchangeState) :
    Option MakerTouch :=
  if !state.enabled || !state.book.isValid then none
  else
    match state.book.sides (makerSide ctx.dir) with
    | [] => none
    | lv :: _ =>
      let rawTicks := lv.priceTicks
      let limitTicks := roundHalfAway (ctx.limitPrice / state.book.tickSize)
      let worse := if dirSign ctx.dir > 0 then rawTicks > limitTicks else rawTicks < limitTicks
      if ctx.limitPrice > 0 ∧ worse then none
      else
        let feeTicks := roundHalfAway (rawTicks * eng.fees.maker state.exchangeId)
        some ⟨state, rawTicks, dirSign ctx.dir * rawTicks + feeTicks⟩

def bestTouch (eng : RoutingEngine) (ctx : RoutingContext) : Option MakerTouch :=
  (List.range ctx.activeExchanges).foldl (fun best ex =>
    match eng.makerTouch ctx (ctx.states ex) with
    | none => best
    | some t =>
      match best with
      | none => some t
      | some b => if t.effTicks < b.effTicks then some t else some b) none

def calculateMakerPlacement (eng : RoutingEngine) (ctx : RoutingContext) :
    SplitResult × List ChildOrder :=
  match eng.bestTouch ctx with
  | none => (SplitResult.empty, [])
  | some t =>
    let refLotSize := resolveReferenceLotSize ctx
    let tickSize := t.state.book.tickSize
    let co : ChildOrder :=
      { price := t.rawTicks * tickSize, qty := ctx.targetLots * refLotSize,
        effectiveCost := t.effTicks * tickSize, exchangeId := t.state.exchangeId, levelIdx := 0,
        type := .maker, dir := ctx.dir }
    let spread := match t.state.book.sides (takerSide ctx.dir) with
      | [] => 0
      | lv :: _ =>
        if t.rawTicks ≠ 0 then |lv.priceTicks - t.rawTicks| / |t.rawTicks| * (10000 : ℚ) else 0
    ({ SplitResult.empty with
        success := true
        childCount := 1
        unfilledQty := co.qty
        avgEffectivePrice := co.effectiveCost
        totalEffectiveCost := co.effectiveCost * co.qty
        spreadCaptureBps := spread }, [co])

end RoutingEngine

/-- The two routing decisions as the execution core consumes them. -/
structure Router where
  optimalSplit : RoutingContext → List ChildOrder
  makerPlacement : RoutingContext → List ChildOrder

def RoutingEngine.router (eng : RoutingEngine) : Router where
  optimalSplit ctx := (eng.calculateOptimalSplit ctx).2
  makerPlacement ctx := (eng.calculateMakerPlacement ctx).2

/-- A router that, for a positive target in a positive unit, only hands back allocations of it. -/
structure Router.Sound (rt : Router) : Prop where
  split : ∀ ctx, 1 ≤ ctx.targetLots → 0 < ctx.referenceLotSize → Allocation ctx (rt.optimalSplit ctx)
  maker : ∀ ctx, 1 ≤ ctx.targetLots → 0 < ctx.referenceLotSize → Allocation ctx (rt.makerPlacement ctx)

end OmsFormal.Sor
