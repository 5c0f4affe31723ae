import Mathlib.Algebra.Order.Archimedean.Basic
import Mathlib.Tactic.LinearCombination
import OmsFormal.SplitSweep
import OmsFormal.Runs

/-!
# The routing inputs of a reroute

A first dispatch hands the signed imbalance of its signal to the router. A reroute
reads the freshest snapshot, but turns the sign of its imbalance for a sale, and
the router applies the direction again. So a purchase is rerouted as it would be
dispatched, and a sale only where the book is balanced.
-/

namespace OmsFormal.Oms
open Sor Rounding
set_option autoImplicit false

namespace BookSnapshotCache

/-- The first of the latest fresh snapshots. -/
structure Freshest (c : BookSnapshotCache) (nowNs : UInt64) (i : ℕ) : Prop where
  bound : i < kMaxExchanges
  fresh : (c.exchanges i).fresh nowNs = true
  earlier : ∀ j < i, (c.exchanges j).fresh nowNs = true →
    (c.exchanges j).lastUpdateNs < (c.exchanges i).lastUpdateNs
  later : ∀ j < kMaxExchanges, (c.exchanges j).fresh nowNs = true →
    (c.exchanges j).lastUpdateNs ≤ (c.exchanges i).lastUpdateNs

/-- One snapshot of the scan. -/
def keepFresher (c : BookSnapshotCache) (dir : OrderDir) (nowNs : UInt64)
    (best : UInt64 × RoutingInputs) (i : ℕ) :
    UInt64 × RoutingInputs :=
  let r := c.exchanges i
  if r.fresh nowNs && decide (r.lastUpdateNs > best.1) then
    (r.lastUpdateNs,
      { shortVolFactor := r.volFactor
        bookImbalance := match dir with
          | .buy => r.bookImbalance
          | .sell => -r.bookImbalance
        dataFresh := true })
  else best

variable {c : BookSnapshotCache} {dir : OrderDir} {nowNs : UInt64}

theorem foldl_before (dir : OrderDir) {t : UInt64} (l : List ℕ) (best : UInt64 × RoutingInputs)
    (hbest : best.1 < t)
    (hl : ∀ j ∈ l, (c.exchanges j).fresh nowNs = true → (c.exchanges j).lastUpdateNs < t) :
    (l.foldl (c.keepFresher dir nowNs) best).1 < t := by
  induction l generalizing best with
  | nil => exact hbest
  | cons j l ih =>
    rw [List.foldl_cons]
    refine ih _ ?_ fun k hk => hl k (List.mem_cons_of_mem j hk)
    simp only [keepFresher]
    split
    · rename_i htake
      exact hl j List.mem_cons_self (Bool.and_eq_true_iff.mp htake).1
    · exact hbest

theorem foldl_after (l : List ℕ) (best : UInt64 × RoutingInputs)
    (hl : ∀ j ∈ l, (c.exchanges j).fresh nowNs = true → (c.exchanges j).lastUpdateNs ≤ best.1) :
    l.foldl (c.keepFresher dir nowNs) best = best := by
  induction l with
  | nil => rfl
  | cons j l ih =>
    have hkeep : c.keepFresher dir nowNs best j = best := by
      simp only [keepFresher]
      split
      · rename_i htake
        obtain ⟨hfresh, hlater⟩ := Bool.and_eq_true_iff.mp htake
        exact absurd (of_decide_eq_true hlater) (UInt64.not_lt.mpr (hl j List.mem_cons_self hfresh))
      · rfl
    rw [List.foldl_cons, hkeep]
    exact ih fun k hk => hl k (List.mem_cons_of_mem j hk)

/-- The scan returns the freshest snapshot, its imbalance seen from the direction of the order. -/
theorem getRoutingInputs_freshest {i : ℕ} (h : c.Freshest nowNs i) :
    c.getRoutingInputs dir nowNs =
      { shortVolFactor := (c.exchanges i).volFactor
        bookImbalance := match dir with
          | .buy => (c.exchanges i).bookImbalance
          | .sell => -(c.exchanges i).bookImbalance
        dataFresh := true } := by
  have hpos : (0 : UInt64) < (c.exchanges i).lastUpdateNs := by
    have hfresh := h.fresh
    simp only [ExchangeSnapshot.fresh, Bool.and_eq_true, decide_eq_true_eq] at hfresh
    exact hfresh.1
  obtain ⟨n, hn⟩ := Nat.exists_eq_add_of_lt h.bound
  have hrange : List.range kMaxExchanges = List.range i ++ i :: List.range' (i + 1) n := by
    rw [hn, Nat.add_assoc, List.range_add, ← List.range'_eq_map_range, List.range'_succ]
  have hbefore := foldl_before dir (List.range i) (0, ⟨0, 0, false⟩) hpos fun j hj =>
    h.earlier j (List.mem_range.mp hj)
  change ((List.range kMaxExchanges).foldl (c.keepFresher dir nowNs) (0, ⟨0, 0, false⟩)).2 = _
  rw [hrange, List.foldl_append, List.foldl_cons]
  generalize (List.range i).foldl (c.keepFresher dir nowNs) (0, ⟨0, 0, false⟩) = best at hbefore ⊢
  have htake : c.keepFresher dir nowNs best i = ((c.exchanges i).lastUpdateNs,
      { shortVolFactor := (c.exchanges i).volFactor
        bookImbalance := match dir with
          | .buy => (c.exchanges i).bookImbalance
          | .sell => -(c.exchanges i).bookImbalance
        dataFresh := true }) := by
    simp only [keepFresher, h.fresh, gt_iff_lt, hbefore, decide_true, Bool.and_self, if_true]
  rw [htake, foldl_after]
  intro j hj hfresh
  have hj' := List.mem_range'_1.mp hj
  exact h.later j (by omega) hfresh

end BookSnapshotCache

/-- The request a first dispatch of `parent` makes for `lots`, with the signed inputs `v` and `b`. -/
def directContext (cfg : ExecCoreConfig) (w : World) (parent : ParentOrder) (lots : ℤ) (v b : ℚ) :
    RoutingContext :=
  { buildRoutingContext cfg w parent lots with
    shortVolFactor := v
    bookImbalance := b }

/-- The request a reroute of the parent makes for `lots`. -/
def rerouteRequest (cfg : ExecCoreConfig) (w : World) (pid : ℕ) (lots : ℤ) (s : Core) : RoutingContext :=
  { rerouteContext cfg w pid s with targetLots := lots }

theorem rerouteRequest_eq (cfg : ExecCoreConfig) (w : World) {pid i : ℕ} (lots : ℤ) {s : Core}
    (h : s.bookCache.Freshest (UInt64.ofNat w.decisionNs) i) :
    rerouteRequest cfg w pid lots s =
      directContext cfg w (s.pool.parents pid) lots (s.bookCache.exchanges i).volFactor
        (match (s.pool.parents pid).dir with
          | .buy => (s.bookCache.exchanges i).bookImbalance
          | .sell => -(s.bookCache.exchanges i).bookImbalance) := by
  simp only [rerouteRequest, rerouteContext, BookSnapshotCache.getRoutingInputs_freshest h]
  rfl

section OneLevel

/-- A split over a single level takes what the target asks for there, as far as it goes. -/
theorem split_of_single (eng : RoutingEngine) (ctx : RoutingContext) {lv : Level}
    (hactive : ctx.activeExchanges = 1) (hlive : ctx.Live 0)
    (hside : (ctx.states 0).book.sides (takerSide ctx.dir) = [lv])
    (hmin : ∀ ex, (ctx.states ex).lot.minQty = 0)
    (helig : (eng.openCursor ctx (ctx.states 0)).eligible lv = true)
    (havail : 1 ≤ (eng.openCursor ctx (ctx.states 0)).availableLots lv)
    (hr : 0 < resolveReferenceLotSize ctx) (htarget : 1 ≤ ctx.targetLots) :
    (eng.calculateOptimalSplit ctx).2 =
      [((eng.openCursor ctx (ctx.states 0)).slice (lv, 0)).child ctx
        (min ctx.targetLots ((eng.openCursor ctx (ctx.states 0)).availableLots lv))] := by
  have hread : ctx.Readable := by
    refine ⟨by rw [hactive]; decide, fun ex hex => ?_, fun ex hex => ?_⟩
    · obtain rfl : ex = 0 := by omega
      rw [hside]
      exact Nat.succ_le_of_lt (by decide)
    · obtain rfl : ex = 0 := by omega
      rw [hside]
      cases takerSide ctx.dir <;> exact List.pairwise_singleton _ _
  have hworth : ((eng.openCursor ctx (ctx.states 0)).slice (lv, 0)).availableLots ≠ 0 := by
    change (eng.openCursor ctx (ctx.states 0)).availableLots lv ≠ 0
    omega
  have hslices : eng.buildCostSlices ctx = [(eng.openCursor ctx (ctx.states 0)).slice (lv, 0)] := by
    rw [buildCostSlices_eq eng hread, RoutingEngine.eligibleSlices, hactive]
    simp [hlive.2.1, hlive.2.2, RoutingEngine.venueSlices, hside, helig, worthwhile, hworth,
      StableMerge.sortBy]
  have hshare : MinimumSweep.share CostSlice.capacity (CostSlice.minLots ctx)
      ((eng.openCursor ctx (ctx.states 0)).slice (lv, 0)) ctx.targetLots =
        min ctx.targetLots ((eng.openCursor ctx (ctx.states 0)).availableLots lv) := by
    have hlow : CostSlice.minLots ctx ((eng.openCursor ctx (ctx.states 0)).slice (lv, 0)) = 0 := by
      rw [CostSlice.minLots, hmin, zero_div, roundHalfAway_zero]
    have hcap : ((eng.openCursor ctx (ctx.states 0)).slice (lv, 0)).capacity =
        (eng.openCursor ctx (ctx.states 0)).availableLots lv :=
      max_eq_left (le_trans zero_le_one havail)
    rw [MinimumSweep.share, if_neg (by omega), hlow, hcap, if_neg (by omega)]
  have htaken : 0 < min ctx.targetLots ((eng.openCursor ctx (ctx.states 0)).availableLots lv) := by
    omega
  rw [(calculateOptimalSplit_servings eng hr htarget).1, RoutingEngine.servings, hslices]
  simp [MinimumSweep.sweep, hshare, taken, htaken]

end OneLevel

section Sale

/-- A venue that bids for `lots` lots at `price` ticks. -/
def bidVenue (price lots : ℤ) (rttUs : ℚ) : ExchangeState where
  book := ⟨fun | .bid => [⟨price, lots⟩] | .ask => [], 1, 1 / 1000, true⟩
  latency := ⟨rttUs⟩
  lot := .upTo lots
  exchangeId := 0
  enabled := true

/-- A sale of `lots` lots on one venue. -/
def saleContext (state : ExchangeState) (lots : ℤ) (v b : ℚ) : RoutingContext where
  states _ := state
  activeExchanges := 1
  dir := .sell
  targetLots := lots
  limitPrice := 0
  referenceLotSize := 1 / 1000
  decisionNs := 1
  shortVolFactor := v
  bookImbalance := b

/-- What leans against a sale is the pressure to sell. -/
theorem directionalImbalance_sell (b : ℚ) : directionalImbalance .sell b = max (-b) 0 := by
  simp only [directionalImbalance]
  split
  · exact (max_eq_left (by linarith)).symm
  · exact (max_eq_right (by linarith)).symm

/-- The cursor of that sale. -/
def saleCursor (eng : RoutingEngine) (price depth : ℤ) (rttUs : ℚ) (lots : ℤ) (v b : ℚ) : Cursor :=
  eng.openCursor (saleContext (bidVenue price depth rttUs) lots v b) (bidVenue price depth rttUs)

variable {eng : RoutingEngine} {price depth lots : ℤ} {rttUs v b : ℚ}

/-- The fee-adjusted price of the sale is moved by the penalty, and the penalty by what leans
against the sale. -/
theorem saleCursor_penaltyTicks :
    (saleCursor eng price depth rttUs lots v b).penaltyTicks =
      roundHalfAway (price * (eng.fees.taker 0 +
        rttUs / 10000000 * (1 + 2 * v) * (1 + 3 / 2 * max (-b) 0))) := by
  have hadj : LatencyTracker.dynamicCostAdj ⟨rttUs⟩ v (directionalImbalance .sell b) =
      rttUs / 10000000 * (1 + 2 * v) * (1 + 3 / 2 * max (-b) 0) := by
    have hlean : (if max (-b) 0 > 0 then max (-b) 0 else 0) = max (-b) 0 := by
      split
      · rfl
      · rename_i hnot
        exact le_antisymm (le_max_right _ _) (not_lt.mp hnot)
    simp only [LatencyTracker.dynamicCostAdj, directionalImbalance_sell, hlean,
      LatencyTracker.kPenaltyBpsPerUs, LatencyTracker.kVolSensitivity, LatencyTracker.kImbSensitivity]
    ring
  exact congrArg (fun adj => roundHalfAway (price * (eng.fees.taker 0 + adj))) hadj

theorem saleCursor_fillRate :
    (saleCursor eng price depth rttUs lots v b).fillRate = eng.estimateFillRate rttUs v (max (-b) 0) :=
  congrArg (eng.estimateFillRate rttUs v) (directionalImbalance_sell b)

/-- The venue offers what its fill rate makes of its depth. -/
theorem saleCursor_availableLots (hdepth : 0 ≤ depth) :
    (saleCursor eng price depth rttUs lots v b).availableLots ⟨price, depth⟩ =
      truncate (depth * eng.estimateFillRate rttUs v (max (-b) 0)) := by
  have hmax : truncate ((depth : ℚ) / (1 / 1000)) = 1000 * depth := by
    rw [show (depth : ℚ) / (1 / 1000) = ((1000 * depth : ℤ) : ℚ) by push_cast; ring, truncate_intCast]
  have hclamp : (if depth < truncate ((depth : ℚ) / (1 / 1000)) then depth
      else truncate ((depth : ℚ) / (1 / 1000))) = depth := by
    rw [hmax]
    split <;> omega
  have hratio : (1 / 1000 : ℚ) / (if (1 / 1000 : ℚ) > 0 then 1 / 1000 else 1 / 1000) = 1 := by norm_num
  change roundHalfAway (truncate (((if depth < truncate ((depth : ℚ) / (1 / 1000)) then depth
    else truncate ((depth : ℚ) / (1 / 1000)) : ℤ) : ℚ) *
      (saleCursor eng price depth rttUs lots v b).fillRate) *
        ((1 / 1000 : ℚ) / (if (1 / 1000 : ℚ) > 0 then 1 / 1000 else 1 / 1000))) = _
  rw [hclamp, hratio, mul_one, roundHalfAway_intCast, saleCursor_fillRate]

theorem one_le_saleCursor_availableLots (hdepth : 2 ≤ depth) :
    1 ≤ (saleCursor eng price depth rttUs lots v b).availableLots ⟨price, depth⟩ := by
  have hrate := half_le_fillRate eng (saleContext (bidVenue price depth rttUs) lots v b)
    (bidVenue price depth rttUs)
  have hrate' : 1 / 2 ≤ eng.estimateFillRate rttUs v (max (-b) 0) :=
    hrate.trans_eq saleCursor_fillRate
  have hdepth' : (2 : ℚ) ≤ depth := by exact_mod_cast hdepth
  rw [saleCursor_availableLots (by omega), truncate_of_nonneg (by nlinarith)]
  exact Int.le_floor.mpr (by push_cast; nlinarith)

/-- The sale takes what the venue offers, up to its own size, at the effective price of the level. -/
theorem saleContext_split (eng : RoutingEngine) (price rttUs v b) (hdepth : 2 ≤ depth)
    (hlots : 1 ≤ lots) :
    (eng.calculateOptimalSplit (saleContext (bidVenue price depth rttUs) lots v b)).2 =
      [((saleCursor eng price depth rttUs lots v b).slice (⟨price, depth⟩, 0)).child
        (saleContext (bidVenue price depth rttUs) lots v b)
        (min lots ((saleCursor eng price depth rttUs lots v b).availableLots ⟨price, depth⟩))] := by
  have hlot : roundHalfAway ((0 : ℚ) / (1 / 1000)) = 0 := by rw [zero_div, roundHalfAway_zero]
  refine split_of_single eng _ rfl ⟨Nat.zero_lt_one, rfl, rfl⟩ rfl (fun _ => rfl) ?_
    (one_le_saleCursor_availableLots hdepth) (by norm_num [resolveReferenceLotSize, saleContext]) hlots
  change (true && decide (depth ≥ roundHalfAway ((0 : ℚ) / (1 / 1000)))) = true
  rw [hlot]
  exact decide_eq_true (by omega)

/-- Equal splits of the sale sell the same lots under the same penalty. -/
theorem saleContext_split_inj {b' : ℚ} (hdepth : 2 ≤ depth) (hlots : 1 ≤ lots)
    (h : (eng.calculateOptimalSplit (saleContext (bidVenue price depth rttUs) lots v b)).2 =
      (eng.calculateOptimalSplit (saleContext (bidVenue price depth rttUs) lots v b')).2) :
    min lots ((saleCursor eng price depth rttUs lots v b).availableLots ⟨price, depth⟩) =
        min lots ((saleCursor eng price depth rttUs lots v b').availableLots ⟨price, depth⟩) ∧
      (saleCursor eng price depth rttUs lots v b).penaltyTicks =
        (saleCursor eng price depth rttUs lots v b').penaltyTicks := by
  rw [saleContext_split eng price rttUs v b hdepth hlots,
    saleContext_split eng price rttUs v b' hdepth hlots, List.cons.injEq] at h
  have havail : 1 ≤ (saleCursor eng price depth rttUs lots v b').availableLots ⟨price, depth⟩ :=
    one_le_saleCursor_availableLots hdepth
  generalize (saleCursor eng price depth rttUs lots v b).availableLots ⟨price, depth⟩ = n at h ⊢
  generalize (saleCursor eng price depth rttUs lots v b').availableLots ⟨price, depth⟩ = n' at h havail ⊢
  have hunit : (if (1 / 1000 : ℚ) > 0 then 1 / 1000 else 1 / 1000 : ℚ) ≠ 0 := by norm_num
  have hqty : ((min lots n : ℤ) : ℚ) * (if (1 / 1000 : ℚ) > 0 then 1 / 1000 else 1 / 1000) =
      ((min lots n' : ℤ) : ℚ) * (if (1 / 1000 : ℚ) > 0 then 1 / 1000 else 1 / 1000) :=
    congrArg ChildOrder.qty h.1
  have hlots' : min lots n = min lots n' := Int.cast_injective (mul_right_cancel₀ hunit hqty)
  refine ⟨hlots', ?_⟩
  rw [hlots'] at h
  have hcost : ((min lots n' : ℤ) : ℚ) * (if (1 / 1000 : ℚ) > 0 then 1 / 1000 else 1 / 1000) *
      (((-1 * price + (saleCursor eng price depth rttUs lots v b).penaltyTicks : ℤ) : ℚ) * 1) =
        ((min lots n' : ℤ) : ℚ) * (if (1 / 1000 : ℚ) > 0 then 1 / 1000 else 1 / 1000) *
          (((-1 * price + (saleCursor eng price depth rttUs lots v b').penaltyTicks : ℤ) : ℚ) * 1) :=
    congrArg ChildOrder.effectiveCost h.1
  have hsome : ((min lots n' : ℤ) : ℚ) ≠ 0 := Int.cast_ne_zero.mpr (by omega)
  rw [mul_one, mul_one] at hcost
  have hticks := Int.cast_injective (mul_left_cancel₀ (mul_ne_zero hsome hunit) hcost)
  omega

/-- Where the volatility scale is not zero, a price far from zero moves the penalty with the imbalance. -/
theorem saleContext_priced_apart (eng : RoutingEngine) (hv : 1 + 2 * v ≠ 0) (hb : b ≠ 0) :
    ∃ price : ℤ, (eng.calculateOptimalSplit (saleContext (bidVenue price 10 5000) 1 v (-b))).2 ≠
      (eng.calculateOptimalSplit (saleContext (bidVenue price 10 5000) 1 v b)).2 := by
  have hscale : 0 < |3 / 4000 * (1 + 2 * v) * b| :=
    abs_pos.mpr (mul_ne_zero (mul_ne_zero (by norm_num) hv) hb)
  obtain ⟨n, hn⟩ := exists_nat_gt (1 / |3 / 4000 * (1 + 2 * v) * b|)
  refine ⟨n, fun heq => ?_⟩
  have hpenalty := (saleContext_split_inj (by decide) le_rfl heq).2
  rw [saleCursor_penaltyTicks, saleCursor_penaltyTicks] at hpenalty
  have hlean : max (- -b) 0 - max (-b) 0 = b := by
    rw [neg_neg]
    rcases le_total 0 b with h | h
    · rw [max_eq_left h, max_eq_right (by linarith), sub_zero]
    · rw [max_eq_right h, max_eq_left (by linarith), zero_sub, neg_neg]
  have hdiff : ((n : ℤ) : ℚ) * (eng.fees.taker 0 +
        5000 / 10000000 * (1 + 2 * v) * (1 + 3 / 2 * max (- -b) 0)) -
      ((n : ℤ) : ℚ) * (eng.fees.taker 0 + 5000 / 10000000 * (1 + 2 * v) * (1 + 3 / 2 * max (-b) 0)) =
        n * (3 / 4000 * (1 + 2 * v) * b) := by
    push_cast
    linear_combination (n : ℚ) * (3 / 4000) * (1 + 2 * v) * hlean
  have hfar : 1 < |(n : ℚ) * (3 / 4000 * (1 + 2 * v) * b)| := by
    rw [abs_mul, Nat.abs_cast]
    exact (div_lt_iff₀ hscale).mp hn
  exact roundHalfAway_ne_of_far (hdiff ▸ hfar) hpenalty

/-- Without a round trip the estimate is what volatility and imbalance leave of one. -/
theorem estimateFillRate_near (hexp : eng.exp 0 = 1) (v : ℚ) {x : ℚ} (hx : 0 ≤ x) :
    eng.estimateFillRate 0 v x = max ((1 - 1 / 10 * v) * (1 - 2 / 25 * x)) (1 / 2) := by
  have hlean : (if x > 0 then x else 0) = x := by
    split
    · rfl
    · linarith
  have hrate : eng.exp (-kLatDecay * 0) * (1 - kVolFillPenalty * v) * (1 - kImbFillPenalty * x) =
      (1 - 1 / 10 * v) * (1 - 2 / 25 * x) := by
    rw [mul_zero, hexp, one_mul, show kVolFillPenalty = 1 / 10 from rfl,
      show kImbFillPenalty = 2 / 25 by norm_num [kImbFillPenalty]]
  unfold RoutingEngine.estimateFillRate
  simp only [hlean, hrate]
  split
  · rename_i hmore
    exact (max_eq_left hmore.le).symm
  · rename_i hless
    exact (max_eq_right (not_lt.mp hless)).symm

/-- Where the volatility scale is zero, a deep level moves its lots with the imbalance. -/
theorem saleContext_filled_apart (hexp : eng.exp 0 = 1) {c d : ℚ} (hc : 0 ≤ c) (hd : d < 0) :
    ∃ depth lots : ℤ,
      (eng.calculateOptimalSplit (saleContext (bidVenue 1 depth 0) lots (-1 / 2) c)).2 ≠
        (eng.calculateOptimalSplit (saleContext (bidVenue 1 depth 0) lots (-1 / 2) d)).2 := by
  have hmore : eng.estimateFillRate 0 (-1 / 2) (max (-c) 0) = 21 / 20 := by
    rw [max_eq_right (by linarith), estimateFillRate_near hexp _ le_rfl]
    norm_num
  have hless : eng.estimateFillRate 0 (-1 / 2) (max (-d) 0) < 21 / 20 ∧
      1 / 2 ≤ eng.estimateFillRate 0 (-1 / 2) (max (-d) 0) := by
    rw [max_eq_left (by linarith), estimateFillRate_near hexp _ (by linarith)]
    exact ⟨max_lt (by linarith) (by norm_num), le_max_right _ _⟩
  obtain ⟨n, hn⟩ := exists_nat_gt (1 / (21 / 20 - eng.estimateFillRate 0 (-1 / 2) (max (-d) 0)))
  have hgap : 1 < (n : ℚ) * (21 / 20 - eng.estimateFillRate 0 (-1 / 2) (max (-d) 0)) :=
    (div_lt_iff₀ (by linarith)).mp hn
  have hdeep : 2 ≤ n := by
    have hone : (1 : ℚ) < n := by nlinarith
    exact_mod_cast hone
  -- Twice the depth is more than either fill rate leaves of it.
  refine ⟨n, 2 * n, fun heq => ?_⟩
  have hlots := (saleContext_split_inj (by omega) (by omega) heq).1
  rw [saleCursor_availableLots (by omega), saleCursor_availableLots (by omega), hmore] at hlots
  generalize eng.estimateFillRate 0 (-1 / 2) (max (-d) 0) = r at hless hgap hlots
  rw [Int.cast_natCast, truncate_of_nonneg (by positivity),
    truncate_of_nonneg (mul_nonneg (Nat.cast_nonneg n) (by linarith))] at hlots
  have hle := Int.floor_le ((n : ℚ) * (21 / 20))
  have hlt := Int.lt_floor_add_one ((n : ℚ) * (21 / 20))
  have hle' := Int.floor_le ((n : ℚ) * r)
  have htwice : ⌊(n : ℚ) * (21 / 20)⌋ ≤ 2 * n := Int.floor_le_iff.mpr (by push_cast; linarith)
  have hapart : ⌊(n : ℚ) * r⌋ < ⌊(n : ℚ) * (21 / 20)⌋ := by
    have : ((⌊(n : ℚ) * r⌋ : ℤ) : ℚ) < ((⌊(n : ℚ) * (21 / 20)⌋ : ℤ) : ℚ) := by linarith
    exact_mod_cast this
  omega

/-- Sales under opposite imbalances are told apart by some venue. -/
theorem saleContext_differs (hexp : eng.exp 0 = 1) (v : ℚ) (hb : b ≠ 0) :
    ∃ state lots, (eng.calculateOptimalSplit (saleContext state lots v (-b))).2 ≠
      (eng.calculateOptimalSplit (saleContext state lots v b)).2 := by
  by_cases hv : 1 + 2 * v = 0
  · obtain rfl : v = -1 / 2 := by linarith
    rcases lt_or_gt_of_ne hb with hneg | hpos
    · obtain ⟨depth, lots, hne⟩ := saleContext_filled_apart hexp (neg_nonneg.mpr hneg.le) hneg
      exact ⟨_, _, hne⟩
    · obtain ⟨depth, lots, hne⟩ := saleContext_filled_apart hexp hpos.le (neg_lt_zero.mpr hpos)
      exact ⟨_, _, hne.symm⟩
  · obtain ⟨price, hne⟩ := saleContext_priced_apart eng hv hb
    exact ⟨_, _, hne⟩

/-- A core whose parents sell and whose snapshots all carry the same inputs. -/
def saleCore (v b : ℚ) : Core :=
  { Core.init Sample.config 0 with
    pool := { OMSOrderPool.init with parents := fun _ => { ParentOrder.zero with dir := .sell } }
    bookCache := ⟨fun _ => ⟨v, b, 0, 1⟩⟩ }

theorem saleCore_freshest (v b : ℚ) : (saleCore v b).bookCache.Freshest (UInt64.ofNat 1) 0 := by
  refine ⟨by decide, ?_, fun j hj => absurd hj (Nat.not_lt_zero j), fun j _ _ => UInt64.le_refl 1⟩
  change (decide ((1 : UInt64) > 0) && decide (UInt64.ofNat 1 - 1 < kMaxStaleNs)) = true
  decide

end Sale

/-- For the freshest inputs `v` and `b`, whatever the books, the limit and the lots left: a reroute
in direction `dir` gets the split a first dispatch gets. -/
def PricedAlike (eng : RoutingEngine) (dir : OrderDir) (v b : ℚ) : Prop :=
  ∀ (cfg : ExecCoreConfig) (w : World) (s : Core) (pid i : ℕ) (lots : ℤ), w.router = eng.router →
    (s.pool.parents pid).dir = dir → s.bookCache.Freshest (UInt64.ofNat w.decisionNs) i →
    (s.bookCache.exchanges i).volFactor = v → (s.bookCache.exchanges i).bookImbalance = b →
      w.router.optimalSplit (rerouteRequest cfg w pid lots s) =
        w.router.optimalSplit (directContext cfg w (s.pool.parents pid) lots v b)

/-- A reroute prices the market as a first dispatch does exactly for purchases and balanced books. -/
theorem pricedAlike_iff (eng : RoutingEngine) (hexp : eng.exp 0 = 1) (dir : OrderDir) (v b : ℚ) :
    PricedAlike eng dir v b ↔ dir = .buy ∨ b = 0 := by
  constructor
  · intro hall
    by_contra hnot
    obtain ⟨hdir, hb⟩ := not_or.mp hnot
    have hsell : dir = .sell := by
      cases dir with
      | buy => exact absurd rfl hdir
      | sell => rfl
    obtain ⟨state, lots, hne⟩ := saleContext_differs hexp v hb
    have heq := hall Sample.config
      { Sample.world 0 with
        states := fun _ => state
        router := eng.router } (saleCore v b) 0 0 lots rfl hsell.symm (saleCore_freshest v b) rfl rfl
    rw [rerouteRequest_eq _ _ _ (saleCore_freshest v b)] at heq
    exact hne heq
  · intro hcond cfg w s pid i lots _ hdir hfresh hvol himb
    rw [rerouteRequest_eq cfg w lots hfresh, hdir, hvol, himb]
    rcases hcond with rfl | rfl
    · rfl
    · cases dir with
      | buy => rfl
      | sell => rw [neg_zero]

theorem pricedAlike_iff_fifteenPercent :
    PricedAlike Sample.engine .buy (1 / 4) (3 / 20) ∧
      (PricedAlike Sample.engine .sell (1 / 4) (3 / 20) ↔ False) := by
  refine ⟨(pricedAlike_iff Sample.engine rfl .buy (1 / 4) (3 / 20)).mpr (Or.inl rfl), ?_⟩
  rw [pricedAlike_iff Sample.engine rfl .sell (1 / 4) (3 / 20)]
  refine iff_of_false ?_ id
  rintro (hdir | hb)
  · cases hdir
  · norm_num at hb

namespace Sample

/-- The exponential where it is one, and where the estimate is at its floor anyway. -/
def floorEngine : RoutingEngine := ⟨config.fees, fun x => if x ≤ -1 then 0 else 1⟩

/-- A far venue that bids 2000 and a near one that bids 1998. -/
def farWorld : World :=
  { world 0 with
    states := fun ex =>
      if ex = 0 then bidVenue 2000 10 5000 else { bidVenue 1998 10 0 with exchangeId := 1 }
    router := floorEngine.router }

end Sample

/-- With all the pressure on the buying side a first sale goes to the far venue and a rerouted one to
the near venue. -/
theorem sale_rerouted_elsewhere :
    (saleCore 0 1).bookCache.Freshest (UInt64.ofNat Sample.farWorld.decisionNs) 0 ∧
    ((Sample.farWorld.router.optimalSplit
      (directContext { Sample.config with activeExchanges := 2 } Sample.farWorld
        ((saleCore 0 1).pool.parents 0) 1 0 1)).map
        ChildOrder.exchangeId) = [0] ∧
    ((Sample.farWorld.router.optimalSplit
      (rerouteRequest { Sample.config with activeExchanges := 2 } Sample.farWorld 0 1 (saleCore 0 1))).map
        ChildOrder.exchangeId) = [1] ∧
    ¬ PricedAlike Sample.floorEngine .sell 0 1 := by
  have hdirect : ((Sample.farWorld.router.optimalSplit
      (directContext { Sample.config with activeExchanges := 2 } Sample.farWorld
        ((saleCore 0 1).pool.parents 0) 1 0 1)).map
        ChildOrder.exchangeId) = [0] := by decide +kernel
  have hreroute : ((Sample.farWorld.router.optimalSplit
      (rerouteRequest { Sample.config with activeExchanges := 2 } Sample.farWorld 0 1 (saleCore 0 1))).map
        ChildOrder.exchangeId) = [1] := by decide +kernel
  refine ⟨saleCore_freshest 0 1, hdirect, hreroute, fun hall => ?_⟩
  have heq := hall { Sample.config with activeExchanges := 2 } Sample.farWorld (saleCore 0 1) 0 0 1 rfl rfl
    (saleCore_freshest 0 1) rfl rfl
  rw [heq, hdirect] at hreroute
  exact absurd hreroute (by decide)

end OmsFormal.Oms
