import OmsFormal.SplitOptimality
import OmsFormal.SliceOrigins
import OmsFormal.MinimumSweep

/-!
# The greedy split with venue minimums

The sweep of `greedy_fill` serves the merged slices in order, each within its
capacity and not below the canonical minimum of its venue. Everything the split
returns is read off that sweep.
-/

namespace OmsFormal.Sor
open Rounding MinimumSweep
set_option autoImplicit false

/-- The minimum of the slice's venue in canonical lots. -/
def CostSlice.minLots (ctx : RoutingContext) (sl : CostSlice) : ℤ :=
  roundHalfAway ((ctx.states sl.exchangeId).lot.minQty / resolveReferenceLotSize ctx)

/-- The merged slices with the lots the target leaves for each of them. -/
def RoutingEngine.servings (eng : RoutingEngine) (ctx : RoutingContext) : List (CostSlice × ℤ) :=
  sweep CostSlice.capacity (CostSlice.minLots ctx) (eng.buildCostSlices ctx) ctx.targetLots

/-- The child orders of the slices that get something. -/
def taken (ctx : RoutingContext) (xs : List (CostSlice × ℤ)) : List ChildOrder :=
  (xs.filter fun x => decide (0 < x.2)).map fun x => x.1.child ctx x.2

variable {ctx : RoutingContext}

theorem minLots_nonneg (hr : 0 < resolveReferenceLotSize ctx) (sl : CostSlice) : 0 ≤ sl.minLots ctx :=
  roundHalfAway_nonneg (div_nonneg (ctx.states sl.exchangeId).lot.minQty_nonneg hr.le)

theorem taken_cons (x : CostSlice × ℤ) (xs : List (CostSlice × ℤ)) :
    taken ctx (x :: xs) = taken ctx [x] ++ taken ctx xs := by
  simp only [taken, ← List.map_append, ← List.filter_append, List.singleton_append]

theorem taken_of_zero {xs : List (CostSlice × ℤ)} (h : ∀ x ∈ xs, x.2 = 0) : taken ctx xs = [] := by
  rw [taken, List.filter_eq_nil_iff.mpr fun x hx => by simp [h x hx], List.map_nil]

theorem sweep_zero_shares {cap low : CostSlice → ℤ} (l : List CostSlice) :
    ∀ x ∈ sweep cap low l 0, x.2 = 0 := by
  induction l with
  | nil => intro x hx; cases hx
  | cons sl l ih =>
    intro x hx
    rcases List.mem_cons.mp hx with rfl | hx
    · simp [share]
    · exact ih x (by simpa [share] using hx)

theorem greedyStep_share {slice : CostSlice} (hr : 0 < resolveReferenceLotSize ctx)
    (hs : slice.availableLots ≠ 0) {g : GreedyState} (hrem : 0 < g.remainingLots) :
    (greedyStep ctx slice g).remainingLots =
      g.remainingLots - share CostSlice.capacity (CostSlice.minLots ctx) slice g.remainingLots ∧
    (greedyStep ctx slice g).out = g.out ++ taken ctx
      [(slice, share CostSlice.capacity (CostSlice.minLots ctx) slice g.remainingLots)] := by
  have hmin : (if g.remainingLots < slice.availableLots then g.remainingLots else slice.availableLots) =
      min g.remainingLots slice.availableLots := by
    split <;> omega
  have hlow := minLots_nonneg hr slice
  have hround : roundHalfAway ((ctx.states slice.exchangeId).lot.minQty / resolveReferenceLotSize ctx) =
      slice.minLots ctx := rfl
  have hcap : slice.capacity = max slice.availableLots 0 := rfl
  simp only [greedyStep, hmin, hround]
  by_cases hskip : min g.remainingLots slice.availableLots < slice.minLots ctx
  · have hnone : share CostSlice.capacity (CostSlice.minLots ctx) slice g.remainingLots = 0 := by
      unfold share
      split
      · rfl
      · split
        · rfl
        · omega
    rw [if_pos hskip, hnone]
    simp [taken]
  · have hpos : 0 < min g.remainingLots slice.availableLots := by omega
    have hall : share CostSlice.capacity (CostSlice.minLots ctx) slice g.remainingLots =
        min g.remainingLots slice.availableLots := by
      rw [share, if_neg hrem.ne', if_neg (by omega)]
      omega
    rw [if_neg hskip, hall]
    refine ⟨rfl, ?_⟩
    simp only [taken, hpos, decide_true, List.filter_cons_of_pos, List.filter_nil, List.map_cons,
      List.map_nil]
    rfl

theorem greedyLoop_sweep (hr : 0 < resolveReferenceLotSize ctx) (slices : List CostSlice)
    (hs : ∀ sl ∈ slices, sl.availableLots ≠ 0) (g : GreedyState) (hrem : 0 ≤ g.remainingLots) :
    (greedyLoop ctx slices g).remainingLots = g.remainingLots -
      served (sweep CostSlice.capacity (CostSlice.minLots ctx) slices g.remainingLots) ∧
    (greedyLoop ctx slices g).out = g.out ++
      taken ctx (sweep CostSlice.capacity (CostSlice.minLots ctx) slices g.remainingLots) := by
  induction slices generalizing g with
  | nil => simp [greedyLoop, sweep, taken]
  | cons slice rest ih =>
    simp only [greedyLoop]
    split
    · rename_i hdone
      rw [hdone, sweep_zero, taken_of_zero (sweep_zero_shares _), sub_zero, List.append_nil]
      exact ⟨rfl, rfl⟩
    · rename_i hmore
      obtain ⟨hstep, hout⟩ := greedyStep_share (g := g) hr (hs slice List.mem_cons_self) (by omega)
      obtain ⟨-, -, hle⟩ := share_bounds (CostSlice.minLots ctx) (capacity_nonneg slice) hrem
      obtain ⟨hrest, houtrest⟩ := ih (fun sl hsl => hs sl (List.mem_cons_of_mem slice hsl))
        (greedyStep ctx slice g) (by omega)
      rw [hstep] at hrest houtrest
      refine ⟨?_, ?_⟩
      · rw [hrest, sweep, served_cons, sub_sub]
      · rw [houtrest, hout, List.append_assoc, ← taken_cons, sweep]

variable {eng : RoutingEngine}

theorem servings_map_fst : (eng.servings ctx).map Prod.fst = eng.buildCostSlices ctx := sweep_map_fst _ _

theorem fst_mem_slices {x : CostSlice × ℤ} (hx : x ∈ eng.servings ctx) : x.1 ∈ eng.buildCostSlices ctx := by
  rw [← servings_map_fst]
  exact List.mem_map_of_mem hx

theorem servings_bounds (eng : RoutingEngine) (htarget : 0 ≤ ctx.targetLots) :
    (∀ x ∈ eng.servings ctx, 0 ≤ x.2 ∧ x.2 ≤ x.1.capacity) ∧
    0 ≤ served (eng.servings ctx) ∧ served (eng.servings ctx) ≤ ctx.targetLots :=
  sweep_bounds _ (fun sl _ => capacity_nonneg sl) htarget

/-- Everything a split returns, read off the servings. -/
theorem calculateOptimalSplit_servings (eng : RoutingEngine) (hr : 0 < resolveReferenceLotSize ctx)
    (htarget : 1 ≤ ctx.targetLots) :
    (eng.calculateOptimalSplit ctx).2 = taken ctx (eng.servings ctx) ∧
    ((eng.calculateOptimalSplit ctx).1.success = true ↔ served (eng.servings ctx) = ctx.targetLots) ∧
    (eng.calculateOptimalSplit ctx).1.unfilledQty =
      fromLots (ctx.targetLots - served (eng.servings ctx)) (resolveReferenceLotSize ctx) := by
  obtain ⟨hrem, hout⟩ := greedyLoop_sweep hr (eng.buildCostSlices ctx)
    (mergeLoop_available _ _ _ (by simp)) ⟨ctx.targetLots, [], 0, 0, 0, 0, 0, 0⟩
    (show 0 ≤ ctx.targetLots by omega)
  rw [List.nil_append] at hout
  change _ = ctx.targetLots - served (eng.servings ctx) at hrem
  change _ = taken ctx (eng.servings ctx) at hout
  unfold RoutingEngine.calculateOptimalSplit greedyFill
  by_cases hempty : (eng.buildCostSlices ctx).isEmpty
  · have hservings : eng.servings ctx = [] := by
      rw [RoutingEngine.servings, List.isEmpty_iff.mp hempty]
      rfl
    simp only [hempty, if_true, hservings, served_nil, sub_zero]
    refine ⟨rfl, ⟨fun h => ?_, fun h => ?_⟩, trivial⟩
    · cases h
    · omega
  · simp only [hempty, if_false, Bool.false_eq_true]
    generalize greedyLoop ctx (eng.buildCostSlices ctx) ⟨ctx.targetLots, [], 0, 0, 0, 0, 0, 0⟩ =
      g at hrem hout ⊢
    have hdone : decide (g.remainingLots = 0) = true ↔ served (eng.servings ctx) = ctx.targetLots := by
      rw [hrem, decide_eq_true_eq]
      omega
    split
    · exact ⟨hout, hdone, by rw [hrem]⟩
    · exact ⟨hout, hdone, by rw [hrem]⟩

section Children

theorem mem_taken {xs : List (CostSlice × ℤ)} {co : ChildOrder} :
    co ∈ taken ctx xs ↔ ∃ x ∈ xs, 0 < x.2 ∧ x.1.child ctx x.2 = co := by
  simp [taken, and_assoc]

theorem child_lots (hr : 0 < resolveReferenceLotSize ctx) (sl : CostSlice) (n : ℤ) :
    (sl.child ctx n).lots (resolveReferenceLotSize ctx) = n :=
  ChildOrder.lots_of_qty hr rfl

theorem taken_total (hr : 0 < resolveReferenceLotSize ctx) {xs : List (CostSlice × ℤ)}
    (hpos : ∀ x ∈ xs, 0 ≤ x.2) :
    ((taken ctx xs).map fun co => co.lots (resolveReferenceLotSize ctx)).sum = served xs := by
  induction xs with
  | nil => rfl
  | cons x xs ih =>
    have hrest := ih fun y hy => hpos y (List.mem_cons_of_mem x hy)
    rw [taken_cons, List.map_append, List.sum_append, hrest, served_cons]
    by_cases hx : 0 < x.2
    · simp [taken, hx, child_lots hr]
    · have hzero : x.2 = 0 := le_antisymm (not_lt.mp hx) (hpos x List.mem_cons_self)
      simp [taken, hzero]

/-- The canonical lots a split puts on the market. -/
def RoutingEngine.splitLots (eng : RoutingEngine) (ctx : RoutingContext) : ℤ :=
  ((eng.calculateOptimalSplit ctx).2.map fun co => co.lots (resolveReferenceLotSize ctx)).sum

theorem splitLots_eq (eng : RoutingEngine) (ctx : RoutingContext) (hr : 0 < resolveReferenceLotSize ctx)
    (htarget : 1 ≤ ctx.targetLots) : eng.splitLots ctx = served (eng.servings ctx) := by
  have hbounds := servings_bounds eng (show 0 ≤ ctx.targetLots by omega)
  rw [RoutingEngine.splitLots, (calculateOptimalSplit_servings eng hr htarget).1]
  exact taken_total hr fun x hx => (hbounds.1 x hx).1

end Children

section Sized

/-- Positive lots and no negative sizes on the active venues. -/
structure RoutingContext.Sized (ctx : RoutingContext) : Prop where
  reference : 0 < resolveReferenceLotSize ctx
  native : ∀ ex < ctx.activeExchanges, 0 < (ctx.states ex).book.lotSize
  maxQty : ∀ ex < ctx.activeExchanges, 0 ≤ (ctx.states ex).lot.maxQty

theorem half_le_fillRate (eng : RoutingEngine) (ctx : RoutingContext) (state : ExchangeState) :
    1 / 2 ≤ (eng.openCursor ctx state).fillRate := by
  have hfloor (rate : ℚ) : kMinFillRate ≤ if rate > kMinFillRate then rate else kMinFillRate := by
    split
    · rename_i hrate
      exact hrate.le
    · exact le_rfl
  exact hfloor _

/-- What is left of a level after the venue's maximum is no negative amount. -/
theorem CostSlice.Offer.clamped_nonneg {ex : ℕ} {lv : Level} {sl : CostSlice} (h : sl.Offer eng ctx ex lv)
    (hs : ctx.Sized) :
    0 ≤ if lv.qtyLots < (eng.openCursor ctx (ctx.states ex)).maxLots then lv.qtyLots
      else (eng.openCursor ctx (ctx.states ex)).maxLots := by
  have hlot := hs.native ex h.live.1
  have hmax : 0 ≤ (eng.openCursor ctx (ctx.states ex)).maxLots :=
    truncate_nonneg (div_nonneg (hs.maxQty ex h.live.1) hlot.le)
  have hmin : 0 ≤ (eng.openCursor ctx (ctx.states ex)).minLots :=
    roundHalfAway_nonneg (div_nonneg (ctx.states ex).lot.minQty_nonneg hlot.le)
  have hqty : (eng.openCursor ctx (ctx.states ex)).minLots ≤ lv.qtyLots := by
    have helig := h.eligible
    simp only [Cursor.eligible, Bool.and_eq_true, decide_eq_true_eq] at helig
    exact helig.2
  split <;> omega

theorem CostSlice.Offer.available_pos {ex : ℕ} {lv : Level} {sl : CostSlice} (h : sl.Offer eng ctx ex lv)
    (hs : ctx.Sized) : 1 ≤ sl.availableLots := by
  have hclamped := h.clamped_nonneg hs
  have hrate : 0 ≤ (eng.openCursor ctx (ctx.states ex)).fillRate :=
    le_trans (by norm_num) (half_le_fillRate eng ctx _)
  have hratio : 0 ≤ (eng.openCursor ctx (ctx.states ex)).lotRatio :=
    div_nonneg (hs.native ex h.live.1).le hs.reference.le
  have hlots : 0 ≤ sl.availableLots := by
    rw [h.slice]
    refine roundHalfAway_nonneg (mul_nonneg ?_ hratio)
    exact_mod_cast truncate_nonneg (mul_nonneg (by exact_mod_cast hclamped) hrate)
  have := h.worth
  omega

theorem available_pos (eng : RoutingEngine) (hs : ctx.Sized) :
    ∀ sl ∈ eng.buildCostSlices ctx, 1 ≤ sl.availableLots := by
  intro sl hsl
  obtain ⟨ex, lv, hoffer⟩ := buildCostSlices_offer sl hsl
  exact hoffer.available_pos hs

end Sized

end OmsFormal.Sor
