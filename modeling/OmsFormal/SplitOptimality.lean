import OmsFormal.CostListing
import OmsFormal.RoutingSoundness
import OmsFormal.GreedyAllocation

/-!
# The greedy split is optimal

With no minimum order size the greedy sweep serves the merged slices as the
greedy allocation does, so among all allocations of the same total over the
eligible levels it has the least cost in effective ticks.
-/

namespace OmsFormal.Sor
open Rounding StableMerge GreedyAllocation
set_option autoImplicit false

/-- What a level can take; a negative maximum size offers nothing. -/
def CostSlice.capacity (sl : CostSlice) : ℤ := max sl.availableLots 0

/-- The child order that takes `lots` from a slice. -/
def CostSlice.child (ctx : RoutingContext) (sl : CostSlice) (lots : ℤ) : ChildOrder where
  price := sl.rawPriceTicks * (ctx.states sl.exchangeId).book.tickSize
  qty := lots * resolveReferenceLotSize ctx
  effectiveCost := lots * resolveReferenceLotSize ctx *
    (sl.effectiveTicks * (ctx.states sl.exchangeId).book.tickSize)
  exchangeId := sl.exchangeId
  levelIdx := sl.levelIdx
  type := .taker
  dir := ctx.dir

/-- The child orders of an allocation over the slices. -/
def allocated (ctx : RoutingContext) (slices : List CostSlice) (lots : CostSlice → ℤ) : List ChildOrder :=
  (slices.filter fun sl => decide (0 < lots sl)).map fun sl => sl.child ctx (lots sl)

variable {ctx : RoutingContext} {lots : CostSlice → ℤ}

section Sweep

theorem capacity_nonneg (sl : CostSlice) : 0 ≤ sl.capacity := le_max_right _ _

theorem allocated_of_greedy_zero {slices : List CostSlice} (h : Greedy CostSlice.capacity lots slices 0) :
    allocated ctx slices lots = [] := by
  have hzero : ∀ sl ∈ slices, lots sl = 0 := by
    induction slices with
    | nil => intro sl hsl; cases hsl
    | cons slice rest ih =>
      obtain ⟨hhead, htail⟩ := h
      rw [min_eq_left (capacity_nonneg slice)] at hhead
      intro sl hsl
      rcases List.mem_cons.mp hsl with rfl | hsl
      · exact hhead
      · exact ih (by simpa [hhead] using htail) sl hsl
  rw [allocated, List.filter_eq_nil_iff.mpr fun sl hsl => by simp [hzero sl hsl], List.map_nil]

/-- One slice of the sweep, where no minimum binds. -/
theorem greedyStep_allocated {slice : CostSlice} (hmin : (ctx.states slice.exchangeId).lot.minQty = 0)
    {g : GreedyState} (hr : 0 < g.remainingLots) (hlots : lots slice = min g.remainingLots slice.capacity)
    (hs : slice.availableLots ≠ 0) :
    (greedyStep ctx slice g).remainingLots = g.remainingLots - lots slice ∧
    (greedyStep ctx slice g).out = g.out ++ allocated ctx [slice] lots := by
  have hnone :
      roundHalfAway ((ctx.states slice.exchangeId).lot.minQty / resolveReferenceLotSize ctx) = 0 := by
    rw [hmin, zero_div, roundHalfAway_zero]
  have hcap : slice.capacity = max slice.availableLots 0 := rfl
  by_cases hneg : slice.availableLots < 0
  · have hskip :
        (if g.remainingLots < slice.availableLots then g.remainingLots else slice.availableLots) < 0 := by
      rw [if_neg (by omega)]
      exact hneg
    have hzero : lots slice = 0 := by omega
    simp [greedyStep, hnone, hskip, hzero, allocated]
  · have htake : (if g.remainingLots < slice.availableLots then g.remainingLots else slice.availableLots) =
        lots slice := by
      split <;> omega
    have hpos : 0 < lots slice := by omega
    simp [greedyStep, hnone, htake, hpos, not_lt.mpr hpos.le, allocated, CostSlice.child]

theorem greedyLoop_allocated (slices : List CostSlice)
    (hmin : ∀ sl ∈ slices, (ctx.states sl.exchangeId).lot.minQty = 0)
    (hs : ∀ sl ∈ slices, sl.availableLots ≠ 0) (g : GreedyState) (hr : 0 ≤ g.remainingLots)
    (hlots : Greedy CostSlice.capacity lots slices g.remainingLots) :
    (greedyLoop ctx slices g).out = g.out ++ allocated ctx slices lots := by
  induction slices generalizing g with
  | nil => simp [greedyLoop, allocated]
  | cons slice rest ih =>
    simp only [greedyLoop]
    split
    · rename_i hdone
      rw [hdone] at hlots
      rw [allocated_of_greedy_zero hlots, List.append_nil]
    · rename_i hmore
      obtain ⟨hhead, htail⟩ := hlots
      obtain ⟨hrem, hout⟩ := greedyStep_allocated (hmin slice List.mem_cons_self)
        (lt_of_le_of_ne hr (Ne.symm hmore)) hhead (hs slice List.mem_cons_self)
      have hsplit : allocated ctx (slice :: rest) lots =
          allocated ctx [slice] lots ++ allocated ctx rest lots := by
        simp only [allocated, ← List.map_append, ← List.filter_append, List.singleton_append]
      rw [ih (fun sl hsl => hmin sl (List.mem_cons_of_mem slice hsl))
        (fun sl hsl => hs sl (List.mem_cons_of_mem slice hsl)) _ (by omega) (hrem ▸ htail),
        hout, hsplit, List.append_assoc]

end Sweep

section Listing
variable {eng : RoutingEngine}

theorem mem_venueSlices {state : ExchangeState} {sl : CostSlice} (h : sl ∈ eng.venueSlices ctx state) :
    sl.exchangeId = state.exchangeId ∧ sl.availableLots ≠ 0 := by
  obtain ⟨hmem, hworth⟩ := mem_worthwhile.mp h
  obtain ⟨x, -, rfl⟩ := List.mem_map.mp hmem
  exact ⟨rfl, hworth⟩

theorem mem_eligibleSlices {sl : CostSlice} (h : sl ∈ eng.eligibleSlices ctx) :
    ∃ ex < ctx.activeExchanges, sl ∈ eng.venueSlices ctx (ctx.states ex) := by
  obtain ⟨l, hl, hsl⟩ := List.mem_flatten.mp h
  obtain ⟨ex, hex, rfl⟩ := List.mem_map.mp hl
  split at hsl
  · exact ⟨ex, List.mem_range.mp hex, hsl⟩
  · cases hsl

theorem venueSlices_nodup (state : ExchangeState) : (eng.venueSlices ctx state).Nodup := by
  refine List.Nodup.filter _ (List.Nodup.of_map CostSlice.levelIdx ?_)
  rw [List.map_map]
  have hidx : ((state.book.sides (takerSide ctx.dir)).zipIdx.map Prod.snd).Nodup := by
    rw [List.zipIdx_map_snd]
    exact List.nodup_range'
  exact hidx.sublist (List.Sublist.map _ List.filter_sublist)

theorem eligibleSlices_nodup (hids : ∀ ex < ctx.activeExchanges, (ctx.states ex).exchangeId = ex) :
    (eng.eligibleSlices ctx).Nodup := by
  rw [RoutingEngine.eligibleSlices, List.nodup_flatten]
  constructor
  · intro l hl
    obtain ⟨ex, -, rfl⟩ := List.mem_map.mp hl
    split
    · exact venueSlices_nodup _
    · exact List.nodup_nil
  · rw [List.pairwise_map]
    refine List.nodup_range.imp_of_mem ?_
    intro a b ha hb hne sl hsla hslb
    have hvenue : ∀ ex ∈ List.range ctx.activeExchanges,
        sl ∈ (if (ctx.states ex).enabled && (ctx.states ex).book.isValid then
          eng.venueSlices ctx (ctx.states ex) else []) → sl.exchangeId = ex := by
      intro ex hex hmem
      split at hmem
      · rw [(mem_venueSlices hmem).1, hids ex (List.mem_range.mp hex)]
      · cases hmem
    exact hne ((hvenue a ha hsla).symm.trans (hvenue b hb hslb))

end Listing

/-- With no minimum size the split serves as much of the target as the eligible levels hold, at the
least cost of all allocations of that total. -/
theorem calculateOptimalSplit_optimal (eng : RoutingEngine) (ctx : RoutingContext) (h : ctx.Readable)
    (hids : ∀ ex < ctx.activeExchanges, (ctx.states ex).exchangeId = ex)
    (hmin : ∀ ex < ctx.activeExchanges, (ctx.states ex).lot.minQty = 0) (htarget : 1 ≤ ctx.targetLots) :
    ∃ lots : CostSlice → ℤ,
      (eng.calculateOptimalSplit ctx).2 = allocated ctx (eng.buildCostSlices ctx) lots ∧
      Feasible CostSlice.capacity (eng.eligibleSlices ctx) lots ∧
      total (eng.eligibleSlices ctx) lots =
        min ctx.targetLots (total (eng.eligibleSlices ctx) CostSlice.capacity) ∧
      ∀ other, Feasible CostSlice.capacity (eng.eligibleSlices ctx) other →
        total (eng.eligibleSlices ctx) other = total (eng.eligibleSlices ctx) lots →
        totalCost CostSlice.effectiveTicks (eng.eligibleSlices ctx) lots ≤
          totalCost CostSlice.effectiveTicks (eng.eligibleSlices ctx) other := by
  have hsort := buildCostSlices_eq eng h
  have hperm : (eng.buildCostSlices ctx).Perm (eng.eligibleSlices ctx) := by
    rw [hsort]
    exact sortBy_perm _ _
  have hsorted : (eng.buildCostSlices ctx).Pairwise fun a b => a.effectiveTicks ≤ b.effectiveTicks := by
    rw [hsort]
    exact sortBy_sorted _ _
  have hslice : ∀ sl ∈ eng.buildCostSlices ctx,
      (ctx.states sl.exchangeId).lot.minQty = 0 ∧ sl.availableLots ≠ 0 := by
    intro sl hsl
    obtain ⟨ex, hex, hmem⟩ := mem_eligibleSlices (hperm.subset hsl)
    obtain ⟨hid, hworth⟩ := mem_venueSlices hmem
    rw [hid, hids ex hex]
    exact ⟨hmin ex hex, hworth⟩
  have hcap : ∀ sl ∈ eng.buildCostSlices ctx, 0 ≤ sl.capacity := fun sl _ => capacity_nonneg sl
  have hr : 0 ≤ ctx.targetLots := by omega
  obtain ⟨lots, hgreedy⟩ := exists_greedy CostSlice.capacity
    (hperm.nodup_iff.mpr (eligibleSlices_nodup hids)) ctx.targetLots
  refine ⟨lots, ?_, ?_, ?_, ?_⟩
  · have hsweep := greedyLoop_allocated (eng.buildCostSlices ctx) (fun sl hsl => (hslice sl hsl).1)
      (fun sl hsl => (hslice sl hsl).2) ⟨ctx.targetLots, [], 0, 0, 0, 0, 0, 0⟩ hr hgreedy
    rw [RoutingEngine.calculateOptimalSplit, greedyFill_out]
    split
    · rename_i hempty
      rw [List.isEmpty_iff.mp hempty]
      rfl
    · exact hsweep
  · exact fun sl hsl => hgreedy.feasible hcap hr sl (hperm.mem_iff.mpr hsl)
  · rw [← total_perm hperm, ← total_perm hperm]
    exact hgreedy.total_eq hcap hr
  · intro other hother htotal
    rw [← total_perm hperm, ← total_perm hperm] at htotal
    rw [← totalCost_perm hperm, ← totalCost_perm hperm]
    exact hgreedy.optimal hcap hr hsorted (fun sl hsl => hother sl (hperm.subset hsl)) htotal

theorem calculateOptimalSplit_optimal_twoVenues :
    (Sample.freeEngine.calculateOptimalSplit Sample.twoVenues).2.map
        (fun co => (co.exchangeId, co.levelIdx, co.qty * 1000)) = [(0, 0, 2), (1, 0, 3), (1, 2, 3)] ∧
    ∃ lots : CostSlice → ℤ,
      total (Sample.freeEngine.eligibleSlices Sample.twoVenues) lots = 8 ∧
      ∀ other, Feasible CostSlice.capacity (Sample.freeEngine.eligibleSlices Sample.twoVenues) other →
        total (Sample.freeEngine.eligibleSlices Sample.twoVenues) other =
          total (Sample.freeEngine.eligibleSlices Sample.twoVenues) lots →
        totalCost CostSlice.effectiveTicks (Sample.freeEngine.eligibleSlices Sample.twoVenues) lots ≤
          totalCost CostSlice.effectiveTicks (Sample.freeEngine.eligibleSlices Sample.twoVenues) other := by
  refine ⟨by decide +kernel, ?_⟩
  obtain ⟨lots, -, -, htotal, hbest⟩ := calculateOptimalSplit_optimal Sample.freeEngine Sample.twoVenues
    Sample.twoVenues_readable (by decide) (by decide +kernel) (by decide)
  refine ⟨lots, ?_, hbest⟩
  rw [htotal]
  decide +kernel

end OmsFormal.Sor
