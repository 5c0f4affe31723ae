import OmsFormal.SplitSweep

/-!
# The split is sound

What `calculate_optimal_split` hands back for any books and any venue minimums:
children on distinct levels of live venues, within what their slices hold, that
account for the whole target together with the unfilled remainder.
-/

namespace OmsFormal.Sor
open Rounding MinimumSweep
set_option autoImplicit false

/-- A taker order at a level of the opposite side of a live venue, within the limit of that venue. -/
structure ChildOrder.Sited (ctx : RoutingContext) (co : ChildOrder) : Prop where
  type : co.type = .taker
  dir : co.dir = ctx.dir
  live : ctx.Live co.exchangeId
  level : ∃ lv, ((ctx.states co.exchangeId).book.sides (takerSide ctx.dir))[co.levelIdx]? = some lv ∧
    co.price = lv.priceTicks * (ctx.states co.exchangeId).book.tickSize ∧
    ctx.TakerPrice (ctx.states co.exchangeId) lv.priceTicks

/-- The children of a split and what it leaves unfilled; `xs` are the slices in the order of the sweep
with the lots each of them gets. -/
structure SplitSound (eng : RoutingEngine) (ctx : RoutingContext) (xs : List (CostSlice × ℤ)) : Prop where
  slices : xs.map Prod.fst = eng.buildCostSlices ctx
  shares : ∀ x ∈ xs, 0 ≤ x.2 ∧ x.2 ≤ x.1.availableLots
  children : (eng.calculateOptimalSplit ctx).2 = taken ctx xs
  count : (eng.calculateOptimalSplit ctx).2.length ≤ kMaxChildOrders
  lots : ∀ co ∈ (eng.calculateOptimalSplit ctx).2, ∃ sl ∈ eng.buildCostSlices ctx,
    co.exchangeId = sl.exchangeId ∧ co.levelIdx = sl.levelIdx ∧
    1 ≤ co.lots (resolveReferenceLotSize ctx) ∧ co.lots (resolveReferenceLotSize ctx) ≤ sl.availableLots
  distinct : ((eng.calculateOptimalSplit ctx).2.map fun co => (co.exchangeId, co.levelIdx)).Nodup
  sited : ∀ co ∈ (eng.calculateOptimalSplit ctx).2, co.Sited ctx
  conserved : ∃ unfilled : ℤ, 0 ≤ unfilled ∧
    (eng.calculateOptimalSplit ctx).1.unfilledQty = fromLots unfilled (resolveReferenceLotSize ctx) ∧
    eng.splitLots ctx + unfilled = ctx.targetLots ∧
    ((eng.calculateOptimalSplit ctx).1.success = true ↔ unfilled = 0)
  skipped : ∀ pre x post, xs = pre ++ x :: post → x.2 = 0 → served pre < ctx.targetLots →
    min (ctx.targetLots - served pre) x.1.availableLots < x.1.minLots ctx

variable {eng : RoutingEngine} {ctx : RoutingContext}

section Taken

theorem taken_length_le (xs : List (CostSlice × ℤ)) : (taken ctx xs).length ≤ xs.length := by
  rw [taken, List.length_map]
  exact List.length_filter_le _ _

/-- The children lie where their slices lie. -/
theorem taken_keys (ctx : RoutingContext) (xs : List (CostSlice × ℤ)) :
    ((taken ctx xs).map fun co => (co.exchangeId, co.levelIdx)).Sublist
      ((xs.map Prod.fst).map CostSlice.key) := by
  rw [taken, List.map_map, List.map_map]
  exact List.filter_sublist.map _

end Taken

/-- A slice's level, and its limit check, read off the offer behind it. -/
theorem CostSlice.Offer.sited {ex : ℕ} {lv : Level} {sl : CostSlice} (h : sl.Offer eng ctx ex lv)
    (hids : ∀ ex < ctx.activeExchanges, (ctx.states ex).exchangeId = ex) (n : ℤ) :
    (sl.child ctx n).Sited ctx := by
  have hid : sl.exchangeId = ex := by
    rw [h.slice]
    exact hids ex h.live.1
  have hprice : sl.rawPriceTicks = lv.priceTicks := by
    rw [h.slice]
    rfl
  have hlevel := h.level
  have hlive := h.live
  have helig := h.eligible
  rw [← hid] at hlevel hlive helig
  refine ⟨rfl, rfl, hlive, lv, hlevel, ?_, fun hlimit hne => ?_⟩
  · change (sl.rawPriceTicks : ℚ) * _ = _
    rw [hprice]
    rfl
  · have hticks : (eng.openCursor ctx (ctx.states sl.exchangeId)).limitTicks =
        ctx.limitTicks (ctx.states sl.exchangeId) := if_pos hlimit
    change ctx.limitTicks (ctx.states sl.exchangeId) ≠ 0 at hne
    simp only [Cursor.eligible, Bool.and_eq_true] at helig
    change respects ctx.dir (ctx.limitTicks (ctx.states sl.exchangeId)) lv.priceTicks
    rw [← hticks] at hne ⊢
    exact Cursor.respects_of_within helig.1 rfl hne

/-- The split is sound for any minimums, any limit and any books, sorted or not. -/
theorem calculateOptimalSplit_sound (eng : RoutingEngine) (ctx : RoutingContext) (hs : ctx.Sized)
    (hids : ∀ ex < ctx.activeExchanges, (ctx.states ex).exchangeId = ex) (htarget : 1 ≤ ctx.targetLots) :
    ∃ xs, SplitSound eng ctx xs := by
  obtain ⟨hout, hsuccess, hunfilled⟩ := calculateOptimalSplit_servings eng hs.reference htarget
  have havail := available_pos eng hs
  obtain ⟨hbounds, -, hle⟩ := servings_bounds eng (show 0 ≤ ctx.targetLots by omega)
  have hcap : ∀ x ∈ eng.servings ctx, x.1.capacity = x.1.availableLots := by
    intro x hx
    have := havail x.1 (fst_mem_slices hx)
    exact max_eq_left (by omega)
  have hlength : (eng.servings ctx).length ≤ kMaxChildOrders := by
    rw [← List.length_map Prod.fst, servings_map_fst]
    exact mergeLoop_length _ _ _ (by simp)
  refine ⟨eng.servings ctx, servings_map_fst, ?_, hout, ?_, ?_, ?_, ?_, ?_, ?_⟩
  · intro x hx
    rw [← hcap x hx]
    exact hbounds x hx
  · rw [hout]
    exact (taken_length_le _).trans hlength
  · intro co hco
    rw [hout] at hco
    obtain ⟨x, hx, hpos, rfl⟩ := mem_taken.mp hco
    refine ⟨x.1, fst_mem_slices hx, rfl, rfl, ?_⟩
    rw [child_lots hs.reference]
    exact ⟨hpos, hcap x hx ▸ (hbounds x hx).2⟩
  · rw [hout]
    have hkeys := taken_keys ctx (eng.servings ctx)
    rw [servings_map_fst] at hkeys
    exact (buildCostSlices_distinct hids).sublist hkeys
  · intro co hco
    rw [hout] at hco
    obtain ⟨x, hx, -, rfl⟩ := mem_taken.mp hco
    obtain ⟨ex, lv, hoffer⟩ := buildCostSlices_offer x.1 (fst_mem_slices hx)
    exact hoffer.sited hids x.2
  · refine ⟨ctx.targetLots - served (eng.servings ctx), by omega, hunfilled, ?_, ?_⟩
    · rw [splitLots_eq eng ctx hs.reference htarget]
      omega
    · rw [hsuccess]
      omega
  · intro pre x post hsplit hzero hopen
    have hx : x ∈ eng.servings ctx := by
      rw [hsplit]
      simp
    have hshare := share_of_split hsplit
    rw [hzero] at hshare
    have := havail x.1 (fst_mem_slices hx)
    rw [← hcap x hx]
    exact lt_low_of_share_eq_zero hshare.symm (by omega) (by rw [hcap x hx]; omega)

namespace Sample

/-- A purchase of ten lots. The first venue asks eight lots at 100 and then `later`; the second one
asks ten lots at 101 and takes no order below five. -/
def minimumVenue (later : List Level) : RoutingContext where
  states ex := if ex = 0 then askVenue 0 (⟨100, 8⟩ :: later)
    else { askVenue 1 [⟨101, 10⟩] with lot := ⟨5 / 1000, 1000, by norm_num⟩ }
  activeExchanges := 2
  dir := .buy
  targetLots := 10
  limitPrice := 0
  referenceLotSize := 1 / 1000
  decisionNs := 1
  shortVolFactor := 0
  bookImbalance := 0

theorem minimumVenue_sized (later : List Level) : (minimumVenue later).Sized where
  reference := by
    change (0 : ℚ) < if (1 / 1000 : ℚ) > 0 then 1 / 1000 else _
    norm_num
  native ex hex := by
    have hex : ex < 2 := hex
    obtain rfl | rfl : ex = 0 ∨ ex = 1 := by omega
    · change (0 : ℚ) < 1 / 1000
      norm_num
    · change (0 : ℚ) < 1 / 1000
      norm_num
  maxQty ex hex := by
    have hex : ex < 2 := hex
    obtain rfl | rfl : ex = 0 ∨ ex = 1 := by omega
    · change (0 : ℚ) ≤ 1000
      norm_num
    · change (0 : ℚ) ≤ 1000
      norm_num

end Sample

/-- The two lots left after the best level are below the second venue's minimum and go to a later level. -/
theorem calculateOptimalSplit_sound_minimumVenue :
    (Sample.freeEngine.calculateOptimalSplit (Sample.minimumVenue [⟨102, 4⟩])).2.map
        (fun co => (co.exchangeId, co.levelIdx, co.qty * 1000)) = [(0, 0, 8), (0, 1, 2)] ∧
    ∃ xs, SplitSound Sample.freeEngine (Sample.minimumVenue [⟨102, 4⟩]) xs :=
  ⟨by decide +kernel, calculateOptimalSplit_sound Sample.freeEngine _ (Sample.minimumVenue_sized _)
    (by decide) (by decide)⟩

end OmsFormal.Sor
