import OmsFormal.SplitSoundness

/-!
# Venues are ranked by effective ticks

Both entry points compare integers in ticks of the venue they belong to: the split
in the order of the merged slices, the maker placement by its scan of the touches.
The comparison is one of money where the active venues share a tick size.
-/

namespace OmsFormal.Sor
open Rounding StableMerge MinimumSweep
set_option autoImplicit false

/-- The direction-signed effective price of a taker child, in USD. -/
def ChildOrder.effectivePrice (co : ChildOrder) : ℚ := co.effectiveCost / co.qty

def ChildOrder.tickSize (ctx : RoutingContext) (co : ChildOrder) : ℚ :=
  (ctx.states co.exchangeId).book.tickSize

/-- The order of the children, and the choice of the maker venue, in ticks of each venue. -/
structure RankedByTicks (eng : RoutingEngine) (ctx : RoutingContext) : Prop where
  ticks : ∀ co ∈ (eng.calculateOptimalSplit ctx).2, ∃ p : ℤ, co.price = p * co.tickSize ctx ∧
    co.effectivePrice / co.tickSize ctx =
      dirSign ctx.dir * p + (eng.openCursor ctx (ctx.states co.exchangeId)).penaltyTicks
  order : (eng.calculateOptimalSplit ctx).2.Pairwise fun a b =>
    a.effectivePrice / a.tickSize ctx ≤ b.effectivePrice / b.tickSize ctx
  touch : ∀ co ∈ (eng.calculateMakerPlacement ctx).2,
    ∃ t, eng.makerTouch ctx (ctx.states co.exchangeId) = some t ∧
      co.effectiveCost = t.effTicks * co.tickSize ctx ∧
      ∀ ex < ctx.activeExchanges, ∀ u, eng.makerTouch ctx (ctx.states ex) = some u → t.effTicks ≤ u.effTicks
  found : (∃ ex < ctx.activeExchanges, (eng.makerTouch ctx (ctx.states ex)).isSome) →
    (eng.calculateMakerPlacement ctx).2 ≠ []

/-- The same order and choice in USD. -/
structure RankedByMoney (eng : RoutingEngine) (ctx : RoutingContext) : Prop where
  order : (eng.calculateOptimalSplit ctx).2.Pairwise fun a b => a.effectivePrice ≤ b.effectivePrice
  touch : ∀ co ∈ (eng.calculateMakerPlacement ctx).2, ∀ ex < ctx.activeExchanges, ∀ u,
    eng.makerTouch ctx (ctx.states ex) = some u →
      co.effectiveCost ≤ u.effTicks * (ctx.states ex).book.tickSize

variable {eng : RoutingEngine} {ctx : RoutingContext}

section Touch

/-- One venue of the maker scan. -/
def RoutingEngine.betterTouch (eng : RoutingEngine) (ctx : RoutingContext) (best : Option MakerTouch)
    (ex : ℕ) :
    Option MakerTouch :=
  match eng.makerTouch ctx (ctx.states ex) with
  | none => best
  | some t =>
    match best with
    | none => some t
    | some b => if t.effTicks < b.effTicks then some t else some b

/-- A touch that is not worse than `best`, nor than any venue's in `exs`. -/
def MakerTouch.Least (eng : RoutingEngine) (ctx : RoutingContext) (best : Option MakerTouch) (exs : List ℕ)
    (t : MakerTouch) : Prop :=
  (∀ b, best = some b → t.effTicks ≤ b.effTicks) ∧
  ∀ ex ∈ exs, ∀ u, eng.makerTouch ctx (ctx.states ex) = some u → t.effTicks ≤ u.effTicks

theorem betterTouch_least (best : Option MakerTouch) (ex : ℕ) {t : MakerTouch}
    (h : eng.betterTouch ctx best ex = some t) : t.Least eng ctx best [ex] := by
  unfold RoutingEngine.betterTouch at h
  unfold MakerTouch.Least
  simp only [List.mem_singleton, forall_eq]
  cases htouch : eng.makerTouch ctx (ctx.states ex) with
  | none =>
    rw [htouch] at h
    subst h
    refine ⟨?_, ?_⟩
    · rintro b ⟨⟩
      exact le_rfl
    · rintro u ⟨⟩
  | some u =>
    rw [htouch] at h
    cases best with
    | none =>
      cases h
      refine ⟨?_, ?_⟩
      · rintro b ⟨⟩
      · rintro v ⟨⟩
        exact le_rfl
    | some b =>
      simp only at h
      split at h
      · rename_i hlt
        cases h
        refine ⟨?_, ?_⟩
        · rintro b' ⟨⟩
          exact hlt.le
        · rintro v ⟨⟩
          exact le_rfl
      · rename_i hge
        cases h
        refine ⟨?_, ?_⟩
        · rintro b' ⟨⟩
          exact le_rfl
        · rintro v ⟨⟩
          exact not_lt.mp hge

theorem betterTouch_none {best : Option MakerTouch} {ex : ℕ} (h : eng.betterTouch ctx best ex = none) :
    best = none ∧ eng.makerTouch ctx (ctx.states ex) = none := by
  unfold RoutingEngine.betterTouch at h
  cases htouch : eng.makerTouch ctx (ctx.states ex) with
  | none =>
    rw [htouch] at h
    exact ⟨h, rfl⟩
  | some u =>
    rw [htouch] at h
    cases best with
    | none => cases h
    | some b =>
      simp only at h
      split at h <;> cases h

/-- The scan ends on a least touch, and on none only where no venue has one. -/
theorem foldl_betterTouch (exs : List ℕ) (best : Option MakerTouch) :
    (∀ t, exs.foldl (eng.betterTouch ctx) best = some t → t.Least eng ctx best exs) ∧
    (exs.foldl (eng.betterTouch ctx) best = none →
      best = none ∧ ∀ ex ∈ exs, eng.makerTouch ctx (ctx.states ex) = none) := by
  induction exs generalizing best with
  | nil =>
    refine ⟨fun t ht => ⟨?_, by simp⟩, fun h => ⟨h, by simp⟩⟩
    rintro b rfl
    cases ht
    exact le_rfl
  | cons ex exs ih =>
    simp only [List.foldl_cons]
    obtain ⟨hsome, hnone⟩ := ih (eng.betterTouch ctx best ex)
    constructor
    · intro t ht
      obtain ⟨hfirst, hrest⟩ := hsome t ht
      cases hbest : eng.betterTouch ctx best ex with
      | none =>
        obtain ⟨hb, htouch⟩ := betterTouch_none hbest
        subst hb
        refine ⟨nofun, fun ex' hex u hu => ?_⟩
        rcases List.mem_cons.mp hex with rfl | hex
        · rw [htouch] at hu
          cases hu
        · exact hrest ex' hex u hu
      | some b =>
        obtain ⟨hbest', htouch⟩ := betterTouch_least best ex hbest
        have htb := hfirst b hbest
        refine ⟨fun c hc => htb.trans (hbest' c hc), fun ex' hex u hu => ?_⟩
        rcases List.mem_cons.mp hex with rfl | hex
        · exact htb.trans (htouch ex' List.mem_cons_self u hu)
        · exact hrest ex' hex u hu
    · intro h
      obtain ⟨hbest, hrest⟩ := hnone h
      obtain ⟨hb, htouch⟩ := betterTouch_none hbest
      refine ⟨hb, fun ex' hex => ?_⟩
      rcases List.mem_cons.mp hex with rfl | hex
      · exact htouch
      · exact hrest ex' hex

theorem bestTouch_least {t : MakerTouch} (h : eng.bestTouch ctx = some t) :
    ∀ ex < ctx.activeExchanges, ∀ u, eng.makerTouch ctx (ctx.states ex) = some u → t.effTicks ≤ u.effTicks :=
  fun ex hex =>
    ((foldl_betterTouch (List.range ctx.activeExchanges) none).1 t h).2 ex (List.mem_range.mpr hex)

theorem bestTouch_none (h : eng.bestTouch ctx = none) :
    ∀ ex < ctx.activeExchanges, eng.makerTouch ctx (ctx.states ex) = none :=
  fun ex hex => ((foldl_betterTouch (List.range ctx.activeExchanges) none).2 h).2 ex (List.mem_range.mpr hex)

end Touch

section Children

theorem child_effectivePrice (hr : 0 < resolveReferenceLotSize ctx) (sl : CostSlice) {n : ℤ} (hn : 0 < n) :
    (sl.child ctx n).effectivePrice = sl.effectiveTicks * (sl.child ctx n).tickSize ctx := by
  have hqty : (n : ℚ) * resolveReferenceLotSize ctx ≠ 0 :=
    mul_ne_zero (by exact_mod_cast hn.ne') hr.ne'
  change (n : ℚ) * resolveReferenceLotSize ctx * (sl.effectiveTicks * _) /
    (n * resolveReferenceLotSize ctx) = _
  rw [mul_div_cancel_left₀ _ hqty]
  rfl

/-- What a slice says about its own price, and the venue it belongs to. -/
theorem CostSlice.Offer.ranked {ex : ℕ} {lv : Level} {sl : CostSlice} (h : sl.Offer eng ctx ex lv)
    (hids : ∀ ex < ctx.activeExchanges, (ctx.states ex).exchangeId = ex) :
    sl.exchangeId < ctx.activeExchanges ∧ sl.effectiveTicks = dirSign ctx.dir * sl.rawPriceTicks +
      (eng.openCursor ctx (ctx.states sl.exchangeId)).penaltyTicks := by
  have hid : sl.exchangeId = ex := by
    rw [h.slice]
    exact hids ex h.live.1
  refine ⟨hid ▸ h.live.1, ?_⟩
  rw [hid, h.slice]
  rfl

theorem slice_ranked (hids : ∀ ex < ctx.activeExchanges, (ctx.states ex).exchangeId = ex) {x : CostSlice × ℤ}
    (hx : x ∈ eng.servings ctx) : x.1.exchangeId < ctx.activeExchanges ∧
      x.1.effectiveTicks = dirSign ctx.dir * x.1.rawPriceTicks +
        (eng.openCursor ctx (ctx.states x.1.exchangeId)).penaltyTicks := by
  obtain ⟨ex, lv, hoffer⟩ := buildCostSlices_offer x.1 (fst_mem_slices hx)
  exact hoffer.ranked hids

theorem servings_sorted (h : ctx.Readable) :
    (eng.servings ctx).Pairwise fun x y => x.1.effectiveTicks ≤ y.1.effectiveTicks := by
  have hsorted := (buildCostSlices_stable_sort eng ctx h).2.1
  rw [← servings_map_fst, List.pairwise_map] at hsorted
  exact hsorted

/-- A relation that follows from the order of the effective ticks holds along the children. -/
theorem children_pairwise (h : ctx.Readable) (hr : 0 < resolveReferenceLotSize ctx)
    (htarget : 1 ≤ ctx.targetLots)
    {R : ChildOrder → ChildOrder → Prop}
    (hR : ∀ x ∈ eng.servings ctx, ∀ y ∈ eng.servings ctx, 0 < x.2 → 0 < y.2 →
      x.1.effectiveTicks ≤ y.1.effectiveTicks → R (x.1.child ctx x.2) (y.1.child ctx y.2)) :
    (eng.calculateOptimalSplit ctx).2.Pairwise R := by
  rw [(calculateOptimalSplit_servings eng hr htarget).1, taken, List.pairwise_map]
  refine ((servings_sorted h).filter _).imp_of_mem ?_
  intro x y hx hy hle
  obtain ⟨hx, hxpos⟩ := List.mem_filter.mp hx
  obtain ⟨hy, hypos⟩ := List.mem_filter.mp hy
  exact hR x hx y hy (of_decide_eq_true hxpos) (of_decide_eq_true hypos) hle

end Children

/-- Venues are ranked by effective ticks, and by money where the active venues share a tick size. -/
theorem venues_ranked (eng : RoutingEngine) (ctx : RoutingContext) (h : ctx.Readable)
    (hr : 0 < resolveReferenceLotSize ctx) (htarget : 1 ≤ ctx.targetLots)
    (hids : ∀ ex < ctx.activeExchanges, (ctx.states ex).exchangeId = ex)
    (hticks : ∀ ex < ctx.activeExchanges, 0 < (ctx.states ex).book.tickSize) :
    RankedByTicks eng ctx ∧
    ((∀ a < ctx.activeExchanges, ∀ b < ctx.activeExchanges,
        (ctx.states a).book.tickSize = (ctx.states b).book.tickSize) → RankedByMoney eng ctx) := by
  have hprice : ∀ x ∈ eng.servings ctx, 0 < x.2 →
      (x.1.child ctx x.2).effectivePrice = x.1.effectiveTicks * (x.1.child ctx x.2).tickSize ctx :=
    fun x _ hpos => child_effectivePrice hr x.1 hpos
  have htick : ∀ x ∈ eng.servings ctx, 0 < (x.1.child ctx x.2).tickSize ctx :=
    fun x hx => hticks _ (slice_ranked hids hx).1
  have hinticks : ∀ x ∈ eng.servings ctx, 0 < x.2 →
      (x.1.child ctx x.2).effectivePrice / (x.1.child ctx x.2).tickSize ctx = x.1.effectiveTicks :=
    fun x hx hpos => by rw [hprice x hx hpos, mul_div_cancel_right₀ _ (htick x hx).ne']
  have hmaker : ∀ co ∈ (eng.calculateMakerPlacement ctx).2, ∃ t, eng.bestTouch ctx = some t ∧
      co.exchangeId < ctx.activeExchanges ∧ eng.makerTouch ctx (ctx.states co.exchangeId) = some t ∧
      co.effectiveCost = t.effTicks * co.tickSize ctx := by
    intro co hco
    unfold RoutingEngine.calculateMakerPlacement at hco
    split at hco
    · cases hco
    · rename_i t hbest
      obtain ⟨ex, hex, hstate, htouch⟩ := bestTouch_own hbest
      rw [List.mem_singleton.mp hco]
      refine ⟨t, hbest, ?_, ?_, ?_⟩
      · simpa [hstate, hids ex hex] using hex
      · simpa [hstate, hids ex hex] using htouch
      · simp [ChildOrder.tickSize, hstate, hids ex hex]
  refine ⟨⟨?_, ?_, ?_, ?_⟩, fun hshared => ⟨?_, ?_⟩⟩
  · intro co hco
    rw [(calculateOptimalSplit_servings eng hr htarget).1] at hco
    obtain ⟨x, hx, hpos, rfl⟩ := mem_taken.mp hco
    refine ⟨x.1.rawPriceTicks, rfl, ?_⟩
    rw [hinticks x hx hpos, (slice_ranked hids hx).2]
    push_cast
    rfl
  · refine children_pairwise h hr htarget fun x hx y hy hxpos hypos hle => ?_
    rw [hinticks x hx hxpos, hinticks y hy hypos]
    exact_mod_cast hle
  · intro co hco
    obtain ⟨t, hbest, -, htouch, hcost⟩ := hmaker co hco
    exact ⟨t, htouch, hcost, bestTouch_least hbest⟩
  · rintro ⟨ex, hex, htouch⟩ hnone
    unfold RoutingEngine.calculateMakerPlacement at hnone
    split at hnone
    · rename_i hbest
      rw [bestTouch_none hbest ex hex] at htouch
      cases htouch
    · cases hnone
  · refine children_pairwise h hr htarget fun x hx y hy hxpos hypos hle => ?_
    have hsame : (x.1.child ctx x.2).tickSize ctx = (y.1.child ctx y.2).tickSize ctx :=
      hshared _ (slice_ranked hids hx).1 _ (slice_ranked hids hy).1
    rw [hprice x hx hxpos, hprice y hy hypos, hsame]
    exact mul_le_mul_of_nonneg_right (by exact_mod_cast hle) (htick y hy).le
  · intro co hco ex hex u hu
    obtain ⟨t, hbest, hvenue, -, hcost⟩ := hmaker co hco
    rw [hcost, ChildOrder.tickSize, hshared _ hvenue ex hex]
    exact mul_le_mul_of_nonneg_right (by exact_mod_cast bestTouch_least hbest ex hex u hu) (hticks ex hex).le

namespace Sample

/-- A purchase over two venues: the first one quotes 99 and 100 in ticks of one, the second one 985
and 999 in ticks of `fine`. -/
def twoTicks (fine : ℚ) : RoutingContext :=
  let venue (id : ℕ) (tick : ℚ) (bid ask : Level) : ExchangeState :=
    { askVenue id [ask] with book := ⟨fun | .ask => [ask] | .bid => [bid], tick, 1 / 1000, true⟩ }
  { twoVenues with
    states := fun ex => if ex = 0 then venue 0 1 ⟨99, 4⟩ ⟨100, 4⟩ else venue 1 fine ⟨985, 4⟩ ⟨999, 4⟩
    limitPrice := 0 }

theorem twoTicks_readable (fine : ℚ) : (twoTicks fine).Readable := by
  refine readable_of_two rfl (fun ex hex => ?_) (List.pairwise_singleton _ _) (List.pairwise_singleton _ _)
  obtain rfl | rfl : ex = 0 ∨ ex = 1 := by omega
  · exact Nat.le_of_ble_eq_true rfl
  · exact Nat.le_of_ble_eq_true rfl

end Sample

theorem venues_ranked_sharedTick : RankedByMoney Sample.freeEngine (Sample.twoTicks 1) :=
  (venues_ranked Sample.freeEngine (Sample.twoTicks 1) (Sample.twoTicks_readable 1) (by decide +kernel)
    (by decide) (by decide) (by decide +kernel)).2 (by decide +kernel)

/-- With ticks of a tenth the second venue asks 99.9 and bids 98.5, and the first venue still comes first. -/
theorem twoTicks_not_ranked_by_money :
    (Sample.twoTicks (1 / 10)).Readable ∧
    (∀ ex < (Sample.twoTicks (1 / 10)).activeExchanges,
      0 < ((Sample.twoTicks (1 / 10)).states ex).book.tickSize) ∧
    ((Sample.freeEngine.calculateOptimalSplit (Sample.twoTicks (1 / 10))).2.map ChildOrder.effectivePrice) =
      [100, 999 / 10] ∧
    ((Sample.freeEngine.calculateMakerPlacement (Sample.twoTicks (1 / 10))).2.map
      fun co => (co.exchangeId, co.effectiveCost)) = [(0, 99)] ∧
    ¬ RankedByMoney Sample.freeEngine (Sample.twoTicks (1 / 10)) := by
  refine ⟨Sample.twoTicks_readable _, by decide +kernel, by decide +kernel, by decide +kernel, fun h => ?_⟩
  have horder := h.order
  revert horder
  decide +kernel

end OmsFormal.Sor
