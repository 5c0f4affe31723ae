import OmsFormal.SplitSoundness

/-!
# Larger demands and fillable demands

Two relations between what a split is asked and what it puts on the market: asking
for more never fills less, and a target that could be filled is filled unless the
sweep ends below the minimum of a venue it has passed.
-/

namespace OmsFormal.Sor
open Rounding StableMerge MinimumSweep
set_option autoImplicit false

/-- The lots of a slice in an assignment: none, or between the minimum of its venue and what it holds. -/
def CostSlice.Fits (ctx : RoutingContext) (sl : CostSlice) (n : ℤ) : Prop :=
  n = 0 ∨ sl.minLots ctx ≤ n ∧ n ≤ sl.availableLots

instance (ctx : RoutingContext) (sl : CostSlice) (n : ℤ) : Decidable (sl.Fits ctx n) :=
  inferInstanceAs (Decidable (_ ∨ _))

/-- Slices `xs` that a split left short: one that got nothing needs more than the remainder. -/
structure Stranded (ctx : RoutingContext) (xs : List (CostSlice × ℤ)) (unfilled : ℤ) : Prop where
  unmet : 0 < unfilled
  passed : ∃ x ∈ xs, x.2 = 0 ∧ unfilled < x.1.minLots ctx ∧ x.1.minLots ctx ≤ x.1.availableLots

variable {ctx : RoutingContext}

/-- The target does not change what the books offer. -/
theorem servings_retarget (eng : RoutingEngine) (ctx : RoutingContext) (t : ℤ) :
    eng.servings { ctx with targetLots := t } =
      sweep CostSlice.capacity (CostSlice.minLots ctx) (eng.buildCostSlices ctx) t := rfl

/-- Asking for more never fills less. -/
theorem calculateOptimalSplit_mono (eng : RoutingEngine) (ctx : RoutingContext)
    (hr : 0 < resolveReferenceLotSize ctx) (t₁ t₂ : ℤ) (h₁ : 1 ≤ t₁) (h : t₁ ≤ t₂) :
    eng.splitLots { ctx with targetLots := t₁ } ≤ eng.splitLots { ctx with targetLots := t₂ } := by
  rw [splitLots_eq eng { ctx with targetLots := t₁ } hr h₁,
    splitLots_eq eng { ctx with targetLots := t₂ } hr (h₁.trans h),
    servings_retarget, servings_retarget]
  exact served_mono (fun sl _ => capacity_nonneg sl) (by omega) h

/-- Four lots more, and the second venue's minimum is met. -/
theorem calculateOptimalSplit_mono_minimumVenue :
    (List.map (fun t => Sample.freeEngine.splitLots { Sample.minimumVenue [] with targetLots := t })
      [10, 14]) =
      [8, 14] ∧
    Sample.freeEngine.splitLots { Sample.minimumVenue [] with targetLots := 10 } ≤
      Sample.freeEngine.splitLots { Sample.minimumVenue [] with targetLots := 14 } :=
  ⟨by decide +kernel, calculateOptimalSplit_mono Sample.freeEngine (Sample.minimumVenue [])
    (Sample.minimumVenue_sized []).reference 10 14 (by decide) (by decide)⟩

/-- An assignment to the listed levels is one to the merged slices. -/
theorem assignment_sorted {eng : RoutingEngine} (h : ctx.Readable) {ns : List ℤ}
    (hns : List.Forall₂ (CostSlice.Fits ctx) (eng.eligibleSlices ctx) ns) :
    ∃ ms, List.Forall₂ (CostSlice.Fits ctx) (eng.buildCostSlices ctx) ms ∧ ms.sum = ns.sum := by
  have hperm := (buildCostSlices_stable_sort eng ctx h).2.2.1
  obtain ⟨ms, hms, hsum⟩ := List.perm_comp_forall₂ hperm hns
  exact ⟨ms, hms, hsum.sum_eq⟩

/-- A target that some assignment fills is filled, or the remainder is below the minimum of a venue
whose level the sweep has passed although it could have served that minimum. -/
theorem calculateOptimalSplit_fills (eng : RoutingEngine) (ctx : RoutingContext) (h : ctx.Readable)
    (hr : 0 < resolveReferenceLotSize ctx) (htarget : 1 ≤ ctx.targetLots) (ns : List ℤ)
    (hns : List.Forall₂ (CostSlice.Fits ctx) (eng.eligibleSlices ctx) ns) (hsum : ns.sum = ctx.targetLots) :
    (eng.calculateOptimalSplit ctx).1.success = true ∨
    ∃ xs unfilled, xs.map Prod.fst = eng.buildCostSlices ctx ∧
      (eng.calculateOptimalSplit ctx).2 = taken ctx xs ∧
      (eng.calculateOptimalSplit ctx).1.unfilledQty = fromLots unfilled (resolveReferenceLotSize ctx) ∧
      Stranded ctx xs unfilled := by
  obtain ⟨hout, hsuccess, hunfilled⟩ := calculateOptimalSplit_servings eng hr htarget
  obtain ⟨ms, hms, hmsum⟩ := assignment_sorted h hns
  have hfits : List.Forall₂ (fun sl n => n = 0 ∨ CostSlice.minLots ctx sl ≤ n ∧ n ≤ sl.capacity)
      (eng.buildCostSlices ctx) ms :=
    hms.imp fun sl n hn => hn.imp_right fun hn => ⟨hn.1, hn.2.trans (le_max_left _ _)⟩
  rw [hsuccess]
  obtain ⟨-, -, hle⟩ := servings_bounds eng (show 0 ≤ ctx.targetLots by omega)
  rcases served_or_stranded (fun sl _ => capacity_nonneg sl) (by omega) hfits (hmsum.trans hsum) with
    hfull | ⟨x, hx, hzero, hcap, hlow⟩
  · exact Or.inl hfull
  · change ctx.targetLots - served (eng.servings ctx) < x.1.minLots ctx at hlow
    by_cases hfull : served (eng.servings ctx) = ctx.targetLots
    · exact Or.inl hfull
    · refine Or.inr ⟨eng.servings ctx, _, servings_map_fst, hout, hunfilled, by omega, x, hx, hzero, hlow, ?_⟩
      have hcap' : x.1.minLots ctx ≤ max x.1.availableLots 0 := hcap
      omega

theorem Sample.minimumVenue_readable {later : List Level} (hlength : later.length < kMaxDepth)
    (hsorted : BestFirst .ask (⟨100, 8⟩ :: later)) : (minimumVenue later).Readable := by
  refine readable_of_two rfl (fun ex hex => ?_) hsorted (List.pairwise_singleton _ _)
  obtain rfl | rfl : ex = 0 ∨ ex = 1 := by omega
  · exact hlength
  · exact Nat.le_of_ble_eq_true rfl

/-- With four more lots at 102 the first venue alone fills the order. -/
theorem calculateOptimalSplit_fills_minimumVenue :
    ∃ ns : List ℤ, ns.sum = 10 ∧
      ((Sample.freeEngine.calculateOptimalSplit (Sample.minimumVenue [⟨102, 4⟩])).1.success = true ∨
      ∃ xs unfilled, xs.map Prod.fst = Sample.freeEngine.buildCostSlices (Sample.minimumVenue [⟨102, 4⟩]) ∧
        (Sample.freeEngine.calculateOptimalSplit (Sample.minimumVenue [⟨102, 4⟩])).2 =
          taken (Sample.minimumVenue [⟨102, 4⟩]) xs ∧
        (Sample.freeEngine.calculateOptimalSplit (Sample.minimumVenue [⟨102, 4⟩])).1.unfilledQty =
          fromLots unfilled (resolveReferenceLotSize (Sample.minimumVenue [⟨102, 4⟩])) ∧
        Stranded (Sample.minimumVenue [⟨102, 4⟩]) xs unfilled) :=
  ⟨[8, 2, 0], by decide, calculateOptimalSplit_fills Sample.freeEngine (Sample.minimumVenue [⟨102, 4⟩])
    (Sample.minimumVenue_readable (by decide) (by change List.Pairwise _ _; decide))
    (Sample.minimumVenue_sized _).reference (by decide) [8, 2, 0] (by decide +kernel) (by decide)⟩

/-- Eight lots at 100 are taken, and the remaining two are below the second venue's minimum; five and
five would have filled the order. -/
theorem minimumVenue_fillable_unfilled :
    (Sample.minimumVenue []).Readable ∧ 1 ≤ (Sample.minimumVenue []).targetLots ∧
    (∃ ns, List.Forall₂ (CostSlice.Fits (Sample.minimumVenue []))
        (Sample.freeEngine.eligibleSlices (Sample.minimumVenue [])) ns ∧
      ns.sum = (Sample.minimumVenue []).targetLots) ∧
    (Sample.freeEngine.calculateOptimalSplit (Sample.minimumVenue [])).1.success = false :=
  ⟨Sample.minimumVenue_readable (by decide) (List.pairwise_singleton _ _), by decide,
    ⟨[5, 5], by decide +kernel, by decide⟩, by decide +kernel⟩

end OmsFormal.Sor
