import OmsFormal.RoutingEngine
import Mathlib.Algebra.Order.BigOperators.Group.List

/-!
# What the real routing engine hands back

Both entry points return whole positive canonical lots that together stay
within the target. The merge contributes one fact only, that no slice is empty;
conservation is the invariant of the greedy sweep.
-/

namespace OmsFormal.Sor
open Rounding
set_option autoImplicit false

theorem mergeLoop_available (fuel : ℕ) (cursors : List Cursor) (slices : List CostSlice)
    (h : ∀ sl ∈ slices, sl.availableLots ≠ 0) :
    ∀ sl ∈ mergeLoop fuel cursors slices, sl.availableLots ≠ 0 := by
  fun_induction mergeLoop fuel cursors slices with
  | case1 => exact h
  | case2 => exact h
  | case3 => exact h
  | case4 => exact h
  | case5 fuel cursors slices _ bestK bestEff _ c _ lv clamped adjLots cursors' hadj ih => exact ih h
  | case6 fuel cursors slices _ bestK bestEff _ c _ lv clamped adjLots cursors' _ lots _ ih => exact ih h
  | case7 fuel cursors slices _ bestK bestEff _ c _ lv clamped adjLots cursors' _ lots hlots ih =>
    apply ih
    intro sl hsl
    rcases List.mem_append.mp hsl with hold | hnew
    · exact h sl hold
    · rw [List.mem_singleton.mp hnew]
      exact hlots

theorem mergeLoop_length (fuel : ℕ) (cursors : List Cursor) (slices : List CostSlice)
    (h : slices.length ≤ kMaxChildOrders) :
    (mergeLoop fuel cursors slices).length ≤ kMaxChildOrders := by
  fun_induction mergeLoop fuel cursors slices with
  | case1 => exact h
  | case2 => exact h
  | case3 => exact h
  | case4 => exact h
  | case5 fuel cursors slices _ bestK bestEff _ c _ lv clamped adjLots cursors' hadj ih => exact ih h
  | case6 fuel cursors slices _ bestK bestEff _ c _ lv clamped adjLots cursors' _ lots _ ih => exact ih h
  | case7 fuel cursors slices hroom bestK bestEff _ c _ lv clamped adjLots cursors' _ lots _ ih =>
    apply ih
    simp only [List.length_append, List.length_singleton]
    omega

/-- The sweep so far: `n` slices seen, and what was taken plus what remains is the target.
A negative target is never touched, a non-negative one never overdrawn. -/
structure Swept (ctx : RoutingContext) (n : ℕ) (g : GreedyState) : Prop where
  count : g.out.length ≤ n
  whole : ∀ co ∈ g.out, co.qty = co.lots (resolveReferenceLotSize ctx) * resolveReferenceLotSize ctx
  pos : ∀ co ∈ g.out, 1 ≤ co.lots (resolveReferenceLotSize ctx)
  total : (g.out.map fun co => co.lots (resolveReferenceLotSize ctx)).sum + g.remainingLots = ctx.targetLots
  room : min 0 ctx.targetLots ≤ g.remainingLots

theorem greedyStep_swept {ctx : RoutingContext} (hr : 0 < resolveReferenceLotSize ctx)
    {slice : CostSlice} (hs : slice.availableLots ≠ 0) {n : ℕ} {g : GreedyState}
    (hg : Swept ctx n g) (hrem : g.remainingLots ≠ 0) : Swept ctx (n + 1) (greedyStep ctx slice g) := by
  simp only [greedyStep]
  generalize hfill : (if g.remainingLots < slice.availableLots then g.remainingLots
    else slice.availableLots) = fillLots
  have hmin : 0 ≤ roundHalfAway ((ctx.states slice.exchangeId).lot.minQty / resolveReferenceLotSize ctx) :=
    roundHalfAway_nonneg (div_nonneg (ctx.states slice.exchangeId).lot.minQty_nonneg hr.le)
  have hle : fillLots ≤ g.remainingLots := by rw [← hfill]; split <;> omega
  have hne : fillLots ≠ 0 := by rw [← hfill]; split <;> assumption
  split
  · exact ⟨Nat.le_succ_of_le hg.count, hg.whole, hg.pos, hg.total, hg.room⟩
  · rename_i hbig
    have hlots (co : ChildOrder) (hq : co.qty = fillLots * resolveReferenceLotSize ctx) :
        co.lots (resolveReferenceLotSize ctx) = fillLots := ChildOrder.lots_of_qty hr hq
    refine ⟨?_, ?_, ?_, ?_, ?_⟩
    · simpa using hg.count
    · intro co hco
      rcases List.mem_append.mp hco with hold | hnew
      · exact hg.whole co hold
      · rw [List.mem_singleton.mp hnew, hlots _ rfl]
    · intro co hco
      rcases List.mem_append.mp hco with hold | hnew
      · exact hg.pos co hold
      · rw [List.mem_singleton.mp hnew, hlots _ rfl]
        omega
    · have htotal := hg.total
      simp only [List.map_append, List.map_cons, List.map_nil, List.sum_append, List.sum_cons,
        List.sum_nil]
      rw [hlots _ rfl]
      omega
    · have : min 0 ctx.targetLots ≤ 0 := min_le_left _ _
      simp only
      omega

theorem greedyLoop_swept {ctx : RoutingContext} (hr : 0 < resolveReferenceLotSize ctx)
    (slices : List CostSlice) (hs : ∀ sl ∈ slices, sl.availableLots ≠ 0) (n : ℕ) (g : GreedyState)
    (hg : Swept ctx n g) : Swept ctx (n + slices.length) (greedyLoop ctx slices g) := by
  induction slices generalizing n g with
  | nil => simpa [greedyLoop] using hg
  | cons slice rest ih =>
    simp only [greedyLoop]
    split
    · exact ⟨Nat.le_add_right_of_le hg.count, hg.whole, hg.pos, hg.total, hg.room⟩
    · rename_i hrem
      have hstep := greedyStep_swept hr (hs slice List.mem_cons_self) hg hrem
      have hrest := ih (fun sl hsl => hs sl (List.mem_cons_of_mem slice hsl)) (n + 1) _ hstep
      have hcount : n + (slice :: rest).length = n + 1 + rest.length := by
        rw [List.length_cons]
        omega
      rwa [hcount]

theorem greedyFill_out (slices : List CostSlice) (ctx : RoutingContext) :
    (greedyFill slices ctx).2 =
      if slices.isEmpty then [] else (greedyLoop ctx slices ⟨ctx.targetLots, [], 0, 0, 0, 0, 0, 0⟩).out := by
  simp only [greedyFill]
  split
  · rfl
  · split <;> rfl

theorem optimalSplit_swept (eng : RoutingEngine) {ctx : RoutingContext}
    (hr : 0 < resolveReferenceLotSize ctx) :
    ∃ g, Swept ctx kMaxChildOrders g ∧ (eng.calculateOptimalSplit ctx).2 = g.out := by
  have hstart : Swept ctx 0 ⟨ctx.targetLots, [], 0, 0, 0, 0, 0, 0⟩ :=
    ⟨by simp, by simp, by simp, by simp, min_le_right _ _⟩
  have havail : ∀ sl ∈ eng.buildCostSlices ctx, sl.availableLots ≠ 0 :=
    mergeLoop_available _ _ _ (by simp)
  have hlen : (eng.buildCostSlices ctx).length ≤ kMaxChildOrders :=
    mergeLoop_length _ _ _ (by simp)
  have hloop := greedyLoop_swept hr _ havail 0 _ hstart
  unfold RoutingEngine.calculateOptimalSplit
  rw [greedyFill_out]
  split
  · exact ⟨_, ⟨Nat.zero_le _, hstart.whole, hstart.pos, hstart.total, hstart.room⟩, rfl⟩
  · exact ⟨_, ⟨hloop.count.trans (by omega), hloop.whole, hloop.pos, hloop.total, hloop.room⟩, rfl⟩

theorem optimalSplit_allocation (eng : RoutingEngine) {ctx : RoutingContext}
    (hr : 0 < resolveReferenceLotSize ctx) (ht : 0 ≤ ctx.targetLots) :
    Allocation ctx (eng.calculateOptimalSplit ctx).2 := by
  obtain ⟨g, hg, hout⟩ := optimalSplit_swept eng hr
  rw [hout]
  have htotal := hg.total
  have hroom := hg.room
  rw [min_eq_left ht] at hroom
  exact ⟨hg.count, hg.whole, hg.pos, by omega⟩

theorem makerPlacement_out (eng : RoutingEngine) (ctx : RoutingContext) :
    (eng.calculateMakerPlacement ctx).2 = [] ∨
      ∃ co, (eng.calculateMakerPlacement ctx).2 = [co] ∧
        co.qty = ctx.targetLots * resolveReferenceLotSize ctx := by
  unfold RoutingEngine.calculateMakerPlacement
  split
  · exact Or.inl rfl
  · exact Or.inr ⟨_, rfl, rfl⟩

theorem makerPlacement_allocation (eng : RoutingEngine) {ctx : RoutingContext}
    (hr : 0 < resolveReferenceLotSize ctx) (ht : 1 ≤ ctx.targetLots) :
    Allocation ctx (eng.calculateMakerPlacement ctx).2 := by
  rcases makerPlacement_out eng ctx with hout | ⟨co, hout, hqty⟩
  · rw [hout]
    exact Allocation.nil (by omega)
  · have hlots := ChildOrder.lots_of_qty hr hqty
    rw [hout]
    refine ⟨by simp [kMaxChildOrders, kMaxExchanges, kMaxDepth], ?_, ?_, ?_⟩
    · intro co' hco
      rw [List.mem_singleton.mp hco, hlots, hqty]
    · intro co' hco
      rw [List.mem_singleton.mp hco, hlots]
      exact ht
    · simp [hlots]

section Demand
variable (eng : RoutingEngine) {ctx : RoutingContext}

/-- What the child orders ask for in canonical lots; a negative order asks for nothing. -/
def demandedLots (refLotSize : ℚ) (out : List ChildOrder) : ℚ :=
  (out.map fun co => max (co.qty / refLotSize) 0).sum

theorem Swept.demanded {n : ℕ} {g : GreedyState} (h : Swept ctx n g) (hr : 0 < resolveReferenceLotSize ctx) :
    demandedLots (resolveReferenceLotSize ctx) g.out =
      ((g.out.map fun co => co.lots (resolveReferenceLotSize ctx)).sum : ℤ) := by
  have hone : ∀ co ∈ g.out, max (co.qty / resolveReferenceLotSize ctx) 0 =
      ((co.lots (resolveReferenceLotSize ctx) : ℤ) : ℚ) := by
    intro co hco
    have hpos : (0 : ℚ) ≤ co.lots (resolveReferenceLotSize ctx) := by
      exact_mod_cast zero_le_one.trans (h.pos co hco)
    rw [h.whole co hco, mul_div_cancel_right₀ _ hr.ne']
    exact max_eq_left hpos
  have hcast := map_list_sum (Int.castRingHom ℚ)
    (g.out.map fun co => co.lots (resolveReferenceLotSize ctx))
  rw [List.map_map] at hcast
  rw [demandedLots, List.map_congr_left hone]
  exact hcast.symm

theorem optimalSplit_demanded (hr : 0 < resolveReferenceLotSize ctx) :
    demandedLots (resolveReferenceLotSize ctx) (eng.router.optimalSplit ctx) ≤ max ctx.targetLots 0 := by
  obtain ⟨g, hg, hout⟩ := optimalSplit_swept eng hr
  have htotal := hg.total
  have hroom := hg.room
  have hle : (g.out.map fun co => co.lots (resolveReferenceLotSize ctx)).sum ≤ max ctx.targetLots 0 := by
    omega
  have hsplit : eng.router.optimalSplit ctx = g.out := hout
  rw [hsplit, hg.demanded hr]
  exact_mod_cast hle

theorem optimalSplit_target (hr : 0 < resolveReferenceLotSize ctx) (hne : eng.router.optimalSplit ctx ≠ []) :
    1 ≤ ctx.targetLots := by
  obtain ⟨g, hg, hout⟩ := optimalSplit_swept eng hr
  have hsplit : eng.router.optimalSplit ctx = g.out := hout
  rw [hsplit] at hne
  have hsum : 1 ≤ (g.out.map fun co => co.lots (resolveReferenceLotSize ctx)).sum := by
    obtain ⟨co, hco⟩ := List.exists_mem_of_ne_nil _ hne
    refine (hg.pos co hco).trans (List.single_le_sum ?_ _ (List.mem_map_of_mem hco))
    intro x hx
    obtain ⟨co', hco', rfl⟩ := List.mem_map.mp hx
    exact zero_le_one.trans (hg.pos co' hco')
  have htotal := hg.total
  have hroom := hg.room
  omega

theorem makerPlacement_demanded (hr : 0 < resolveReferenceLotSize ctx) :
    demandedLots (resolveReferenceLotSize ctx) (eng.router.makerPlacement ctx) ≤ max ctx.targetLots 0 := by
  rcases makerPlacement_out eng ctx with hout | ⟨co, hout, hqty⟩
  · have hnone : eng.router.makerPlacement ctx = [] := hout
    rw [hnone]
    simp [demandedLots]
  · have hone : eng.router.makerPlacement ctx = [co] := hout
    rw [hone]
    simp [demandedLots, hqty, mul_div_cancel_right₀ _ hr.ne']

end Demand

theorem router_sound (eng : RoutingEngine) : eng.router.Sound where
  split ctx ht hr := optimalSplit_allocation eng
    (by rw [resolveReferenceLotSize_of_pos hr]; exact hr) (by omega)
  maker ctx ht hr := makerPlacement_allocation eng
    (by rw [resolveReferenceLotSize_of_pos hr]; exact hr) ht

end OmsFormal.Sor
