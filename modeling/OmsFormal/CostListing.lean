import Mathlib.Algebra.Order.BigOperators.Group.List
import OmsFormal.CostMerge

/-!
# The listing behind the cost slices

The plain reading of `build_cost_slices`: the eligible levels of the enabled
venues, listed by venue and level and sorted stably by effective price. The
engine opens one cursor per venue that has something to offer, and the merge of
the cursors is the sort of the listing.
-/

namespace OmsFormal.Sor
open Rounding StableMerge
set_option autoImplicit false

/-- Best price first: asks ascend and bids descend. -/
def BestFirst : Side → List Level → Prop
  | .ask, levels => levels.Pairwise fun a b => a.priceTicks ≤ b.priceTicks
  | .bid, levels => levels.Pairwise fun a b => b.priceTicks ≤ a.priceTicks

/-- The books a routing call may meet: no more venues than the engine has cursors for, and every
side it reads no deeper than a book and sorted best first. -/
structure RoutingContext.Readable (ctx : RoutingContext) : Prop where
  venues : ctx.activeExchanges ≤ kMaxExchanges
  depth : ∀ ex < ctx.activeExchanges, ((ctx.states ex).book.sides (takerSide ctx.dir)).length ≤ kMaxDepth
  bestFirst : ∀ ex < ctx.activeExchanges,
    BestFirst (takerSide ctx.dir) ((ctx.states ex).book.sides (takerSide ctx.dir))

/-- The eligible levels of one venue in level order, each with its canonical lots and its effective
price; levels of zero lots are dropped. -/
def RoutingEngine.venueSlices (eng : RoutingEngine) (ctx : RoutingContext) (state : ExchangeState) :
    List CostSlice :=
  let c := eng.openCursor ctx state
  worthwhile (((state.book.sides (takerSide ctx.dir)).zipIdx.filter fun x => c.eligible x.1).map c.slice)

/-- The eligible levels of all enabled valid venues in (venue, level) order. -/
def RoutingEngine.eligibleSlices (eng : RoutingEngine) (ctx : RoutingContext) : List CostSlice :=
  ((List.range ctx.activeExchanges).map fun ex =>
    if (ctx.states ex).enabled && (ctx.states ex).book.isValid then eng.venueSlices ctx (ctx.states ex)
    else []).flatten

variable (eng : RoutingEngine) {ctx : RoutingContext}

theorem openCursor_offers (state : ExchangeState) :
    worthwhile (eng.openCursor ctx state).offers = eng.venueSlices ctx state := rfl

theorem openCursor_sorted {state : ExchangeState}
    (h : BestFirst (takerSide ctx.dir) (state.book.sides (takerSide ctx.dir))) :
    (eng.openCursor ctx state).Sorted := by
  have hlevels : (eng.openCursor ctx state).levels = state.book.sides (takerSide ctx.dir) := rfl
  have hsign : (eng.openCursor ctx state).dirSign = dirSign ctx.dir := rfl
  rw [Cursor.Sorted, hlevels, hsign]
  cases hdir : ctx.dir with
  | buy =>
    rw [hdir] at h
    simpa [dirSign, takerSide, BestFirst] using h
  | sell =>
    rw [hdir] at h
    simpa [dirSign, takerSide, BestFirst] using h

theorem openCursor_unit (state : ExchangeState) :
    (eng.openCursor ctx state).dirSign = 1 ∨ (eng.openCursor ctx state).dirSign = -1 := by
  change dirSign ctx.dir = 1 ∨ dirSign ctx.dir = -1
  cases ctx.dir with
  | buy => exact Or.inl rfl
  | sell => exact Or.inr rfl

/-- The first position of a venue's cursor. -/
def RoutingEngine.firstCursor (eng : RoutingEngine) (ctx : RoutingContext) (state : ExchangeState) : Cursor :=
  let c := eng.openCursor ctx state
  if c.exhausted then c else seekNextValid c

def RoutingEngine.venueCursor (eng : RoutingEngine) (ctx : RoutingContext) (ex : ℕ) : Option Cursor :=
  if !(ctx.states ex).enabled || !(ctx.states ex).book.isValid then none
  else if (eng.firstCursor ctx (ctx.states ex)).exhausted then none
  else some (eng.firstCursor ctx (ctx.states ex))

theorem openCursors_eq :
    eng.openCursors ctx = (List.range ctx.activeExchanges).filterMap (eng.venueCursor ctx) := rfl

theorem firstCursor_spec {state : ExchangeState}
    (h : BestFirst (takerSide ctx.dir) (state.book.sides (takerSide ctx.dir))) :
    (eng.firstCursor ctx state).Ok ∧
    worthwhile (eng.firstCursor ctx state).remaining = eng.venueSlices ctx state := by
  rw [RoutingEngine.firstCursor]
  by_cases hempty : (eng.openCursor ctx state).exhausted = true
  · rw [if_pos hempty]
    refine ⟨⟨openCursor_sorted eng h, openCursor_unit eng state, fun he => ?_⟩, ?_⟩
    · rw [hempty] at he
      cases he
    · have hlevels : (eng.openCursor ctx state).levels = [] := List.isEmpty_iff.mp hempty
      rw [← openCursor_offers, Cursor.remaining, Cursor.offers, if_pos hempty, hlevels]
      rfl
  · obtain ⟨hok, hrest⟩ := seekNextValid_spec (openCursor_sorted eng h) (openCursor_unit eng state)
      (eq_false_of_ne_true hempty)
    rw [if_neg hempty]
    exact ⟨hok, by rw [hrest, openCursor_offers]⟩

/-- Opening a venue's cursor gives its slices, or no cursor where there is none to give. -/
theorem venueCursor_spec {ex : ℕ}
    (h : BestFirst (takerSide ctx.dir) ((ctx.states ex).book.sides (takerSide ctx.dir))) :
    (∀ c ∈ (eng.venueCursor ctx ex).toList, c.Ok) ∧
    (pending (eng.venueCursor ctx ex).toList).flatten =
      if (ctx.states ex).enabled && (ctx.states ex).book.isValid then eng.venueSlices ctx (ctx.states ex)
      else [] := by
  obtain ⟨hok, hrest⟩ := firstCursor_spec eng h
  rw [RoutingEngine.venueCursor]
  cases hon : (ctx.states ex).enabled && (ctx.states ex).book.isValid with
  | false =>
    have hoff : (!(ctx.states ex).enabled || !(ctx.states ex).book.isValid) = true := by
      rw [← Bool.not_and, hon]
      rfl
    simp [hoff, pending]
  | true =>
    have hoff : (!(ctx.states ex).enabled || !(ctx.states ex).book.isValid) = false := by
      rw [← Bool.not_and, hon]
      rfl
    by_cases hdone : (eng.firstCursor ctx (ctx.states ex)).exhausted = true
    · have hnone : eng.venueSlices ctx (ctx.states ex) = [] := by
        rw [← hrest, Cursor.remaining, if_pos hdone]
        rfl
      simp [hoff, hdone, hnone, pending]
    · simp [hoff, hdone, pending, hrest, hok]

theorem openCursors_spec (h : ctx.Readable) :
    (∀ c ∈ eng.openCursors ctx, c.Ok) ∧
    (pending (eng.openCursors ctx)).flatten = eng.eligibleSlices ctx := by
  have hvenue := fun ex hex => venueCursor_spec eng (h.bestFirst ex hex)
  rw [openCursors_eq, List.filterMap_eq_flatMap_toList]
  constructor
  · intro c hc
    obtain ⟨ex, hex, hmem⟩ := List.mem_flatMap.mp hc
    exact (hvenue ex (List.mem_range.mp hex)).1 c hmem
  · rw [RoutingEngine.eligibleSlices, pending, ← List.flatMap_def, ← List.flatMap_def, List.flatMap_assoc]
    refine List.flatMap_congr fun ex hex => ?_
    rw [List.flatMap_def]
    exact (hvenue ex (List.mem_range.mp hex)).2

theorem eligibleSlices_length (h : ctx.Readable) : (eng.eligibleSlices ctx).length ≤ kMaxChildOrders := by
  have hvenue : ∀ n ∈ (List.range ctx.activeExchanges).map (fun ex =>
      (if (ctx.states ex).enabled && (ctx.states ex).book.isValid then eng.venueSlices ctx (ctx.states ex)
        else []).length), n ≤ kMaxDepth := by
    intro n hn
    obtain ⟨ex, hex, rfl⟩ := List.mem_map.mp hn
    have hdepth := h.depth ex (List.mem_range.mp hex)
    split
    · refine le_trans ?_ hdepth
      refine (List.length_filter_le _ _).trans ?_
      rw [List.length_map]
      exact (List.length_filter_le _ _).trans (List.length_zipIdx).le
    · exact Nat.zero_le _
  have hsum := List.sum_le_card_nsmul _ kMaxDepth hvenue
  rw [List.length_map, List.length_range, nsmul_eq_mul, Nat.cast_id] at hsum
  rw [RoutingEngine.eligibleSlices, List.length_flatten, List.map_map]
  calc _ ≤ ctx.activeExchanges * kMaxDepth := hsum
    _ ≤ kMaxExchanges * kMaxDepth := Nat.mul_le_mul_right _ h.venues
    _ = kMaxChildOrders := rfl

theorem roundsLeft_le (cursors : List Cursor) : roundsLeft cursors ≤ levelCount cursors := by
  refine List.sum_le_sum fun c _ => ?_
  rw [Cursor.remaining]
  split
  · exact Nat.zero_le _
  · rw [Cursor.offers, List.length_map]
    refine (List.length_filter_le _ _).trans ?_
    rw [List.length_drop, List.length_zipIdx]
    exact Nat.sub_le _ _

theorem buildCostSlices_eq (h : ctx.Readable) :
    eng.buildCostSlices ctx = sortBy CostSlice.effectiveTicks (eng.eligibleSlices ctx) := by
  obtain ⟨hok, hpending⟩ := openCursors_spec eng h
  have hrounds := roundsLeft_le (eng.openCursors ctx)
  have hlen := eligibleSlices_length eng h
  rw [RoutingEngine.buildCostSlices, mergeLoop_eq _ _ _ hok (by omega), hpending, List.nil_append]
  rw [hpending, List.length_nil]
  omega

/-- The K-way merge gives the stable sort of the eligible levels: sorted, complete, and within the
capacity of the slice array. -/
theorem buildCostSlices_stable_sort (eng : RoutingEngine) (ctx : RoutingContext) (h : ctx.Readable) :
    eng.buildCostSlices ctx = sortBy CostSlice.effectiveTicks (eng.eligibleSlices ctx) ∧
    (eng.buildCostSlices ctx).Pairwise (fun a b => a.effectiveTicks ≤ b.effectiveTicks) ∧
    (eng.buildCostSlices ctx).Perm (eng.eligibleSlices ctx) ∧
    (eng.buildCostSlices ctx).length ≤ kMaxChildOrders := by
  have heq := buildCostSlices_eq eng h
  have hperm : (eng.buildCostSlices ctx).Perm (eng.eligibleSlices ctx) := by
    rw [heq]
    exact sortBy_perm _ _
  refine ⟨heq, ?_, hperm, hperm.length_eq ▸ eligibleSlices_length eng h⟩
  rw [heq]
  exact sortBy_sorted _ _

namespace Sample

/-- A venue that asks `asks`, with a unit tick and a lot of one thousandth. -/
def askVenue (id : ℕ) (asks : List Level) : ExchangeState where
  book := ⟨fun | .ask => asks | .bid => [], 1, 1 / 1000, true⟩
  latency := ⟨0⟩
  lot := .upTo 1000
  exchangeId := id
  enabled := true

/-- A purchase of eight lots over two venues with equal best prices, limited to 102. -/
def twoVenues : RoutingContext where
  states ex := if ex = 0 then askVenue 0 [⟨100, 2⟩, ⟨102, 5⟩, ⟨103, 9⟩]
    else askVenue 1 [⟨100, 3⟩, ⟨101, 0⟩, ⟨101, 4⟩]
  activeExchanges := 2
  dir := .buy
  targetLots := 8
  limitPrice := 102
  referenceLotSize := 1 / 1000
  decisionNs := 1
  shortVolFactor := 0
  bookImbalance := 0

def freeEngine : RoutingEngine := ⟨⟨fun _ => 0, fun _ => 0⟩, fun _ => 1⟩

theorem readable_of_two {ctx : RoutingContext} (hactive : ctx.activeExchanges = 2)
    (hdepth : ∀ ex < 2, ((ctx.states ex).book.sides (takerSide ctx.dir)).length ≤ kMaxDepth)
    (hfirst : BestFirst (takerSide ctx.dir) ((ctx.states 0).book.sides (takerSide ctx.dir)))
    (hsecond : BestFirst (takerSide ctx.dir) ((ctx.states 1).book.sides (takerSide ctx.dir))) :
    ctx.Readable where
  venues := by
    rw [hactive]
    decide
  depth ex hex := hdepth ex (hactive ▸ hex)
  bestFirst ex hex := by
    obtain rfl | rfl : ex = 0 ∨ ex = 1 := by omega
    · exact hfirst
    · exact hsecond

theorem twoVenues_readable : twoVenues.Readable := by
  refine readable_of_two rfl (by decide) ?_ ?_
  · change List.Pairwise _ _
    decide
  · change List.Pairwise _ _
    decide

end Sample

theorem buildCostSlices_stable_sort_twoVenues :
    (Sample.freeEngine.buildCostSlices Sample.twoVenues).map (fun sl => (sl.exchangeId, sl.levelIdx)) =
      [(0, 0), (1, 0), (1, 2), (0, 1)] ∧
    Sample.freeEngine.buildCostSlices Sample.twoVenues =
      sortBy CostSlice.effectiveTicks (Sample.freeEngine.eligibleSlices Sample.twoVenues) :=
  ⟨by decide +kernel, (buildCostSlices_stable_sort Sample.freeEngine _ Sample.twoVenues_readable).1⟩

end OmsFormal.Sor
