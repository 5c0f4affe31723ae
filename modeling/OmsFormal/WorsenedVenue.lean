import OmsFormal.RankedSweep
import OmsFormal.SplitSweep

/-!
# Worsening a venue

With no venue minimums the sweep gives each listed level its quota under a ranking
of the levels: effective ticks first, then venue and depth. A venue that gets more
expensive and less likely to fill moves back in that ranking and shrinks, so the
levels of all other venues keep at least what they had.
-/

namespace OmsFormal.Sor
open Rounding StableMerge MinimumSweep RankedSweep
set_option autoImplicit false

/-- A level of a venue and its place in the book. -/
structure Quote where
  venue : ℕ
  level : Level
  levelIdx : ℕ

/-- The order of the listing: by venue, then by level. -/
def Quote.Listed (a b : Quote) : Prop := a.venue < b.venue ∨ a.venue = b.venue ∧ a.levelIdx < b.levelIdx

instance : DecidableRel Quote.Listed := fun _ _ => inferInstanceAs (Decidable (_ ∨ _))

namespace RoutingEngine

/-- The eligible levels of all enabled valid venues, whether or not they come to a lot. -/
def quotes (eng : RoutingEngine) (ctx : RoutingContext) : List Quote :=
  (List.range ctx.activeExchanges).flatMap fun ex =>
    if (ctx.states ex).enabled && (ctx.states ex).book.isValid then
      (((ctx.states ex).book.sides (takerSide ctx.dir)).zipIdx.filter fun x =>
        (eng.openCursor ctx (ctx.states ex)).eligible x.1).map fun x => ⟨ex, x.1, x.2⟩
    else []

def quoteSlice (eng : RoutingEngine) (ctx : RoutingContext) (q : Quote) : CostSlice :=
  (eng.openCursor ctx (ctx.states q.venue)).slice (q.level, q.levelIdx)

/-- The levels that come to a lot. -/
def worthQuotes (eng : RoutingEngine) (ctx : RoutingContext) : List Quote :=
  (eng.quotes ctx).filter fun q => decide ((eng.quoteSlice ctx q).availableLots ≠ 0)

def quoteTicks (eng : RoutingEngine) (ctx : RoutingContext) (q : Quote) : ℤ :=
  (eng.quoteSlice ctx q).effectiveTicks

def quoteCapacity (eng : RoutingEngine) (ctx : RoutingContext) (q : Quote) : ℤ :=
  (eng.quoteSlice ctx q).capacity

/-- The ranking of the sweep. -/
def Before (eng : RoutingEngine) (ctx : RoutingContext) (a b : Quote) : Prop :=
  eng.quoteTicks ctx a < eng.quoteTicks ctx b ∨ eng.quoteTicks ctx a = eng.quoteTicks ctx b ∧ a.Listed b

instance (eng : RoutingEngine) (ctx : RoutingContext) : DecidableRel (eng.Before ctx) :=
  fun _ _ => inferInstanceAs (Decidable (_ ∨ _))

/-- What a level gets of the target. -/
def quoteLots (eng : RoutingEngine) (ctx : RoutingContext) : Quote → ℤ :=
  quota (eng.Before ctx) (eng.quoteCapacity ctx) (eng.quotes ctx) ctx.targetLots

/-- The canonical lots of a split on one exchange. -/
def lotsAt (eng : RoutingEngine) (ctx : RoutingContext) (exchangeId : ℕ) : ℤ :=
  (((eng.calculateOptimalSplit ctx).2.filter fun co => co.exchangeId = exchangeId).map
    fun co => co.lots (resolveReferenceLotSize ctx)).sum

end RoutingEngine

variable {eng eng' : RoutingEngine} {ctx ctx' : RoutingContext}

section Quotes

theorem before_asymm (a b : Quote) (h : eng.Before ctx a b) : ¬ eng.Before ctx b a := by
  unfold RoutingEngine.Before Quote.Listed at *
  omega

theorem quotes_listed : (eng.quotes ctx).Pairwise Quote.Listed := by
  rw [RoutingEngine.quotes, List.pairwise_flatMap]
  constructor
  · intro ex _
    split
    · rw [List.pairwise_map]
      refine List.Pairwise.filter _ ?_
      have hidx :
          (((ctx.states ex).book.sides (takerSide ctx.dir)).zipIdx.map Prod.snd).Pairwise (· < ·) := by
        rw [List.zipIdx_map_snd]
        exact List.pairwise_lt_range'
      rw [List.pairwise_map] at hidx
      exact hidx.imp fun h => Or.inr ⟨rfl, h⟩
    · exact List.Pairwise.nil
  · refine List.pairwise_lt_range.imp fun {a b} hab q hq q' hq' => Or.inl ?_
    have hvenue : ∀ ex, ∀ q ∈ (if (ctx.states ex).enabled && (ctx.states ex).book.isValid then
        (((ctx.states ex).book.sides (takerSide ctx.dir)).zipIdx.filter fun x =>
          (eng.openCursor ctx (ctx.states ex)).eligible x.1).map fun x => (⟨ex, x.1, x.2⟩ : Quote)
        else []), q.venue = ex := by
      intro ex q hq
      split at hq
      · obtain ⟨x, -, rfl⟩ := List.mem_map.mp hq
        rfl
      · cases hq
    rw [hvenue a q hq, hvenue b q' hq']
    exact hab

theorem eligibleSlices_quotes : eng.eligibleSlices ctx = (eng.worthQuotes ctx).map (eng.quoteSlice ctx) := by
  rw [RoutingEngine.eligibleSlices, RoutingEngine.worthQuotes, RoutingEngine.quotes, ← List.flatMap_def,
    List.filter_flatMap, List.map_flatMap]
  refine List.flatMap_congr fun ex _ => ?_
  split
  · rw [List.filter_map, List.map_map, RoutingEngine.venueSlices, worthwhile, List.filter_map]
    rfl
  · rfl

theorem quoteCapacity_nonneg (eng : RoutingEngine) (ctx : RoutingContext) (q : Quote) :
    0 ≤ eng.quoteCapacity ctx q :=
  capacity_nonneg _

theorem quoteCapacity_of_not_worth {q : Quote}
    (h : decide ((eng.quoteSlice ctx q).availableLots ≠ 0) = false) :
    eng.quoteCapacity ctx q = 0 := by
  have hzero : (eng.quoteSlice ctx q).availableLots = 0 := by simpa using h
  rw [RoutingEngine.quoteCapacity, CostSlice.capacity, hzero]
  rfl

/-- The sweep gives every level that comes to a lot its quota. -/
theorem servings_quotes (h : ctx.Readable) (hmin : ∀ ex, (ctx.states ex).lot.minQty = 0)
    (htarget : 0 ≤ ctx.targetLots) :
    eng.servings ctx = (sortBy (eng.quoteTicks ctx) (eng.worthQuotes ctx)).map fun q =>
      (eng.quoteSlice ctx q, eng.quoteLots ctx q) := by
  have hlow : CostSlice.minLots ctx = fun _ => 0 := by
    funext sl
    rw [CostSlice.minLots, hmin, zero_div, roundHalfAway_zero]
  have hslices : eng.buildCostSlices ctx =
      (sortBy (eng.quoteTicks ctx) (eng.worthQuotes ctx)).map (eng.quoteSlice ctx) := by
    rw [buildCostSlices_eq eng h, eligibleSlices_quotes, sortBy_map]
    rfl
  have hlisted : (eng.worthQuotes ctx).Pairwise Quote.Listed := quotes_listed.filter _
  have hranked : (sortBy (eng.quoteTicks ctx) (eng.worthQuotes ctx)).Pairwise (eng.Before ctx) :=
    sortBy_stable _ hlisted
  have hquota : quota (eng.Before ctx) (eng.quoteCapacity ctx)
      (sortBy (eng.quoteTicks ctx) (eng.worthQuotes ctx)) ctx.targetLots = eng.quoteLots ctx := by
    rw [quota_perm (sortBy_perm _ _)]
    exact quota_filter fun q _ => quoteCapacity_of_not_worth
  have hsweep := sweep_ranked before_asymm htarget hranked fun q _ => quoteCapacity_nonneg eng ctx q
  rw [hquota] at hsweep
  rw [RoutingEngine.servings, hslices, hlow, sweep_map]
  change (sweep (eng.quoteCapacity ctx) (fun _ => 0) _ _).map _ = _
  rw [hsweep, List.map_map]
  rfl

end Quotes

section Totals

/-- The children on one exchange carry what its slices are served. -/
theorem taken_at (hr : 0 < resolveReferenceLotSize ctx) {xs : List (CostSlice × ℤ)} (hpos : ∀ x ∈ xs, 0 ≤ x.2)
    (exchangeId : ℕ) :
    (((taken ctx xs).filter fun co => co.exchangeId = exchangeId).map
      fun co => co.lots (resolveReferenceLotSize ctx)).sum =
        served (xs.filter fun x => x.1.exchangeId = exchangeId) := by
  have hsub : (taken ctx xs).filter (fun co => co.exchangeId = exchangeId) =
      taken ctx (xs.filter fun x => x.1.exchangeId = exchangeId) := by
    rw [taken, taken, List.filter_map, List.filter_comm]
    rfl
  rw [hsub]
  exact taken_total hr fun x hx => hpos x (List.mem_filter.mp hx).1

/-- What a split puts on one exchange, level by level. -/
theorem lotsAt_eq (eng : RoutingEngine) (h : ctx.Readable) (hmin : ∀ ex, (ctx.states ex).lot.minQty = 0)
    (hr : 0 < resolveReferenceLotSize ctx) (htarget : 1 ≤ ctx.targetLots) (exchangeId : ℕ) :
    eng.lotsAt ctx exchangeId = (((eng.quotes ctx).filter fun q =>
      decide ((ctx.states q.venue).exchangeId = exchangeId)).map (eng.quoteLots ctx)).sum := by
  have htarget' : 0 ≤ ctx.targetLots := by omega
  have hzero : ∀ q ∈ (eng.quotes ctx).filter (fun q => decide ((ctx.states q.venue).exchangeId = exchangeId)),
      decide ((eng.quoteSlice ctx q).availableLots ≠ 0) = false → eng.quoteLots ctx q = 0 :=
    fun q _ hworth => quota_of_zero (quoteCapacity_of_not_worth hworth)
  rw [RoutingEngine.lotsAt, (calculateOptimalSplit_servings eng hr htarget).1,
    taken_at hr (fun x hx => ((servings_bounds eng htarget').1 x hx).1),
      servings_quotes h hmin htarget', served,
    List.filter_map, List.map_map, ← sum_filter_of_zero hzero, List.filter_comm]
  exact (((sortBy_perm _ (eng.worthQuotes ctx)).filter _).map (eng.quoteLots ctx)).sum_eq

/-- All levels together get what there is, up to the target. -/
theorem quoteLots_sum (eng : RoutingEngine) (ctx : RoutingContext) (htarget : 0 ≤ ctx.targetLots) :
    ((eng.quotes ctx).map (eng.quoteLots ctx)).sum =
      min ctx.targetLots ((eng.quotes ctx).map (eng.quoteCapacity ctx)).sum := by
  have hranked : (sortBy (eng.quoteTicks ctx) (eng.quotes ctx)).Pairwise (eng.Before ctx) :=
    sortBy_stable _ quotes_listed
  have hsweep := sweep_ranked before_asymm htarget hranked fun q _ => quoteCapacity_nonneg eng ctx q
  have hserved := served_free (l := sortBy (eng.quoteTicks ctx) (eng.quotes ctx))
    (fun q _ => quoteCapacity_nonneg eng ctx q) htarget
  rw [hsweep, quota_perm (sortBy_perm _ _), served, List.map_map] at hserved
  rw [← ((sortBy_perm (eng.quoteTicks ctx) (eng.quotes ctx)).map (eng.quoteLots ctx)).sum_eq,
    ← ((sortBy_perm (eng.quoteTicks ctx) (eng.quotes ctx)).map (eng.quoteCapacity ctx)).sum_eq]
  exact hserved

end Totals

section Compare

/-- Two routing decisions over the same books that differ in what venue `x` costs and fills: its
penalty is larger or equal and its fill rate, never below a half, is smaller or equal. -/
structure Worsened (eng eng' : RoutingEngine) (ctx ctx' : RoutingContext) (x : ℕ) : Prop where
  active : ctx'.activeExchanges = ctx.activeExchanges
  dir : ctx'.dir = ctx.dir
  target : ctx'.targetLots = ctx.targetLots
  limit : ctx'.limitPrice = ctx.limitPrice
  reference : ctx'.referenceLotSize = ctx.referenceLotSize
  book : ∀ ex, (ctx'.states ex).book = (ctx.states ex).book
  lot : ∀ ex, (ctx'.states ex).lot = (ctx.states ex).lot
  exchangeId : ∀ ex, (ctx'.states ex).exchangeId = (ctx.states ex).exchangeId
  enabled : ∀ ex, (ctx'.states ex).enabled = (ctx.states ex).enabled
  others : ∀ ex, ex ≠ x →
    (eng'.openCursor ctx' (ctx'.states ex)).penaltyTicks = (eng.openCursor ctx (ctx.states ex)).penaltyTicks ∧
    (eng'.openCursor ctx' (ctx'.states ex)).fillRate = (eng.openCursor ctx (ctx.states ex)).fillRate
  penalty : (eng.openCursor ctx (ctx.states x)).penaltyTicks ≤
    (eng'.openCursor ctx' (ctx'.states x)).penaltyTicks
  fillRate : (eng'.openCursor ctx' (ctx'.states x)).fillRate ≤ (eng.openCursor ctx (ctx.states x)).fillRate

variable {x : ℕ}

theorem Worsened.readable (h : Worsened eng eng' ctx ctx' x) (hread : ctx.Readable) : ctx'.Readable where
  venues := h.active ▸ hread.venues
  depth ex hex := by
    rw [h.book, h.dir]
    exact hread.depth ex (h.active ▸ hex)
  bestFirst ex hex := by
    rw [h.book, h.dir]
    exact hread.bestFirst ex (h.active ▸ hex)

theorem Worsened.resolved (h : Worsened eng eng' ctx ctx' x) :
    resolveReferenceLotSize ctx' = resolveReferenceLotSize ctx := by
  unfold resolveReferenceLotSize
  rw [h.reference, h.book]

theorem Worsened.eligible (h : Worsened eng eng' ctx ctx' x) (ex : ℕ) (lv : Level) :
    (eng'.openCursor ctx' (ctx'.states ex)).eligible lv =
      (eng.openCursor ctx (ctx.states ex)).eligible lv := by
  have hlimit : (eng'.openCursor ctx' (ctx'.states ex)).limitTicks =
      (eng.openCursor ctx (ctx.states ex)).limitTicks := by
    simp only [RoutingEngine.openCursor, h.limit, h.book]
  have hsign : (eng'.openCursor ctx' (ctx'.states ex)).dirSign =
    (eng.openCursor ctx (ctx.states ex)).dirSign := by
    simp only [RoutingEngine.openCursor, h.dir]
  have hmin : (eng'.openCursor ctx' (ctx'.states ex)).minLots =
    (eng.openCursor ctx (ctx.states ex)).minLots := by
    simp only [RoutingEngine.openCursor, h.lot, h.book]
  simp only [Cursor.eligible, Cursor.within, hlimit, hsign, hmin]

/-- Both decisions list the same levels. -/
theorem Worsened.quotes (h : Worsened eng eng' ctx ctx' x) : eng'.quotes ctx' = eng.quotes ctx := by
  unfold RoutingEngine.quotes
  simp only [h.active, h.enabled, h.book, h.dir, h.eligible]

theorem Worsened.ticks (h : Worsened eng eng' ctx ctx' x) (q : Quote) :
    eng.quoteTicks ctx q ≤ eng'.quoteTicks ctx' q ∧
    (q.venue ≠ x → eng'.quoteTicks ctx' q = eng.quoteTicks ctx q) := by
  have hticks (eng : RoutingEngine) (ctx : RoutingContext) : eng.quoteTicks ctx q =
      dirSign ctx.dir * q.level.priceTicks + (eng.openCursor ctx (ctx.states q.venue)).penaltyTicks := rfl
  rw [hticks, hticks, h.dir]
  by_cases hx : q.venue = x
  · rw [hx]
    exact ⟨by have := h.penalty; omega, fun hne => absurd rfl hne⟩
  · rw [(h.others q.venue hx).1]
    exact ⟨le_rfl, fun _ => rfl⟩

/-- Available lots grow with the fill rate where there are any. -/
theorem capacity_mono {lots : ℤ} {rate rate' ratio : ℚ} (hrate : 0 ≤ rate') (h : rate' ≤ rate)
    (hratio : 0 ≤ ratio) :
    max (roundHalfAway (truncate (lots * rate') * ratio)) 0 ≤
      max (roundHalfAway (truncate (lots * rate) * ratio)) 0 := by
  rcases le_or_gt 0 lots with hlots | hlots
  · have hnn : (0 : ℚ) ≤ lots := by exact_mod_cast hlots
    have htrunc : truncate (lots * rate') ≤ truncate (lots * rate) := by
      rw [truncate_of_nonneg (mul_nonneg hnn hrate), truncate_of_nonneg (mul_nonneg hnn (hrate.trans h))]
      exact Int.floor_le_floor (mul_le_mul_of_nonneg_left h hnn)
    have hround : roundHalfAway (truncate (lots * rate') * ratio) ≤
      roundHalfAway (truncate (lots * rate) * ratio) :=
      roundHalfAway_mono (mul_le_mul_of_nonneg_right (by exact_mod_cast htrunc) hratio)
    exact max_le_max_right 0 hround
  · have hnp : (lots : ℚ) * rate' ≤ 0 := mul_nonpos_of_nonpos_of_nonneg (by exact_mod_cast hlots.le) hrate
    have htrunc : truncate (lots * rate') ≤ 0 := by
      rw [truncate_of_nonpos hnp]
      exact Int.ceil_le.mpr (by exact_mod_cast hnp)
    have hround : roundHalfAway (truncate (lots * rate') * ratio) ≤ 0 :=
      roundHalfAway_nonpos (mul_nonpos_of_nonpos_of_nonneg (by exact_mod_cast htrunc) hratio)
    rw [max_eq_right hround]
    exact le_max_right _ _

theorem Worsened.capacity (h : Worsened eng eng' ctx ctx' x) (hr : 0 ≤ resolveReferenceLotSize ctx)
    (q : Quote)
    (hlot : 0 ≤ (ctx.states q.venue).book.lotSize) :
    eng'.quoteCapacity ctx' q ≤ eng.quoteCapacity ctx q ∧
    (q.venue ≠ x → eng'.quoteCapacity ctx' q = eng.quoteCapacity ctx q) := by
  have hcap (eng : RoutingEngine) (ctx : RoutingContext) : eng.quoteCapacity ctx q =
      max (roundHalfAway (truncate (((if q.level.qtyLots <
        truncate ((ctx.states q.venue).lot.maxQty / (ctx.states q.venue).book.lotSize) then q.level.qtyLots
        else truncate ((ctx.states q.venue).lot.maxQty / (ctx.states q.venue).book.lotSize) : ℤ) : ℚ) *
        (eng.openCursor ctx (ctx.states q.venue)).fillRate) *
        ((ctx.states q.venue).book.lotSize / resolveReferenceLotSize ctx))) 0 := rfl
  rw [hcap, hcap, h.lot, h.book, h.resolved]
  by_cases hx : q.venue = x
  · have hrate := half_le_fillRate eng' ctx' (ctx'.states q.venue)
    refine ⟨capacity_mono (le_trans (by norm_num) hrate) ?_ (div_nonneg hlot hr), fun hne => absurd hx hne⟩
    rw [hx]
    exact h.fillRate
  · rw [(h.others q.venue hx).2]
    exact ⟨le_rfl, fun _ => rfl⟩

theorem mem_quotes_venue {q : Quote} (hq : q ∈ eng.quotes ctx) : q.venue < ctx.activeExchanges := by
  obtain ⟨ex, hex, hq⟩ := List.mem_flatMap.mp hq
  split at hq
  · obtain ⟨y, -, rfl⟩ := List.mem_map.mp hq
    exact List.mem_range.mp hex
  · cases hq

/-- A level of another venue gets no less. -/
theorem Worsened.quoteLots (h : Worsened eng eng' ctx ctx' x) (hr : 0 ≤ resolveReferenceLotSize ctx)
    (hnative : ∀ ex < ctx.activeExchanges, 0 < (ctx.states ex).book.lotSize) {q : Quote}
    (hq : q ∈ eng.quotes ctx) (hne : q.venue ≠ x) : eng.quoteLots ctx q ≤ eng'.quoteLots ctx' q := by
  have hcapacity : ∀ b ∈ eng.quotes ctx, _ := fun b hb => h.capacity hr b (hnative _ (mem_quotes_venue hb)).le
  have hticks := (h.ticks q).2 hne
  rw [RoutingEngine.quoteLots, RoutingEngine.quoteLots, h.quotes, h.target]
  refine quota_mono ((hcapacity q hq).2 hne)
    (fun b hb => ⟨quoteCapacity_nonneg eng' ctx' b, (hcapacity b hb).1⟩) ?_
  intro b _ hbefore
  have hb := (h.ticks b).1
  unfold RoutingEngine.Before at hbefore ⊢
  -- what ranks before an unmoved level did so before, for nothing has moved up
  rcases hbefore with hlt | ⟨heq, hlisted⟩
  · exact Or.inl (by omega)
  · by_cases hsame : eng.quoteTicks ctx b = eng.quoteTicks ctx q
    · exact Or.inr ⟨hsame, hlisted⟩
    · exact Or.inl (by omega)

/-- All venues together get no more. -/
theorem Worsened.total (h : Worsened eng eng' ctx ctx' x) (hr : 0 ≤ resolveReferenceLotSize ctx)
    (hnative : ∀ ex < ctx.activeExchanges, 0 < (ctx.states ex).book.lotSize) (htarget : 0 ≤ ctx.targetLots) :
    ((eng.quotes ctx).map (eng'.quoteLots ctx')).sum ≤ ((eng.quotes ctx).map (eng.quoteLots ctx)).sum := by
  have hsum := quoteLots_sum eng ctx htarget
  have hsum' := quoteLots_sum eng' ctx' (h.target ▸ htarget)
  rw [h.quotes, h.target] at hsum'
  have hcap : ((eng.quotes ctx).map (eng'.quoteCapacity ctx')).sum ≤
      ((eng.quotes ctx).map (eng.quoteCapacity ctx)).sum :=
    List.sum_le_sum fun q hq => (h.capacity hr q (hnative _ (mem_quotes_venue hq)).le).1
  omega

end Compare

/-- A split of no lots has no children. -/
theorem greedyLoop_nonpos (hr : 0 < resolveReferenceLotSize ctx) (slices : List CostSlice) (g : GreedyState)
    (hrem : g.remainingLots ≤ 0) : (greedyLoop ctx slices g).out = g.out := by
  induction slices with
  | nil => rfl
  | cons slice rest ih =>
    rw [greedyLoop]
    split
    · rfl
    · have hlow := minLots_nonneg hr slice
      have hskip : greedyStep ctx slice g = g := by
        have hfew : (if g.remainingLots < slice.availableLots then g.remainingLots else slice.availableLots) <
            slice.minLots ctx := by
          split <;> omega
        simp only [greedyStep]
        exact if_pos hfew
      rw [hskip]
      exact ih

theorem lotsAt_nonpos (hr : 0 < resolveReferenceLotSize ctx) (htarget : ctx.targetLots ≤ 0) (exchangeId : ℕ) :
    eng.lotsAt ctx exchangeId = 0 := by
  have hnone : (eng.calculateOptimalSplit ctx).2 = [] := by
    rw [RoutingEngine.calculateOptimalSplit, greedyFill_out]
    split
    · rfl
    · exact greedyLoop_nonpos hr _ ⟨ctx.targetLots, [], 0, 0, 0, 0, 0, 0⟩ htarget
  rw [RoutingEngine.lotsAt, hnone]
  rfl

/-- Worsening a venue moves flow away from it, and only from it. -/
theorem worsened_moves_flow (eng eng' : RoutingEngine) (ctx ctx' : RoutingContext) (x : ℕ)
    (h : Worsened eng eng' ctx ctx' x) (hread : ctx.Readable) (hmin : ∀ ex, (ctx.states ex).lot.minQty = 0)
    (hr : 0 < resolveReferenceLotSize ctx)
    (hnative : ∀ ex < ctx.activeExchanges, 0 < (ctx.states ex).book.lotSize) :
    eng'.lotsAt ctx' (ctx.states x).exchangeId ≤ eng.lotsAt ctx (ctx.states x).exchangeId ∧
    ∀ other, other ≠ (ctx.states x).exchangeId → eng.lotsAt ctx other ≤ eng'.lotsAt ctx' other := by
  have hr' : 0 < resolveReferenceLotSize ctx' := h.resolved.symm ▸ hr
  rcases le_or_gt ctx.targetLots 0 with hnone | hsome
  · have hnone' : ctx'.targetLots ≤ 0 := h.target.symm ▸ hnone
    simp only [lotsAt_nonpos hr hnone, lotsAt_nonpos hr' hnone', le_refl, implies_true, and_self]
  · have hlots := lotsAt_eq eng hread hmin hr hsome
    have hlots' := lotsAt_eq eng' (h.readable hread) (fun ex => h.lot ex ▸ hmin ex) hr'
      (h.target.symm ▸ hsome)
    simp only [h.quotes, h.exchangeId] at hlots'
    have hmore : ∀ p : Quote → Bool, (∀ q, p q = true → q.venue ≠ x) →
        (((eng.quotes ctx).filter p).map (eng.quoteLots ctx)).sum ≤
          (((eng.quotes ctx).filter p).map (eng'.quoteLots ctx')).sum := by
      intro p hp
      refine List.sum_le_sum fun q hq => ?_
      obtain ⟨hq, hpq⟩ := List.mem_filter.mp hq
      exact h.quoteLots hr.le hnative hq (hp q hpq)
    constructor
    · rw [hlots, hlots']
      have hrest := hmore (fun q => decide ¬ (ctx.states q.venue).exchangeId = (ctx.states x).exchangeId)
        fun q hq hx => by simp [hx] at hq
      have htotal := h.total hr.le hnative (by omega)
      have hsplit := List.sum_map_filter_add_sum_map_filter_not
        (fun q : Quote => (ctx.states q.venue).exchangeId = (ctx.states x).exchangeId) (eng.quoteLots ctx)
        (eng.quotes ctx)
      have hsplit' := List.sum_map_filter_add_sum_map_filter_not
        (fun q : Quote => (ctx.states q.venue).exchangeId = (ctx.states x).exchangeId) (eng'.quoteLots ctx')
        (eng.quotes ctx)
      omega
    · intro other hne
      rw [hlots, hlots']
      refine hmore _ fun q hq hx => hne ?_
      rw [← of_decide_eq_true hq, hx]

namespace Sample

/-- The first venue takes a fee of two per cent. -/
def dearEngine : RoutingEngine := ⟨⟨fun _ => 0, fun ex => if ex = 0 then 2 / 100 else 0⟩, fun _ => 1⟩

theorem dearEngine_worsened : Worsened freeEngine dearEngine twoVenues twoVenues 0 where
  active := rfl
  dir := rfl
  target := rfl
  limit := rfl
  reference := rfl
  book _ := rfl
  lot _ := rfl
  exchangeId _ := rfl
  enabled _ := rfl
  others ex hne := by
    have hstate : twoVenues.states ex = askVenue 1 [⟨100, 3⟩, ⟨101, 0⟩, ⟨101, 4⟩] := if_neg hne
    rw [hstate]
    exact ⟨by decide +kernel, rfl⟩
  penalty := by decide +kernel
  fillRate := le_rfl

end Sample

/-- The fee sends one of the two lots of the first venue to the second one. -/
theorem worsened_moves_flow_twoVenues :
    ([Sample.freeEngine, Sample.dearEngine].map fun eng =>
      (eng.lotsAt Sample.twoVenues 0, eng.lotsAt Sample.twoVenues 1)) = [(2, 6), (1, 7)] ∧
    Sample.dearEngine.lotsAt Sample.twoVenues 0 ≤ Sample.freeEngine.lotsAt Sample.twoVenues 0 :=
  ⟨by decide +kernel, (worsened_moves_flow Sample.freeEngine Sample.dearEngine
    Sample.twoVenues Sample.twoVenues 0
    Sample.dearEngine_worsened Sample.twoVenues_readable
    (fun ex => by by_cases h : ex = 0 <;> simp [Sample.twoVenues, h, Sample.askVenue, LotConstraints.upTo])
    (by decide +kernel) (by decide +kernel)).1⟩

end OmsFormal.Sor
