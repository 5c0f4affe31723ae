import OmsFormal.CostListing
import OmsFormal.RoutingSoundness

/-!
# Where child orders come from

Every child order the router hands back names a live venue and a price that is
within that venue's rounded limit. No order of the books is assumed: the limit is
checked on each level the merge takes, not inferred from the ones before it.
-/

namespace OmsFormal.Sor
open Rounding
set_option autoImplicit false

/-- Venue `ex` can get an order: it is active, enabled and has a valid book. -/
def RoutingContext.Live (ctx : RoutingContext) (ex : ℕ) : Prop :=
  ex < ctx.activeExchanges ∧ (ctx.states ex).enabled = true ∧ (ctx.states ex).book.isValid = true

/-- The limit in the ticks of a venue. -/
def RoutingContext.limitTicks (ctx : RoutingContext) (state : ExchangeState) : ℤ :=
  roundHalfAway (ctx.limitPrice / state.book.tickSize)

/-- A price in ticks that does not cross a limit in ticks. -/
def respects (dir : OrderDir) (limit price : ℤ) : Prop :=
  match dir with
  | .buy => price ≤ limit
  | .sell => limit ≤ price

/-- The limit check of the taker path: a limit that rounds to zero ticks is no limit. -/
def RoutingContext.TakerPrice (ctx : RoutingContext) (state : ExchangeState) (price : ℤ) : Prop :=
  0 < ctx.limitPrice → ctx.limitTicks state ≠ 0 → respects ctx.dir (ctx.limitTicks state) price

/-- The limit check of the maker path. -/
def RoutingContext.MakerPrice (ctx : RoutingContext) (state : ExchangeState) (price : ℤ) : Prop :=
  0 < ctx.limitPrice → respects ctx.dir (ctx.limitTicks state) price

variable {eng : RoutingEngine} {ctx : RoutingContext} {c : Cursor}

section Seek

/-- What the position of a cursor does not change. -/
structure Cursor.SameVenue (c d : Cursor) : Prop where
  state : d.state = c.state
  dirSign : d.dirSign = c.dirSign
  limitTicks : d.limitTicks = c.limitTicks

theorem Cursor.SameVenue.trans {d e : Cursor} (h : c.SameVenue d) (h' : d.SameVenue e) : c.SameVenue e :=
  ⟨h'.state.trans h.state, h'.dirSign.trans h.dirSign, h'.limitTicks.trans h.limitTicks⟩

theorem seekLoop_moves (fuel : ℕ) (c : Cursor) :
    c.SameVenue (seekLoop fuel c) ∧
    ((seekLoop fuel c).exhausted = false → (seekLoop fuel c).within (seekLoop fuel c).level = true) := by
  induction fuel generalizing c with
  | zero => exact ⟨⟨rfl, rfl, rfl⟩, fun h => by cases h⟩
  | succ fuel ih =>
    simp only [seekLoop]
    split
    · exact ⟨⟨rfl, rfl, rfl⟩, fun h => by cases h⟩
    · rename_i hbuy
      split
      · exact ⟨⟨rfl, rfl, rfl⟩, fun h => by cases h⟩
      · rename_i hsell
        split
        · refine ⟨⟨rfl, rfl, rfl⟩, fun _ => ?_⟩
          simp only [Cursor.within, hbuy, hsell]
          rfl
        · obtain ⟨hsame, hin⟩ := ih { c with levelIdx := c.levelIdx + 1 }
          exact ⟨⟨hsame.state, hsame.dirSign, hsame.limitTicks⟩, hin⟩

end Seek

section Merge

/-- The cursor of a live venue, somewhere on its way; unless exhausted it stands within the limit. -/
structure Cursor.Opened (eng : RoutingEngine) (ctx : RoutingContext) (c : Cursor) : Prop where
  venue : ∃ ex, ctx.Live ex ∧ (eng.openCursor ctx (ctx.states ex)).SameVenue c
  within : c.exhausted = false → c.within c.level = true

theorem Cursor.Opened.seek (h : c.Opened eng ctx) (k : ℕ) :
    (seekNextValid { c with levelIdx := k }).Opened eng ctx := by
  obtain ⟨ex, hlive, hsame⟩ := h.venue
  obtain ⟨hmove, hin⟩ := seekLoop_moves (c.levels.length - k) { c with levelIdx := k }
  have hstart : (eng.openCursor ctx (ctx.states ex)).SameVenue { c with levelIdx := k } :=
    ⟨hsame.state, hsame.dirSign, hsame.limitTicks⟩
  exact ⟨⟨ex, hlive, hstart.trans hmove⟩, hin⟩

theorem openCursors_opened : ∀ c ∈ eng.openCursors ctx, c.Opened eng ctx := by
  intro c hc
  rw [openCursors_eq] at hc
  obtain ⟨ex, hex, hopen⟩ := List.mem_filterMap.mp hc
  unfold RoutingEngine.venueCursor at hopen
  split at hopen
  · cases hopen
  · rename_i hon
    have hlive : ctx.Live ex := by
      simp only [Bool.or_eq_true, Bool.not_eq_true', not_or, Bool.not_eq_false] at hon
      exact ⟨List.mem_range.mp hex, hon⟩
    split at hopen
    · cases hopen
    · rename_i hfirst
      cases hopen
      unfold RoutingEngine.firstCursor at hfirst ⊢
      simp only at hfirst ⊢
      split at hfirst
      · rename_i hempty
        exact absurd hempty hfirst
      · rename_i hempty
        rw [if_neg hempty]
        obtain ⟨hmove, hin⟩ := seekLoop_moves
          ((eng.openCursor ctx (ctx.states ex)).levels.length - (eng.openCursor ctx (ctx.states ex)).levelIdx)
          (eng.openCursor ctx (ctx.states ex))
        exact ⟨⟨ex, hlive, hmove⟩, hin⟩

/-- A slice of a live venue at a price within its limit. -/
def CostSlice.Traced (ctx : RoutingContext) (sl : CostSlice) : Prop :=
  ∃ ex, ctx.Live ex ∧ sl.exchangeId = (ctx.states ex).exchangeId ∧
    ctx.TakerPrice (ctx.states ex) sl.rawPriceTicks

theorem Cursor.respects_of_within {lv : Level} {dir : OrderDir} (h : c.within lv = true)
    (hsign : c.dirSign = Sor.dirSign dir) (hne : c.limitTicks ≠ 0) :
    respects dir c.limitTicks lv.priceTicks := by
  simp only [Cursor.within, hsign, Bool.not_eq_true', Bool.or_eq_false_iff, decide_eq_false_iff_not, not_and,
    not_lt, gt_iff_lt] at h
  cases dir with
  | buy => exact h.1 hne (by decide)
  | sell => exact h.2 hne (by decide)

theorem Cursor.Opened.traced (h : c.Opened eng ctx) (hlive : c.exhausted = false) :
    (c.slice (c.level, c.levelIdx)).Traced ctx := by
  obtain ⟨ex, hex, hsame⟩ := h.venue
  refine ⟨ex, hex, congrArg ExchangeState.exchangeId hsame.state, fun hlimit hne => ?_⟩
  have hticks : c.limitTicks = ctx.limitTicks (ctx.states ex) := hsame.limitTicks.trans (if_pos hlimit)
  rw [← hticks] at hne ⊢
  exact Cursor.respects_of_within (h.within hlive) hsame.dirSign hne

theorem mergeLoop_traced (fuel : ℕ) (cursors : List Cursor) (slices : List CostSlice)
    (hc : ∀ c ∈ cursors, c.Opened eng ctx) (hs : ∀ sl ∈ slices, sl.Traced ctx) :
    ∀ sl ∈ mergeLoop fuel cursors slices, sl.Traced ctx := by
  refine (mergeLoop_invariant
    (fun cursors slices => (∀ c ∈ cursors, c.Opened eng ctx) ∧ ∀ sl ∈ slices, sl.Traced ctx)
    ?_ fuel cursors slices ⟨hc, hs⟩).elim fun _ h => h.2
  rintro before c after slices ⟨hopen, htraced⟩ hlive
  have hlead : c.Opened eng ctx := hopen c (by simp)
  constructor
  · intro d hd
    rcases List.mem_append.mp hd with hd | hd
    · exact hopen d (by simp [hd])
    · rcases List.mem_cons.mp hd with rfl | hd
      · exact hlead.seek _
      · exact hopen d (by simp [hd])
  · split
    · exact htraced
    · intro sl hsl
      rcases List.mem_append.mp hsl with hsl | hsl
      · exact htraced sl hsl
      · rw [List.mem_singleton.mp hsl]
        exact hlead.traced hlive

theorem buildCostSlices_traced : ∀ sl ∈ eng.buildCostSlices ctx, sl.Traced ctx :=
  mergeLoop_traced _ _ _ openCursors_opened (by simp)

end Merge

section Split

/-- A child order of a whole positive number of canonical lots at a traced price. -/
structure ChildOrder.Taken (ctx : RoutingContext) (co : ChildOrder) : Prop where
  lots : ∃ n : ℤ, 1 ≤ n ∧ co.qty = n * resolveReferenceLotSize ctx
  origin : ∃ ex, ctx.Live ex ∧ co.exchangeId = (ctx.states ex).exchangeId ∧
    ∃ ticks : ℤ, co.price = ticks * (ctx.states co.exchangeId).book.tickSize ∧
      ctx.TakerPrice (ctx.states ex) ticks

theorem greedyLoop_taken (slices : List CostSlice) (hs : ∀ sl ∈ slices, sl.Traced ctx) (g : GreedyState)
    (hr : 0 < resolveReferenceLotSize ctx) (havail : ∀ sl ∈ slices, sl.availableLots ≠ 0)
    (hg : ∀ co ∈ g.out, co.Taken ctx) : ∀ co ∈ (greedyLoop ctx slices g).out, co.Taken ctx := by
  induction slices generalizing g with
  | nil => exact hg
  | cons slice rest ih =>
    simp only [greedyLoop]
    split
    · exact hg
    · rename_i hrem
      refine ih (fun sl hsl => hs sl (List.mem_cons_of_mem slice hsl)) _
        (fun sl hsl => havail sl (List.mem_cons_of_mem slice hsl)) ?_
      have hmin : 0 ≤
          roundHalfAway ((ctx.states slice.exchangeId).lot.minQty / resolveReferenceLotSize ctx) :=
        roundHalfAway_nonneg (div_nonneg (ctx.states slice.exchangeId).lot.minQty_nonneg hr.le)
      have hworth := havail slice List.mem_cons_self
      obtain ⟨ex, hlive, hid, hprice⟩ := hs slice List.mem_cons_self
      simp only [greedyStep]
      generalize hfill : (if g.remainingLots < slice.availableLots then g.remainingLots
        else slice.availableLots) = fillLots
      have hne : fillLots ≠ 0 := by
        rw [← hfill]
        split <;> assumption
      split
      · exact hg
      · intro co hco
        rcases List.mem_append.mp hco with hco | hco
        · exact hg co hco
        · rw [List.mem_singleton.mp hco]
          exact ⟨⟨fillLots, by omega, rfl⟩, ex, hlive, hid, slice.rawPriceTicks, rfl, hprice⟩

theorem optimalSplit_taken (eng : RoutingEngine) (hr : 0 < resolveReferenceLotSize ctx) :
    ∀ co ∈ eng.router.optimalSplit ctx, co.Taken ctx := by
  change ∀ co ∈ (greedyFill (eng.buildCostSlices ctx) ctx).2, co.Taken ctx
  rw [greedyFill_out]
  split
  · simp
  · exact greedyLoop_taken _ buildCostSlices_traced _ hr (mergeLoop_available _ _ _ (by simp)) (by simp)

/-- The one child order of a maker placement. -/
structure ChildOrder.Posted (ctx : RoutingContext) (co : ChildOrder) : Prop where
  lots : co.qty = ctx.targetLots * resolveReferenceLotSize ctx
  origin : ∃ ex, ctx.Live ex ∧ co.exchangeId = (ctx.states ex).exchangeId ∧
    ∃ ticks : ℤ, co.price = ticks * (ctx.states ex).book.tickSize ∧ ctx.MakerPrice (ctx.states ex) ticks

/-- A touch of a live venue within its limit. -/
def MakerTouch.Traced (ctx : RoutingContext) (t : MakerTouch) : Prop :=
  ∃ ex, ctx.Live ex ∧ t.state = ctx.states ex ∧ ctx.MakerPrice (ctx.states ex) t.rawTicks

theorem makerTouch_traced {ex : ℕ} (hex : ex < ctx.activeExchanges) {t : MakerTouch}
    (h : eng.makerTouch ctx (ctx.states ex) = some t) : t.Traced ctx := by
  unfold RoutingEngine.makerTouch at h
  split at h
  · cases h
  · rename_i hon
    have hlive : ctx.Live ex := by
      simp only [Bool.or_eq_true, Bool.not_eq_true', not_or, Bool.not_eq_false] at hon
      exact ⟨hex, hon⟩
    split at h
    · cases h
    · rename_i lv _ _
      have hlimit : roundHalfAway (ctx.limitPrice / (ctx.states ex).book.tickSize) =
          ctx.limitTicks (ctx.states ex) := rfl
      simp only [hlimit] at h
      by_cases hbad : ctx.limitPrice > 0 ∧ (if dirSign ctx.dir > 0 then
          lv.priceTicks > ctx.limitTicks (ctx.states ex) else lv.priceTicks < ctx.limitTicks (ctx.states ex))
      · rw [if_pos hbad] at h
        cases h
      · rw [if_neg hbad] at h
        cases h
        refine ⟨ex, hlive, rfl, fun hpos => ?_⟩
        have hbetter := not_and.mp hbad hpos
        cases hdir : ctx.dir with
        | buy => simpa [hdir, dirSign, respects] using hbetter
        | sell => simpa [hdir, dirSign, respects] using hbetter

theorem makerTouch_state {state : ExchangeState} {t : MakerTouch} (h : eng.makerTouch ctx state = some t) :
    t.state = state := by
  unfold RoutingEngine.makerTouch at h
  split at h
  · cases h
  · split at h
    · cases h
    · simp only [Option.ite_none_left_eq_some, Option.some.injEq] at h
      rw [← h.2]

theorem bestTouch_own {t : MakerTouch} (h : eng.bestTouch ctx = some t) :
    ∃ ex < ctx.activeExchanges, t.state = ctx.states ex ∧ eng.makerTouch ctx (ctx.states ex) = some t := by
  have hall : ∀ t, eng.bestTouch ctx = some t → ∃ ex < ctx.activeExchanges,
      eng.makerTouch ctx (ctx.states ex) = some t := by
    unfold RoutingEngine.bestTouch
    refine List.foldlRecOn (motive := fun best : Option MakerTouch => ∀ t, best = some t →
      ∃ ex < ctx.activeExchanges, eng.makerTouch ctx (ctx.states ex) = some t) _ _ ?_ ?_
    · intro t ht
      cases ht
    · intro best hbest ex hex t ht
      cases htouch : eng.makerTouch ctx (ctx.states ex) with
      | none =>
        rw [htouch] at ht
        exact hbest t ht
      | some u =>
        rw [htouch] at ht
        have hown : ∃ ex < ctx.activeExchanges, eng.makerTouch ctx (ctx.states ex) = some u :=
          ⟨ex, List.mem_range.mp hex, htouch⟩
        cases best with
        | none =>
          cases ht
          exact hown
        | some b =>
          simp only at ht
          split at ht
          · cases ht
            exact hown
          · cases ht
            exact hbest _ rfl
  obtain ⟨ex, hex, htouch⟩ := hall t h
  exact ⟨ex, hex, makerTouch_state htouch, htouch⟩

theorem bestTouch_traced {t : MakerTouch} (h : eng.bestTouch ctx = some t) : t.Traced ctx := by
  obtain ⟨ex, hex, -, htouch⟩ := bestTouch_own h
  exact makerTouch_traced hex htouch

theorem makerPlacement_posted (eng : RoutingEngine) :
    ∀ co ∈ eng.router.makerPlacement ctx, co.Posted ctx := by
  intro co hco
  change co ∈ (eng.calculateMakerPlacement ctx).2 at hco
  unfold RoutingEngine.calculateMakerPlacement at hco
  split at hco
  · cases hco
  · rename_i t hbest
    obtain ⟨ex, hlive, hstate, hprice⟩ := bestTouch_traced hbest
    rw [List.mem_singleton.mp hco]
    exact ⟨rfl, ex, hlive, by rw [hstate], t.rawTicks, by rw [hstate], hprice⟩

end Split

end OmsFormal.Sor
