import OmsFormal.RouteOrigins

/-!
# The merged slices are levels of the books

Each slice is one eligible level of one live venue, and no level is merged twice.
No order of the books is assumed, so a limit violation may end a venue early; the
merge never stops for any other reason than that all venues are at their end.
-/

namespace OmsFormal.Sor
open Rounding
set_option autoImplicit false

/-- `sl` is the slice of level `lv` of venue `ex`. -/
structure CostSlice.Offer (eng : RoutingEngine) (ctx : RoutingContext) (ex : ℕ) (lv : Level)
    (sl : CostSlice) : Prop where
  live : ctx.Live ex
  level : ((ctx.states ex).book.sides (takerSide ctx.dir))[sl.levelIdx]? = some lv
  eligible : (eng.openCursor ctx (ctx.states ex)).eligible lv = true
  slice : sl = (eng.openCursor ctx (ctx.states ex)).slice (lv, sl.levelIdx)
  worth : sl.availableLots ≠ 0

/-- The cursor of a live venue, somewhere on its way; unless exhausted it stands on an eligible level. -/
structure Cursor.At (eng : RoutingEngine) (ctx : RoutingContext) (c : Cursor) : Prop where
  venue : ∃ ex, ctx.Live ex ∧ c =
    { eng.openCursor ctx (ctx.states ex) with levelIdx := c.levelIdx, exhausted := c.exhausted }
  ready : c.exhausted = false → c.levelIdx < c.levels.length ∧ c.eligible c.level = true

variable {eng : RoutingEngine} {ctx : RoutingContext} {c : Cursor}

section Position

/-- Seeking only moves the cursor forward, to an eligible level or to the end. -/
theorem seekLoop_position (fuel : ℕ) (c : Cursor) (hfuel : fuel = c.levels.length - c.levelIdx) :
    ∃ k b, seekLoop fuel c = { c with levelIdx := k, exhausted := b } ∧ c.levelIdx ≤ k ∧
      (b = false → k < c.levels.length ∧ c.eligible (c.levels.getD k ⟨0, 0⟩) = true) := by
  induction fuel generalizing c with
  | zero => exact ⟨c.levelIdx, true, rfl, le_rfl, fun h => by cases h⟩
  | succ fuel ih =>
    simp only [seekLoop]
    split
    · exact ⟨c.levelIdx, true, rfl, le_rfl, fun h => by cases h⟩
    · rename_i hbuy
      split
      · exact ⟨c.levelIdx, true, rfl, le_rfl, fun h => by cases h⟩
      · rename_i hsell
        split
        · rename_i hqty
          refine ⟨c.levelIdx, c.exhausted, rfl, le_rfl, fun _ => ⟨by omega, ?_⟩⟩
          have hin : c.within c.level = true := by
            simp only [Cursor.within, hbuy, hsell]
            rfl
          change c.eligible c.level = true
          simp [Cursor.eligible, hin, hqty]
        · obtain ⟨k, b, heq, hle, hready⟩ := ih { c with levelIdx := c.levelIdx + 1 } (by simp only; omega)
          exact ⟨k, b, heq, (Nat.le_succ _).trans hle, hready⟩

theorem seekNextValid_position (c : Cursor) :
    ∃ k b, seekNextValid c = { c with levelIdx := k, exhausted := b } ∧ c.levelIdx ≤ k ∧
      (b = false → k < c.levels.length ∧ c.eligible (c.levels.getD k ⟨0, 0⟩) = true) :=
  seekLoop_position _ c rfl

/-- The cursor after a round: on the same venue, past the level it gave. -/
theorem Cursor.At.advance (h : c.At eng ctx) :
    (seekNextValid { c with levelIdx := c.levelIdx + 1 }).At eng ctx ∧
    (seekNextValid { c with levelIdx := c.levelIdx + 1 }).state = c.state ∧
    (seekNextValid { c with levelIdx := c.levelIdx + 1 }).levels = c.levels ∧
    c.levelIdx < (seekNextValid { c with levelIdx := c.levelIdx + 1 }).levelIdx := by
  obtain ⟨ex, hlive, heq⟩ := h.venue
  obtain ⟨k, b, hseek, hle, hready⟩ := seekNextValid_position { c with levelIdx := c.levelIdx + 1 }
  rw [hseek]
  exact ⟨⟨⟨ex, hlive, by rw [heq]⟩, hready⟩, rfl, rfl, hle⟩

theorem Cursor.At.offer (h : c.At eng ctx) (hlive : c.exhausted = false)
    (hworth : c.availableLots c.level ≠ 0) :
    ∃ ex lv, (c.slice (c.level, c.levelIdx)).Offer eng ctx ex lv := by
  obtain ⟨ex, hex, heq⟩ := h.venue
  obtain ⟨hlt, helig⟩ := h.ready hlive
  have hlevels : c.levels = (ctx.states ex).book.sides (takerSide ctx.dir) := by
    rw [heq]
    rfl
  have hsame (lv : Level) : c.eligible lv = (eng.openCursor ctx (ctx.states ex)).eligible lv := by
    rw [heq]
    rfl
  have hslice (x : Level × ℕ) : c.slice x = (eng.openCursor ctx (ctx.states ex)).slice x := by
    rw [heq]
    rfl
  have hlevel : c.levels[c.levelIdx]? = some c.level := by
    simp [Cursor.level, hlt]
  refine ⟨ex, c.level, hex, ?_, (hsame c.level).symm.trans helig, hslice _, hworth⟩
  rw [← hlevels]
  exact hlevel

theorem venueCursor_at {ex : ℕ} (hex : ex < ctx.activeExchanges) (h : eng.venueCursor ctx ex = some c) :
    c.At eng ctx ∧ c.state = ctx.states ex := by
  unfold RoutingEngine.venueCursor at h
  split at h
  · cases h
  · rename_i hon
    have hlive : ctx.Live ex := by
      simp only [Bool.or_eq_true, Bool.not_eq_true', not_or, Bool.not_eq_false] at hon
      exact ⟨hex, hon⟩
    split at h
    · cases h
    · rename_i hfirst
      cases h
      unfold RoutingEngine.firstCursor at hfirst ⊢
      simp only at hfirst ⊢
      split at hfirst
      · rename_i hempty
        exact absurd hempty hfirst
      · rename_i hempty
        rw [if_neg hempty]
        obtain ⟨k, b, hseek, -, hready⟩ := seekNextValid_position (eng.openCursor ctx (ctx.states ex))
        rw [hseek]
        exact ⟨⟨⟨ex, hlive, rfl⟩, hready⟩, rfl⟩

theorem openCursors_at : ∀ c ∈ eng.openCursors ctx, c.At eng ctx := by
  intro c hc
  rw [openCursors_eq] at hc
  obtain ⟨ex, hex, hopen⟩ := List.mem_filterMap.mp hc
  exact (venueCursor_at (List.mem_range.mp hex) hopen).1

end Position

section Merge

theorem all_at_round {before after : List Cursor} (h : ∀ d ∈ before ++ c :: after, d.At eng ctx) :
    ∀ d ∈ before ++ seekNextValid { c with levelIdx := c.levelIdx + 1 } :: after, d.At eng ctx := by
  intro d hd
  rcases List.mem_append.mp hd with hd | hd
  · exact h d (by simp [hd])
  · rcases List.mem_cons.mp hd with rfl | hd
    · exact (h c (by simp)).advance.1
    · exact h d (by simp [hd])

theorem buildCostSlices_offer : ∀ sl ∈ eng.buildCostSlices ctx, ∃ ex lv, sl.Offer eng ctx ex lv := by
  refine (mergeLoop_invariant
    (fun cursors slices => (∀ c ∈ cursors, c.At eng ctx) ∧ ∀ sl ∈ slices, ∃ ex lv, sl.Offer eng ctx ex lv)
    ?_ _ _ [] ⟨openCursors_at, by simp⟩).elim fun _ h => h.2
  rintro before c after slices ⟨hat, hoffer⟩ hlive
  refine ⟨all_at_round hat, ?_⟩
  split
  · exact hoffer
  · rename_i hworth
    intro sl hsl
    rcases List.mem_append.mp hsl with hsl | hsl
    · exact hoffer sl hsl
    · rw [List.mem_singleton.mp hsl]
      exact (hat c (by simp)).offer hlive hworth

/-- Where a slice comes from. -/
def CostSlice.key (sl : CostSlice) : ℕ × ℕ := (sl.exchangeId, sl.levelIdx)

/-- The venues of the cursors differ, and what was merged from a venue lies before its cursor. -/
structure Fresh (eng : RoutingEngine) (ctx : RoutingContext) (cursors : List Cursor)
    (slices : List CostSlice) :
    Prop where
  at' : ∀ c ∈ cursors, c.At eng ctx
  venues : (cursors.map fun c => c.state.exchangeId).Nodup
  behind : ∀ sl ∈ slices, ∀ c ∈ cursors, c.state.exchangeId = sl.exchangeId → sl.levelIdx < c.levelIdx
  distinct : (slices.map CostSlice.key).Nodup

theorem Fresh.round {before after : List Cursor} {slices : List CostSlice}
    (h : Fresh eng ctx (before ++ c :: after) slices) :
    Fresh eng ctx (before ++ seekNextValid { c with levelIdx := c.levelIdx + 1 } :: after)
      (if c.availableLots c.level = 0 then slices else slices ++ [c.slice (c.level, c.levelIdx)]) := by
  obtain ⟨-, hstate, -, hmove⟩ := (h.at' c (by simp)).advance
  have hvenues := h.venues
  rw [List.map_append, List.map_cons] at hvenues
  have hother : ∀ d ∈ before ++ after, d.state.exchangeId ≠ c.state.exchangeId := by
    intro d hd heq
    have hsplit := (List.nodup_middle.mp hvenues)
    rw [← List.map_append] at hsplit
    exact (List.nodup_cons.mp hsplit).1 (List.mem_map.mpr ⟨d, hd, heq⟩)
  have hbehind : ∀ sl ∈ slices, ∀ d ∈ before ++ seekNextValid { c with levelIdx := c.levelIdx + 1 } :: after,
      d.state.exchangeId = sl.exchangeId → sl.levelIdx < d.levelIdx := by
    intro sl hsl d hd heq
    rcases List.mem_append.mp hd with hd | hd
    · exact h.behind sl hsl d (by simp [hd]) heq
    · rcases List.mem_cons.mp hd with rfl | hd
      · rw [hstate] at heq
        exact (h.behind sl hsl c (by simp) heq).trans hmove
      · exact h.behind sl hsl d (by simp [hd]) heq
  refine ⟨all_at_round h.at', ?_, ?_, ?_⟩
  · simpa [hstate] using h.venues
  · split
    · exact hbehind
    · intro sl hsl d hd heq
      rcases List.mem_append.mp hsl with hsl | hsl
      · exact hbehind sl hsl d hd heq
      · rw [List.mem_singleton.mp hsl] at heq ⊢
        rcases List.mem_append.mp hd with hd | hd
        · exact absurd heq (hother d (by simp [hd]))
        · rcases List.mem_cons.mp hd with rfl | hd
          · exact hmove
          · exact absurd heq (hother d (by simp [hd]))
  · split
    · exact h.distinct
    · rw [List.map_append, List.map_cons, List.map_nil, List.nodup_append]
      refine ⟨h.distinct, List.nodup_singleton _, ?_⟩
      intro k hk k' hk'
      obtain ⟨sl, hsl, rfl⟩ := List.mem_map.mp hk
      rw [List.mem_singleton.mp hk']
      intro heq
      have hex : c.state.exchangeId = sl.exchangeId := (congrArg Prod.fst heq).symm
      have hlvl : sl.levelIdx = c.levelIdx := congrArg Prod.snd heq
      exact absurd (h.behind sl hsl c (by simp) hex) (by omega)

theorem openCursors_venues (hids : ∀ ex < ctx.activeExchanges, (ctx.states ex).exchangeId = ex) :
    ((eng.openCursors ctx).map fun c => c.state.exchangeId).Nodup := by
  rw [openCursors_eq, List.Nodup, List.pairwise_map, List.pairwise_filterMap]
  refine List.nodup_range.imp_of_mem ?_
  intro a b ha hb hne c hc d hd heq
  rw [(venueCursor_at (List.mem_range.mp ha) hc).2, (venueCursor_at (List.mem_range.mp hb) hd).2,
    hids a (List.mem_range.mp ha), hids b (List.mem_range.mp hb)] at heq
  exact hne heq

theorem buildCostSlices_distinct (hids : ∀ ex < ctx.activeExchanges, (ctx.states ex).exchangeId = ex) :
    ((eng.buildCostSlices ctx).map CostSlice.key).Nodup :=
  (mergeLoop_invariant (Fresh eng ctx) (fun _ _ _ _ h _ => h.round) _ _ []
    ⟨openCursors_at, openCursors_venues hids, by simp, by simp⟩).elim fun _ h => h.distinct

/-- Levels the cursors have not passed yet. -/
def ahead (cursors : List Cursor) : ℕ :=
  (cursors.map fun c => if c.exhausted then 0 else c.levels.length - c.levelIdx).sum

/-- Once there is a round for every level ahead, more rounds change nothing. -/
theorem mergeLoop_fuel (n fuel : ℕ) (cursors : List Cursor) (slices : List CostSlice)
    (hat : ∀ c ∈ cursors, c.At eng ctx) (hfuel : ahead cursors < fuel) :
    mergeLoop (fuel + n) cursors slices = mergeLoop fuel cursors slices := by
  induction fuel generalizing cursors slices with
  | zero => omega
  | succ fuel ih =>
    rw [Nat.succ_add]
    by_cases hfull : kMaxChildOrders ≤ slices.length
    · simp [mergeLoop, hfull]
    have hscan := scanBest_leads cursors [] none (by intro c hc; cases hc)
    simp only [List.nil_append, List.length_nil] at hscan
    rcases hbest : scanBest cursors 0 none with _ | ⟨k, eff⟩
    · simp [mergeLoop, hfull, hbest]
    rw [hbest] at hscan
    obtain ⟨before, c, after, rfl, rfl, hlive, rfl, -, -⟩ := hscan
    rw [mergeLoop_round (not_le.mp hfull) hbest (by simp) rfl,
      mergeLoop_round (not_le.mp hfull) hbest (by simp) rfl]
    have hset : (before ++ c :: after).set before.length
        (seekNextValid { c with levelIdx := c.levelIdx + 1 }) =
          before ++ seekNextValid { c with levelIdx := c.levelIdx + 1 } :: after := by simp
    rw [hset]
    apply ih _ _ (all_at_round hat)
    have hc := hat c (by simp)
    obtain ⟨-, -, hlevels, hmove⟩ := hc.advance
    have hlt := (hc.ready hlive).1
    have hnext : (if (seekNextValid { c with levelIdx := c.levelIdx + 1 }).exhausted then 0
        else (seekNextValid { c with levelIdx := c.levelIdx + 1 }).levels.length -
          (seekNextValid { c with levelIdx := c.levelIdx + 1 }).levelIdx) < c.levels.length - c.levelIdx := by
      rw [hlevels]
      split <;> omega
    simp only [ahead, List.map_append, List.map_cons, List.sum_append, List.sum_cons, hlive,
      Bool.false_eq_true,
      if_false] at hfuel hnext ⊢
    omega

/-- The rounds of the model are enough for any books. -/
theorem buildCostSlices_fuel (n : ℕ) :
    mergeLoop (levelCount (eng.openCursors ctx) + 1 + n) (eng.openCursors ctx) [] =
      eng.buildCostSlices ctx := by
  refine mergeLoop_fuel n _ _ _ openCursors_at (Nat.lt_succ_of_le (List.sum_le_sum fun c _ => ?_))
  split
  · exact Nat.zero_le _
  · exact Nat.sub_le _ _

end Merge

end OmsFormal.Sor
