import OmsFormal.CostSlices

/-!
# The merge loop is a stable sort

Every round of the merge takes the least current level, the first venue's on a
tie. Over sorted sides this is one step of the stable sort of everything the
cursors still offer, and a level of zero lots only disappears from that list.
-/

namespace OmsFormal.Sor
open Rounding StableMerge
set_option autoImplicit false

section Order
variable {c : Cursor}

theorem offers_sorted (hs : c.Sorted) : c.offers.Pairwise (KeyLE CostSlice.effectiveTicks) := by
  have hlevels : c.levels.zipIdx.Pairwise
      fun a b => c.dirSign * a.1.priceTicks ≤ c.dirSign * b.1.priceTicks := by
    rw [← List.pairwise_map (f := Prod.fst)
      (R := fun a b : Level => c.dirSign * a.priceTicks ≤ c.dirSign * b.priceTicks),
      List.zipIdx_map_fst]
    exact hs
  refine List.Pairwise.map _ (fun a b hab => ?_) (hlevels.drop.filter _)
  exact Int.add_le_add_right hab _

theorem remaining_sorted (hok : c.Ok) : c.remaining.Pairwise (KeyLE CostSlice.effectiveTicks) := by
  rw [Cursor.remaining]
  split
  · exact List.Pairwise.nil
  · exact offers_sorted hok.sorted

/-- The level a cursor stands on is the best it still offers. -/
theorem effectiveTicks_le_of_mem (hok : c.Ok) {sl : CostSlice} (hmem : sl ∈ c.remaining) :
    c.exhausted = false ∧ c.effectiveTicks c.level ≤ sl.effectiveTicks := by
  have he : c.exhausted = false := by
    cases h : c.exhausted with
    | false => rfl
    | true => simp [Cursor.remaining, h] at hmem
  refine ⟨he, ?_⟩
  have hsorted := remaining_sorted hok
  rw [(advance_spec hok he).2] at hmem hsorted
  rcases List.mem_cons.mp hmem with rfl | hlater
  · exact le_rfl
  · exact (List.pairwise_cons.mp hsorted).1 sl hlater

end Order

section Scan

/-- What the scan knows of the cursors it has seen: the first among the best. -/
def Leads (seen : List Cursor) : Option (ℕ × ℤ) → Prop
  | none => ∀ c ∈ seen, c.exhausted = true
  | some (k, eff) => ∃ before c after, seen = before ++ c :: after ∧ before.length = k ∧
      c.exhausted = false ∧ eff = c.effectiveTicks c.level ∧
      (∀ b ∈ before, b.exhausted = false → eff < b.effectiveTicks b.level) ∧
      (∀ a ∈ after, a.exhausted = false → eff ≤ a.effectiveTicks a.level)

theorem Leads.skip {seen : List Cursor} {best : Option (ℕ × ℤ)} (h : Leads seen best) {c : Cursor}
    (hc : c.exhausted = false → ∃ k eff, best = some (k, eff) ∧ eff ≤ c.effectiveTicks c.level) :
    Leads (seen ++ [c]) best := by
  rcases best with _ | ⟨k, eff⟩
  · intro d hd
    rcases List.mem_append.mp hd with hd | hd
    · exact h d hd
    · rw [List.mem_singleton.mp hd]
      by_contra hne
      obtain ⟨k, eff, hnone, -⟩ := hc (by simpa using hne)
      cases hnone
  · obtain ⟨before, lead, after, rfl, hk, hlead, heff, hbefore, hafter⟩ := h
    refine ⟨before, lead, after ++ [c], by simp, hk, hlead, heff, hbefore, ?_⟩
    intro a ha hlive
    rcases List.mem_append.mp ha with ha | ha
    · exact hafter a ha hlive
    · rw [List.mem_singleton.mp ha] at hlive ⊢
      obtain ⟨k', eff', hsome, hle⟩ := hc hlive
      cases hsome
      exact hle

theorem Leads.improve {seen : List Cursor} {best : Option (ℕ × ℤ)} (h : Leads seen best) {c : Cursor}
    (hc : c.exhausted = false) (hless : ∀ k eff, best = some (k, eff) → c.effectiveTicks c.level < eff) :
    Leads (seen ++ [c]) (some (seen.length, c.effectiveTicks c.level)) := by
  refine ⟨seen, c, [], rfl, rfl, hc, rfl, ?_, by simp⟩
  intro b hb hlive
  rcases best with _ | ⟨k, eff⟩
  · rw [h b hb] at hlive
    cases hlive
  · have hlt := hless k eff rfl
    obtain ⟨before, lead, after, rfl, -, -, heff, hbefore, hafter⟩ := h
    rcases List.mem_append.mp hb with hb | hb
    · exact hlt.trans (hbefore b hb hlive)
    · rcases List.mem_cons.mp hb with rfl | hb
      · exact heff ▸ hlt
      · exact lt_of_lt_of_le hlt (hafter b hb hlive)

theorem scanBest_leads (cursors seen : List Cursor) (best : Option (ℕ × ℤ)) (h : Leads seen best) :
    Leads (seen ++ cursors) (scanBest cursors seen.length best) := by
  induction cursors generalizing seen best with
  | nil => simpa [scanBest] using h
  | cons c cursors ih =>
    have hnext : ∀ best', Leads (seen ++ [c]) best' →
        Leads (seen ++ c :: cursors) (scanBest cursors (seen.length + 1) best') := by
      intro best' h'
      have := ih (seen ++ [c]) best' h'
      rwa [List.append_assoc, List.length_append] at this
    simp only [scanBest]
    split
    · rename_i hdead
      exact hnext best (h.skip fun hlive => by rw [hdead] at hlive; cases hlive)
    · rename_i hlive
      have hlive : c.exhausted = false := by simpa using hlive
      rcases best with _ | ⟨k, eff⟩
      · exact hnext _ (h.improve hlive fun _ _ hnone => by cases hnone)
      · simp only
        split
        · rename_i hlt
          refine hnext _ (h.improve hlive ?_)
          intro k' eff' hsome
          cases hsome
          exact hlt
        · rename_i hge
          exact hnext _ (h.skip fun _ => ⟨k, eff, rfl, not_lt.mp hge⟩)

end Scan

section Loop

/-- What the cursors still have to give, in cursor order. -/
def pending (cursors : List Cursor) : List (List CostSlice) :=
  cursors.map fun c => worthwhile c.remaining

def roundsLeft (cursors : List Cursor) : ℕ := (cursors.map fun c => c.remaining.length).sum

theorem mem_worthwhile {l : List CostSlice} {sl : CostSlice} :
    sl ∈ worthwhile l ↔ sl ∈ l ∧ sl.availableLots ≠ 0 := by
  simp [worthwhile]

theorem pending_of_exhausted {cursors : List Cursor} (h : ∀ c ∈ cursors, c.exhausted = true) :
    (pending cursors).flatten = [] := by
  rw [List.flatten_eq_nil_iff]
  intro l hl
  obtain ⟨c, hc, rfl⟩ := List.mem_map.mp hl
  simp [Cursor.remaining, h c hc, worthwhile]

theorem pending_take {before after : List Cursor} {c next : Cursor} {sl : CostSlice}
    (hok : ∀ d ∈ before ++ c :: after, d.Ok) (hrest : c.remaining = sl :: next.remaining)
    (hworth : sl.availableLots ≠ 0)
    (hbefore : ∀ b ∈ before, b.exhausted = false → sl.effectiveTicks < b.effectiveTicks b.level)
    (hafter : ∀ a ∈ after, a.exhausted = false → sl.effectiveTicks ≤ a.effectiveTicks a.level) :
    sortBy CostSlice.effectiveTicks (pending (before ++ c :: after)).flatten =
      sl :: sortBy CostSlice.effectiveTicks (pending (before ++ next :: after)).flatten := by
  have hhead : worthwhile c.remaining = sl :: worthwhile next.remaining := by
    rw [hrest, worthwhile, List.filter_cons_of_pos (by simpa using hworth)]
    rfl
  have hsorted : (sl :: worthwhile next.remaining).Pairwise (KeyLE CostSlice.effectiveTicks) := by
    rw [← hhead]
    exact (remaining_sorted (hok c (by simp))).filter _
  simp only [pending, List.map_append, List.map_cons, hhead]
  refine sortBy_flatten_step hsorted ?_ ?_
  · intro l hl x hx
    obtain ⟨b, hb, rfl⟩ := List.mem_map.mp hl
    obtain ⟨hlive, hle⟩ := effectiveTicks_le_of_mem (hok b (by simp [hb])) (mem_worthwhile.mp hx).1
    exact lt_of_lt_of_le (hbefore b hb hlive) hle
  · intro l hl x hx
    obtain ⟨a, ha, rfl⟩ := List.mem_map.mp hl
    obtain ⟨hlive, hle⟩ := effectiveTicks_le_of_mem (hok a (by simp [ha])) (mem_worthwhile.mp hx).1
    exact (hafter a ha hlive).trans hle

theorem pending_drop {before after : List Cursor} {c next : Cursor} {sl : CostSlice}
    (hrest : c.remaining = sl :: next.remaining) (hzero : sl.availableLots = 0) :
    pending (before ++ c :: after) = pending (before ++ next :: after) := by
  have hhead : worthwhile c.remaining = worthwhile next.remaining := by
    rw [hrest, worthwhile, List.filter_cons_of_neg (by simpa using hzero)]
    rfl
  simp only [pending, List.map_append, List.map_cons, hhead]

theorem mergeLoop_round {fuel k : ℕ} {cursors : List Cursor} {slices : List CostSlice} {eff : ℤ} {c : Cursor}
    (hroom : slices.length < kMaxChildOrders) (hbest : scanBest cursors 0 none = some (k, eff))
    (hget : cursors[k]? = some c) (heff : eff = c.effectiveTicks c.level) :
    mergeLoop (fuel + 1) cursors slices =
      mergeLoop fuel (cursors.set k (seekNextValid { c with levelIdx := c.levelIdx + 1 }))
        (if c.availableLots c.level = 0 then slices else slices ++ [c.slice (c.level, c.levelIdx)]) := by
  subst heff
  simp only [mergeLoop, if_neg (not_le.mpr hroom), hbest, hget]
  by_cases hadj : truncate ((if c.level.qtyLots < c.maxLots then c.level.qtyLots else c.maxLots : ℤ)
      * c.fillRate) = 0
  · have hzero : c.availableLots c.level = 0 := by
      rw [Cursor.availableLots, hadj]
      simp
    rw [if_pos hadj, if_pos hzero]
  · rw [if_neg hadj, ← Cursor.availableLots]
    by_cases hzero : c.availableLots c.level = 0
    · rw [if_pos hzero, if_pos hzero]
    · rw [if_neg hzero, if_neg hzero]
      rfl

/-- The loop rule: what every round keeps holds of the slices the merge ends with. -/
theorem mergeLoop_invariant (I : List Cursor → List CostSlice → Prop)
    (hround : ∀ before c after slices, I (before ++ c :: after) slices → c.exhausted = false →
      I (before ++ seekNextValid { c with levelIdx := c.levelIdx + 1 } :: after)
        (if c.availableLots c.level = 0 then slices else slices ++ [c.slice (c.level, c.levelIdx)]))
    (fuel : ℕ) (cursors : List Cursor) (slices : List CostSlice) (h : I cursors slices) :
    ∃ cursors', I cursors' (mergeLoop fuel cursors slices) := by
  induction fuel generalizing cursors slices with
  | zero => exact ⟨cursors, h⟩
  | succ fuel ih =>
    by_cases hfull : kMaxChildOrders ≤ slices.length
    · exact ⟨cursors, by simpa [mergeLoop, hfull] using h⟩
    have hscan := scanBest_leads cursors [] none (by intro c hc; cases hc)
    simp only [List.nil_append, List.length_nil] at hscan
    rcases hbest : scanBest cursors 0 none with _ | ⟨k, eff⟩
    · exact ⟨cursors, by simpa [mergeLoop, hfull, hbest] using h⟩
    rw [hbest] at hscan
    obtain ⟨before, c, after, rfl, rfl, hlive, rfl, -, -⟩ := hscan
    rw [mergeLoop_round (not_le.mp hfull) hbest (by simp) rfl]
    have hset : (before ++ c :: after).set before.length
        (seekNextValid { c with levelIdx := c.levelIdx + 1 }) =
          before ++ seekNextValid { c with levelIdx := c.levelIdx + 1 } :: after := by simp
    rw [hset]
    exact ih _ _ (hround before c after slices h hlive)

theorem mergeLoop_eq (fuel : ℕ) (cursors : List Cursor) (slices : List CostSlice)
    (hok : ∀ c ∈ cursors, c.Ok) (hfuel : roundsLeft cursors < fuel)
    (hroom : slices.length + (pending cursors).flatten.length ≤ kMaxChildOrders) :
    mergeLoop fuel cursors slices =
      slices ++ sortBy CostSlice.effectiveTicks (pending cursors).flatten := by
  -- every round takes one element off the list of one cursor
  induction fuel generalizing cursors slices with
  | zero => omega
  | succ fuel ih =>
    by_cases hfull : kMaxChildOrders ≤ slices.length
    · have hnone : (pending cursors).flatten = [] := List.length_eq_zero_iff.mp (by omega)
      simp [mergeLoop, hfull, hnone]
    have hscan := scanBest_leads cursors [] none (by intro c hc; cases hc)
    simp only [List.nil_append, List.length_nil] at hscan
    rcases hbest : scanBest cursors 0 none with _ | ⟨k, eff⟩
    · rw [hbest] at hscan
      simp [mergeLoop, hfull, hbest, pending_of_exhausted hscan]
    rw [hbest] at hscan
    obtain ⟨before, c, after, rfl, rfl, hlive, rfl, hbefore, hafter⟩ := hscan
    rw [mergeLoop_round (not_le.mp hfull) hbest (by simp) rfl]
    obtain ⟨hnext, hrest⟩ := advance_spec (hok c (by simp)) hlive
    generalize seekNextValid { c with levelIdx := c.levelIdx + 1 } = next at hnext hrest ⊢
    have hset : (before ++ c :: after).set before.length next = before ++ next :: after := by simp
    have hok' : ∀ d ∈ before ++ next :: after, d.Ok := by
      intro d hd
      rcases List.mem_append.mp hd with hd | hd
      · exact hok d (by simp [hd])
      · rcases List.mem_cons.mp hd with rfl | hd
        · exact hnext
        · exact hok d (by simp [hd])
    have hfuel' : roundsLeft (before ++ next :: after) < fuel := by
      simp only [roundsLeft, List.map_append, List.map_cons, List.sum_append, List.sum_cons, hrest,
        List.length_cons] at hfuel ⊢
      omega
    rw [hset]
    split
    · rename_i hzero
      have hdrop : pending (before ++ c :: after) = pending (before ++ next :: after) :=
        pending_drop hrest hzero
      rw [hdrop] at hroom ⊢
      exact ih _ slices hok' hfuel' hroom
    · rename_i hworth
      have htake := pending_take hok hrest hworth hbefore hafter
      have hlen := congrArg List.length htake
      simp only [(sortBy_perm _ _).length_eq, List.length_cons] at hlen
      rw [ih _ _ hok' hfuel' (by rw [List.length_append, List.length_singleton]; omega), htake]
      simp

end Loop

end OmsFormal.Sor
