import Mathlib.Algebra.BigOperators.Group.List.Basic
import Mathlib.Algebra.Order.Ring.Int
import Mathlib.Tactic.Linarith

/-!
# Serving a demand when every item has a minimum

Items are served in list order, each as far as its capacity and the remaining
demand allow, and not at all where that would be less than its minimum. A larger
demand is never served worse, and a demand that could be met stays unmet only
with a remainder below the minimum of an item that was passed over.
-/

namespace OmsFormal.MinimumSweep
set_option autoImplicit false

universe u v
variable {α : Type u} {β : Type v} {cap low : α → ℤ} {l : List α} {a : α} {r r' : ℤ}

/-- What an item gets of the remaining demand `r`. -/
def share (cap low : α → ℤ) (a : α) (r : ℤ) : ℤ :=
  if r = 0 then 0 else if min r (cap a) < low a then 0 else min r (cap a)

/-- The items with what each of them gets. -/
def sweep (cap low : α → ℤ) : List α → ℤ → List (α × ℤ)
  | [], _ => []
  | a :: l, r => (a, share cap low a r) :: sweep cap low l (r - share cap low a r)

def served (xs : List (α × ℤ)) : ℤ := (xs.map Prod.snd).sum

@[simp] theorem served_nil : served ([] : List (α × ℤ)) = 0 := rfl

@[simp] theorem served_cons (x : α × ℤ) (xs : List (α × ℤ)) : served (x :: xs) = x.2 + served xs := by
  simp [served]

section Share

theorem share_eq_zero_or (cap low : α → ℤ) (a : α) (r : ℤ) :
    share cap low a r = 0 ∨ share cap low a r = min r (cap a) ∧ low a ≤ min r (cap a) := by
  unfold share
  split
  · exact Or.inl rfl
  · split
    · exact Or.inl rfl
    · rename_i hlow
      exact Or.inr ⟨rfl, not_lt.mp hlow⟩

theorem share_bounds (low : α → ℤ) (hcap : 0 ≤ cap a) (hr : 0 ≤ r) :
    0 ≤ share cap low a r ∧ share cap low a r ≤ cap a ∧ share cap low a r ≤ r := by
  rcases share_eq_zero_or cap low a r with h | ⟨h, -⟩
  · omega
  · omega

/-- An item that gets nothing of an open demand would have got less than its minimum. -/
theorem lt_low_of_share_eq_zero (h : share cap low a r = 0) (hr : r ≠ 0) (hcap : cap a ≠ 0) :
    min r (cap a) < low a := by
  unfold share at h
  rw [if_neg hr] at h
  split at h
  · assumption
  · omega

end Share

section Sweep

theorem sweep_map_fst (l : List α) (r : ℤ) : (sweep cap low l r).map Prod.fst = l := by
  induction l generalizing r with
  | nil => rfl
  | cons a l ih => simp [sweep, ih]

/-- A sweep cut at an item that was reached: what it gets is its share of what was left. -/
theorem share_of_split {pre post : List (α × ℤ)} {x : α × ℤ}
    (h : sweep cap low l r = pre ++ x :: post) : x.2 = share cap low x.1 (r - served pre) := by
  induction pre generalizing l r with
  | nil =>
    cases l with
    | nil => cases h
    | cons a l =>
      cases h
      simp
  | cons y pre ih =>
    cases l with
    | nil => cases h
    | cons a l =>
      simp only [sweep, List.cons_append, List.cons.injEq] at h
      rw [ih h.2, ← h.1, served_cons, sub_sub]

theorem sweep_bounds (low : α → ℤ) (hcap : ∀ a ∈ l, 0 ≤ cap a) (hr : 0 ≤ r) :
    (∀ x ∈ sweep cap low l r, 0 ≤ x.2 ∧ x.2 ≤ cap x.1) ∧
    0 ≤ served (sweep cap low l r) ∧ served (sweep cap low l r) ≤ r := by
  induction l generalizing r with
  | nil => simpa [sweep] using hr
  | cons a l ih =>
    obtain ⟨hpos, hle, hler⟩ := share_bounds low (hcap a List.mem_cons_self) hr
    obtain ⟨hall, hnn, hserved⟩ := ih (r := r - share cap low a r)
      (fun b hb => hcap b (List.mem_cons_of_mem a hb)) (by omega)
    refine ⟨?_, ?_, ?_⟩
    · intro x hx
      rcases List.mem_cons.mp hx with rfl | hx
      · exact ⟨hpos, hle⟩
      · exact hall x hx
    · rw [sweep, served_cons]
      omega
    · rw [sweep, served_cons]
      omega

theorem sweep_zero (l : List α) : served (sweep cap low l 0) = 0 := by
  induction l with
  | nil => rfl
  | cons a l ih => simp [sweep, share, ih]

theorem sweep_map (g : β → α) (l : List β) (r : ℤ) :
    sweep cap low (l.map g) r =
      (sweep (fun b => cap (g b)) (fun b => low (g b)) l r).map fun x => (g x.1, x.2) := by
  induction l generalizing r with
  | nil => rfl
  | cons b l ih =>
    have hshare : share (fun b => cap (g b)) (fun b => low (g b)) b r = share cap low (g b) r := rfl
    simp only [List.map_cons, sweep, hshare, ih]

end Sweep

section Demand

/-- Where only the larger demand is served at once, it already gets more than the smaller one. -/
theorem share_mono (low : α → ℤ) (hr : 0 ≤ r) (h : r ≤ r') (hcap : 0 ≤ cap a) :
    share cap low a r = share cap low a r' ∨ share cap low a r = r ∧ r ≤ share cap low a r' ∨
      share cap low a r = 0 ∧ r ≤ share cap low a r' := by
  unfold share
  split
  · omega
  · split
    · split
      · omega
      · split
        · omega
        · omega
    · split
      · omega
      · split
        · omega
        · omega

/-- Asking for more never serves less. -/
theorem served_mono (hcap : ∀ a ∈ l, 0 ≤ cap a) (hr : 0 ≤ r) (h : r ≤ r') :
    served (sweep cap low l r) ≤ served (sweep cap low l r') := by
  induction l generalizing r r' with
  | nil => exact le_rfl
  | cons a l ih =>
    have hcapa := hcap a List.mem_cons_self
    have hcapl : ∀ b ∈ l, 0 ≤ cap b := fun b hb => hcap b (List.mem_cons_of_mem a hb)
    obtain ⟨hnn, -, hle⟩ := share_bounds low hcapa hr
    obtain ⟨hnn', -, hle'⟩ := share_bounds low hcapa (hr.trans h)
    obtain ⟨-, -, hrest⟩ := sweep_bounds low hcapl (show 0 ≤ r - share cap low a r by omega)
    obtain ⟨-, hmore, -⟩ := sweep_bounds low hcapl (show 0 ≤ r' - share cap low a r' by omega)
    simp only [sweep, served_cons]
    -- either both go on with the item served alike, or the larger demand is past the smaller one
    rcases share_mono low hr h hcapa with heq | ⟨hall, hpast⟩ | ⟨hnone, hpast⟩
    · have := ih hcapl (show 0 ≤ r - share cap low a r by omega)
        (show r - share cap low a r ≤ r' - share cap low a r' by omega)
      omega
    · omega
    · omega

/-- If a demand is left with a remainder that no passed-over item has a larger minimum than,
every way to serve the items within their bounds serves no more than the sweep. -/
theorem le_served_of_no_stranded {ns : List ℤ} (hcap : ∀ a ∈ l, 0 ≤ cap a) (hr : 0 ≤ r)
    (hns : List.Forall₂ (fun a n => n = 0 ∨ low a ≤ n ∧ n ≤ cap a) l ns)
    (hopen : 0 < r - served (sweep cap low l r))
    (hlow : ∀ x ∈ sweep cap low l r, x.2 = 0 → low x.1 ≤ cap x.1 → low x.1 ≤ r - served (sweep cap low l r)) :
    ns.sum ≤ served (sweep cap low l r) := by
  induction hns generalizing r with
  | nil => exact le_rfl
  | @cons a n l ns hn _ ih =>
    obtain ⟨hnn, hle, hler⟩ := share_bounds low (hcap a List.mem_cons_self) hr
    have hcapl : ∀ b ∈ l, 0 ≤ cap b := fun b hb => hcap b (List.mem_cons_of_mem a hb)
    obtain ⟨-, hmore, -⟩ := sweep_bounds low hcapl (show 0 ≤ r - share cap low a r by omega)
    simp only [sweep, served_cons] at hopen hlow ⊢
    have hrest : ns.sum ≤ served (sweep cap low l (r - share cap low a r)) := by
      refine ih hcapl (by omega) (by omega) fun x hx hzero hfits => ?_
      have := hlow x (List.mem_cons_of_mem _ hx) hzero hfits
      omega
    have hhead : n ≤ share cap low a r := by
      rcases hn with rfl | ⟨hmin, hmax⟩
      · exact hnn
      · rcases share_eq_zero_or cap low a r with hzero | ⟨hfull, -⟩
        · have hbound : low a ≤ _ := hlow (a, share cap low a r) List.mem_cons_self hzero (hmin.trans hmax)
          by_cases hc : cap a = 0
          · omega
          · have := lt_low_of_share_eq_zero hzero (by omega) hc
            omega
        · omega
    rw [List.sum_cons]
    omega

/-- A demand that can be met within the bounds is met, or stranded below the minimum of an item
that was passed over. -/
theorem served_or_stranded {ns : List ℤ} (hcap : ∀ a ∈ l, 0 ≤ cap a) (hr : 0 ≤ r)
    (hns : List.Forall₂ (fun a n => n = 0 ∨ low a ≤ n ∧ n ≤ cap a) l ns) (hsum : ns.sum = r) :
    served (sweep cap low l r) = r ∨
    ∃ x ∈ sweep cap low l r, x.2 = 0 ∧ low x.1 ≤ cap x.1 ∧ r - served (sweep cap low l r) < low x.1 := by
  obtain ⟨-, -, hle⟩ := sweep_bounds low hcap hr
  by_contra hnot
  obtain ⟨hne, hnone⟩ := not_or.mp hnot
  have hopen : 0 < r - served (sweep cap low l r) := by omega
  have hbound := le_served_of_no_stranded hcap hr hns hopen fun x hx hzero hfits =>
    not_lt.mp fun hlt => hnone ⟨x, hx, hzero, hfits, hlt⟩
  omega

end Demand

end OmsFormal.MinimumSweep
