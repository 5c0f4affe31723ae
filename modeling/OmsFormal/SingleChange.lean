import Mathlib.Algebra.BigOperators.Group.Finset.Basic
import Mathlib.Algebra.BigOperators.Group.List.Basic
import Mathlib.Algebra.Order.BigOperators.Group.List
import Mathlib.Tactic.Abel
import Mathlib.Tactic.Linarith

/-!
# Sums in which one member changes

A total over many records moves by exactly the difference at the one record
that an operation touches. Stated for lists without repetition, for one position
of any list, and for finite index ranges.
-/

namespace OmsFormal.SingleChange
set_option autoImplicit false

universe u
variable {α : Type u}

theorem list_sum_of_agree {f g : α → ℤ} {l : List α} (h : ∀ x ∈ l, g x = f x) :
    (l.map g).sum = (l.map f).sum := by
  rw [List.map_congr_left h]

theorem list_sum_change {f g : α → ℤ} {l : List α} {c : α} (hn : l.Nodup) (hc : c ∈ l)
    (h : ∀ x ∈ l, x ≠ c → g x = f x) :
    (l.map g).sum = (l.map f).sum - f c + g c := by
  induction l with
  | nil => simp at hc
  | cons a as ih =>
    obtain ⟨ha, has⟩ := List.nodup_cons.mp hn
    simp only [List.map_cons, List.sum_cons]
    by_cases hca : c = a
    · subst hca
      have htail : (as.map g).sum = (as.map f).sum := by
        apply list_sum_of_agree
        intro x hx
        exact h x (List.mem_cons_of_mem c hx) (fun he => ha (he ▸ hx))
      rw [htail]
      abel
    · have hmem : c ∈ as := by
        rcases List.mem_cons.mp hc with he | hm
        · exact absurd he hca
        · exact hm
      rw [ih has hmem (fun x hx => h x (List.mem_cons_of_mem a hx)),
        h a List.mem_cons_self (fun he => hca he.symm)]
      abel

/-- Position `i` of a list, replaced or erased. -/
theorem split_at_index {l : List α} {i : ℕ} {x : α} (h : l[i]? = some x) :
    ∃ l₁ l₂, l = l₁ ++ x :: l₂ ∧ (∀ y, l.set i y = l₁ ++ y :: l₂) ∧ l.eraseIdx i = l₁ ++ l₂ := by
  induction l generalizing i with
  | nil => simp at h
  | cons a as ih =>
    cases i with
    | zero =>
      obtain rfl : a = x := by simpa using h
      exact ⟨[], as, rfl, fun _ => rfl, rfl⟩
    | succ i =>
      obtain ⟨l₁, l₂, hsplit, hset, herase⟩ := ih (by simpa using h)
      refine ⟨a :: l₁, l₂, by rw [hsplit]; rfl, fun y => ?_, ?_⟩
      · rw [List.set_cons_succ, hset]
        rfl
      · rw [List.eraseIdx_cons_succ, herase]
        rfl

theorem list_sum_eraseIdx {f : α → ℤ} {l : List α} {i : ℕ} {x : α} (h : l[i]? = some x) :
    ((l.eraseIdx i).map f).sum = (l.map f).sum - f x := by
  obtain ⟨l₁, l₂, hsplit, -, herase⟩ := split_at_index h
  rw [herase, hsplit]
  simp only [List.map_append, List.map_cons, List.sum_append, List.sum_cons]
  abel

theorem list_sum_set {f : α → ℤ} {l : List α} {i : ℕ} {x : α} (h : l[i]? = some x) (y : α) :
    ((l.set i y).map f).sum = (l.map f).sum - f x + f y := by
  obtain ⟨l₁, l₂, hsplit, hset, -⟩ := split_at_index h
  rw [hset, hsplit]
  simp only [List.map_append, List.map_cons, List.sum_append, List.sum_cons]
  abel

theorem mem_set_cases {l : List α} {i : ℕ} {x y z : α} (hx : l[i]? = some x) (hz : z ∈ l.set i y) :
    z = y ∨ z ∈ l.eraseIdx i := by
  obtain ⟨l₁, l₂, -, hset, herase⟩ := split_at_index hx
  rw [hset, List.mem_append, List.mem_cons] at hz
  rw [herase, List.mem_append]
  rcases hz with hz | hz | hz
  · exact Or.inr (Or.inl hz)
  · exact Or.inl hz
  · exact Or.inr (Or.inr hz)

theorem mem_cases {l : List α} {i : ℕ} {x z : α} (hx : l[i]? = some x) (hz : z ∈ l) :
    z = x ∨ z ∈ l.eraseIdx i := by
  obtain ⟨l₁, l₂, hsplit, hset, -⟩ := split_at_index hx
  exact mem_set_cases (y := x) hx (by rw [hset, ← hsplit]; exact hz)

/-- A sum is bounded by the sum over its keys, if what counts has a key of its own in `m` with at
least its value there. -/
theorem list_sum_le_of_keys {β : Type*} [DecidableEq β] {key : α → β} {f : α → ℤ} {g : β → ℤ} {l : List α}
    (m : List β) (hn : (l.map key).Nodup) (hg : ∀ b ∈ m, 0 ≤ g b)
    (h : ∀ x ∈ l, f x ≤ 0 ∨ key x ∈ m ∧ f x ≤ g (key x)) : (l.map f).sum ≤ (m.map g).sum := by
  induction l generalizing m with
  | nil =>
    apply List.sum_nonneg
    intro y hy
    obtain ⟨b, hb, rfl⟩ := List.mem_map.mp hy
    exact hg b hb
  | cons a as ih =>
    obtain ⟨ha, has⟩ := List.nodup_cons.mp hn
    rw [List.map_cons, List.sum_cons]
    rcases h a List.mem_cons_self with hzero | ⟨hmem, hle⟩
    · have hrest := ih m has hg fun x hx => h x (List.mem_cons_of_mem a hx)
      omega
    · have hrest := ih (m.erase (key a)) has (fun b hb => hg b (List.mem_of_mem_erase hb)) fun x hx => ?_
      · rw [← List.sum_map_erase g hmem]
        omega
      · refine (h x (List.mem_cons_of_mem a hx)).imp_right fun hkey => ⟨?_, hkey.2⟩
        -- another element has another key, so its key is still there
        refine (List.mem_erase_of_ne fun heq => ha ?_).mpr hkey.1
        rw [← heq]
        exact List.mem_map_of_mem hx

theorem range_sum_change {f g : ℕ → ℤ} {n p : ℕ} (hp : p < n)
    (h : ∀ x, x < n → x ≠ p → g x = f x) :
    (Finset.range n).sum g = (Finset.range n).sum f - f p + g p := by
  have hmem : p ∈ Finset.range n := Finset.mem_range.mpr hp
  have hrest : ((Finset.range n).erase p).sum g = ((Finset.range n).erase p).sum f := by
    apply Finset.sum_congr rfl
    intro x hx
    obtain ⟨hne, hlt⟩ := Finset.mem_erase.mp hx
    exact h x (Finset.mem_range.mp hlt) hne
  rw [← Finset.add_sum_erase _ g hmem, ← Finset.add_sum_erase _ f hmem, hrest]
  abel

end OmsFormal.SingleChange
