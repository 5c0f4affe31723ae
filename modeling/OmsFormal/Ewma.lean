import Mathlib.Algebra.Order.Ring.Defs
import Mathlib.Data.List.Forall2
import Mathlib.Tactic.Ring

/-!
# Exponentially weighted averages

A running average that moves by a fixed fraction towards each new sample. It
stays between the bounds of its samples, it is monotone in them, and it forgets
where it started at a geometric rate.
-/

namespace OmsFormal.Ewma
set_option autoImplicit false

section Ring
variable {K : Type*} [CommRing K] {α m : K}

def blend (α m s : K) : K := α * s + (1 - α) * m

def average (α m : K) (samples : List K) : K := samples.foldl (blend α) m

@[simp] theorem average_nil : average α m [] = m := rfl

@[simp] theorem average_cons (s : K) (xs : List K) :
    average α m (s :: xs) = average α (blend α m s) xs := rfl

/-- Two averages of the same samples differ by what is left of the difference of their starts. -/
theorem average_sub (a b : K) (xs : List K) :
    average α a xs - average α b xs = (1 - α) ^ xs.length * (a - b) := by
  induction xs generalizing a b with
  | nil => simp
  | cons s xs ih =>
    rw [average_cons, average_cons, ih, List.length_cons, pow_succ]
    simp only [blend]
    ring

theorem average_const (c : K) (n : ℕ) : average α c (List.replicate n c) = c := by
  have hone : blend α c c = c := by
    rw [blend]
    ring
  induction n with
  | zero => rfl
  | succ n ih => rw [List.replicate_succ, average_cons, hone, ih]

end Ring

section Order
variable {K : Type*} [CommRing K] [LinearOrder K] [IsStrictOrderedRing K]
variable {α m m' lo hi : K} {xs ys : List K} (hα : 0 ≤ α) (hα' : α ≤ 1)
include hα hα'

theorem blend_mono {s s' : K} (hm : m ≤ m') (hs : s ≤ s') : blend α m s ≤ blend α m' s' :=
  add_le_add (mul_le_mul_of_nonneg_left hs hα) (mul_le_mul_of_nonneg_left hm (sub_nonneg.mpr hα'))

theorem average_mono (hm : m ≤ m') (h : List.Forall₂ (· ≤ ·) xs ys) : average α m xs ≤ average α m' ys := by
  induction h generalizing m m' with
  | nil => exact hm
  | cons hs _ ih => exact ih (blend_mono hα hα' hm hs)

theorem average_le (hm : m ≤ hi) (h : ∀ s ∈ xs, s ≤ hi) : average α m xs ≤ hi := by
  induction xs generalizing m with
  | nil => exact hm
  | cons s xs ih =>
    have hs := blend_mono hα hα' hm (h s List.mem_cons_self)
    have hone : blend α hi hi = hi := average_const hi 1
    exact ih (hs.trans_eq hone) fun t ht => h t (List.mem_cons_of_mem _ ht)

theorem le_average (hm : lo ≤ m) (h : ∀ s ∈ xs, lo ≤ s) : lo ≤ average α m xs := by
  induction xs generalizing m with
  | nil => exact hm
  | cons s xs ih =>
    have hs := blend_mono hα hα' hm (h s List.mem_cons_self)
    have hone : blend α lo lo = lo := average_const lo 1
    exact ih (hone.symm.trans_le hs) fun t ht => h t (List.mem_cons_of_mem _ ht)

/-- Samples within bounds pull the average there, whatever it was before. -/
theorem average_near {a : K} (ha : lo ≤ a ∧ a ≤ hi) (h : ∀ s ∈ xs, lo ≤ s ∧ s ≤ hi) :
    lo + (1 - α) ^ xs.length * (m - a) ≤ average α m xs ∧
    average α m xs ≤ hi + (1 - α) ^ xs.length * (m - a) := by
  have hsub := average_sub (α := α) m a xs
  have hlow := le_average hα hα' ha.1 fun s hs => (h s hs).1
  have hhigh := average_le hα hα' ha.2 fun s hs => (h s hs).2
  rw [← hsub]
  constructor
  · calc lo + (average α m xs - average α a xs)
        ≤ average α a xs + (average α m xs - average α a xs) := add_le_add_left hlow _
      _ = average α m xs := add_sub_cancel _ _
  · calc average α m xs
        = average α a xs + (average α m xs - average α a xs) := (add_sub_cancel _ _).symm
      _ ≤ hi + (average α m xs - average α a xs) := add_le_add_left hhigh _

end Order

end OmsFormal.Ewma
