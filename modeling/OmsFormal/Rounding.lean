import Mathlib.Algebra.BigOperators.Ring.List
import Mathlib.Algebra.Order.BigOperators.Group.List
import Mathlib.Algebra.Order.Floor.Ring
import Mathlib.Data.Rat.Floor
import Mathlib.Tactic.Linarith
import Mathlib.Tactic.FieldSimp

/-!
# Integer conversions of exact rationals

The two conversions a C program applies to a non-integer quantity: rounding to
the nearest integer with halves away from zero, and the cast that truncates
towards zero. Both are exact on integers, and truncation never overshoots a
non-negative quantity.
-/

namespace OmsFormal.Rounding
set_option autoImplicit false

/-- Nearest integer, halves away from zero. -/
def roundHalfAway (q : ℚ) : ℤ :=
  if 0 ≤ q then ⌊q + 1 / 2⌋ else -⌊-q + 1 / 2⌋

def truncate (q : ℚ) : ℤ :=
  if 0 ≤ q then ⌊q⌋ else ⌈q⌉

@[simp] theorem roundHalfAway_intCast (n : ℤ) : roundHalfAway (n : ℚ) = n := by
  have hfloor (m : ℤ) : ⌊(m : ℚ) + 1 / 2⌋ = m := by
    rw [Int.floor_intCast_add]
    norm_num
  unfold roundHalfAway
  split
  · exact hfloor n
  · have h := hfloor (-n)
    push_cast at h
    rw [h, neg_neg]

@[simp] theorem roundHalfAway_zero : roundHalfAway 0 = 0 := by
  exact_mod_cast roundHalfAway_intCast 0

@[simp] theorem truncate_intCast (n : ℤ) : truncate (n : ℚ) = n := by
  unfold truncate
  split <;> simp

theorem roundHalfAway_nonneg {q : ℚ} (hq : 0 ≤ q) : 0 ≤ roundHalfAway q := by
  rw [roundHalfAway, if_pos hq]
  exact Int.floor_nonneg.mpr (by linarith)

theorem roundHalfAway_nonpos {q : ℚ} (hq : q ≤ 0) : roundHalfAway q ≤ 0 := by
  rcases hq.eq_or_lt with rfl | hneg
  · exact roundHalfAway_zero.le
  · rw [roundHalfAway, if_neg (not_le.mpr hneg)]
    exact neg_nonpos.mpr (Int.floor_nonneg.mpr (by linarith))

theorem roundHalfAway_near (q : ℚ) : q - 1 / 2 ≤ roundHalfAway q ∧ (roundHalfAway q : ℚ) ≤ q + 1 / 2 := by
  unfold roundHalfAway
  split
  · have hle := Int.floor_le (q + 1 / 2)
    have hlt := Int.lt_floor_add_one (q + 1 / 2)
    constructor <;> linarith
  · have hle := Int.floor_le (-q + 1 / 2)
    have hlt := Int.lt_floor_add_one (-q + 1 / 2)
    push_cast
    constructor <;> linarith

theorem roundHalfAway_mono {p q : ℚ} (h : p ≤ q) : roundHalfAway p ≤ roundHalfAway q := by
  rcases le_or_gt 0 p with hp | hp
  · rw [roundHalfAway, roundHalfAway, if_pos hp, if_pos (hp.trans h)]
    exact Int.floor_le_floor (by linarith)
  · rcases le_or_gt 0 q with hq | hq
    · exact (roundHalfAway_nonpos hp.le).trans (roundHalfAway_nonneg hq)
    · rw [roundHalfAway, roundHalfAway, if_neg (not_le.mpr hp), if_neg (not_le.mpr hq)]
      exact neg_le_neg (Int.floor_le_floor (by linarith))

/-- Quantities that round to the same integer are at most one apart. -/
theorem roundHalfAway_ne_of_far {p q : ℚ} (h : 1 < |p - q|) : roundHalfAway p ≠ roundHalfAway q := by
  intro heq
  obtain ⟨hp, hp'⟩ := roundHalfAway_near p
  obtain ⟨hq, hq'⟩ := roundHalfAway_near q
  rw [heq] at hp hp'
  have hclose : |p - q| ≤ 1 := abs_le.mpr ⟨by linarith, by linarith⟩
  linarith

section Even

/-- `k` units of `q`, rounded one by one, come to what they round to together. -/
def RoundsEvenly (q : ℚ) (k : ℤ) : Prop :=
  -(1 / 2) ≤ k * (q - roundHalfAway q) ∧ k * (q - roundHalfAway q) < 1 / 2

instance (q : ℚ) (k : ℤ) : Decidable (RoundsEvenly q k) := inferInstanceAs (Decidable (_ ∧ _))

variable {q : ℚ} {j k : ℤ}

theorem roundHalfAway_mul_eq_iff (hq : 0 ≤ q) (hk : 0 ≤ k) :
    roundHalfAway (k * q) = k * roundHalfAway q ↔ RoundsEvenly q k := by
  have hkq : 0 ≤ (k : ℚ) * q := mul_nonneg (by exact_mod_cast hk) hq
  rw [roundHalfAway, if_pos hkq, Int.floor_eq_iff, RoundsEvenly]
  push_cast
  constructor
  · rintro ⟨hlow, hhigh⟩
    constructor <;> linarith
  · rintro ⟨hlow, hhigh⟩
    constructor <;> linarith

theorem RoundsEvenly.mono (h : RoundsEvenly q k) (hj : 0 ≤ j) (hjk : j ≤ k) : RoundsEvenly q j := by
  obtain ⟨hlow, hhigh⟩ := h
  have hj' : (0 : ℚ) ≤ j := by exact_mod_cast hj
  have hjk' : (j : ℚ) ≤ k := by exact_mod_cast hjk
  rcases le_total 0 (q - roundHalfAway q) with hpos | hneg
  · have hle := mul_le_mul_of_nonneg_right hjk' hpos
    have hnn := mul_nonneg hj' hpos
    constructor <;> linarith
  · have hle := mul_le_mul_of_nonpos_right hjk' hneg
    have hnp := mul_nonpos_of_nonneg_of_nonpos hj' hneg
    constructor <;> linarith

/-- Then every way to take the units in parts comes to the same. -/
theorem sum_roundHalfAway {parts : List ℤ} (hq : 0 ≤ q) (hparts : ∀ n ∈ parts, 0 ≤ n)
    (h : RoundsEvenly q parts.sum) :
    (parts.map fun n : ℤ => roundHalfAway (n * q)).sum = roundHalfAway (parts.sum * q) := by
  have hone : parts.map (fun n : ℤ => roundHalfAway (n * q)) = parts.map fun n => n * roundHalfAway q := by
    refine List.map_congr_left fun n hn => ?_
    exact (roundHalfAway_mul_eq_iff hq (hparts n hn)).mpr
      (h.mono (hparts n hn) (List.single_le_sum hparts n hn))
  rw [hone, List.sum_map_mul_right, List.map_id',
    (roundHalfAway_mul_eq_iff hq (List.sum_nonneg hparts)).mpr h]

/-- Taken one by one they come to what they round to together only if they round evenly. -/
theorem sum_roundHalfAway_units (hq : 0 ≤ q) {n : ℕ}
    (h : ((List.replicate n (1 : ℤ)).map fun m : ℤ => roundHalfAway (m * q)).sum = roundHalfAway (n * q)) :
    RoundsEvenly q n := by
  rw [List.map_replicate, List.sum_replicate, Int.cast_one, one_mul, nsmul_eq_mul] at h
  refine (roundHalfAway_mul_eq_iff hq (Int.natCast_nonneg n)).mp ?_
  push_cast
  exact h.symm

end Even

theorem truncate_of_nonneg {q : ℚ} (hq : 0 ≤ q) : truncate q = ⌊q⌋ := if_pos hq

theorem truncate_nonneg {q : ℚ} (hq : 0 ≤ q) : 0 ≤ truncate q := by
  rw [truncate_of_nonneg hq]
  exact Int.floor_nonneg.mpr hq

theorem truncate_le {q : ℚ} (hq : 0 ≤ q) : (truncate q : ℚ) ≤ q := by
  rw [truncate_of_nonneg hq]
  exact Int.floor_le q

theorem truncate_of_nonpos {q : ℚ} (hq : q ≤ 0) : truncate q = ⌈q⌉ := by
  rcases hq.eq_or_lt with rfl | hneg
  · simp [truncate]
  · exact if_neg (not_le.mpr hneg)

theorem truncate_mono {p q : ℚ} (h : p ≤ q) : truncate p ≤ truncate q := by
  rcases le_total 0 p with hp | hp
  · rw [truncate_of_nonneg hp, truncate_of_nonneg (hp.trans h)]
    exact Int.floor_le_floor h
  · rw [truncate_of_nonpos hp]
    rcases le_total 0 q with hq | hq
    · exact (Int.ceil_le.mpr (by exact_mod_cast hp)).trans (truncate_nonneg hq)
    · rw [truncate_of_nonpos hq]
      exact Int.ceil_le_ceil h

/-- Counting a quantity in whole units never overshoots it, whatever the sign of the unit. -/
theorem truncate_div_mul_le (q u : ℚ) : (truncate (q / u) : ℚ) * u ≤ max q 0 := by
  rcases eq_or_ne u 0 with rfl | hu
  · simp
  have hback : q / u * u = q := div_mul_cancel₀ q hu
  rcases le_total 0 (q / u) with hq | hq
  · have hnn : (0 : ℚ) ≤ truncate (q / u) := by exact_mod_cast truncate_nonneg hq
    have hle := truncate_le hq
    rcases le_total 0 u with hpos | hneg
    · exact le_max_of_le_left ((mul_le_mul_of_nonneg_right hle hpos).trans_eq hback)
    · exact le_max_of_le_right (mul_nonpos_of_nonneg_of_nonpos hnn hneg)
  · rw [truncate_of_nonpos hq]
    have hnp : ((⌈q / u⌉ : ℤ) : ℚ) ≤ 0 := by exact_mod_cast Int.ceil_le.mpr (by simpa using hq)
    have hge : q / u ≤ ⌈q / u⌉ := Int.le_ceil _
    rcases le_total 0 u with hpos | hneg
    · exact le_max_of_le_right (mul_nonpos_of_nonpos_of_nonneg hnp hpos)
    · exact le_max_of_le_left ((mul_le_mul_of_nonpos_right hge hneg).trans_eq hback)

/-- A quantity of `n` small units of size `u`, counted in units `r` times as big. -/
theorem truncate_scaled {u : ℚ} (hu : 0 < u) {r : ℕ} (hr : 1 ≤ r) (n : ℤ) (hn : 0 ≤ n) :
    truncate (n * u / (r * u)) = n / r := by
  have hr' : (0 : ℚ) < r := by exact_mod_cast hr
  have hdiv : (n : ℚ) * u / (r * u) = (n : ℚ) / ((r : ℤ) : ℚ) := by
    push_cast
    field_simp
  have hnn : (0 : ℚ) ≤ (n : ℚ) / ((r : ℤ) : ℚ) := by
    have : (0 : ℚ) ≤ n := by exact_mod_cast hn
    push_cast
    positivity
  rw [hdiv, truncate_of_nonneg hnn]
  exact_mod_cast Rat.floor_intCast_div_natCast n r

theorem roundHalfAway_scaled {u : ℚ} (hu : 0 < u) (r : ℕ) (n : ℤ) :
    roundHalfAway (n * (r * u) / u) = r * n := by
  have hdiv : (n : ℚ) * (r * u) / u = ((r * n : ℤ) : ℚ) := by
    push_cast
    field_simp
  rw [hdiv, roundHalfAway_intCast]

/-- Counting a whole number of units is exact. -/
theorem roundHalfAway_mul_div {u : ℚ} (hu : 0 < u) (n : ℤ) :
    roundHalfAway (n * u / u) = n := by
  rw [mul_div_cancel_right₀ _ hu.ne', roundHalfAway_intCast]

end OmsFormal.Rounding
