import OmsFormal.Positions
import OmsFormal.GuardedRun
import Mathlib.Algebra.Order.Group.Unbundled.Int
import Mathlib.Tactic.FieldSimp
import Mathlib.Tactic.Linarith

/-!
# The cost basis of a position

`apply_fill` keeps one average entry price. As the cost basis of what is open it
should be moved by the fills that build the position and left alone by those that
reduce it. The code averages in every fill that does not change the side, so the
two agree as long as positions are only reduced at their own average.
-/

namespace OmsFormal.Oms
open Sor GuardedRun
set_option autoImplicit false

/-- The arguments of one `apply_fill` call. -/
structure Fill where
  dir : OrderDir
  lots : ℤ
  price : ℚ

namespace Fill

def signedLots (f : Fill) : ℤ :=
  match f.dir with
  | .buy => f.lots
  | .sell => -f.lots

structure Positive (f : Fill) : Prop where
  lots : 1 ≤ f.lots
  price : 0 < f.price

/-- The position shrinks, but stays on its side. -/
def Reduces (f : Fill) (net : ℤ) : Prop :=
  net.sign = (net + f.signedLots).sign ∧ |net + f.signedLots| < |net|

instance (f : Fill) (net : ℤ) : Decidable (f.Reduces net) := inferInstanceAs (Decidable (_ ∧ _))

/-- The average cost of what is open after the fill: nothing when flat, the price of the fill when it
opens or turns the position, the old cost when it reduces it, the weighted mean when it adds to it. -/
def costBasis (f : Fill) (net : ℤ) (basis : ℚ) : ℚ :=
  if net + f.signedLots = 0 then 0
  else if net = 0 ∨ net.sign ≠ (net + f.signedLots).sign then f.price
  else if f.Reduces net then basis
  else (basis * |net| + f.price * f.lots) / (|net| + f.lots)

end Fill

/-- A position and the cost basis of its fills. -/
structure CostLedger where
  position : InstrumentPosition
  basis : ℚ

namespace CostLedger

def step (f : Fill) (x : CostLedger) : CostLedger where
  position := x.position.applyFill f.dir f.lots f.price
  basis := f.costBasis x.position.netQtyLots x.basis

/-- Nothing is open, and nothing was paid for it. -/
structure Flat (p : InstrumentPosition) : Prop where
  net : p.netQtyLots = 0
  average : p.avgEntryPrice = 0

def start (p : InstrumentPosition) : CostLedger := ⟨p, 0⟩

def AtCost (x : CostLedger) : Prop := x.position.avgEntryPrice = x.basis

/-- A fill that reduces the position does so at its average entry price. -/
def ReducesAtCost (f : Fill) (x : CostLedger) : Prop :=
  f.Reduces x.position.netQtyLots → f.price = x.position.avgEntryPrice

end CostLedger

section Step
variable {f : Fill} {x : CostLedger}

/-- The tolerance around zero is below one lot. -/
theorem tolerance_lt_abs_iff (n : ℤ) : 1 / 1000000000 < |(n : ℚ)| ↔ n ≠ 0 := by
  constructor
  · rintro h rfl
    norm_num at h
  · intro h
    have hone : (1 : ℚ) ≤ |(n : ℚ)| := by exact_mod_cast Int.one_le_abs h
    linarith

theorem ite_neg_eq_abs (n : ℤ) : (if n < 0 then -(n : ℚ) else n) = |(n : ℚ)| := by
  split
  · rename_i h
    exact (abs_of_neg (by exact_mod_cast h)).symm
  · rename_i h
    exact (abs_of_nonneg (by exact_mod_cast not_lt.mp h)).symm

theorem applyFill_avgEntryPrice (f : Fill) (p : InstrumentPosition) :
    (p.applyFill f.dir f.lots f.price).avgEntryPrice =
      if p.netQtyLots + f.signedLots = 0 then 0
      else if (0 ≤ p.netQtyLots ↔ 0 ≤ p.netQtyLots + f.signedLots) then
        (p.avgEntryPrice * |p.netQtyLots| + f.price * f.lots) / (|p.netQtyLots| + f.lots)
      else f.price := by
  change (if (if p.netQtyLots + f.signedLots < 0 then -((p.netQtyLots + f.signedLots : ℤ) : ℚ)
      else (p.netQtyLots + f.signedLots : ℤ)) > 1 / 1000000000 then _ else (0 : ℚ)) = _
  simp only [ite_neg_eq_abs, gt_iff_lt, tolerance_lt_abs_iff, ge_iff_le, decide_eq_decide, ite_not,
    Int.cast_abs]
  rfl

/-- The weighted mean of the old average and another price is the old average only at that price. -/
theorem weightedMean_eq_left {a b v w : ℚ} (hv : 0 ≤ v) (hw : 0 < w) :
    (a * v + b * w) / (v + w) = a ↔ b = a := by
  have hsum : v + w ≠ 0 := by linarith
  rw [div_eq_iff hsum, mul_add, add_right_inj]
  exact mul_left_inj' hw.ne'

theorem Fill.Reduces.sign {net : ℤ} (h : f.Reduces net) : net ≠ 0 ∧ net + f.signedLots ≠ 0 := by
  obtain ⟨hsign, hless⟩ := h
  have hne : net ≠ 0 := by
    rintro rfl
    rw [abs_zero] at hless
    exact absurd hless (not_lt.mpr (abs_nonneg _))
  refine ⟨hne, fun hflat => ?_⟩
  rw [hflat, Int.sign_zero] at hsign
  exact hne (Int.sign_eq_zero_iff_zero.mp hsign)

theorem sameSide_of_sign {m n : ℤ} (hm : m ≠ 0) (h : m.sign = n.sign) : 0 ≤ m ↔ 0 ≤ n := by
  rcases lt_trichotomy m 0 with hneg | rfl | hpos
  · rw [Int.sign_eq_neg_one_of_neg hneg] at h
    have hn := Int.sign_eq_neg_one_iff_neg.mp h.symm
    omega
  · exact absurd rfl hm
  · rw [Int.sign_eq_one_of_pos hpos] at h
    have hn := Int.sign_eq_one_iff_pos.mp h.symm
    omega

/-- The code tells the sides by `>= 0`, so a flat position counts as long. -/
theorem otherSide_of_sign {m n : ℤ} (hn : n ≠ 0) (hside : 0 ≤ m ↔ 0 ≤ n) (h : m = 0 ∨ m.sign ≠ n.sign) :
    m = 0 := by
  rcases h with hzero | hsign
  · exact hzero
  · rcases lt_trichotomy m 0 with hneg | hzero | hpos
    · rw [Int.sign_eq_neg_one_of_neg hneg, Int.sign_eq_neg_one_of_neg (by omega)] at hsign
      exact absurd rfl hsign
    · exact hzero
    · rw [Int.sign_eq_one_of_pos hpos, Int.sign_eq_one_of_pos (by omega)] at hsign
      exact absurd rfl hsign

/-- After one more fill the average is at cost exactly when the fill did not reduce the position at
another price. -/
theorem step_atCost_iff (hpos : f.Positive) (h : x.AtCost) :
    (CostLedger.step f x).AtCost ↔ CostLedger.ReducesAtCost f x := by
  have hlots : (0 : ℚ) < f.lots := by exact_mod_cast hpos.lots
  unfold CostLedger.AtCost CostLedger.ReducesAtCost CostLedger.step
  simp only
  rw [applyFill_avgEntryPrice, h, Fill.costBasis]
  generalize x.position.netQtyLots = net
  by_cases hflat : net + f.signedLots = 0
  · rw [if_pos hflat, if_pos hflat]
    exact iff_of_true rfl fun hred => absurd hflat hred.sign.2
  · rw [if_neg hflat, if_neg hflat]
    by_cases hopens : net = 0 ∨ net.sign ≠ (net + f.signedLots).sign
    · rw [if_pos hopens]
      refine iff_of_true ?_ fun hred => ?_
      · split
        · rename_i hside
          rw [otherSide_of_sign hflat hside hopens]
          field_simp
          simp
        · rfl
      · rcases hopens with hzero | hsign
        · exact absurd hzero hred.sign.1
        · exact absurd hred.1 hsign
    · obtain ⟨hopen, hsign⟩ := not_or.mp hopens
      rw [if_neg hopens, if_pos (sameSide_of_sign hopen (not_not.mp hsign))]
      by_cases hred : f.Reduces net
      · rw [if_pos hred]
        have hmean := weightedMean_eq_left (a := x.basis) (b := f.price)
          (Int.cast_nonneg (abs_nonneg net)) hlots
        exact hmean.trans ⟨fun hprice _ => hprice, fun hprice => hprice hred⟩
      · rw [if_neg hred]
        exact iff_of_true rfl fun h' => absurd h' hred

end Step

section Runs

/-- From a flat start the average entry price is the cost basis after every fill exactly when every
fill that reduces the position is made at the average. -/
theorem run_atCost_iff {p : InstrumentPosition} {fills : List Fill} (hflat : CostLedger.Flat p)
    (hpos : ∀ f ∈ fills, f.Positive) :
    Always CostLedger.step CostLedger.AtCost (CostLedger.start p) fills ↔
      Along CostLedger.step CostLedger.ReducesAtCost (CostLedger.start p) fills := by
  have hall : Along CostLedger.step (fun f _ => f.Positive) (CostLedger.start p) fills :=
    along_of_forall fun f hf _ => hpos f hf
  apply hall.always_iff (fun _ => True) (fun _ _ _ _ => trivial)
  · exact fun f x _ hf hx => step_atCost_iff hf hx
  · exact trivial
  · exact hflat.average

/-- A long is built at 100 and 110, reduced at its average and turned into a short. -/
def Sample.turnedLong : List Fill :=
  [⟨.buy, 10, 100⟩, ⟨.buy, 10, 110⟩, ⟨.sell, 5, 105⟩, ⟨.sell, 20, 120⟩]

theorem run_atCost_turnedLong :
    Always CostLedger.step CostLedger.AtCost (CostLedger.start .zero) Sample.turnedLong := by
  have hpos : ∀ f ∈ Sample.turnedLong, f.Positive := by
    intro f hf
    simp only [Sample.turnedLong, List.mem_cons, List.not_mem_nil, or_false] at hf
    rcases hf with rfl | rfl | rfl | rfl <;> constructor <;> norm_num
  apply (run_atCost_iff ⟨rfl, rfl⟩ hpos).mpr
  refine ⟨?_, ?_, ?_, ?_, trivial⟩ <;> unfold CostLedger.ReducesAtCost <;> decide +kernel

/-- Ten lots at 100 still cost 100 a lot when five of them are sold at 120. -/
theorem reduction_averaged_in :
    ¬ Always CostLedger.step CostLedger.AtCost (CostLedger.start .zero)
      [⟨.buy, 10, 100⟩, ⟨.sell, 5, 120⟩] := by
  intro h
  have hlast := h _ List.prefix_rfl
  unfold CostLedger.AtCost at hlast
  exact absurd hlast (by decide +kernel)

end Runs

end OmsFormal.Oms
