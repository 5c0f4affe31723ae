import Mathlib.Algebra.BigOperators.Group.List.Basic
import Mathlib.Algebra.Order.Ring.Int
import Mathlib.Tactic.Linarith
import Mathlib.Tactic.Ring

/-!
# Greedy allocation along a sorted list

Items are served in the order of their unit costs, each as far as its capacity
and the remaining demand allow. No other allocation of the same total within the
capacities costs less.
-/

namespace OmsFormal.GreedyAllocation
set_option autoImplicit false

universe u
variable {α : Type u} {cap cost f x : α → ℤ} {l : List α} {r : ℤ}

def total (l : List α) (f : α → ℤ) : ℤ := (l.map f).sum

def totalCost (cost : α → ℤ) (l : List α) (f : α → ℤ) : ℤ := (l.map fun a => f a * cost a).sum

/-- Amounts that are not negative and within the capacities. -/
def Feasible (cap : α → ℤ) (l : List α) (f : α → ℤ) : Prop := ∀ a ∈ l, 0 ≤ f a ∧ f a ≤ cap a

/-- `f` serves the demand `r` in list order. -/
def Greedy (cap f : α → ℤ) : List α → ℤ → Prop
  | [], _ => True
  | a :: l, r => f a = min r (cap a) ∧ Greedy cap f l (r - f a)

@[simp] theorem total_nil : total [] f = 0 := rfl

@[simp] theorem total_cons (a : α) : total (a :: l) f = f a + total l f := by simp [total]

@[simp] theorem totalCost_nil : totalCost cost [] f = 0 := rfl

@[simp] theorem totalCost_cons (a : α) : totalCost cost (a :: l) f = f a * cost a + totalCost cost l f := by
  simp [totalCost]

theorem total_perm {l' : List α} (h : l.Perm l') (f : α → ℤ) : total l f = total l' f :=
  (h.map f).sum_eq

theorem totalCost_perm {l' : List α} (h : l.Perm l') (f : α → ℤ) : totalCost cost l f = totalCost cost l' f :=
  (h.map _).sum_eq

theorem Feasible.tail {a : α} (h : Feasible cap (a :: l) f) : Feasible cap l f :=
  fun b hb => h b (List.mem_cons_of_mem a hb)

theorem Feasible.total_nonneg (h : Feasible cap l f) : 0 ≤ total l f := by
  induction l with
  | nil => exact le_rfl
  | cons a l ih =>
    have hhead := (h a List.mem_cons_self).1
    have htail := ih h.tail
    rw [total_cons]
    omega

theorem Greedy.congr {f' : α → ℤ} (h : Greedy cap f l r) (heq : ∀ a ∈ l, f' a = f a) : Greedy cap f' l r := by
  induction l generalizing r with
  | nil => trivial
  | cons a l ih =>
    have hhead := heq a List.mem_cons_self
    refine ⟨hhead.trans h.1, ?_⟩
    rw [hhead]
    exact ih h.2 fun b hb => heq b (List.mem_cons_of_mem a hb)

/-- Distinct items can be served greedily. -/
theorem exists_greedy (cap : α → ℤ) (hl : l.Nodup) (r : ℤ) : ∃ f, Greedy cap f l r := by
  classical
  induction l generalizing r with
  | nil => exact ⟨fun _ => 0, trivial⟩
  | cons a l ih =>
    obtain ⟨hfresh, htail⟩ := List.nodup_cons.mp hl
    obtain ⟨f, hf⟩ := ih htail (r - min r (cap a))
    refine ⟨Function.update f a (min r (cap a)), by simp, ?_⟩
    rw [Function.update_self]
    refine hf.congr fun b hb => Function.update_of_ne ?_ _ _
    rintro rfl
    exact hfresh hb

theorem Greedy.feasible (h : Greedy cap f l r) (hcap : ∀ a ∈ l, 0 ≤ cap a) (hr : 0 ≤ r) :
    Feasible cap l f := by
  induction l generalizing r with
  | nil => intro a ha; cases ha
  | cons a l ih =>
    obtain ⟨hhead, htail⟩ := h
    have hpos := hcap a List.mem_cons_self
    have hrest := ih htail (fun b hb => hcap b (List.mem_cons_of_mem a hb)) (by omega)
    intro b hb
    rcases List.mem_cons.mp hb with rfl | hb
    · omega
    · exact hrest b hb

/-- The greedy allocation serves the whole demand or uses every capacity. -/
theorem Greedy.total_eq (h : Greedy cap f l r) (hcap : ∀ a ∈ l, 0 ≤ cap a) (hr : 0 ≤ r) :
    total l f = min r (total l cap) := by
  induction l generalizing r with
  | nil => simpa using hr
  | cons a l ih =>
    obtain ⟨hhead, htail⟩ := h
    have hcap' : ∀ b ∈ l, 0 ≤ cap b := fun b hb => hcap b (List.mem_cons_of_mem a hb)
    have hpos := hcap a List.mem_cons_self
    have hrest := ih htail hcap' (by omega)
    have hcaps : 0 ≤ total l cap := Feasible.total_nonneg fun b hb => ⟨hcap' b hb, le_rfl⟩
    rw [total_cons, total_cons]
    omega

/-- Every unit another allocation places beyond the greedy one costs at least `c`. -/
theorem Greedy.marginal (h : Greedy cap f l r) (hcap : ∀ a ∈ l, 0 ≤ cap a) (hr : 0 ≤ r)
    (hsorted : l.Pairwise fun a b => cost a ≤ cost b) {c : ℤ} (hc : ∀ a ∈ l, c ≤ cost a)
    (hx : Feasible cap l x) (hmore : total l f ≤ total l x) :
    totalCost cost l f + c * (total l x - total l f) ≤ totalCost cost l x := by
  induction l generalizing r c with
  | nil => simp
  | cons a l ih =>
    obtain ⟨hhead, htail⟩ := h
    obtain ⟨hfirst, hsorted⟩ := List.pairwise_cons.mp hsorted
    have hcap' : ∀ b ∈ l, 0 ≤ cap b := fun b hb => hcap b (List.mem_cons_of_mem a hb)
    have hpos := hcap a List.mem_cons_self
    have hx0 := hx a List.mem_cons_self
    have hx' := hx.tail.total_nonneg
    have hserved := htail.total_eq hcap' (by omega)
    have hcaps : 0 ≤ total l cap := Feasible.total_nonneg fun b hb => ⟨hcap' b hb, le_rfl⟩
    rw [total_cons, total_cons] at hmore
    -- either the demand ends here or the first item is full; the rest is behind in both cases
    have hrest : total l f ≤ total l x := by omega
    have hbound := ih htail hcap' (by omega) hsorted hfirst hx.tail hrest
    have hca := mul_le_mul_of_nonneg_right (hc a List.mem_cons_self)
      (show 0 ≤ (x a - f a) + (total l x - total l f) by omega)
    simp only [total_cons, totalCost_cons]
    linarith

/-- The greedy allocation is cheapest among the allocations of its total. -/
theorem Greedy.optimal (h : Greedy cap f l r) (hcap : ∀ a ∈ l, 0 ≤ cap a) (hr : 0 ≤ r)
    (hsorted : l.Pairwise fun a b => cost a ≤ cost b) (hx : Feasible cap l x)
    (htotal : total l x = total l f) : totalCost cost l f ≤ totalCost cost l x := by
  cases l with
  | nil => exact le_rfl
  | cons a l =>
    have hc : ∀ b ∈ a :: l, cost a ≤ cost b := by
      intro b hb
      rcases List.mem_cons.mp hb with rfl | hb
      · exact le_rfl
      · exact (List.pairwise_cons.mp hsorted).1 b hb
    have hbound := h.marginal hcap hr hsorted hc hx htotal.ge
    rwa [htotal, sub_self, mul_zero, add_zero] at hbound

end OmsFormal.GreedyAllocation
