import OmsFormal.MinimumSweep
import Mathlib.Data.List.Perm.Basic
import Mathlib.Algebra.Order.BigOperators.Group.List

/-!
# Ranked items and what each of them gets

With no minimums the sweep over a ranked list gives every item what the items
that rank before it leave, so an item's quota depends on the ranking and the
capacities but not on the order in which the items are listed. Quotas of two
rankings are compared item by item.
-/

namespace OmsFormal.RankedSweep
open MinimumSweep
set_option autoImplicit false

universe u
variable {α : Type u} {B B' : α → α → Prop} [DecidableRel B] [DecidableRel B'] {cap cap' : α → ℤ}
  {l l' : List α} {a : α} {r : ℤ}

/-- The capacity that ranks before an item. -/
def prior (B : α → α → Prop) [DecidableRel B] (cap : α → ℤ) (l : List α) (a : α) : ℤ :=
  ((l.filter fun b => decide (B b a)).map cap).sum

/-- What an item gets of a demand `r`. -/
def quota (B : α → α → Prop) [DecidableRel B] (cap : α → ℤ) (l : List α) (r : ℤ) (a : α) : ℤ :=
  max 0 (min (cap a) (r - prior B cap l a))

section Sweep

theorem sum_nonneg (hcap : ∀ b ∈ l, 0 ≤ cap b) : 0 ≤ (l.map cap).sum :=
  List.sum_nonneg fun n hn => by
    obtain ⟨b, hb, rfl⟩ := List.mem_map.mp hn
    exact hcap b hb

theorem share_free (hcap : 0 ≤ cap a) (hr : 0 ≤ r) : share cap (fun _ => 0) a r = min r (cap a) := by
  have hlow : ¬ min r (cap a) < 0 := by omega
  unfold share
  by_cases hzero : r = 0
  · rw [if_pos hzero]
    omega
  · rw [if_neg hzero]
    exact if_neg hlow

/-- The sweep serves all there is, up to the demand. -/
theorem served_free (hcap : ∀ b ∈ l, 0 ≤ cap b) (hr : 0 ≤ r) :
    served (sweep cap (fun _ => 0) l r) = min r (l.map cap).sum := by
  induction l generalizing r with
  | nil => simpa [sweep] using hr
  | cons a l ih =>
    have hrest : ∀ b ∈ l, 0 ≤ cap b := fun b hb => hcap b (List.mem_cons_of_mem a hb)
    have hsum := sum_nonneg hrest
    have ha := hcap a List.mem_cons_self
    rw [sweep, served_cons, share_free ha hr, ih hrest (by omega), List.map_cons, List.sum_cons]
    omega

/-- In a ranked list the items before `a` are those that rank before it. -/
theorem prior_split {pre post : List α} (hB : ∀ x y, B x y → ¬ B y x)
    (h : (pre ++ a :: post).Pairwise B) : prior B cap (pre ++ a :: post) a = (pre.map cap).sum := by
  obtain ⟨-, htail, hcross⟩ := List.pairwise_append.mp h
  have hpre : pre.filter (fun b => decide (B b a)) = pre :=
    List.filter_eq_self.mpr fun b hb => decide_eq_true (hcross b hb a List.mem_cons_self)
  have hpost : post.filter (fun b => decide (B b a)) = [] :=
    List.filter_eq_nil_iff.mpr fun b hb => by
      simpa using hB a b ((List.pairwise_cons.mp htail).1 b hb)
  have hself : ¬ B a a := fun haa => hB a a haa haa
  rw [prior, List.filter_append, List.filter_cons_of_neg (by simpa using hself), hpre, hpost, List.append_nil]

theorem sweep_suffix (hB : ∀ x y, B x y → ¬ B y x) (l pre : List α)
    (h : (pre ++ l).Pairwise B) (hcap : ∀ b ∈ pre ++ l, 0 ≤ cap b) :
    sweep cap (fun _ => 0) l (r - min r (pre.map cap).sum) =
      l.map fun a => (a, quota B cap (pre ++ l) r a) := by
  induction l generalizing pre with
  | nil => rfl
  | cons a l ih =>
    have hpre := sum_nonneg fun b hb => hcap b (List.mem_append_left _ hb)
    have ha := hcap a (by simp)
    have hquota : quota B cap (pre ++ a :: l) r a =
      share cap (fun _ => 0) a (r - min r (pre.map cap).sum) := by
      rw [quota, prior_split hB h, share_free ha (by omega)]
      omega
    have hnext : pre ++ a :: l = pre ++ [a] ++ l := by simp
    have hleft : r - min r (pre.map cap).sum - share cap (fun _ => 0) a (r - min r (pre.map cap).sum) =
        r - min r ((pre ++ [a]).map cap).sum := by
      rw [share_free ha (by omega), List.map_append, List.sum_append, List.map_singleton, List.sum_singleton]
      omega
    rw [sweep, List.map_cons, hquota, hleft, ih (pre ++ [a]) (hnext ▸ h) (hnext ▸ hcap), hnext]

/-- Every item of a ranked list gets its quota. -/
theorem sweep_ranked (hB : ∀ x y, B x y → ¬ B y x) (hr : 0 ≤ r) (h : l.Pairwise B)
    (hcap : ∀ b ∈ l, 0 ≤ cap b) :
    sweep cap (fun _ => 0) l r = l.map fun a => (a, quota B cap l r a) := by
  have hall := sweep_suffix (r := r) hB l [] h hcap
  simpa [min_eq_right hr] using hall

end Sweep

section Listing

theorem quota_perm (h : l.Perm l') : quota B cap l r = quota B cap l' r := by
  funext a
  rw [quota, quota, prior, prior, ((h.filter _).map cap).sum_eq]

theorem sum_filter_of_zero {f : α → ℤ} {p : α → Bool} (h : ∀ b ∈ l, p b = false → f b = 0) :
    ((l.filter p).map f).sum = (l.map f).sum := by
  induction l with
  | nil => rfl
  | cons b l ih =>
    have hrest := ih fun c hc => h c (List.mem_cons_of_mem b hc)
    cases hp : p b with
    | true => simp [hp, hrest]
    | false => simp [hp, hrest, h b List.mem_cons_self hp]

theorem quota_filter {p : α → Bool} (h : ∀ b ∈ l, p b = false → cap b = 0) :
    quota B cap (l.filter p) r = quota B cap l r := by
  funext a
  have hprior : prior B cap (l.filter p) a = prior B cap l a := by
    rw [prior, prior, List.filter_comm]
    exact sum_filter_of_zero fun b hb => h b (List.mem_filter.mp hb).1
  rw [quota, quota, hprior]

theorem quota_of_zero (h : cap a = 0) : quota B cap l r a = 0 := by
  rw [quota, h]
  omega

theorem quota_nonneg : 0 ≤ quota B cap l r a := le_max_left _ _

end Listing

section Compare

theorem prior_mono (hcap : ∀ b ∈ l, 0 ≤ cap' b ∧ cap' b ≤ cap b) (hB : ∀ b ∈ l, B' b a → B b a) :
    prior B' cap' l a ≤ prior B cap l a := by
  unfold prior
  induction l with
  | nil => exact le_rfl
  | cons b l ih =>
    have hrest := ih (fun c hc => hcap c (List.mem_cons_of_mem b hc))
      (fun c hc => hB c (List.mem_cons_of_mem b hc))
    have hb := hcap b List.mem_cons_self
    have hbefore := hB b List.mem_cons_self
    by_cases h' : B' b a
    · simp only [h', hbefore h', decide_true, List.filter_cons_of_pos, List.map_cons, List.sum_cons]
      omega
    · by_cases h : B b a
      · simp only [h', h, decide_true, decide_false, List.filter_cons_of_pos, List.map_cons, List.sum_cons,
          List.filter_cons_of_neg, Bool.false_eq_true, not_false_eq_true]
        omega
      · simpa only [h', h, decide_false, List.filter_cons_of_neg, Bool.false_eq_true,
          not_false_eq_true] using hrest

/-- An item of unchanged capacity gets no less where less ranks before it. -/
theorem quota_mono (ha : cap' a = cap a) (hcap : ∀ b ∈ l, 0 ≤ cap' b ∧ cap' b ≤ cap b)
    (hB : ∀ b ∈ l, B' b a → B b a) : quota B cap l r a ≤ quota B' cap' l r a := by
  have hprior := prior_mono hcap hB
  rw [quota, quota, ha]
  omega

end Compare

end OmsFormal.RankedSweep
