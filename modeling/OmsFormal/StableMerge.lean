import Mathlib.Data.List.Sort
import Mathlib.Data.Int.Order.Basic

/-!
# Merging sorted lists

Taking the least head of several sorted lists again and again, the leftmost one
on a tie, gives the stable sort of their concatenation.
-/

namespace OmsFormal.StableMerge
set_option autoImplicit false

universe u v
variable {α : Type u} {β : Type v} [LinearOrder β] {key : α → β}

def KeyLE (key : α → β) (a b : α) : Prop := key a ≤ key b

instance (key : α → β) : DecidableRel (KeyLE key) := fun a b => inferInstanceAs (Decidable (key a ≤ key b))

instance (key : α → β) : Std.Total (KeyLE key) := ⟨fun a b => le_total (key a) (key b)⟩

instance (key : α → β) : IsTrans α (KeyLE key) := ⟨fun _ _ _ h h' => le_trans h h'⟩

def sortBy (key : α → β) (l : List α) : List α := l.insertionSort (KeyLE key)

@[simp] theorem sortBy_nil : sortBy key [] = [] := rfl

theorem sortBy_perm (key : α → β) (l : List α) : (sortBy key l).Perm l := List.perm_insertionSort _ l

theorem sortBy_sorted (key : α → β) (l : List α) : (sortBy key l).Pairwise (KeyLE key) :=
  List.pairwise_insertionSort _ l

/-- An element strictly below what comes before it and not above what comes after it is the first
of the stable sort. -/
theorem sortBy_extract {front back : List α} {x : α} (hfront : ∀ a ∈ front, key x < key a)
    (hback : ∀ b ∈ back, key x ≤ key b) :
    sortBy key (front ++ x :: back) = x :: sortBy key (front ++ back) := by
  induction front with
  | nil => exact List.insertionSort_cons_of_forall_rel _ hback
  | cons a front ih =>
    have hlt := hfront a List.mem_cons_self
    have hrest := ih fun b hb => hfront b (List.mem_cons_of_mem a hb)
    simp only [sortBy, List.cons_append, List.insertionSort_cons] at hrest ⊢
    rw [hrest, List.orderedInsert_of_not_le]
    exact not_le.mpr hlt

/-- A stable sort keeps the order of the list between elements of equal keys. -/
theorem sortBy_stable (key : α → β) {R : α → α → Prop} {l : List α} (h : l.Pairwise R) :
    (sortBy key l).Pairwise fun a b => key a < key b ∨ key a = key b ∧ R a b := by
  induction l with
  | nil => exact List.Pairwise.nil
  | cons a l ih =>
    obtain ⟨hhead, htail⟩ := List.pairwise_cons.mp h
    have hsorted := sortBy_sorted key l
    have hmem : ∀ b ∈ sortBy key l, R a b := fun b hb => hhead b ((sortBy_perm key l).subset hb)
    have hinsert := ih htail
    rw [sortBy, List.insertionSort_cons]
    change (List.orderedInsert _ a (sortBy key l)).Pairwise _
    generalize sortBy key l = sorted at hsorted hmem hinsert
    -- `a` stops in front of the first key that is not below its own
    induction sorted with
    | nil => exact List.pairwise_singleton _ _
    | cons b sorted ihs =>
      obtain ⟨hfirst, hrest⟩ := List.pairwise_cons.mp hinsert
      obtain ⟨hle, hsorted'⟩ := List.pairwise_cons.mp hsorted
      by_cases hab : key a ≤ key b
      · rw [List.orderedInsert_cons_of_le (KeyLE key) sorted hab, List.pairwise_cons]
        refine ⟨fun c hc => ?_, hinsert⟩
        have hac : key a ≤ key c := by
          rcases List.mem_cons.mp hc with rfl | hc
          · exact hab
          · exact hab.trans (hle c hc)
        rcases hac.lt_or_eq with hlt | heq
        · exact Or.inl hlt
        · exact Or.inr ⟨heq, hmem c hc⟩
      · rw [List.orderedInsert_of_not_le (KeyLE key) sorted hab, List.pairwise_cons]
        refine ⟨fun c hc => ?_, ihs hsorted' (fun c hc => hmem c (List.mem_cons_of_mem b hc)) hrest⟩
        rcases List.mem_cons.mp ((List.perm_orderedInsert _ a sorted).subset hc) with rfl | hc
        · exact Or.inl (not_le.mp hab)
        · exact hfirst c hc

theorem sortBy_map {γ : Type*} (f : γ → α) (l : List γ) :
    sortBy key (l.map f) = (sortBy (fun c => key (f c)) l).map f :=
  (List.map_insertionSort (KeyLE fun c => key (f c)) (KeyLE key) f l fun _ _ _ _ => Iff.rfl).symm

theorem sortBy_flatten_step {before after : List (List α)} {x : α} {rest : List α}
    (hsorted : (x :: rest).Pairwise (KeyLE key))
    (hbefore : ∀ l ∈ before, ∀ a ∈ l, key x < key a) (hafter : ∀ l ∈ after, ∀ a ∈ l, key x ≤ key a) :
    sortBy key (before ++ (x :: rest) :: after).flatten =
      x :: sortBy key (before ++ rest :: after).flatten := by
  have hsplit : (before ++ (x :: rest) :: after).flatten =
    before.flatten ++ x :: (rest ++ after.flatten) := by
    simp
  rw [hsplit, sortBy_extract]
  · simp
  · intro a ha
    obtain ⟨l, hl, hal⟩ := List.mem_flatten.mp ha
    exact hbefore l hl a hal
  · intro b hb
    rcases List.mem_append.mp hb with hrest | hlater
    · exact (List.pairwise_cons.mp hsorted).1 b hrest
    · obtain ⟨l, hl, hbl⟩ := List.mem_flatten.mp hlater
      exact hafter l hl b hbl

end OmsFormal.StableMerge
