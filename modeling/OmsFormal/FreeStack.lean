import Mathlib.Data.List.Nodup
import Mathlib.Data.List.Range
import Mathlib.Data.Set.Basic

/-!
# Identifiers handed out from a LIFO free list

The ids below a capacity are either on the free list, next one first, or in
use. Popping the list hands out an id that was not in use, pushing returns one
that was, and both keep the partition of the id range.
-/

namespace OmsFormal.FreeStack
set_option autoImplicit false

/-- A free list over the ids below `cap`: no id twice, none out of range. -/
structure Valid (cap : ℕ) (free : List ℕ) : Prop where
  nodup : free.Nodup
  bound : ∀ id ∈ free, id < cap

def InUse (cap : ℕ) (free : List ℕ) (id : ℕ) : Prop := id < cap ∧ id ∉ free

instance (cap : ℕ) (free : List ℕ) (id : ℕ) : Decidable (InUse cap free id) :=
  inferInstanceAs (Decidable (id < cap ∧ id ∉ free))

/-- At startup every id is free, and the lowest goes out first. -/
def init (cap : ℕ) : List ℕ := List.range' 0 cap

theorem valid_init (cap : ℕ) : Valid cap (init cap) := by
  refine ⟨List.nodup_range', ?_⟩
  intro id hid
  simpa [init] using hid

theorem not_inUse_init (cap id : ℕ) : ¬ InUse cap (init cap) id := by
  rintro ⟨hlt, hnot⟩
  exact hnot (by simpa [init] using hlt)

section Operations
variable {cap id : ℕ} {free : List ℕ}

theorem Valid.tail (h : Valid cap (id :: free)) : Valid cap free :=
  ⟨(List.nodup_cons.mp h.nodup).2, fun x hx => h.bound x (List.mem_cons_of_mem id hx)⟩

theorem Valid.head_inUse (h : Valid cap (id :: free)) : InUse cap free id :=
  ⟨h.bound id List.mem_cons_self, (List.nodup_cons.mp h.nodup).1⟩

theorem not_inUse_head : ¬ InUse cap (id :: free) id := fun h => h.2 List.mem_cons_self

theorem inUse_cons_iff (x : ℕ) : InUse cap (id :: free) x ↔ InUse cap free x ∧ x ≠ id := by
  simp only [InUse, List.mem_cons, not_or]
  exact ⟨fun h => ⟨⟨h.1, h.2.2⟩, h.2.1⟩, fun h => ⟨h.1.1, h.2, h.1.2⟩⟩

theorem inUse_tail_iff (h : Valid cap (id :: free)) (x : ℕ) :
    InUse cap free x ↔ x = id ∨ InUse cap (id :: free) x := by
  rw [inUse_cons_iff]
  constructor
  · intro hx
    by_cases heq : x = id
    · exact Or.inl heq
    · exact Or.inr ⟨hx, heq⟩
  · rintro (rfl | hx)
    · exact h.head_inUse
    · exact hx.1

theorem Valid.cons (h : Valid cap free) (hid : InUse cap free id) : Valid cap (id :: free) := by
  refine ⟨List.nodup_cons.mpr ⟨hid.2, h.nodup⟩, ?_⟩
  intro x hx
  rcases List.mem_cons.mp hx with rfl | hx
  · exact hid.1
  · exact h.bound x hx

theorem Valid.append {ids : List ℕ} (h : Valid cap free) (hn : ids.Nodup)
    (hids : ∀ x ∈ ids, InUse cap free x) : Valid cap (ids ++ free) := by
  refine ⟨List.nodup_append.mpr ⟨hn, h.nodup, ?_⟩, ?_⟩
  · rintro x hx y hy rfl
    exact (hids x hx).2 hy
  · intro x hx
    rcases List.mem_append.mp hx with hx | hx
    · exact (hids x hx).1
    · exact h.bound x hx

theorem inUse_append_iff {ids : List ℕ} (x : ℕ) :
    InUse cap (ids ++ free) x ↔ InUse cap free x ∧ x ∉ ids := by
  simp only [InUse, List.mem_append, not_or]
  exact ⟨fun h => ⟨⟨h.1, h.2.2⟩, h.2.1⟩, fun h => ⟨h.1.1, h.2, h.1.2⟩⟩

end Operations

end OmsFormal.FreeStack
