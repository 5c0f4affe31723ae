import OmsFormal.FreeStack
import Mathlib.Data.Finset.Card

/-!
# The array behind a free list

A free list is kept in an array with a top index: the cells below the top are the
free ids, the next one last. Together with the ids in use they are all ids there are,
each once.
-/

namespace OmsFormal.FreeStack
set_option autoImplicit false

structure FreeArray where
  cells : ℕ → ℕ
  top : ℕ

namespace FreeArray

/-- Filled so that the lowest id is on top. -/
def init (cap : ℕ) : FreeArray := ⟨fun i => cap - 1 - i, cap⟩

def pop (a : FreeArray) : Option ℕ × FreeArray :=
  if a.top = 0 then (none, a)
  else (some (a.cells (a.top - 1)), { a with top := a.top - 1 })

def push (id : ℕ) (a : FreeArray) : FreeArray := ⟨Function.update a.cells a.top id, a.top + 1⟩

/-- The free list, next id first. -/
def live (a : FreeArray) : List ℕ := (List.range a.top).reverse.map a.cells

variable {a : FreeArray} {id : ℕ} {rest : List ℕ}

theorem length_live (a : FreeArray) : a.live.length = a.top := by simp [live]

theorem live_init (cap : ℕ) : (init cap).live = FreeStack.init cap := by
  apply List.ext_getElem
  · simp [live, init, FreeStack.init]
  · intro i h _
    have hi : i < cap := by simpa [live, init] using h
    simp only [live, init, FreeStack.init, List.getElem_map, List.getElem_reverse, List.getElem_range,
      List.length_range, List.getElem_range']
    omega

theorem live_push (id : ℕ) (a : FreeArray) : (a.push id).live = id :: a.live := by
  have hbelow : (List.range a.top).reverse.map (Function.update a.cells a.top id) =
      (List.range a.top).reverse.map a.cells := by
    apply List.map_congr_left
    intro i hi
    have hlt := List.mem_range.mp (List.mem_reverse.mp hi)
    exact Function.update_of_ne hlt.ne id a.cells
  simp only [live, push, List.range_succ, List.reverse_append, List.reverse_singleton,
    List.singleton_append, List.map_cons, Function.update_self, hbelow]

theorem pop_of_nil (h : a.live = []) : a.pop = (none, a) := by
  have htop : a.top = 0 := by rw [← length_live, h, List.length_nil]
  rw [pop, if_pos htop]

theorem pop_of_cons (h : a.live = id :: rest) : a.pop.1 = some id ∧ a.pop.2.live = rest := by
  obtain ⟨n, hn⟩ : ∃ n, a.top = n + 1 := ⟨rest.length, by rw [← length_live, h, List.length_cons]⟩
  rw [live, hn, List.range_succ, List.reverse_append, List.reverse_singleton, List.singleton_append,
    List.map_cons] at h
  obtain ⟨hid, hrest⟩ := List.cons.inj h
  rw [pop, if_neg (by omega), hn]
  exact ⟨congrArg some hid, hrest⟩

end FreeArray

/-- The array holds the free list, and `held` are the ids in use. -/
structure Stocked (cap : ℕ) (free : List ℕ) (a : FreeArray) (held : Finset ℕ) : Prop where
  valid : Valid cap free
  live : a.live = free
  held_iff : ∀ id, id ∈ held ↔ InUse cap free id

namespace Stocked
variable {cap id : ℕ} {free : List ℕ} {a : FreeArray} {held : Finset ℕ}

theorem init (cap : ℕ) : Stocked cap (FreeStack.init cap) (FreeArray.init cap) ∅ where
  valid := valid_init cap
  live := FreeArray.live_init cap
  held_iff id := iff_of_false (Finset.notMem_empty id) (not_inUse_init cap id)

/-- Every id below the capacity is in use or free. -/
theorem card_add_length (h : Stocked cap free a held) : held.card + free.length = cap := by
  have hunion : held ∪ free.toFinset = Finset.range cap := by
    ext id
    rw [Finset.mem_union, List.mem_toFinset, Finset.mem_range, h.held_iff]
    constructor
    · rintro (hin | hfree)
      · exact hin.1
      · exact h.valid.bound id hfree
    · intro hlt
      by_cases hfree : id ∈ free
      · exact Or.inr hfree
      · exact Or.inl ⟨hlt, hfree⟩
  have hdisj : Disjoint held free.toFinset := by
    rw [Finset.disjoint_left]
    intro id hin hfree
    exact ((h.held_iff id).mp hin).2 (List.mem_toFinset.mp hfree)
  rw [← List.toFinset_card_of_nodup h.valid.nodup, ← Finset.card_union_of_disjoint hdisj, hunion,
    Finset.card_range]

theorem top_eq (h : Stocked cap free a held) : a.top = free.length := by
  rw [← FreeArray.length_live, h.live]

theorem top_le (h : Stocked cap free a held) : a.top ≤ cap := by
  have hcard := h.card_add_length
  rw [h.top_eq]
  omega

/-- While an id is in use there is room in the array for it. -/
theorem top_lt (h : Stocked cap free a held) (hid : id ∈ held) : a.top < cap := by
  have hcard := h.card_add_length
  have hpos : 0 < held.card := Finset.card_pos.mpr ⟨id, hid⟩
  rw [h.top_eq]
  omega

theorem nil_iff (h : Stocked cap free a held) : free = [] ↔ held.card = cap := by
  have hcard := h.card_add_length
  rw [← List.length_eq_zero_iff]
  omega

theorem pop (h : Stocked cap (id :: free) a held) :
    id < cap ∧ id ∉ held ∧ Stocked cap free a.pop.2 (insert id held) := by
  have hnew := h.valid.head_inUse
  refine ⟨hnew.1, fun hin => not_inUse_head ((h.held_iff id).mp hin), h.valid.tail,
    (FreeArray.pop_of_cons h.live).2, fun x => ?_⟩
  rw [Finset.mem_insert, h.held_iff]
  exact (inUse_tail_iff h.valid x).symm

theorem push (h : Stocked cap free a held) (hid : id ∈ held) :
    Stocked cap (id :: free) (a.push id) (held.erase id) := by
  refine ⟨h.valid.cons ((h.held_iff id).mp hid), ?_, fun x => ?_⟩
  · rw [FreeArray.live_push, h.live]
  · rw [Finset.mem_erase, h.held_iff, inUse_cons_iff]
    exact and_comm

end Stocked

end OmsFormal.FreeStack
