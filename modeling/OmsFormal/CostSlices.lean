import OmsFormal.RoutingEngine
import OmsFormal.StableMerge

/-!
# The merge of the book sides

What `build_cost_slices` computes, said without cursors: list the eligible levels
of all venues in (venue, level) order and sort them stably by effective price. A
cursor stands for the part of its list that is still to be merged; seeking drops
what is not eligible, and a limit violation ends the list because the side is
sorted.
-/

namespace OmsFormal.Sor
open Rounding StableMerge
set_option autoImplicit false

namespace Cursor

/-- The level does not break the cursor's limit; a limit of zero ticks is no limit. -/
def within (c : Cursor) (lv : Level) : Bool :=
  !(decide (c.limitTicks ≠ 0 ∧ c.dirSign > 0 ∧ lv.priceTicks > c.limitTicks) ||
    decide (c.limitTicks ≠ 0 ∧ c.dirSign < 0 ∧ lv.priceTicks < c.limitTicks))

def eligible (c : Cursor) (lv : Level) : Bool := c.within lv && decide (lv.qtyLots ≥ c.minLots)

/-- The canonical lots of a level, after the venue's maximum and the expected fill rate. -/
def availableLots (c : Cursor) (lv : Level) : ℤ :=
  roundHalfAway (truncate ((if lv.qtyLots < c.maxLots then lv.qtyLots else c.maxLots) * c.fillRate) *
    c.lotRatio)

def effectiveTicks (c : Cursor) (lv : Level) : ℤ := c.dirSign * lv.priceTicks + c.penaltyTicks

def slice (c : Cursor) (x : Level × ℕ) : CostSlice where
  effectiveTicks := c.effectiveTicks x.1
  availableLots := c.availableLots x.1
  rawPriceTicks := x.1.priceTicks
  exchangeId := c.state.exchangeId
  levelIdx := x.2

/-- The eligible levels from the cursor's position on. -/
def offers (c : Cursor) : List CostSlice :=
  ((c.levels.zipIdx.drop c.levelIdx).filter fun x => c.eligible x.1).map c.slice

def remaining (c : Cursor) : List CostSlice := if c.exhausted then [] else c.offers

/-- Best price first, seen from the cursor's direction. -/
def Sorted (c : Cursor) : Prop :=
  c.levels.Pairwise fun a b => c.dirSign * a.priceTicks ≤ c.dirSign * b.priceTicks

/-- The side is sorted, and a cursor that is not exhausted stands on an eligible level. -/
structure Ok (c : Cursor) : Prop where
  sorted : c.Sorted
  unit : c.dirSign = 1 ∨ c.dirSign = -1
  ready : c.exhausted = false → c.levelIdx < c.levels.length ∧ c.eligible c.level = true

end Cursor

/-- The slices worth taking: those of a non-zero number of lots. -/
def worthwhile (l : List CostSlice) : List CostSlice := l.filter fun sl => decide (sl.availableLots ≠ 0)

variable {c : Cursor}

section Seek

theorem drop_levels (h : c.levelIdx < c.levels.length) :
    c.levels.zipIdx.drop c.levelIdx = (c.level, c.levelIdx) :: c.levels.zipIdx.drop (c.levelIdx + 1) := by
  have hlen : c.levelIdx < c.levels.zipIdx.length := by simpa using h
  rw [List.drop_eq_getElem_cons hlen]
  simp [Cursor.level, h]

theorem offers_cons (h : c.levelIdx < c.levels.length) (he : c.eligible c.level = true) :
    c.offers = c.slice (c.level, c.levelIdx) :: { c with levelIdx := c.levelIdx + 1 }.offers := by
  rw [Cursor.offers, drop_levels h, List.filter_cons_of_pos (by exact he)]
  rfl

theorem offers_skip (h : c.levelIdx < c.levels.length) (he : c.eligible c.level = false) :
    c.offers = { c with levelIdx := c.levelIdx + 1 }.offers := by
  rw [Cursor.offers, drop_levels h, List.filter_cons_of_neg (by simp [he])]
  rfl

/-- On a sorted side nothing after a limit violation is within the limit. -/
theorem offers_of_violation (hs : c.Sorted) (hu : c.dirSign = 1 ∨ c.dirSign = -1)
    (h : c.levelIdx < c.levels.length) (hbad : c.within c.level = false) : c.offers = [] := by
  have hall : ∀ x ∈ c.levels.zipIdx.drop c.levelIdx, c.eligible x.1 = false := by
    intro x hx
    have hle : c.dirSign * c.level.priceTicks ≤ c.dirSign * x.1.priceTicks := by
      rw [drop_levels h] at hx
      rcases List.mem_cons.mp hx with rfl | hx
      · exact le_rfl
      · have hmem : x.1 ∈ c.levels.drop (c.levelIdx + 1) := by
          have := List.mem_map_of_mem (f := Prod.fst) hx
          rwa [List.map_drop, List.zipIdx_map_fst] at this
        have hpair : (c.levels.drop c.levelIdx).Pairwise
            fun a b => c.dirSign * a.priceTicks ≤ c.dirSign * b.priceTicks := hs.drop
        rw [List.drop_eq_getElem_cons h] at hpair
        have hhead := (List.pairwise_cons.mp hpair).1 x.1 hmem
        simpa [Cursor.level, h] using hhead
    have hout : c.within x.1 = false := by
      rcases hu with hone | hone
      · simp [Cursor.within, hone] at hbad hle ⊢
        exact ⟨hbad.1, by omega⟩
      · simp [Cursor.within, hone] at hbad hle ⊢
        exact ⟨hbad.1, by omega⟩
    simp [Cursor.eligible, hout]
  rw [Cursor.offers, List.filter_eq_nil_iff.mpr fun x hx => by simp [hall x hx], List.map_nil]

/-- Seeking keeps the list of offers and ends on its first element, or exhausts the cursor. -/
theorem seekLoop_spec (fuel : ℕ) (c : Cursor) (hs : c.Sorted) (hu : c.dirSign = 1 ∨ c.dirSign = -1)
    (he : c.exhausted = false) (hfuel : fuel = c.levels.length - c.levelIdx) :
    (seekLoop fuel c).Ok ∧ (seekLoop fuel c).remaining = c.offers := by
  induction fuel generalizing c with
  | zero =>
    have hnone : c.offers = [] := by
      have hdrop : c.levels.zipIdx.drop c.levelIdx = [] := by
        apply List.drop_of_length_le
        simp only [List.length_zipIdx]
        omega
      rw [Cursor.offers, hdrop]
      rfl
    exact ⟨⟨hs, hu, fun h => by cases h⟩, by rw [hnone]; rfl⟩
  | succ fuel ih =>
    have hlt : c.levelIdx < c.levels.length := by omega
    simp only [seekLoop]
    split
    · rename_i hlimit
      have hbad : c.within c.level = false := by simp [Cursor.within, hlimit]
      exact ⟨⟨hs, hu, fun h => by cases h⟩, by rw [offers_of_violation hs hu hlt hbad]; rfl⟩
    · rename_i hbuy
      split
      · rename_i hlimit
        have hbad : c.within c.level = false := by simp [Cursor.within, hlimit]
        exact ⟨⟨hs, hu, fun h => by cases h⟩, by rw [offers_of_violation hs hu hlt hbad]; rfl⟩
      · rename_i hsell
        have hin : c.within c.level = true := by
          simp only [Cursor.within, hbuy, hsell]
          rfl
        split
        · rename_i hqty
          refine ⟨⟨hs, hu, fun _ => ⟨hlt, by simp [Cursor.eligible, hin, hqty]⟩⟩, ?_⟩
          simp [Cursor.remaining, he]
        · rename_i hqty
          have hskip : c.eligible c.level = false := by simp [Cursor.eligible, hqty]
          have hnext := ih { c with levelIdx := c.levelIdx + 1 } hs hu he (by simp only; omega)
          rw [offers_skip hlt hskip]
          exact hnext

theorem seekNextValid_spec (hs : c.Sorted) (hu : c.dirSign = 1 ∨ c.dirSign = -1)
    (he : c.exhausted = false) :
    (seekNextValid c).Ok ∧ (seekNextValid c).remaining = c.offers :=
  seekLoop_spec _ c hs hu he rfl

/-- Taking the current level of a cursor leaves the rest of its list. -/
theorem advance_spec (hok : c.Ok) (he : c.exhausted = false) :
    (seekNextValid { c with levelIdx := c.levelIdx + 1 }).Ok ∧
    c.remaining = c.slice (c.level, c.levelIdx) ::
      (seekNextValid { c with levelIdx := c.levelIdx + 1 }).remaining := by
  obtain ⟨hlt, helig⟩ := hok.ready he
  obtain ⟨hnext, hrest⟩ := seekNextValid_spec (c := { c with levelIdx := c.levelIdx + 1 })
    hok.sorted hok.unit he
  refine ⟨hnext, ?_⟩
  have hlist : c.remaining = c.offers := by simp [Cursor.remaining, he]
  rw [hrest, hlist, offers_cons hlt helig]

end Seek

end OmsFormal.Sor
