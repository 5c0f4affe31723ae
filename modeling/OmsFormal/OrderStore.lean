import OmsFormal.OrderPool
import Mathlib.Data.List.Basic
import Mathlib.Tactic.Linarith

/-!
# The structural invariant of the order store

`ParentOk` is the invariant seen from one parent: its record, its occupied slots
and the children that name it. `Local p` says that an operation touched nothing
but parent `p` and its children, so every other parent keeps its share of the
invariant, and each operation has to be checked at one parent only.
-/

namespace OmsFormal.Oms
open Sor
set_option autoImplicit false

namespace ParentOrder

/-- Slots are filled from the bottom, and the mask says so. -/
def Packed (p : ParentOrder) : Prop :=
  p.childCount ≤ kMaxChildrenPerParent ∧ ∀ slot, p.hasChild slot = decide (slot < p.childCount)

/-- The fields that say who the parent is and which children it has. -/
structure SameSlots (a b : ParentOrder) : Prop where
  parentId : b.parentId = a.parentId
  instrId : b.instrId = a.instrId
  childCount : b.childCount = a.childCount
  childMask : b.childMask = a.childMask
  children : b.children = a.children

theorem filter_lt_range (k n : ℕ) (h : k ≤ n) :
    (List.range n).filter (fun i => decide (i < k)) = List.range k := by
  induction n with
  | zero => simp [Nat.le_zero.mp h]
  | succ n ih =>
    rw [List.range_succ, List.filter_append]
    by_cases hk : k ≤ n
    · simp [ih hk, Nat.not_lt.mpr hk]
    · have hkn : k = n + 1 := by omega
      subst hkn
      have hall : (List.range n).filter (fun i => decide (i < n + 1)) = List.range n := by
        apply List.filter_eq_self.mpr
        intro i hi
        simpa using Nat.lt_succ_of_lt (List.mem_range.mp hi)
      rw [hall, List.range_succ, List.filter_cons_of_pos (by simp), List.filter_nil]

theorem slots_of_packed {p : ParentOrder} (h : p.Packed) : p.slots = List.range p.childCount := by
  unfold slots
  rw [List.filter_congr (q := fun i => decide (i < p.childCount)) (fun i _ => h.2 i)]
  exact filter_lt_range _ _ h.1

theorem childIds_of_packed {p : ParentOrder} (h : p.Packed) :
    p.childIds = (List.range p.childCount).map p.children := by
  rw [childIds, slots_of_packed h]

theorem childIds_eq_nil {p : ParentOrder} (h : p.Packed) (h0 : p.childCount = 0) : p.childIds = [] := by
  rw [childIds_of_packed h, h0]
  rfl

theorem SameSlots.packed {a b : ParentOrder} (h : SameSlots a b) (ha : a.Packed) : b.Packed := by
  refine ⟨h.childCount ▸ ha.1, ?_⟩
  intro slot
  rw [hasChild, h.childMask, h.childCount]
  exact ha.2 slot

theorem SameSlots.childIds {a b : ParentOrder} (h : SameSlots a b) : b.childIds = a.childIds := by
  have hhas : b.hasChild = a.hasChild := by
    funext slot
    rw [hasChild, hasChild, h.childMask]
  simp only [ParentOrder.childIds, slots, hhas, h.children]

theorem addChild_packed {p : ParentOrder} (h : p.Packed) (hroom : p.childCount < kMaxChildrenPerParent)
    (cid : ℕ) : (p.addChild p.childCount cid).Packed := by
  refine ⟨hroom, ?_⟩
  intro slot
  have hold := h.2 slot
  simp only [hasChild] at hold
  have hbound : p.childCount < 16 := hroom
  simp only [hasChild, addChild, BitVec.getLsbD_or, hold, BitVec.getLsbD_twoPow]
  by_cases hs : slot = p.childCount
  · subst hs
    simp [hbound]
  · have hlt : slot < p.childCount + 1 ↔ slot < p.childCount := by omega
    simp [hlt, Ne.symm hs]

theorem addChild_childIds {p : ParentOrder} (h : p.Packed)
    (hroom : p.childCount < kMaxChildrenPerParent) (cid : ℕ) :
    (p.addChild p.childCount cid).childIds = p.childIds ++ [cid] := by
  rw [childIds_of_packed (addChild_packed h hroom cid), childIds_of_packed h]
  simp only [addChild, List.range_succ, List.map_append, List.map_cons, List.map_nil,
    Function.update_self]
  congr 1
  apply List.map_congr_left
  intro i hi
  exact Function.update_of_ne (Nat.ne_of_lt (List.mem_range.mp hi)) _ _

/-- The record after the cleanup loop of a reroute. -/
theorem cleared_packed (p : ParentOrder) :
    ({ p with childCount := 0, childMask := 0 } : ParentOrder).Packed := by
  refine ⟨Nat.zero_le _, ?_⟩
  intro slot
  simp [hasChild]

end ParentOrder

namespace OMSOrderPool

section Projections
variable (pool : OMSOrderPool) (id : ℕ)

@[simp] theorem modifyParent_parents (f : ParentOrder → ParentOrder) :
    (pool.modifyParent id f).parents = Function.update pool.parents id (f (pool.parents id)) := rfl
@[simp] theorem modifyParent_children (f : ParentOrder → ParentOrder) :
    (pool.modifyParent id f).children = pool.children := rfl
@[simp] theorem modifyParent_parentFree (f : ParentOrder → ParentOrder) :
    (pool.modifyParent id f).parentFree = pool.parentFree := rfl
@[simp] theorem modifyParent_childFree (f : ParentOrder → ParentOrder) :
    (pool.modifyParent id f).childFree = pool.childFree := rfl
@[simp] theorem modifyChild_parents (f : ChildOrderState → ChildOrderState) :
    (pool.modifyChild id f).parents = pool.parents := rfl
@[simp] theorem modifyChild_children (f : ChildOrderState → ChildOrderState) :
    (pool.modifyChild id f).children = Function.update pool.children id (f (pool.children id)) := rfl
@[simp] theorem modifyChild_parentFree (f : ChildOrderState → ChildOrderState) :
    (pool.modifyChild id f).parentFree = pool.parentFree := rfl
@[simp] theorem modifyChild_childFree (f : ChildOrderState → ChildOrderState) :
    (pool.modifyChild id f).childFree = pool.childFree := rfl
@[simp] theorem freeParent_parents : (pool.freeParent id).parents = pool.parents := rfl
@[simp] theorem freeParent_children : (pool.freeParent id).children = pool.children := rfl
@[simp] theorem freeParent_parentFree : (pool.freeParent id).parentFree = id :: pool.parentFree := rfl
@[simp] theorem freeParent_childFree : (pool.freeParent id).childFree = pool.childFree := rfl

end Projections

/-- Freeing slot by slot pushes the chosen children in slot order. -/
theorem freeSlots_eq (p : ParentOrder) (which : ℕ → Bool) (pool : OMSOrderPool) :
    pool.freeSlots p which =
      { pool with childFree := (p.childIds.filter which).reverse ++ pool.childFree } := by
  have hloop (l : List ℕ) (pool : OMSOrderPool) :
      l.foldl (fun pool slot => if p.hasChild slot && which (p.children slot)
          then pool.freeChild (p.children slot) else pool) pool =
        { pool with childFree := (((l.filter p.hasChild).map p.children).filter which).reverse
            ++ pool.childFree } := by
    induction l generalizing pool with
    | nil => simp
    | cons slot l ih =>
      simp only [List.foldl_cons, ih]
      cases hhas : p.hasChild slot with
      | false => simp [hhas]
      | true => cases hwhich : which (p.children slot) <;> simp [hhas, hwhich, freeChild]
  exact hloop _ pool

section FreeSlots
variable (p : ParentOrder) (which : ℕ → Bool) (pool : OMSOrderPool)

@[simp] theorem freeSlots_parents : (pool.freeSlots p which).parents = pool.parents := by
  rw [freeSlots_eq]
@[simp] theorem freeSlots_children : (pool.freeSlots p which).children = pool.children := by
  rw [freeSlots_eq]
@[simp] theorem freeSlots_parentFree : (pool.freeSlots p which).parentFree = pool.parentFree := by
  rw [freeSlots_eq]
@[simp] theorem freeSlots_childFree :
    (pool.freeSlots p which).childFree = (p.childIds.filter which).reverse ++ pool.childFree := by
  rw [freeSlots_eq]

end FreeSlots

/-- Parent `p` has a child that is still working at its venue. -/
def Alive (pool : OMSOrderPool) (p : ℕ) : Prop :=
  ∃ c ∈ (pool.parents p).childIds, (pool.children c).state.working = true

/-- The structural invariant seen from parent `p`. -/
structure ParentOk (pool : OMSOrderPool) (p : ℕ) : Prop where
  parentId : pool.ParentInUse p → (pool.parents p).parentId = p
  instr : pool.ParentInUse p → (pool.parents p).instrId < kMaxInstruments
  packed : pool.ParentInUse p → (pool.parents p).Packed
  nodup : pool.ParentInUse p → (pool.parents p).childIds.Nodup
  owned : pool.ParentInUse p → ∀ c ∈ (pool.parents p).childIds,
    pool.ChildInUse c ∧ (pool.children c).parentId = p
  owner : ∀ c, pool.ChildInUse c → (pool.children c).parentId = p →
    pool.ParentInUse p ∧ c ∈ (pool.parents p).childIds
  childId : ∀ c, pool.ChildInUse c → (pool.children c).parentId = p → (pool.children c).childId = c
  settled : ∀ c, pool.ChildInUse c → (pool.children c).parentId = p →
    (pool.children c).state.working = true ∨ (pool.children c).state.terminal = true

/-- The invariant of the whole store. Parents for which `idle` holds are being worked on and
may be without a working child. -/
structure StoreInv (idle : ℕ → Prop) (pool : OMSOrderPool) : Prop where
  parentFree : FreeStack.Valid kMaxParentOrders pool.parentFree
  childFree : FreeStack.Valid kMaxTotalChildren pool.childFree
  ok : ∀ p, pool.ParentOk p
  alive : ∀ p, pool.ParentInUse p → ¬ idle p → pool.Alive p

/-- No parent is being worked on: the state between two calls. -/
def Quiet : ℕ → Prop := fun _ => False

theorem storeInv_init : StoreInv Quiet OMSOrderPool.init := by
  have hparent (p : ℕ) : ¬ OMSOrderPool.init.ParentInUse p := FreeStack.not_inUse_init _ p
  have hchild (c : ℕ) : ¬ OMSOrderPool.init.ChildInUse c := FreeStack.not_inUse_init _ c
  refine ⟨FreeStack.valid_init _, FreeStack.valid_init _, ?_, fun p hp => absurd hp (hparent p)⟩
  intro p
  exact ⟨fun h => absurd h (hparent p), fun h => absurd h (hparent p), fun h => absurd h (hparent p),
    fun h => absurd h (hparent p), fun h => absurd h (hparent p), fun c h => absurd h (hchild c),
    fun c h => absurd h (hchild c), fun c h => absurd h (hchild c)⟩

/-- Nothing but parent `p` and its children changed. -/
structure Local (p : ℕ) (pool pool' : OMSOrderPool) : Prop where
  inUse : ∀ q, q ≠ p → (pool'.ParentInUse q ↔ pool.ParentInUse q)
  record : ∀ q, q ≠ p → pool.ParentInUse q → pool'.parents q = pool.parents q
  keep : ∀ c, pool.ChildInUse c → (pool.children c).parentId ≠ p →
    pool'.ChildInUse c ∧ pool'.children c = pool.children c
  origin : ∀ c, pool'.ChildInUse c → (pool'.children c).parentId ≠ p →
    pool.ChildInUse c ∧ (pool.children c).parentId ≠ p

namespace Local
variable {p q : ℕ} {pool pool' pool'' : OMSOrderPool}

theorem refl (p : ℕ) (pool : OMSOrderPool) : Local p pool pool :=
  ⟨fun _ _ => Iff.rfl, fun _ _ _ => rfl, fun _ h _ => ⟨h, rfl⟩, fun _ h hn => ⟨h, hn⟩⟩

theorem trans (h : Local p pool pool') (h' : Local p pool' pool'') : Local p pool pool'' := by
  refine ⟨fun q hq => (h'.inUse q hq).trans (h.inUse q hq), ?_, ?_, ?_⟩
  · intro q hq hu
    rw [h'.record q hq ((h.inUse q hq).mpr hu), h.record q hq hu]
  · intro c hc hn
    obtain ⟨hc', he⟩ := h.keep c hc hn
    obtain ⟨hc'', he'⟩ := h'.keep c hc' (he ▸ hn)
    exact ⟨hc'', he'.trans he⟩
  · intro c hc hn
    obtain ⟨hc', hn'⟩ := h'.origin c hc hn
    exact h.origin c hc' hn'

theorem child_eq (h : Local p pool pool') (hok : pool.ParentOk q) (hq : q ≠ p)
    (hu : pool.ParentInUse q) {c : ℕ} (hc : c ∈ (pool.parents q).childIds) :
    pool'.ChildInUse c ∧ pool'.children c = pool.children c := by
  obtain ⟨hcu, hcp⟩ := hok.owned hu c hc
  exact h.keep c hcu (by rw [hcp]; exact hq)

theorem parentOk (h : Local p pool pool') (hok : pool.ParentOk q) (hq : q ≠ p) : pool'.ParentOk q := by
  have hback (c : ℕ) (hc : pool'.ChildInUse c) (hcq : (pool'.children c).parentId = q) :
      pool.ChildInUse c ∧ pool'.children c = pool.children c ∧ (pool.children c).parentId = q := by
    obtain ⟨hcu, hn⟩ := h.origin c hc (by rw [hcq]; exact hq)
    obtain ⟨_, he⟩ := h.keep c hcu hn
    exact ⟨hcu, he, by rw [← he]; exact hcq⟩
  have hold (hu : pool'.ParentInUse q) : pool.ParentInUse q := (h.inUse q hq).mp hu
  refine ⟨?_, ?_, ?_, ?_, ?_, ?_, ?_, ?_⟩
  · intro hu
    rw [h.record q hq (hold hu)]
    exact hok.parentId (hold hu)
  · intro hu
    rw [h.record q hq (hold hu)]
    exact hok.instr (hold hu)
  · intro hu
    rw [h.record q hq (hold hu)]
    exact hok.packed (hold hu)
  · intro hu
    rw [h.record q hq (hold hu)]
    exact hok.nodup (hold hu)
  · intro hu c hc
    rw [h.record q hq (hold hu)] at hc
    obtain ⟨hcu, he⟩ := h.child_eq hok hq (hold hu) hc
    exact ⟨hcu, by rw [he]; exact (hok.owned (hold hu) c hc).2⟩
  · intro c hc hcq
    obtain ⟨hcu, _, hcq'⟩ := hback c hc hcq
    obtain ⟨hu, hmem⟩ := hok.owner c hcu hcq'
    exact ⟨(h.inUse q hq).mpr hu, by rw [h.record q hq hu]; exact hmem⟩
  · intro c hc hcq
    obtain ⟨hcu, he, hcq'⟩ := hback c hc hcq
    rw [he]
    exact hok.childId c hcu hcq'
  · intro c hc hcq
    obtain ⟨hcu, he, hcq'⟩ := hback c hc hcq
    rw [he]
    exact hok.settled c hcu hcq'

theorem alive (h : Local p pool pool') (hok : pool.ParentOk q) (hq : q ≠ p)
    (hu : pool.ParentInUse q) (ha : pool.Alive q) : pool'.Alive q := by
  obtain ⟨c, hc, hw⟩ := ha
  refine ⟨c, by rw [h.record q hq hu]; exact hc, ?_⟩
  rw [(h.child_eq hok hq hu hc).2]
  exact hw

/-- An operation that is local to `p` keeps the store invariant if it keeps it at `p`. -/
theorem storeInv {idle idle' : ℕ → Prop} (h : Local p pool pool') (hinv : StoreInv idle pool)
    (hpf : FreeStack.Valid kMaxParentOrders pool'.parentFree)
    (hcf : FreeStack.Valid kMaxTotalChildren pool'.childFree) (hok : pool'.ParentOk p)
    (halive : pool'.ParentInUse p → ¬ idle' p → pool'.Alive p)
    (hidle : ∀ q, q ≠ p → idle q → idle' q) : StoreInv idle' pool' := by
  refine ⟨hpf, hcf, ?_, ?_⟩
  · intro q
    by_cases hq : q = p
    · rw [hq]
      exact hok
    · exact h.parentOk (hinv.ok q) hq
  · intro q hu hn
    by_cases hq : q = p
    · rw [hq] at hu hn ⊢
      exact halive hu hn
    · have hu' := (h.inUse q hq).mp hu
      exact h.alive (hinv.ok q) hq hu' (hinv.alive q hu' (fun hi => hn (hidle q hq hi)))

end Local

end OMSOrderPool

end OmsFormal.Oms
