import OmsFormal.OrderPool
import OmsFormal.FreeArray
import OmsFormal.GuardedRun

/-!
# Sequences of pool calls

A pool that is called in any order hands out no id that is in use, as long as its
callers free nothing they do not hold. The arrays of its two free lists run beside it.
-/

namespace OmsFormal.Oms
open FreeStack GuardedRun
set_option autoImplicit false

inductive PoolCall
  | allocParent
  | freeParent (id : ℕ)
  | allocChild
  | freeChild (id : ℕ)
  deriving DecidableEq

def PoolCall.onParents : PoolCall → Bool
  | .allocParent | .freeParent _ => true
  | .allocChild | .freeChild _ => false

/-- The ids in use after an allocation. -/
def granted (result : Option ℕ) (held : Finset ℕ) : Finset ℕ :=
  match result with
  | some id => insert id held
  | none => held

/-- The pool, the arrays behind its free lists, and the ids that were allocated and not yet freed. -/
structure Custody where
  pool : OMSOrderPool
  parentFree : FreeArray
  childFree : FreeArray
  parents : Finset ℕ
  children : Finset ℕ

namespace Custody

def init : Custody where
  pool := OMSOrderPool.init
  parentFree := FreeArray.init kMaxParentOrders
  childFree := FreeArray.init kMaxTotalChildren
  parents := ∅
  children := ∅

def step : PoolCall → Custody → Custody
  | .allocParent, x =>
    { x with
      pool := x.pool.allocParent.2
      parentFree := x.parentFree.pop.2
      parents := granted x.pool.allocParent.1 x.parents }
  | .freeParent id, x =>
    { x with
      pool := x.pool.freeParent id
      parentFree := x.parentFree.push id
      parents := x.parents.erase id }
  | .allocChild, x =>
    { x with
      pool := x.pool.allocChild.2
      childFree := x.childFree.pop.2
      children := granted x.pool.allocChild.1 x.children }
  | .freeChild id, x =>
    { x with
      pool := x.pool.freeChild id
      childFree := x.childFree.push id
      children := x.children.erase id }

/-- Only an id in use is freed. -/
def FreesHeld : PoolCall → Custody → Prop
  | .freeParent id, x => id ∈ x.parents
  | .freeChild id, x => id ∈ x.children
  | .allocParent, _ | .allocChild, _ => True

/-- An allocation fails exactly when all ids are in use, and otherwise grants one that is not. -/
structure Grants (cap : ℕ) (held : Finset ℕ) (result : Option ℕ) : Prop where
  fails_iff : result = none ↔ held.card = cap
  unused : ∀ id, result = some id → id < cap ∧ id ∉ held

/-- What is promised of a call: the ids of its result are unused, a failed one only counts the failure,
a freed id is written inside the array and is the next one granted. -/
def Sound : PoolCall → Custody → Prop
  | .allocParent, x => Grants kMaxParentOrders x.parents x.pool.allocParent.1 ∧
      x.parentFree.pop.1 = x.pool.allocParent.1 ∧
      (x.pool.allocParent.1 = none → step .allocParent x =
        { x with pool := { x.pool with parentAllocFailures := x.pool.parentAllocFailures + 1 } })
  | .allocChild, x => Grants kMaxTotalChildren x.children x.pool.allocChild.1 ∧
      x.childFree.pop.1 = x.pool.allocChild.1 ∧
      (x.pool.allocChild.1 = none → step .allocChild x =
        { x with pool := { x.pool with childAllocFailures := x.pool.childAllocFailures + 1 } })
  | .freeParent id, x => x.parentFree.top < kMaxParentOrders ∧
      (x.pool.freeParent id).allocParent.1 = some id
  | .freeChild id, x => x.childFree.top < kMaxTotalChildren ∧
      (x.pool.freeChild id).allocChild.1 = some id

/-- The counts are those of the ids in use, and the tops stay inside the arrays. -/
structure Counted (x : Custody) : Prop where
  parentsInUse : x.pool.parentsInUse = x.parents.card
  childrenInUse : x.pool.childrenInUse = x.children.card
  parentTop : x.parentFree.top ≤ kMaxParentOrders
  childTop : x.childFree.top ≤ kMaxTotalChildren

/-- Each free list and the ids in use make up the id range. -/
structure Kept (x : Custody) : Prop where
  parents : Stocked kMaxParentOrders x.pool.parentFree x.parentFree x.parents
  children : Stocked kMaxTotalChildren x.pool.childFree x.childFree x.children

/-- All there is of one pool. -/
structure Side (α : Type) where
  records : ℕ → α
  free : List ℕ
  array : FreeArray
  failures : ℕ
  held : Finset ℕ

def parentSide (x : Custody) : Side ParentOrder :=
  ⟨x.pool.parents, x.pool.parentFree, x.parentFree, x.pool.parentAllocFailures, x.parents⟩

def childSide (x : Custody) : Side ChildOrderState :=
  ⟨x.pool.children, x.pool.childFree, x.childFree, x.pool.childAllocFailures, x.children⟩

end Custody

section Calls
variable {pool : OMSOrderPool} {id : ℕ} {rest : List ℕ}

theorem allocParent_of_nil (h : pool.parentFree = []) :
    pool.allocParent = (none, { pool with parentAllocFailures := pool.parentAllocFailures + 1 }) := by
  rw [OMSOrderPool.allocParent, h]

theorem allocParent_of_cons (h : pool.parentFree = id :: rest) :
    pool.allocParent.1 = some id ∧ pool.allocParent.2.parentFree = rest ∧
      pool.allocParent.2.childFree = pool.childFree := by
  simp only [OMSOrderPool.allocParent, h, and_self]

theorem allocChild_of_nil (h : pool.childFree = []) :
    pool.allocChild = (none, { pool with childAllocFailures := pool.childAllocFailures + 1 }) := by
  rw [OMSOrderPool.allocChild, h]

theorem allocChild_of_cons (h : pool.childFree = id :: rest) :
    pool.allocChild.1 = some id ∧ pool.allocChild.2.childFree = rest ∧
      pool.allocChild.2.parentFree = pool.parentFree := by
  simp only [OMSOrderPool.allocChild, h, and_self]

end Calls

namespace Custody
variable {x y : Custody} {call : PoolCall}

theorem init_kept : init.Kept := ⟨Stocked.init _, Stocked.init _⟩

theorem Kept.counted (h : x.Kept) : x.Counted := by
  have hp := h.parents.card_add_length
  have hc := h.children.card_add_length
  refine ⟨?_, ?_, h.parents.top_le, h.children.top_le⟩
  · rw [OMSOrderPool.parentsInUse]
    omega
  · rw [OMSOrderPool.childrenInUse]
    omega

theorem step_kept (h : x.Kept) (hok : FreesHeld call x) : (step call x).Kept := by
  cases call with
  | allocParent =>
    have hp := h.parents
    generalize hfree : x.pool.parentFree = free at hp
    cases free with
    | nil =>
      rw [step, allocParent_of_nil hfree, FreeArray.pop_of_nil hp.live]
      exact ⟨h.parents, h.children⟩
    | cons id rest =>
      obtain ⟨hid, hrest, hother⟩ := allocParent_of_cons hfree
      rw [step, hid]
      refine ⟨?_, ?_⟩
      · rw [hrest]
        exact hp.pop.2.2
      · rw [hother]
        exact h.children
  | freeParent id => exact ⟨h.parents.push hok, h.children⟩
  | allocChild =>
    have hc := h.children
    generalize hfree : x.pool.childFree = free at hc
    cases free with
    | nil =>
      rw [step, allocChild_of_nil hfree, FreeArray.pop_of_nil hc.live]
      exact ⟨h.parents, h.children⟩
    | cons id rest =>
      obtain ⟨hid, hrest, hother⟩ := allocChild_of_cons hfree
      rw [step, hid]
      refine ⟨?_, ?_⟩
      · rw [hother]
        exact h.parents
      · rw [hrest]
        exact hc.pop.2.2
  | freeChild id => exact ⟨h.parents, h.children.push hok⟩

theorem grants_of_nil {cap : ℕ} {a : FreeArray} {held : Finset ℕ} (h : Stocked cap [] a held) :
    Grants cap held none :=
  ⟨iff_of_true rfl (h.nil_iff.mp rfl), nofun⟩

theorem grants_of_cons {cap id : ℕ} {rest : List ℕ} {a : FreeArray} {held : Finset ℕ}
    (h : Stocked cap (id :: rest) a held) : Grants cap held (some id) := by
  obtain ⟨hlt, hnew, _⟩ := h.pop
  refine ⟨iff_of_false (Option.some_ne_none id) fun hall => ?_, ?_⟩
  · exact List.cons_ne_nil id rest (h.nil_iff.mpr hall)
  · intro id' hid
    cases hid
    exact ⟨hlt, hnew⟩

theorem Kept.sound (h : x.Kept) (hok : FreesHeld call x) : Sound call x := by
  cases call with
  | allocParent =>
    have hp := h.parents
    generalize hfree : x.pool.parentFree = free at hp
    cases free with
    | nil =>
      rw [Sound, step, allocParent_of_nil hfree, FreeArray.pop_of_nil hp.live]
      exact ⟨grants_of_nil hp, rfl, fun _ => rfl⟩
    | cons id rest =>
      rw [Sound, (allocParent_of_cons hfree).1]
      exact ⟨grants_of_cons hp, (FreeArray.pop_of_cons hp.live).1, nofun⟩
  | freeParent id => exact ⟨h.parents.top_lt hok, rfl⟩
  | allocChild =>
    have hc := h.children
    generalize hfree : x.pool.childFree = free at hc
    cases free with
    | nil =>
      rw [Sound, step, allocChild_of_nil hfree, FreeArray.pop_of_nil hc.live]
      exact ⟨grants_of_nil hc, rfl, fun _ => rfl⟩
    | cons id rest =>
      rw [Sound, (allocChild_of_cons hfree).1]
      exact ⟨grants_of_cons hc, (FreeArray.pop_of_cons hc.live).1, nofun⟩
  | freeChild id => exact ⟨h.children.top_lt hok, rfl⟩

/-- A call on the parents does to them what they alone determine. -/
theorem step_parentSide (h : x.parentSide = y.parentSide) (hcall : call.onParents = true) :
    (step call x).parentSide = (step call y).parentSide := by
  obtain ⟨hrecords, hfree, harray, hfailures, hheld⟩ := Side.mk.inj h
  cases call with
  | allocParent =>
    simp only [parentSide, step, OMSOrderPool.allocParent, hrecords, hfree, harray, hfailures, hheld]
    cases y.pool.parentFree <;> rfl
  | freeParent id =>
    simp only [parentSide, step, OMSOrderPool.freeParent, hrecords, hfree, harray, hfailures, hheld]
  | allocChild => exact absurd hcall Bool.false_ne_true
  | freeChild id => exact absurd hcall Bool.false_ne_true

theorem step_parentSide_frame (hcall : call.onParents = false) :
    (step call x).parentSide = x.parentSide := by
  cases call with
  | allocParent => exact absurd hcall.symm Bool.false_ne_true
  | freeParent id => exact absurd hcall.symm Bool.false_ne_true
  | allocChild =>
    simp only [parentSide, step, OMSOrderPool.allocChild]
    cases x.pool.childFree <;> rfl
  | freeChild id => rfl

theorem step_childSide (h : x.childSide = y.childSide) (hcall : call.onParents = false) :
    (step call x).childSide = (step call y).childSide := by
  obtain ⟨hrecords, hfree, harray, hfailures, hheld⟩ := Side.mk.inj h
  cases call with
  | allocParent => exact absurd hcall.symm Bool.false_ne_true
  | freeParent id => exact absurd hcall.symm Bool.false_ne_true
  | allocChild =>
    simp only [childSide, step, OMSOrderPool.allocChild, hrecords, hfree, harray, hfailures, hheld]
    cases y.pool.childFree <;> rfl
  | freeChild id =>
    simp only [childSide, step, OMSOrderPool.freeChild, hrecords, hfree, harray, hfailures, hheld]

theorem step_childSide_frame (hcall : call.onParents = true) :
    (step call x).childSide = x.childSide := by
  cases call with
  | allocParent =>
    simp only [childSide, step, OMSOrderPool.allocParent]
    cases x.pool.parentFree <;> rfl
  | freeParent id => rfl
  | allocChild => exact absurd hcall Bool.false_ne_true
  | freeChild id => exact absurd hcall Bool.false_ne_true

/-- What becomes of a part of the state depends on the calls on it only. -/
theorem run_filter {β : Type} (side : Custody → β) (on : PoolCall → Bool)
    (hon : ∀ call x y, on call = true → side x = side y → side (step call x) = side (step call y))
    (hoff : ∀ call x, on call = false → side (step call x) = side x) (calls : List PoolCall)
    (h : side x = side y) : side (run step x calls) = side (run step y (calls.filter on)) := by
  induction calls generalizing x y with
  | nil => exact h
  | cons call calls ih =>
    cases hcall : on call with
    | true =>
      rw [List.filter_cons_of_pos hcall]
      exact ih (hon call x y hcall h)
    | false =>
      rw [List.filter_cons_of_neg (by rw [hcall]; exact Bool.false_ne_true)]
      exact ih ((hoff call x hcall).trans h)

/-- In every sequence of calls that frees only what is in use, every allocation is sound, the counts
are right after every call, and neither pool notices the calls on the other. -/
theorem run_sound {calls : List PoolCall} (h : Along step FreesHeld init calls) :
    Along step Sound init calls ∧ Always step Counted init calls ∧
    (run step init calls).parentSide =
      (run step init (calls.filter PoolCall.onParents)).parentSide ∧
    (run step init calls).childSide =
      (run step init (calls.filter fun call => !call.onParents)).childSide := by
  have hkept : ∀ call x, Kept x → FreesHeld call x → Kept (step call x) :=
    fun _ _ hx hok => step_kept hx hok
  refine ⟨?_, ?_, ?_, ?_⟩
  · exact h.strengthen Kept hkept (fun _ _ hx hok => hx.sound hok) init_kept
  · exact h.always Kept hkept (fun _ hx => hx.counted) init_kept
  · exact run_filter parentSide PoolCall.onParents (fun _ _ _ hcall hxy => step_parentSide hxy hcall)
      (fun _ _ hcall => step_parentSide_frame hcall) calls rfl
  · apply run_filter childSide (fun call => !call.onParents)
    · exact fun _ _ _ hcall hxy => step_childSide hxy (by simpa using hcall)
    · exact fun _ _ hcall => step_childSide_frame (by simpa using hcall)
    · rfl

/-- Two parents and a child are opened, the first parent is closed and its id goes out again. -/
def Sample.poolCalls : List PoolCall :=
  [.allocParent, .allocChild, .allocParent, .freeParent 0, .allocParent, .freeChild 0]

theorem run_sound_poolCalls :
    Along step FreesHeld init Sample.poolCalls ∧ Always step Counted init Sample.poolCalls := by
  have hok : Along step FreesHeld init Sample.poolCalls := by
    refine ⟨trivial, trivial, trivial, ?_, trivial, ?_, trivial⟩ <;> unfold FreesHeld <;> decide +kernel
  exact ⟨hok, (run_sound hok).2.1⟩

end Custody

end OmsFormal.Oms
