import OmsFormal.OmsTypes
import OmsFormal.FreeStack
import Mathlib.Logic.Function.Basic

/-!
# The order store

Two flat pools of records with LIFO free lists. A record keeps its old content
after it is freed, and a record that was never used is all zeros.
-/

namespace OmsFormal.Oms
open Sor
set_option autoImplicit false

structure ChildOrderState where
  childId : ℕ
  parentId : ℕ
  price : ℤ
  qtyLots : ℤ
  cumQtyLots : ℤ
  leavesQtyLots : ℤ
  state : OrderState
  exchangeId : ℕ
  levelIdx : ℕ
  orderType : Sor.OrderType
  dir : OrderDir
  sentNs : ℕ
  deriving DecidableEq, Repr

def ChildOrderState.zero : ChildOrderState :=
  ⟨0, 0, 0, 0, 0, 0, .new, 0, 0, .maker, .buy, 0⟩

structure ParentOrder where
  parentId : ℕ
  instrId : ℕ
  dir : OrderDir
  state : OrderState
  strategyId : ℕ
  childCount : ℕ
  orderType : Sor.OrderType
  reduceOnly : Bool
  totalQtyLots : ℤ
  cumQtyLots : ℤ
  leavesQtyLots : ℤ
  limitPrice : ℤ
  avgFillPrice : ℚ
  createNs : ℕ
  lastUpdateNs : ℕ
  children : ℕ → ℕ
  childMask : BitVec 16

namespace ParentOrder

def kMaxChildrenPerParent : ℕ := 16

def zero : ParentOrder :=
  ⟨0, 0, .buy, .new, 0, 0, .maker, false, 0, 0, 0, 0, 0, 0, 0, fun _ => 0, 0⟩

def reset : ParentOrder := { zero with parentId := kInvalidOrderId, state := .new }

def hasChild (p : ParentOrder) (slot : ℕ) : Bool := p.childMask.getLsbD slot

def addChild (slot cid : ℕ) (p : ParentOrder) : ParentOrder :=
  { p with
    children := Function.update p.children slot cid
    childMask := p.childMask ||| BitVec.twoPow 16 slot
    childCount := p.childCount + 1 }

def slots (p : ParentOrder) : List ℕ := (List.range kMaxChildrenPerParent).filter p.hasChild

def childIds (p : ParentOrder) : List ℕ := p.slots.map p.children

end ParentOrder

/-- The free lists hold the live prefix of the source's arrays, next id first. -/
structure OMSOrderPool where
  parents : ℕ → ParentOrder
  children : ℕ → ChildOrderState
  parentFree : List ℕ
  childFree : List ℕ
  parentAllocFailures : ℕ
  childAllocFailures : ℕ

namespace OMSOrderPool

def init : OMSOrderPool where
  parents _ := ParentOrder.zero
  children _ := ChildOrderState.zero
  parentFree := FreeStack.init kMaxParentOrders
  childFree := FreeStack.init kMaxTotalChildren
  parentAllocFailures := 0
  childAllocFailures := 0

def allocParent (pool : OMSOrderPool) : Option ℕ × OMSOrderPool :=
  match pool.parentFree with
  | [] => (none, { pool with parentAllocFailures := pool.parentAllocFailures + 1 })
  | id :: rest =>
    (some id, { pool with
      parentFree := rest
      parents := Function.update pool.parents id { ParentOrder.reset with parentId := id } })

def allocChild (pool : OMSOrderPool) : Option ℕ × OMSOrderPool :=
  match pool.childFree with
  | [] => (none, { pool with childAllocFailures := pool.childAllocFailures + 1 })
  | id :: rest =>
    (some id, { pool with
      childFree := rest
      children := Function.update pool.children id { ChildOrderState.zero with childId := id } })

def freeParent (id : ℕ) (pool : OMSOrderPool) : OMSOrderPool :=
  { pool with parentFree := id :: pool.parentFree }

def freeChild (id : ℕ) (pool : OMSOrderPool) : OMSOrderPool :=
  { pool with childFree := id :: pool.childFree }

def modifyParent (id : ℕ) (f : ParentOrder → ParentOrder) (pool : OMSOrderPool) : OMSOrderPool :=
  { pool with parents := Function.update pool.parents id (f (pool.parents id)) }

def modifyChild (id : ℕ) (f : ChildOrderState → ChildOrderState) (pool : OMSOrderPool) :
    OMSOrderPool :=
  { pool with children := Function.update pool.children id (f (pool.children id)) }

def parentsInUse (pool : OMSOrderPool) : ℕ := kMaxParentOrders - pool.parentFree.length
def childrenInUse (pool : OMSOrderPool) : ℕ := kMaxTotalChildren - pool.childFree.length

def ParentInUse (pool : OMSOrderPool) (id : ℕ) : Prop :=
  FreeStack.InUse kMaxParentOrders pool.parentFree id

def ChildInUse (pool : OMSOrderPool) (id : ℕ) : Prop :=
  FreeStack.InUse kMaxTotalChildren pool.childFree id

def ChildLive (pool : OMSOrderPool) (id : ℕ) : Prop :=
  pool.ChildInUse id ∧ (pool.children id).state.terminal = false

instance (pool : OMSOrderPool) (id : ℕ) : Decidable (pool.ParentInUse id) :=
  inferInstanceAs (Decidable (FreeStack.InUse kMaxParentOrders pool.parentFree id))

instance (pool : OMSOrderPool) (id : ℕ) : Decidable (pool.ChildInUse id) :=
  inferInstanceAs (Decidable (FreeStack.InUse kMaxTotalChildren pool.childFree id))

instance (pool : OMSOrderPool) (id : ℕ) : Decidable (pool.ChildLive id) :=
  inferInstanceAs (Decidable (_ ∧ _))

/-- Free the children of `p` that satisfy `which`, slot by slot. -/
def freeSlots (p : ParentOrder) (which : ℕ → Bool) (pool : OMSOrderPool) : OMSOrderPool :=
  (List.range ParentOrder.kMaxChildrenPerParent).foldl (fun pool slot =>
    if p.hasChild slot && which (p.children slot) then pool.freeChild (p.children slot) else pool) pool

end OMSOrderPool

end OmsFormal.Oms
