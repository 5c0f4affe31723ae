import OmsFormal.OmsTypes

/-!
# The timer wheel

A ring of `kFineSlots` slots of `kSlotDepth` positions. Only active entries are
stored, each with its position: an inactive position of the source's array is
never read. The expiry loop is written over any host state that carries a wheel,
because its callback may re-enter the wheel.
-/

namespace OmsFormal.Oms
set_option autoImplicit false

def kFineSlots : ℕ := 8192
def kSlotDepth : ℕ := 32

/-- An active entry at position `idx` of ring slot `slot`. -/
structure TimerEntry where
  slot : ℕ
  idx : ℕ
  childId : ℕ
  deadlineNs : ℕ
  deriving DecidableEq, Repr

/-- The order in which `cancel` scans the ring. -/
def TimerEntry.before (a b : TimerEntry) : Bool :=
  decide (a.slot < b.slot) || (decide (a.slot = b.slot) && decide (a.idx < b.idx))

structure TimerWheel where
  active : List TimerEntry
  tickNs : ℕ
  nowNs : ℕ

/-- The entry the ring scan meets first. -/
def scanFirst : List TimerEntry → Option TimerEntry
  | [] => none
  | e :: es =>
    match scanFirst es with
    | none => some e
    | some f => if f.before e then some f else some e

namespace TimerWheel

def init (nowNs : ℕ) : TimerWheel := ⟨[], 1000000, nowNs⟩

def slotFor (w : TimerWheel) (tsNs : ℕ) : ℕ := (tsNs / w.tickNs) % kFineSlots

def entryAt (w : TimerWheel) (slot idx : ℕ) : Option TimerEntry :=
  w.active.find? fun e => decide (e.slot = slot) && decide (e.idx = idx)

/-- The first free position of a slot. -/
def freePosition (w : TimerWheel) (slot : ℕ) : Option ℕ :=
  (List.range kSlotDepth).find? fun i => (w.entryAt slot i).isNone

def insert (childId nowNs timeoutNs : ℕ) (w : TimerWheel) : Bool × TimerWheel :=
  let deadline := nowNs + timeoutNs
  let slot := w.slotFor deadline
  match w.freePosition slot with
  | none => (false, w)
  | some i => (true, { w with active := ⟨slot, i, childId, deadline⟩ :: w.active })

def deactivate (e : TimerEntry) (w : TimerWheel) : TimerWheel :=
  { w with active := w.active.erase e }

def cancel (childId : ℕ) (w : TimerWheel) : TimerWheel :=
  match scanFirst (w.active.filter fun e => decide (e.childId = childId)) with
  | none => w
  | some e => w.deactivate e

def advance (w : TimerWheel) : TimerWheel := { w with nowNs := w.nowNs + w.tickNs }

section Host
variable {σ : Type} (wheel : σ → TimerWheel) (setWheel : TimerWheel → σ → σ)
variable (callback : ℕ → ℕ → ℕ → σ → σ)

/-- One round of the loop in `check_slot`. The callback is told the wheel clock and the
position it is called from, then the child. -/
def visitEntry (slot idx : ℕ) (s : σ) : σ :=
  match (wheel s).entryAt slot idx with
  | none => s
  | some e => callback (wheel s).nowNs idx e.childId (setWheel ((wheel s).deactivate e) s)

def checkSlot (slot : ℕ) (s : σ) : σ :=
  (List.range kSlotDepth).foldl (fun s i => visitEntry wheel setWheel callback slot i s) s

def tickLoop : ℕ → σ → σ
  | 0, s => s
  | n + 1, s =>
    let s := setWheel (wheel s).advance s
    tickLoop n (checkSlot wheel setWheel callback ((wheel s).slotFor (wheel s).nowNs) s)

/-- The loop runs while a whole tick still fits below `nowNs`. -/
def tick (nowNs : ℕ) (s : σ) : σ :=
  tickLoop wheel setWheel callback ((nowNs - (wheel s).nowNs) / (wheel s).tickNs) s

end Host

end TimerWheel

end OmsFormal.Oms
