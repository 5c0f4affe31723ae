import OmsFormal.CallEntries
import OmsFormal.Exposure
import Mathlib.Data.List.Basic

/-!
# Room in the timer wheel

A slot of the ring holds `kSlotDepth` timers. A dispatch arms the children it
sends one after the other, so it arms all of them exactly if each slot they hash
to has room for its share of them when the dispatch starts.
-/

namespace OmsFormal.Oms
open Sor Rounding OMSOrderPool
set_option autoImplicit false

namespace TimerWheel
variable {wheel : TimerWheel} {c slot : ℕ} {x e : TimerEntry}

def occupied (wheel : TimerWheel) (slot : ℕ) : ℕ := wheel.active.countP fun e => decide (e.slot = slot)

/-- Every entry is inside the ring, at a position of its own. -/
structure Placed (wheel : TimerWheel) : Prop where
  bound : ∀ e ∈ wheel.active, e.slot < kFineSlots ∧ e.idx < kSlotDepth
  position : (wheel.active.map fun e => (e.slot, e.idx)).Nodup

theorem entryAt_place {idx : ℕ} (h : wheel.entryAt slot idx = some e) : e.slot = slot ∧ e.idx = idx := by
  have hplace := List.find?_some h
  simpa only [Bool.and_eq_true, decide_eq_true_eq] using hplace

theorem freePosition_spec {i : ℕ} (h : wheel.freePosition slot = some i) :
    i < kSlotDepth ∧ wheel.entryAt slot i = none := by
  unfold freePosition at h
  have hnone := List.find?_some h
  exact ⟨List.mem_range.mp (List.mem_of_find?_eq_some h), by simpa using hnone⟩

theorem Placed.entryAt (h : wheel.Placed) (he : e ∈ wheel.active) :
    wheel.entryAt e.slot e.idx = some e := by
  cases hfound : wheel.entryAt e.slot e.idx with
  | none =>
    have hnone := List.find?_eq_none.mp hfound e he
    simp at hnone
  | some x =>
    obtain ⟨hslot, hidx⟩ := entryAt_place hfound
    rw [List.inj_on_of_nodup_map h.position (entryAt_mem hfound) he (Prod.ext hslot hidx)]

theorem Placed.of_sublist {wheel' : TimerWheel} (h : wheel.Placed)
    (hsub : wheel'.active.Sublist wheel.active) : wheel'.Placed :=
  ⟨fun e he => h.bound e (hsub.subset he), (hsub.map _).nodup h.position⟩

theorem Placed.cancel (h : wheel.Placed) (c : ℕ) : (wheel.cancel c).Placed := by
  rcases cancel_cases c wheel with ⟨hsame, _⟩ | ⟨e, _, _, hcancel⟩
  · rw [hsame]
    exact h
  · rw [hcancel]
    exact h.of_sublist List.erase_sublist

/-- A slot with fewer than `kSlotDepth` timers has a free position. -/
theorem freePosition_of_room (h : wheel.occupied slot < kSlotDepth) :
    ∃ i, wheel.freePosition slot = some i := by
  cases hfree : wheel.freePosition slot with
  | some i => exact ⟨i, rfl⟩
  | none =>
    have hall := List.find?_eq_none.mp hfree
    have hsub : List.range kSlotDepth ⊆
        ((wheel.active.filter fun e => decide (e.slot = slot)).map TimerEntry.idx) := by
      intro i hi
      have htaken : wheel.entryAt slot i ≠ none := by simpa using hall i hi
      obtain ⟨e, he⟩ := Option.ne_none_iff_exists'.mp htaken
      obtain ⟨hslot, hidx⟩ := entryAt_place he
      exact List.mem_map.mpr ⟨e, List.mem_filter.mpr ⟨entryAt_mem he, by simpa using hslot⟩, hidx⟩
    have hlen := (List.nodup_range.subperm hsub).length_le
    rw [List.length_range, List.length_map, ← List.countP_eq_length_filter] at hlen
    exact absurd hlen (Nat.not_le.mpr h)

theorem insert_of_room (wheel : TimerWheel) (c now timeout : ℕ)
    (h : wheel.occupied (wheel.slotFor (now + timeout)) < kSlotDepth) :
    ∃ i, wheel.insert c now timeout = (true, { wheel with
      active := ⟨wheel.slotFor (now + timeout), i, c, now + timeout⟩ :: wheel.active }) := by
  obtain ⟨i, hi⟩ := freePosition_of_room h
  exact ⟨i, by simp [insert, hi]⟩

/-- A failed insert changes nothing; a successful one takes a free position. -/
theorem Placed.insert (h : wheel.Placed) (c now timeout : ℕ) : (wheel.insert c now timeout).2.Placed := by
  simp only [TimerWheel.insert]
  split
  · exact h
  · rename_i i hi
    obtain ⟨hbound, hnone⟩ := freePosition_spec hi
    refine ⟨fun e he => ?_, ?_⟩
    · rcases List.mem_cons.mp he with rfl | he
      · exact ⟨Nat.mod_lt _ (by decide), hbound⟩
      · exact h.bound e he
    · refine List.nodup_cons.mpr ⟨fun hmem => ?_, h.position⟩
      obtain ⟨e, he, hplace⟩ := List.mem_map.mp hmem
      have hslot : e.slot = wheel.slotFor (now + timeout) := congrArg Prod.fst hplace
      have hidx : e.idx = i := congrArg Prod.snd hplace
      rw [← hslot, ← hidx, h.entryAt he] at hnone
      cases hnone

end TimerWheel

section Fit
variable {cfg : ExecCoreConfig} {w : World} {s : Core} {pid : ℕ}

/-- The child orders of `rest` that the dispatch loop will get to. -/
def willSend (pid : ℕ) (rest : List ChildOrder) (s : Core) : List ChildOrder :=
  rest.take (min (ParentOrder.kMaxChildrenPerParent - (s.pool.parents pid).childCount)
    s.pool.childFree.length)

/-- The slot in which the timer of child order `co` is armed. -/
def armSlot (cfg : ExecCoreConfig) (w : World) (wheel : TimerWheel) (co : ChildOrder) : ℕ :=
  wheel.slotFor (w.dispatchNs + timeoutNs cfg co.type)

/-- Every slot the coming dispatch arms has room for all the timers it puts there. -/
def TimersFit (cfg : ExecCoreConfig) (w : World) (pid : ℕ) (rest : List ChildOrder) (s : Core) : Prop :=
  ∀ co ∈ willSend pid rest s, s.timerWheel.occupied (armSlot cfg w s.timerWheel co) +
    (willSend pid rest s).countP (fun x => decide
      (armSlot cfg w s.timerWheel x = armSlot cfg w s.timerWheel co)) ≤ kSlotDepth

instance (rest : List ChildOrder) : Decidable (TimersFit cfg w pid rest s) :=
  inferInstanceAs (Decidable (∀ co ∈ willSend pid rest s, _))

variable {cid : ℕ} {free : List ℕ} {co : ChildOrder} {rest : List ChildOrder}

theorem willSend_cons (cfg : ExecCoreConfig) (w : World) (ctx : RoutingContext) (co : ChildOrder)
    (rest : List ChildOrder) (hroom : (s.pool.parents pid).childCount < ParentOrder.kMaxChildrenPerParent)
    (hfree : s.pool.childFree = cid :: free) :
    willSend pid (co :: rest) s = co :: willSend pid rest (sendChild cfg w pid ctx cid free co s) := by
  have hcount : ((sendChild cfg w pid ctx cid free co s).pool.parents pid).childCount =
      (s.pool.parents pid).childCount + 1 := by
    simp [sendChild, attachChild, ParentOrder.addChild]
  have hrest : (sendChild cfg w pid ctx cid free co s).pool.childFree = free := rfl
  have hn : min (ParentOrder.kMaxChildrenPerParent - (s.pool.parents pid).childCount) (free.length + 1) =
      min (ParentOrder.kMaxChildrenPerParent - ((s.pool.parents pid).childCount + 1)) free.length + 1 := by
    omega
  rw [willSend, willSend, hcount, hrest, hfree, List.length_cons, hn, List.take_succ_cons]

/-- A dispatch whose timers fit arms the next child, and the rest still fits. -/
theorem TimersFit.send (ctx : RoutingContext)
    (hroom : (s.pool.parents pid).childCount < ParentOrder.kMaxChildrenPerParent)
    (hfree : s.pool.childFree = cid :: free) (h : TimersFit cfg w pid (co :: rest) s) :
    (∃ e, e.childId = cid ∧
      (sendChild cfg w pid ctx cid free co s).timerWheel.active = e :: s.timerWheel.active) ∧
    TimersFit cfg w pid rest (sendChild cfg w pid ctx cid free co s) := by
  have hsend := willSend_cons cfg w ctx co rest hroom hfree
  unfold TimersFit at h
  rw [hsend] at h
  have hfirst := h co List.mem_cons_self
  rw [List.countP_cons_of_pos (by simp)] at hfirst
  obtain ⟨i, hinsert⟩ := TimerWheel.insert_of_room s.timerWheel cid w.dispatchNs
    (timeoutNs cfg co.type) (by unfold armSlot at hfirst; omega)
  have hwheel : (sendChild cfg w pid ctx cid free co s).timerWheel = { s.timerWheel with
      active := ⟨armSlot cfg w s.timerWheel co, i, cid, w.dispatchNs + timeoutNs cfg co.type⟩ ::
        s.timerWheel.active } := by
    simp only [sendChild, hinsert]
    rfl
  refine ⟨⟨_, rfl, by rw [hwheel]⟩, ?_⟩
  intro x hx
  have hold := h x (List.mem_cons_of_mem co hx)
  rw [hwheel]
  have hslot (y : ChildOrder) : armSlot cfg w { s.timerWheel with
      active := ⟨armSlot cfg w s.timerWheel co, i, cid, w.dispatchNs + timeoutNs cfg co.type⟩ ::
        s.timerWheel.active } y = armSlot cfg w s.timerWheel y := rfl
  simp only [hslot, TimerWheel.occupied, List.countP_cons, decide_eq_true_eq] at hold ⊢
  omega

theorem TimersFit.of_same {s' : Core} (h : TimersFit cfg w pid rest s)
    (hwheel : s'.timerWheel = s.timerWheel)
    (hcount : (s'.pool.parents pid).childCount = (s.pool.parents pid).childCount)
    (hfree : s'.pool.childFree = s.pool.childFree) : TimersFit cfg w pid rest s' := by
  simpa only [TimersFit, willSend, hwheel, hcount, hfree] using h

end Fit

end OmsFormal.Oms
