import OmsFormal.QuantityEntries
import OmsFormal.RoutingSoundness

/-!
# The order store over whole runs

Store, timers and quantities hold each other up: the quantity bound says that a
closing parent has no child at work, so no armed timer is left behind, so a
timer never cancels a child of somebody else. Together they are an invariant of
every run with well-formed reports.
-/

namespace OmsFormal.Oms
open Sor Rounding OMSOrderPool GuardedRun
set_option autoImplicit false

/-- The joint invariant between two calls. -/
structure Healthy (r : ℕ → ℕ → ℕ) (s : Core) : Prop where
  store : StoreInv Quiet s.pool
  timers : TimersOk s
  qty : AllQty r s.pool

/-- The joint invariant inside a call. -/
structure HealthyAt (cfg : ExecCoreConfig) (w : World) (r : ℕ → ℕ → ℕ) (a : Phase × Core) : Prop where
  store : StoreAt a
  timers : TimersOk a.2
  qty : QtyAt cfg w r a

/-- No order has been placed yet. -/
structure Fresh (s : Core) : Prop where
  pool : s.pool = OMSOrderPool.init
  timers : s.timerWheel.active = []

/-- The calls the invariants are about: well-formed, answered by a sound router, and with every
venue's lot a multiple of the canonical lot. -/
structure Call.Admissible (cfg : ExecCoreConfig) (r : ℕ → ℕ → ℕ) (w : World) (c : Call) (s : Core) :
    Prop where
  wellFormed : c.WellFormed s
  scaled : c.Scaled cfg r w s
  sound : w.router.Sound

def Event.Admissible (cfg : ExecCoreConfig) (r : ℕ → ℕ → ℕ) : Event → Core → Prop
  | .call w c, s => c.Admissible cfg r w s
  | .env _, _ => True

variable {cfg : ExecCoreConfig} {w : World} {r : ℕ → ℕ → ℕ} {s : Core}

theorem fresh_init (cfg : ExecCoreConfig) (now : ℕ) : Fresh (Core.init cfg now) := ⟨rfl, rfl⟩

theorem Fresh.parentInUse (h : Fresh s) (p : ℕ) : ¬ s.pool.ParentInUse p := by
  rw [h.pool]
  exact FreeStack.not_inUse_init _ p

theorem Fresh.healthy (h : Fresh s) : Healthy r s := by
  refine ⟨by rw [h.pool]; exact storeInv_init, ⟨by rw [h.timers]; simp, ?_⟩,
    fun p hp => absurd hp (h.parentInUse p)⟩
  rw [TimerWheel.Distinct, h.timers]
  exact List.nodup_nil

theorem entered_healthy (hsound : w.router.Sound) {c : Call} {a : Phase × Core}
    (h : Entered cfg w s c a) (hscaled : c.Scaled cfg r w s) (hs : Healthy r s) :
    HealthyAt cfg w r a :=
  ⟨entered_store h hs.store, entered_timers h hs.store hs.timers,
    entered_qty hsound h hscaled hs.store hs.qty⟩

theorem micro_healthy (hsound : w.router.Sound) {a b : Phase × Core} (h : Micro cfg w a b)
    (ha : HealthyAt cfg w r a) : HealthyAt cfg w r b :=
  ⟨micro_store h ha.store, micro_timers h ha.store (ha.qty.closeSafe ha.store) ha.timers,
    micro_qty hsound h ha.store ha.qty⟩

theorem HealthyAt.idle {a : Phase × Core} (h : HealthyAt cfg w r a) (hphase : a.1 = .idle) :
    Healthy r a.2 := by
  obtain ⟨phase, s⟩ := a
  obtain rfl := hphase
  exact ⟨h.store, h.timers, h.qty.1⟩

theorem Call.Admissible.entered {c : Call} (h : c.Admissible cfg r w s) (hs : Healthy r s) :
    Entered cfg w s c (c.entry cfg w s) :=
  entered_of_wellFormed hs.store hs.timers h.wellFormed

theorem call_healthy {c : Call} (h : c.Admissible cfg r w s) (hs : Healthy r s) :
    Healthy r (c.apply cfg w s) :=
  HealthyAt.idle (call_invariant (HealthyAt cfg w r) c (fun _ _ hm ha => micro_healthy h.sound hm ha)
    (entered_healthy h.sound (h.entered hs) h.scaled hs)) rfl

theorem SameBooks.healthy {s' : Core} (h : SameBooks s s') (hs : Healthy r s) : Healthy r s' :=
  ⟨by rw [h.pool]; exact hs.store, h.timers hs.timers, by rw [h.pool]; exact hs.qty⟩

theorem step_healthy {e : Event} (hs : Healthy r s) (h : e.Admissible cfg r s) :
    Healthy r (step cfg e s) := by
  cases e with
  | call w c => exact call_healthy h hs
  | env e => exact (e.apply_sameBooks s).healthy hs

theorem run_healthy {evs : List Event} (hs : Healthy r s)
    (h : Along (step cfg) (Event.Admissible cfg r) s evs) : Healthy r (run (step cfg) s evs) :=
  h.invariant (Healthy r) (fun _ _ hs he => step_healthy hs he) hs

section Consistency

/-- The order store as the rest of the system relies on it. -/
structure OMSOrderPool.Consistent (pool : OMSOrderPool) : Prop where
  parentsSplit : pool.parentFree.Nodup ∧ (∀ id, ¬ (id ∈ pool.parentFree ∧ pool.ParentInUse id)) ∧
    ∀ id, id < kMaxParentOrders ↔ id ∈ pool.parentFree ∨ pool.ParentInUse id
  childrenSplit : pool.childFree.Nodup ∧ (∀ id, ¬ (id ∈ pool.childFree ∧ pool.ChildInUse id)) ∧
    ∀ id, id < kMaxTotalChildren ↔ id ∈ pool.childFree ∨ pool.ChildInUse id
  placed : ∀ c, pool.ChildInUse c → ∃! x : ℕ × ℕ, pool.ParentInUse x.1 ∧
    (pool.parents x.1).hasChild x.2 = true ∧ (pool.parents x.1).children x.2 = c
  named : ∀ p, pool.ParentInUse p → ∀ slot, (pool.parents p).hasChild slot = true →
    pool.ChildInUse ((pool.parents p).children slot) ∧
    (pool.children ((pool.parents p).children slot)).parentId = p
  counted : ∀ p, pool.ParentInUse p → (pool.parents p).childCount = (pool.parents p).slots.length ∧
    (pool.parents p).childCount ≤ ParentOrder.kMaxChildrenPerParent
  alive : ∀ p, pool.ParentInUse p → ∃ slot, (pool.parents p).hasChild slot = true ∧
    (pool.children ((pool.parents p).children slot)).state.terminal = false

theorem freeStack_split {cap : ℕ} {free : List ℕ} (h : FreeStack.Valid cap free) :
    free.Nodup ∧ (∀ id, ¬ (id ∈ free ∧ FreeStack.InUse cap free id)) ∧
    ∀ id, id < cap ↔ id ∈ free ∨ FreeStack.InUse cap free id := by
  refine ⟨h.nodup, fun id hid => hid.2.2 hid.1, fun id => ⟨fun hlt => ?_, fun hor => ?_⟩⟩
  · by_cases hmem : id ∈ free
    · exact Or.inl hmem
    · exact Or.inr ⟨hlt, hmem⟩
  · exact hor.elim (h.bound id) fun hu => hu.1

theorem mem_childIds_iff {p : ParentOrder} (hp : p.Packed) (c : ℕ) :
    c ∈ p.childIds ↔ ∃ slot, p.hasChild slot = true ∧ p.children slot = c := by
  rw [ParentOrder.childIds_of_packed hp, List.mem_map]
  simp only [List.mem_range, hp.2, decide_eq_true_eq]

/-- Two occupied slots of one parent never hold the same child. -/
theorem slot_unique {p : ParentOrder} (hp : p.Packed) (hn : p.childIds.Nodup) {i j : ℕ}
    (hi : p.hasChild i = true) (hj : p.hasChild j = true) (h : p.children i = p.children j) : i = j := by
  rw [ParentOrder.childIds_of_packed hp] at hn
  rw [hp.2, decide_eq_true_eq] at hi hj
  exact List.inj_on_of_nodup_map hn (List.mem_range.mpr hi) (List.mem_range.mpr hj) h

theorem OMSOrderPool.StoreInv.consistent {pool : OMSOrderPool} (h : StoreInv Quiet pool) :
    pool.Consistent := by
  have hnamed (p : ℕ) (hu : pool.ParentInUse p) (slot : ℕ)
      (hslot : (pool.parents p).hasChild slot = true) :
      pool.ChildInUse ((pool.parents p).children slot) ∧
      (pool.children ((pool.parents p).children slot)).parentId = p :=
    (h.ok p).owned hu _ ((mem_childIds_iff ((h.ok p).packed hu) _).mpr ⟨slot, hslot, rfl⟩)
  refine ⟨freeStack_split h.parentFree, freeStack_split h.childFree, ?_, hnamed, ?_, ?_⟩
  · intro c hc
    obtain ⟨hu, hmem⟩ := (h.ok _).owner c hc rfl
    obtain ⟨slot, hslot, hcs⟩ := (mem_childIds_iff ((h.ok _).packed hu) c).mp hmem
    refine ⟨((pool.children c).parentId, slot), ⟨hu, hslot, hcs⟩, ?_⟩
    rintro ⟨q, slot'⟩ ⟨hqu, hqslot, hqc⟩
    simp only at hqu hqslot hqc
    have hq : (pool.children c).parentId = q := by
      rw [← hqc]
      exact (hnamed q hqu slot' hqslot).2
    subst hq
    rw [slot_unique ((h.ok _).packed hu) ((h.ok _).nodup hu) hqslot hslot (hqc.trans hcs.symm)]
  · intro p hu
    have hp := (h.ok p).packed hu
    exact ⟨by rw [ParentOrder.slots_of_packed hp, List.length_range], hp.1⟩
  · intro p hu
    obtain ⟨c, hc, hw⟩ := h.alive p hu id
    obtain ⟨slot, hslot, rfl⟩ := (mem_childIds_iff ((h.ok p).packed hu) c).mp hc
    exact ⟨slot, hslot, OrderState.not_terminal_of_working hw⟩

/-- The store is consistent after every run from a fresh core. -/
theorem run_consistent {evs : List Event} (h0 : Fresh s)
    (h : Along (step cfg) (Event.Admissible cfg r) s evs) : (run (step cfg) s evs).pool.Consistent :=
  (run_healthy h0.healthy h).store.consistent

theorem Sample.scaled (depth : ℤ) (instr : ℕ) : (world depth).Scaled config (fun _ _ => 1) instr := by
  refine ⟨fun _ => ?_, fun _ => le_rfl⟩
  simp [world, venue, config, InstrumentTable.lotSize, InstrumentTable.kFallbackLotSize]

theorem Sample.sound (depth : ℤ) : (world depth).router.Sound := router_sound engine

theorem Sample.fresh (net : ℤ) : Fresh (start net) := ⟨rfl, rfl⟩

/-- After a short run the free list is what the run gave back, then the ids never used. -/
theorem Sample.childLive {s : Core} {cid : ℕ} (front : List ℕ) (k n : ℕ)
    (hfree : s.pool.childFree = front ++ List.range' k n) (hfront : cid ∉ front)
    (hid : cid < k) (hbound : cid < kMaxTotalChildren)
    (hstate : (s.pool.children cid).state.terminal = false) : s.pool.ChildLive cid := by
  refine ⟨⟨hbound, ?_⟩, hstate⟩
  rw [hfree, List.mem_append, List.mem_range'_1]
  rintro (hmem | hmem)
  · exact hfront hmem
  · omega

/-- The only child so far. -/
theorem Sample.firstChildLive {s : Core} (hfree : s.pool.childFree = List.range' 1 32767)
    (hstate : (s.pool.children 0).state.terminal = false) : s.pool.ChildLive 0 :=
  childLive [] 1 32767 hfree (by decide) (by decide) (by decide) hstate

def Sample.partialFillRun : List Event :=
  [.call (world 9) (.signal (signal .buy 4 false)), .call (world 9) (.report (report 0 .partialFill 1))]

theorem Sample.partialFill_admissible :
    Along (step config) (Event.Admissible config fun _ _ => 1) (start 0) partialFillRun := by
  refine ⟨⟨by decide, fun _ => scaled 9 _, sound 9⟩, ⟨⟨?_, ?_⟩, fun _ _ => scaled 9 _, sound 9⟩, trivial⟩
  · refine firstChildLive ?_ ?_ <;> with_unfolding_all rfl
  · intro _
    decide +kernel

theorem run_consistent_partialFill :
    (run (step Sample.config) (Sample.start 0) Sample.partialFillRun).pool.ParentInUse 0 ∧
    (run (step Sample.config) (Sample.start 0) Sample.partialFillRun).pool.Consistent :=
  ⟨by decide +kernel, run_consistent (Sample.fresh 0) Sample.partialFill_admissible⟩

end Consistency

section Timers

/-- Every armed timer watches a live child, and no child is watched twice, after any number of
calls and of single positions of a slot scan. -/
theorem run_timers_live {evs : List Event} (h0 : Fresh s)
    (h : Along (step cfg) (Event.Admissible cfg r) s evs) :
    (∀ e ∈ (run (step cfg) s evs).timerWheel.active, (run (step cfg) s evs).pool.ChildLive e.childId) ∧
    ((run (step cfg) s evs).timerWheel.active.map TimerEntry.childId).Nodup := by
  have ht := (run_healthy h0.healthy h).timers
  exact ⟨fun e he => ⟨(ht.live e he).1, OrderState.not_terminal_of_working (ht.live e he).2⟩, ht.distinct⟩

/-- An order that times out is sent again under a recycled id, inside the scan of its own slot. -/
theorem run_timers_live_expired :
    let s := run (step Sample.config) (Sample.start 0)
      [.call (Sample.world 9) (.signal (Sample.signal .buy 4 false)),
       .call (Sample.world 9) (.visit 2000 0)]
    s.timerWheel.active.map TimerEntry.childId = [0] ∧
    (∀ e ∈ s.timerWheel.active, s.pool.ChildLive e.childId) ∧
    (s.timerWheel.active.map TimerEntry.childId).Nodup := by
  refine ⟨by with_unfolding_all rfl, ?_⟩
  refine run_timers_live (r := fun _ _ => 1) (Sample.fresh 0) ⟨⟨?_, ?_, ?_⟩, ⟨trivial, ?_, ?_⟩, trivial⟩
  · decide +kernel
  · exact fun _ => Sample.scaled 9 _
  · exact Sample.sound 9
  · exact fun _ _ => Sample.scaled 9 _
  · exact Sample.sound 9

end Timers

end OmsFormal.Oms
