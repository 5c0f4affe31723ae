import OmsFormal.DispatchCases
import OmsFormal.TimerSlots

/-!
# What a call leaves alone

All orders share one store, one wheel and one table of positions. A call works
on behalf of one parent, and the only children it uses are the ones that parent
lists and the free ones. No invariant of the store is needed to see that; which
children those are is then a matter of who owns what.
-/

namespace OmsFormal.Oms
open Sor Rounding OMSOrderPool
set_option autoImplicit false

def TimerWheel.entriesOf (wheel : TimerWheel) (c : ℕ) : List TimerEntry :=
  wheel.active.filter fun e => decide (e.childId = c)

/-- A child a call for parent `pid` may use: a free one, or one that the parent lists. -/
def OMSOrderPool.Usable (pool : OMSOrderPool) (pid c : ℕ) : Prop :=
  c ∈ pool.childFree ∨ c ∈ (pool.parents pid).childIds

/-- Nothing changed but parent `pid`, the children it may use, and its instrument's position. -/
structure Touches (pid : ℕ) (s s' : Core) : Prop where
  parents : ∀ q, q ≠ pid → s'.pool.parents q = s.pool.parents q
  parentFree : ∀ q ∈ s'.pool.parentFree, q = (s.pool.parents pid).parentId ∨ q ∈ s.pool.parentFree
  children : ∀ c, ¬ s.pool.Usable pid c → s'.pool.children c = s.pool.children c
  usable : ∀ c, s'.pool.Usable pid c → s.pool.Usable pid c
  timers : ∀ c, ¬ s.pool.Usable pid c → s'.timerWheel.entriesOf c = s.timerWheel.entriesOf c
  ownId : (s'.pool.parents pid).parentId = (s.pool.parents pid).parentId
  instr : (s'.pool.parents pid).instrId = (s.pool.parents pid).instrId
  positions : ∀ i, i ≠ (s.pool.parents pid).instrId → s'.pos.instruments i = s.pos.instruments i

variable {cfg : ExecCoreConfig} {w : World} {pid : ℕ} {s s' : Core}

section Wheel
variable {wheel : TimerWheel}

theorem TimerWheel.insert_entriesOf {c cid : ℕ} (now timeout : ℕ) (h : c ≠ cid) :
    (wheel.insert cid now timeout).2.entriesOf c = wheel.entriesOf c := by
  simp only [TimerWheel.insert]
  split
  · rfl
  · simp [entriesOf, h.symm]

theorem TimerWheel.deactivate_entriesOf {c : ℕ} {e : TimerEntry} (h : e.childId ≠ c) :
    (wheel.deactivate e).entriesOf c = wheel.entriesOf c := by
  unfold deactivate entriesOf
  induction wheel.active with
  | nil => rfl
  | cons x xs ih =>
    by_cases hx : x = e
    · subst hx
      simp [h]
    · rw [List.erase_cons_tail (by simpa using hx), List.filter_cons, List.filter_cons, ih]

theorem TimerWheel.cancel_entriesOf {c cid : ℕ} (h : c ≠ cid) :
    (wheel.cancel cid).entriesOf c = wheel.entriesOf c := by
  rcases TimerWheel.cancel_cases cid wheel with ⟨hsame, _⟩ | ⟨e, _, hec, hcancel⟩
  · rw [hsame]
  · rw [hcancel]
    exact deactivate_entriesOf (by rw [hec]; exact h.symm)

end Wheel

section Touches

theorem Touches.refl (pid : ℕ) (s : Core) : Touches pid s s :=
  ⟨fun _ _ => rfl, fun _ h => Or.inr h, fun _ _ => rfl, fun _ h => h, fun _ _ => rfl, rfl, rfl,
    fun _ _ => rfl⟩

theorem Touches.trans {s'' : Core} (h : Touches pid s s') (h' : Touches pid s' s'') : Touches pid s s'' := by
  have hout (c : ℕ) (hc : ¬ s.pool.Usable pid c) : ¬ s'.pool.Usable pid c := fun hu => hc (h.usable c hu)
  refine ⟨fun q hq => ?_, fun q hq => ?_, fun c hc => ?_, fun c hc => h.usable c (h'.usable c hc),
    fun c hc => ?_, h'.ownId.trans h.ownId, h'.instr.trans h.instr, fun i hi => ?_⟩
  · rw [h'.parents q hq, h.parents q hq]
  · rw [← h.ownId]
    exact (h'.parentFree q hq).elim Or.inl fun hold => by rw [h.ownId]; exact h.parentFree q hold
  · rw [h'.children c (hout c hc), h.children c hc]
  · rw [h'.timers c (hout c hc), h.timers c hc]
  · rw [h'.positions i (by rw [h.instr]; exact hi), h.positions i hi]

/-- A change of the parent's record that keeps its ids and gives it no further children. -/
theorem Touches.of_record (rec : ParentOrder)
    (hrec : s'.pool.parents = Function.update s.pool.parents pid rec)
    (hown : rec.parentId = (s.pool.parents pid).parentId)
    (hinstr : rec.instrId = (s.pool.parents pid).instrId)
    (hids : ∀ c ∈ rec.childIds, c ∈ (s.pool.parents pid).childIds)
    (hidle : ∀ q ∈ s'.pool.parentFree, q = (s.pool.parents pid).parentId ∨ q ∈ s.pool.parentFree)
    (hfree : ∀ c ∈ s'.pool.childFree, s.pool.Usable pid c)
    (hchildren : s'.pool.children = s.pool.children) (hwheel : s'.timerWheel = s.timerWheel)
    (hpos : ∀ i, i ≠ (s.pool.parents pid).instrId → s'.pos.instruments i = s.pos.instruments i) :
    Touches pid s s' := by
  have hself : s'.pool.parents pid = rec := by rw [hrec, Function.update_self]
  refine ⟨fun q hq => ?_, hidle, fun c _ => by rw [hchildren], fun c hc => ?_, fun c _ => by rw [hwheel],
    by rw [hself, hown], by rw [hself, hinstr], hpos⟩
  · rw [hrec, Function.update_of_ne hq]
  · refine hc.elim (hfree c) fun hmem => Or.inr (hids c ?_)
    rw [hself] at hmem
    exact hmem

theorem modify_other (pos : PositionTable) {i j : ℕ} (f : InstrumentPosition → InstrumentPosition)
    (h : j ≠ i) : (pos.modify i f).instruments j = pos.instruments j := Function.update_of_ne h _ _

theorem setParentState_touches (st : OrderState) : Touches pid s (s.setParentState pid st) :=
  .of_record _ rfl rfl rfl (fun _ => id) (fun _ => Or.inr) (fun _ => Or.inl) rfl rfl fun _ _ => rfl

theorem closeFilled_touches : Touches pid s (closeFilled pid s) := by
  refine .of_record { s.pool.parents pid with state := .filled } ?_ rfl rfl (fun _ => id)
    (fun q hq => ?_) (fun c hc => ?_) ?_ rfl fun _ _ => rfl
  · simp [closeFilled, Core.setParentState]
  · simpa [closeFilled, Core.setParentState] using hq
  · simp only [closeFilled, Core.setParentState, freeParent_childFree, freeSlots_childFree,
      List.filter_true, List.mem_append, List.mem_reverse, modifyParent_childFree] at hc
    exact hc.symm
  · simp [closeFilled, Core.setParentState]

theorem closeUnfilled_touches (reason : RejectReason) : Touches pid s (closeUnfilled w pid reason s) :=
  .of_record _ rfl rfl rfl (fun _ => id) (fun _ => List.mem_cons.mp) (fun _ => Or.inl) rfl rfl
    fun _ _ => rfl

theorem closeReduceOnlyDone_touches : Touches pid s (closeReduceOnlyDone pid s) :=
  .of_record _ rfl rfl rfl (fun _ => id) (fun _ => List.mem_cons.mp) (fun _ => Or.inl) rfl rfl
    fun _ _ => rfl

theorem trimmed_touches : Touches pid s (trimmed pid s) := by
  have heq : trimmed pid s = _ := trimmed_eq s
  refine .of_record ((trimmed pid s).pool.parents pid) ?_ ?_ ?_ (fun c hc => ?_) (fun q hq => ?_)
    (fun c hc => ?_) ?_ (by rw [heq]) fun i hi => ?_
  · rw [heq]
    simp [releaseChildren]
  · rw [trimmed_record]
    rfl
  · rw [trimmed_record]
    rfl
  · rw [trimmed_record, childIds_of_noMask rfl] at hc
    cases hc
  · rw [heq] at hq
    exact Or.inr (by simpa [releaseChildren] using hq)
  · rw [heq] at hc
    simp only [releaseChildren, modifyParent_childFree, freeSlots_childFree, List.mem_append,
      List.mem_reverse, List.mem_filter] at hc
    exact hc.symm.imp_right fun h => h.1
  · rw [heq]
    simp [releaseChildren]
  · rw [heq]
    exact modify_other s.pos _ hi

theorem releaseGap_touches (ctx : RoutingContext) (rest : List ChildOrder) :
    Touches pid s (releaseGap pid ctx rest s) := by
  refine .of_record (s.pool.parents pid) ?_ rfl rfl (fun _ => id) ?_ ?_ ?_
    (releaseGap_timerWheel ctx rest) fun i hi => ?_
  · rw [releaseGap_pool, Function.update_eq_self]
  · rw [releaseGap_pool]
    exact fun _ => Or.inr
  · rw [releaseGap_pool]
    exact fun _ => Or.inl
  · rw [releaseGap_pool]
  · unfold releaseGap
    split
    · exact modify_other s.pos _ hi
    · rfl

theorem ParentOrder.mem_addChild {p : ParentOrder} {slot cid c : ℕ} (h : c ∈ (p.addChild slot cid).childIds) :
    c = cid ∨ c ∈ p.childIds := by
  simp only [childIds, slots, List.mem_map, List.mem_filter, List.mem_range] at h ⊢
  obtain ⟨i, ⟨hi, hhas⟩, rfl⟩ := h
  by_cases his : i = slot
  · subst his
    exact Or.inl (Function.update_self _ _ _)
  · refine Or.inr ⟨i, ⟨hi, ?_⟩, (Function.update_of_ne his _ _).symm⟩
    simpa [hasChild, addChild, BitVec.getLsbD_or, BitVec.getLsbD_twoPow, Ne.symm his] using hhas

theorem sendChild_touches {ctx : RoutingContext} {cid : ℕ} {free : List ℕ} {co : ChildOrder}
    (hfree : s.pool.childFree = cid :: free) : Touches pid s (sendChild cfg w pid ctx cid free co s) := by
  have hcid : s.pool.Usable pid cid := Or.inl (by rw [hfree]; exact List.mem_cons_self)
  refine ⟨fun q hq => Function.update_of_ne hq _ _, fun _ => Or.inr, fun c hc => ?_, fun c hc => ?_,
    fun c hc => ?_, ?_, ?_, fun _ _ => rfl⟩
  · exact Function.update_of_ne (fun he : c = cid => hc (he ▸ hcid)) _ _
  · rcases hc with hmem | hmem
    · refine Or.inl ?_
      rw [hfree]
      exact List.mem_cons_of_mem cid hmem
    · simp only [sendChild, attachChild, Function.update_self] at hmem
      rcases ParentOrder.mem_addChild hmem with rfl | hold
      · exact hcid
      · exact Or.inr hold
  · exact TimerWheel.insert_entriesOf _ _ fun he : c = cid => hc (he ▸ hcid)
  · simp [sendChild, attachChild, ParentOrder.addChild]
  · simp [sendChild, attachChild, ParentOrder.addChild]

theorem allocFailed_touches (h : s.pool.childFree = []) :
    Touches pid s { s with pool := s.pool.allocChild.2 } := by
  have hpool : s.pool.allocChild.2 =
      { s.pool with childAllocFailures := s.pool.childAllocFailures + 1 } := by
    simp only [allocChild, h]
  simp only [hpool]
  exact .of_record _ (Function.update_eq_self _ _).symm rfl rfl (fun _ => id) (fun _ => Or.inr)
    (fun _ => Or.inl) rfl rfl fun _ _ => rfl

theorem micro_touches {a b : Phase × Core} (h : Micro cfg w a b) : Touches a.1.pid a.2 b.2 := by
  cases h with
  | mark => exact setParentState_touches _
  | close => exact closeFilled_touches
  | keep => exact .refl _ _
  | trim => exact trimmed_touches
  | reduced => exact closeReduceOnlyDone_touches
  | noLiquidity => exact closeUnfilled_touches _
  | route => exact setParentState_touches _
  | send hroom hfree => exact sendChild_touches hfree
  | allocFailed hfree => exact allocFailed_touches hfree
  | sent => exact releaseGap_touches _ _
  | noneSent => exact (releaseGap_touches _ _).trans (closeUnfilled_touches _)

/-- The small steps of a call touch the parent of its entry only. -/
theorem steps_touches {a b : Phase × Core} (h : Steps cfg w a b) : Touches a.1.pid a.2 b.2 := by
  have hend := h.invariant (J := fun b => Touches a.1.pid a.2 b.2 ∧ (b.1 ≠ .idle → b.1.pid = a.1.pid))
    (fun b c hmicro hb => ?_) ⟨.refl _ _, fun _ => rfl⟩
  · exact hend.1
  · have htouch := micro_touches hmicro
    have hpid := hb.2 hmicro.not_idle
    rw [hpid] at htouch
    exact ⟨hb.1.trans htouch, fun hidle => (hmicro.pid_eq hidle).trans hpid⟩

/-- An entry for parent `pid` that stays within its reach. -/
def EntryTouches (pid : ℕ) (s : Core) (a : Phase × Core) : Prop :=
  Touches pid s a.2 ∧ (a.1 ≠ .idle → a.1.pid = pid)

theorem EntryTouches.call {c : Call} (h : EntryTouches pid s (c.entry cfg w s)) :
    Touches pid s (c.apply cfg w s) := by
  have hsteps : Steps cfg w (c.entry cfg w s) (.idle, c.apply cfg w s) := call_steps c
  by_cases hidle : (c.entry cfg w s).1 = .idle
  · rw [call_of_idle (Prod.ext hidle rfl)]
    exact h.1
  · have hrest := steps_touches hsteps
    rw [h.2 hidle] at hrest
    exact h.1.trans hrest

end Touches

section Entries
variable {cid : ℕ}

/-- Booking a report for child `cid` of parent `pid` disarms the child and rewrites the two records. -/
theorem booked_touches {f : ChildOrderState → ChildOrderState} {g : ParentOrder → ParentOrder}
    (hcid : s.pool.Usable pid cid)
    (hpool : s'.pool = (s.pool.modifyChild cid f).modifyParent pid g)
    (hslots : ∀ p, ParentOrder.SameSlots p (g p))
    (hwheel : s'.timerWheel = s.timerWheel.cancel cid)
    (hpos : ∀ i, i ≠ (s.pool.parents pid).instrId → s'.pos.instruments i = s.pos.instruments i) :
    Touches pid s s' := by
  have hself : s'.pool.parents pid = g (s.pool.parents pid) := by
    rw [hpool, modifyParent_parents, Function.update_self, modifyChild_parents]
  have hne (c : ℕ) (hc : ¬ s.pool.Usable pid c) : c ≠ cid := fun h => hc (h ▸ hcid)
  refine ⟨fun q hq => ?_, fun q hq => ?_, fun c hc => ?_, fun c hc => ?_, fun c hc => ?_,
    by rw [hself, (hslots _).parentId], by rw [hself, (hslots _).instrId], hpos⟩
  · rw [hpool]
    exact Function.update_of_ne hq _ _
  · rw [hpool] at hq
    exact Or.inr hq
  · rw [hpool]
    exact Function.update_of_ne (hne c hc) _ _
  · rw [Usable, hself, (hslots _).childIds, hpool] at hc
    exact hc
  · rw [hwheel]
    exact TimerWheel.cancel_entriesOf (hne c hc)

theorem bookFill_touches {rep : ExecutionReport} (hcid : s.pool.Usable pid cid)
    (hid : (s.pool.children cid).childId = cid) : Touches pid s (bookFill cfg w cid pid rep s) := by
  refine booked_touches hcid (bookFill_pool cid pid rep) (fun _ => ⟨rfl, rfl, rfl, rfl, rfl⟩) ?_
    fun i hi => Function.update_of_ne hi _ _
  exact congrArg (fun c => s.timerWheel.cancel c) hid

theorem bookCancel_touches {rep : ExecutionReport} (hcid : s.pool.Usable pid cid)
    (hid : (s.pool.children cid).childId = cid) : Touches pid s (bookCancel cfg w cid pid rep s) := by
  refine booked_touches hcid (bookCancel_pool cid pid rep) (fun _ => ⟨rfl, rfl, rfl, rfl, rfl⟩) ?_
    fun i hi => Function.update_of_ne hi _ _
  exact congrArg (fun c => s.timerWheel.cancel c) hid

theorem acknowledge_touches (hcid : s.pool.Usable pid cid) : Touches pid s (acknowledge cid s) :=
  ⟨fun _ _ => rfl, fun _ => Or.inr,
    fun c hc => Function.update_of_ne (fun h : c = cid => hc (h ▸ hcid)) _ _,
    fun _ h => h, fun _ _ => rfl, rfl, rfl, fun _ _ => rfl⟩

theorem reportEntry_touches (rep : ExecutionReport)
    (hcid : s.pool.Usable (s.parentOf rep.childId) rep.childId)
    (hid : (s.pool.children rep.childId).childId = rep.childId) :
    EntryTouches (s.parentOf rep.childId) s (reportEntry cfg w rep s) := by
  have hidle {s' : Core} (h : Touches (s.parentOf rep.childId) s s') :
      EntryTouches (s.parentOf rep.childId) s (.idle, s') := ⟨h, fun hne => absurd rfl hne⟩
  simp only [reportEntry]
  split
  · exact hidle (.refl _ _)
  · cases rep.execType with
    | new => exact hidle (acknowledge_touches hcid)
    | partialFill => exact ⟨bookFill_touches hcid hid, fun _ => rfl⟩
    | fill => exact ⟨bookFill_touches hcid hid, fun _ => rfl⟩
    | canceled => exact ⟨bookCancel_touches hcid hid, fun _ => rfl⟩
    | rejected => exact ⟨bookCancel_touches hcid hid, fun _ => rfl⟩
    | replaced => exact hidle (.refl _ _)

/-- A timer is taken off the ring, whatever becomes of its child. -/
theorem timeoutEntry_touches {e : TimerEntry} (hcid : s.pool.Usable (s.parentOf e.childId) e.childId)
    (hid : (s.pool.children e.childId).childId = e.childId) :
    EntryTouches (s.parentOf e.childId) s
      (timeoutEntry cfg w e.childId (s.setWheel (s.timerWheel.deactivate e))) := by
  have hoff : Touches (s.parentOf e.childId) s (s.setWheel (s.timerWheel.deactivate e)) :=
    ⟨fun _ _ => rfl, fun _ => Or.inr, fun _ _ => rfl, fun _ h => h,
      fun c hc => TimerWheel.deactivate_entriesOf fun h => hc (h ▸ hcid), rfl, rfl, fun _ _ => rfl⟩
  simp only [timeoutEntry]
  split
  · have hrep := @reportEntry_touches cfg w (s.setWheel (s.timerWheel.deactivate e))
      (timeoutReport e.childId (s.pool.children e.childId)) hcid hid
    exact ⟨hoff.trans hrep.1, hrep.2⟩
  · exact ⟨hoff, fun h => absurd rfl h⟩

end Entries

end OmsFormal.Oms
