import OmsFormal.LiveTimers

/-!
# What a well-formed call books

`Entered` lists the states in which a well-formed call leaves its entry: a
refused or an admitted signal, a booked fill or cancel, an acknowledgement, an
expired timer. Store and timer invariants survive each of them, and with the
small steps of `micro_store` and `micro_timers` they survive the whole call.
-/

namespace OmsFormal.Oms
open Sor Rounding OMSOrderPool
set_option autoImplicit false

def ExecType.isFill : ExecType → Bool
  | .partialFill => true
  | .fill => true
  | _ => false

def ExecType.isEnd : ExecType → Bool
  | .canceled => true
  | .rejected => true
  | _ => false

/-- A signal asks for at least one lot, and a report names a live child; a fill is within what
that child has left. -/
def Call.WellFormed : Call → Core → Prop
  | .signal sig, _ => 1 ≤ sig.qtyLots
  | .report rep, s => s.pool.ChildLive rep.childId ∧
      (rep.execType.isFill = true → 1 ≤ rep.fillQtyLots ∧
        rep.fillQtyLots ≤ (s.pool.children rep.childId).leavesQtyLots)
  | .visit _ _, _ => True

instance (c : Call) (s : Core) : Decidable (c.WellFormed s) :=
  match c with
  | .signal sig => inferInstanceAs (Decidable (1 ≤ sig.qtyLots))
  | .report _ => inferInstanceAs (Decidable (_ ∧ (_ → _)))
  | .visit _ _ => inferInstanceAs (Decidable True)

def Core.parentOf (s : Core) (cid : ℕ) : ℕ := (s.pool.children cid).parentId

/-- The entries of a well-formed call. -/
inductive Entered (cfg : ExecCoreConfig) (w : World) (s : Core) : Call → Phase × Core → Prop
  | refused {sig : StrategyOrderSignal} {s' : Core} (h : Refused w sig s s')
      (hflow : signalFlow cfg w sig s = .finished s') :
      Entered cfg w s (.signal sig) (.idle, s')
  | admitted {sig : StrategyOrderSignal} {pid : ℕ} {free : List ℕ}
      (hpos : 1 ≤ sig.qtyLots) (hfree : s.pool.parentFree = pid :: free)
      (hinstr : sig.instrId < kMaxInstruments) (hqty : effectiveQty sig s.pos ≠ 0)
      (hsplit : signalSplit w sig (admittedContext cfg w sig pid free s) ≠ [])
      (hflow : signalFlow cfg w sig s = .dispatching (reserved w sig pid free s) pid
        (signalSplit w sig (admittedContext cfg w sig pid free s))
        (admittedContext cfg w sig pid free s)) :
      Entered cfg w s (.signal sig)
        (.sending pid (admittedContext cfg w sig pid free s)
          (signalSplit w sig (admittedContext cfg w sig pid free s)), reserved w sig pid free s)
  | filled {rep : ExecutionReport} (hlive : s.pool.ChildLive rep.childId)
      (hkind : rep.execType.isFill = true) (hmin : 1 ≤ rep.fillQtyLots)
      (hmax : rep.fillQtyLots ≤ (s.pool.children rep.childId).leavesQtyLots) :
      Entered cfg w s (.report rep) (.booked (s.parentOf rep.childId),
        bookFill cfg w rep.childId (s.parentOf rep.childId) rep s)
  | ended {rep : ExecutionReport} (hlive : s.pool.ChildLive rep.childId)
      (hkind : rep.execType.isEnd = true) :
      Entered cfg w s (.report rep) (.booked (s.parentOf rep.childId),
        bookCancel cfg w rep.childId (s.parentOf rep.childId) rep s)
  | acknowledged {rep : ExecutionReport} (hlive : s.pool.ChildLive rep.childId)
      (hkind : rep.execType = .new) : Entered cfg w s (.report rep) (.idle, acknowledge rep.childId s)
  | ignored {rep : ExecutionReport} (hkind : rep.execType = .replaced) : Entered cfg w s (.report rep)
      (.idle, s)
  | expired {slot idx : ℕ} {e : TimerEntry} (he : s.timerWheel.entryAt slot idx = some e)
      (hlive : s.pool.ChildLive e.childId) :
      Entered cfg w s (.visit slot idx) (.booked (s.parentOf e.childId),
        bookCancel cfg w e.childId (s.parentOf e.childId)
          (timeoutReport e.childId (s.pool.children e.childId))
          (s.setWheel (s.timerWheel.deactivate e)))
  | unarmed {slot idx : ℕ} (h : s.timerWheel.entryAt slot idx = none) :
      Entered cfg w s (.visit slot idx) (.idle, s)

variable {cfg : ExecCoreConfig} {w : World} {s : Core} {c : Call}

theorem OMSOrderPool.StoreInv.parentOf_inUse {idle : ℕ → Prop} (hinv : StoreInv idle s.pool) {cid : ℕ}
    (hc : s.pool.ChildInUse cid) : s.pool.ParentInUse (s.parentOf cid) :=
  ((hinv.ok (s.parentOf cid)).owner cid hc rfl).1

theorem OMSOrderPool.StoreInv.mem_childIds {idle : ℕ → Prop} (hinv : StoreInv idle s.pool) {cid : ℕ}
    (hc : s.pool.ChildInUse cid) : cid ∈ (s.pool.parents (s.parentOf cid)).childIds :=
  ((hinv.ok (s.parentOf cid)).owner cid hc rfl).2

theorem OMSOrderPool.StoreInv.working_of_live {idle : ℕ → Prop} (hinv : StoreInv idle s.pool) {cid : ℕ}
    (h : s.pool.ChildLive cid) : (s.pool.children cid).state.working = true := by
  rcases (hinv.ok (s.parentOf cid)).settled cid h.1 rfl with hw | ht
  · exact hw
  · rw [h.2] at ht
    cases ht

theorem reportEntry_eq (cfg : ExecCoreConfig) (w : World) (rep : ExecutionReport)
    (hinv : StoreInv Quiet s.pool)
    (hc : s.pool.ChildInUse rep.childId) :
    reportEntry cfg w rep s =
      match rep.execType with
      | .partialFill => (.booked (s.parentOf rep.childId),
          bookFill cfg w rep.childId (s.parentOf rep.childId) rep s)
      | .fill => (.booked (s.parentOf rep.childId),
          bookFill cfg w rep.childId (s.parentOf rep.childId) rep s)
      | .canceled => (.booked (s.parentOf rep.childId),
          bookCancel cfg w rep.childId (s.parentOf rep.childId) rep s)
      | .rejected => (.booked (s.parentOf rep.childId),
          bookCancel cfg w rep.childId (s.parentOf rep.childId) rep s)
      | .new => (.idle, acknowledge rep.childId s)
      | .replaced => (.idle, s) := by
  have hcid : rep.childId < kMaxTotalChildren := hc.1
  have hpid : s.parentOf rep.childId < kMaxParentOrders := (hinv.parentOf_inUse hc).1
  unfold reportEntry
  rw [if_neg]
  · rfl
  · exact not_or.mpr ⟨Nat.not_le.mpr hcid, Nat.not_le.mpr hpid⟩

/-- A well-formed call in a state with a sound store and sound timers books one of the listed
entries. -/
theorem entered_of_wellFormed (hinv : StoreInv Quiet s.pool) (ht : TimersOk s)
    (hwf : c.WellFormed s) : Entered cfg w s c (c.entry cfg w s) := by
  cases c with
  | signal sig =>
    simp only [Call.entry]
    rcases signal_cases cfg w sig s with ⟨s', hflow, href⟩ | ⟨pid, free, hfree, hinstr, hqty, hsplit, hflow⟩
    · rw [hflow]
      exact .refused href hflow
    · rw [hflow]
      exact .admitted hwf hfree hinstr hqty hsplit hflow
  | report rep =>
    obtain ⟨hlive, hfill⟩ := hwf
    simp only [Call.entry, reportEntry_eq cfg w rep hinv hlive.1]
    cases hkind : rep.execType with
    | new => exact .acknowledged hlive hkind
    | partialFill =>
      obtain ⟨hmin, hmax⟩ := hfill (by rw [hkind]; rfl)
      exact .filled hlive (by rw [hkind]; rfl) hmin hmax
    | fill =>
      obtain ⟨hmin, hmax⟩ := hfill (by rw [hkind]; rfl)
      exact .filled hlive (by rw [hkind]; rfl) hmin hmax
    | canceled => exact .ended hlive (by rw [hkind]; rfl)
    | rejected => exact .ended hlive (by rw [hkind]; rfl)
    | replaced => exact .ignored hkind
  | visit slot idx =>
    simp only [Call.entry]
    cases hentry : s.timerWheel.entryAt slot idx with
    | none => exact .unarmed hentry
    | some e =>
      obtain ⟨hc, hw⟩ := ht.live e (TimerWheel.entryAt_mem hentry)
      have hpool : (s.setWheel (s.timerWheel.deactivate e)).pool = s.pool := rfl
      simp only [timeoutEntry, hpool, hw, and_true]
      have hreport := reportEntry_eq cfg w (s := s.setWheel (s.timerWheel.deactivate e))
        (timeoutReport e.childId (s.pool.children e.childId)) hinv hc
      rw [if_pos hc.1, hreport]
      exact .expired hentry ⟨hc, OrderState.not_terminal_of_working hw⟩

section StoreEntry

theorem bookFill_pool (cid pid : ℕ) (rep : ExecutionReport) :
    (bookFill cfg w cid pid rep s).pool =
      (s.pool.modifyChild cid (ChildOrderState.fill rep.fillQtyLots)).modifyParent pid
        (ParentOrder.fill
          (toCanonicalLots cfg w (s.pool.children cid) (s.pool.parents pid).instrId rep.fillQtyLots)
          (rep.fillPriceTicks * (w.states (s.pool.children cid).exchangeId).book.tickSize)
          (cfg.instruments.lotSize (s.pool.parents pid).instrId) rep.recvNs) := rfl

theorem bookCancel_pool (cid pid : ℕ) (rep : ExecutionReport) :
    (bookCancel cfg w cid pid rep s).pool =
      (s.pool.modifyChild cid (ChildOrderState.cancel rep.execType)).modifyParent pid
        fun p => { p with lastUpdateNs := rep.recvNs } := rfl

theorem acknowledge_pool (cid : ℕ) :
    (acknowledge cid s).pool = s.pool.modifyChild cid fun c => { c with state := .pendingNew } := rfl

theorem bookFill_storeInv (hinv : StoreInv Quiet s.pool) {rep : ExecutionReport}
    (hc : s.pool.ChildInUse rep.childId) :
    StoreAt (.booked (s.parentOf rep.childId),
      bookFill cfg w rep.childId (s.parentOf rep.childId) rep s) := by
  refine ⟨hinv.parentOf_inUse hc, ?_⟩
  rw [bookFill_pool]
  refine modifyParent_storeInv ⟨rfl, rfl, rfl, rfl, rfl⟩ ?_
  refine (modifyChild_storeInv rfl rfl rfl ?_ hinv).mono fun q hq => hq.elim False.elim id
  simp only [ChildOrderState.fill]
  split
  · exact Or.inr rfl
  · exact Or.inl rfl

theorem bookCancel_storeInv (hinv : StoreInv Quiet s.pool) {cid : ℕ} (rep : ExecutionReport)
    (hc : s.pool.ChildInUse cid) :
    StoreAt (.booked (s.parentOf cid), bookCancel cfg w cid (s.parentOf cid) rep s) := by
  refine ⟨hinv.parentOf_inUse hc, ?_⟩
  rw [bookCancel_pool]
  refine modifyParent_storeInv ⟨rfl, rfl, rfl, rfl, rfl⟩ ?_
  refine (modifyChild_storeInv rfl rfl rfl ?_ hinv).mono fun q hq => hq.elim False.elim id
  simp only [ChildOrderState.cancel]
  split <;> exact Or.inr rfl

theorem acknowledge_storeInv (hinv : StoreInv Quiet s.pool) {cid : ℕ} (hc : s.pool.ChildInUse cid) :
    StoreInv Quiet (acknowledge cid s).pool := by
  have hack : StoreInv (fun q => Quiet q ∨ q = s.parentOf cid) (acknowledge cid s).pool := by
    rw [acknowledge_pool]
    exact modifyChild_storeInv rfl rfl rfl (Or.inl rfl) hinv
  refine hack.settle (s.parentOf cid) ⟨cid, hinv.mem_childIds hc, ?_⟩ fun q hq hn => ?_
  · simp [acknowledge, OrderState.working]
  · exact hq.elim id fun h => hn h

theorem reserved_storeInv (hinv : StoreInv Quiet s.pool) {sig : StrategyOrderSignal} {pid : ℕ}
    {free : List ℕ} (hfree : s.pool.parentFree = pid :: free) (hinstr : sig.instrId < kMaxInstruments) :
    (reserved w sig pid free s).pool.ParentInUse pid ∧
      StoreInv (fun q => q = pid) (reserved w sig pid free s).pool := by
  have hopen : StoreInv (fun q => Quiet q ∨ q = pid) (admitted w sig pid free s).pool :=
    open_storeInv hinv hfree rfl hinstr rfl rfl
  have huse : (admitted w sig pid free s).pool.ParentInUse pid :=
    (open_parentInUse hinv hfree pid).mpr (Or.inl rfl)
  refine ⟨huse, ?_⟩
  exact (setParentState_storeInv .pendingNew hopen).mono fun q hq => hq.elim False.elim id

theorem reserved_childCount {sig : StrategyOrderSignal} {pid : ℕ} {free : List ℕ} :
    ((reserved w sig pid free s).pool.parents pid).childCount = 0 := by
  simp [reserved, Core.setParentState, admitted_childCount]

theorem entered_store {a : Phase × Core} (h : Entered cfg w s c a) (hinv : StoreInv Quiet s.pool) :
    StoreAt a := by
  cases h with
  | refused href => exact href.records.storeInv hinv
  | admitted _ hfree hinstr =>
    obtain ⟨hu, hstore⟩ := reserved_storeInv (w := w) hinv hfree hinstr
    exact ⟨hu, hstore.mono fun q hq => ⟨hq, reserved_childCount⟩⟩
  | filled hlive => exact bookFill_storeInv hinv hlive.1
  | ended hlive => exact bookCancel_storeInv hinv _ hlive.1
  | acknowledged hlive => exact acknowledge_storeInv hinv hlive.1
  | ignored => exact hinv
  | @expired slot idx e he hlive =>
    exact bookCancel_storeInv (s := s.setWheel (s.timerWheel.deactivate e)) hinv _ hlive.1
  | unarmed => exact hinv

end StoreEntry

section TimerEntry

/-- Booking a report for a child disarms it, and touches no other child. -/
theorem booked_timers {s' : Core} (cid : ℕ) (ht : TimersOk s)
    (hcancel : s'.timerWheel = s.timerWheel.cancel cid) (hfree : s'.pool.childFree = s.pool.childFree)
    (hother : ∀ x, x ≠ cid → s'.pool.children x = s.pool.children x) : TimersOk s' := by
  refine ⟨?_, by rw [hcancel]; exact TimerWheel.cancel_distinct ht.distinct cid⟩
  intro e he
  rw [hcancel, TimerWheel.mem_cancel ht.distinct] at he
  obtain ⟨hu, hw⟩ := ht.live e he.1
  exact ⟨(childInUse_of_childFree hfree _).mpr hu, by rw [hother _ he.2]; exact hw⟩

theorem bookFill_timers (hinv : StoreInv Quiet s.pool) (ht : TimersOk s) {rep : ExecutionReport}
    (hc : s.pool.ChildInUse rep.childId) :
    TimersOk (bookFill cfg w rep.childId (s.parentOf rep.childId) rep s) := by
  refine booked_timers rep.childId ht ?_ rfl fun x hx => Function.update_of_ne hx _ _
  have hid := (hinv.ok _).childId rep.childId hc rfl
  simp only [bookFill, hid]

theorem bookCancel_timers (hinv : StoreInv Quiet s.pool) (ht : TimersOk s) {cid : ℕ}
    (rep : ExecutionReport) (hc : s.pool.ChildInUse cid) :
    TimersOk (bookCancel cfg w cid (s.parentOf cid) rep s) := by
  refine booked_timers cid ht ?_ rfl fun x hx => Function.update_of_ne hx _ _
  have hid := (hinv.ok _).childId cid hc rfl
  simp only [bookCancel, hid]

theorem setWheel_timers (ht : TimersOk s) (e : TimerEntry) :
    TimersOk (s.setWheel (s.timerWheel.deactivate e)) :=
  ⟨fun x hx => ht.live x (List.mem_of_mem_erase hx), TimerWheel.deactivate_distinct ht.distinct e⟩

theorem entered_timers {a : Phase × Core} (h : Entered cfg w s c a) (hinv : StoreInv Quiet s.pool)
    (ht : TimersOk s) : TimersOk a.2 := by
  cases h with
  | refused href =>
    refine ht.of_sameLive ?_ href.timerWheel
    have huse (x : ℕ) := childInUse_of_childFree href.records.childFree x
    exact ⟨fun x hx => ⟨(huse x).mp hx, href.records.children x ((huse x).mp hx)⟩,
      fun x hx _ => (huse x).mpr hx⟩
  | admitted => exact ht.of_sameLive (.of_childFree rfl rfl) rfl
  | filled hlive => exact bookFill_timers hinv ht hlive.1
  | ended hlive => exact bookCancel_timers hinv ht _ hlive.1
  | @acknowledged rep hlive =>
    refine ⟨fun e he => ⟨(ht.live e he).1, ?_⟩, ht.distinct⟩
    by_cases hec : e.childId = rep.childId
    · simp [acknowledge, hec, OrderState.working]
    · simpa [acknowledge, Function.update_of_ne hec] using (ht.live e he).2
  | ignored => exact ht
  | @expired slot idx e he hlive =>
    exact bookCancel_timers (s := s.setWheel (s.timerWheel.deactivate e)) hinv (setWheel_timers ht e) _
      hlive.1
  | unarmed => exact ht

end TimerEntry

section Environment

/-- What other threads cannot change: the store, which timers are armed, and the lot counters. -/
structure SameBooks (s s' : Core) : Prop where
  pool : s'.pool = s.pool
  active : s'.timerWheel.active = s.timerWheel.active
  net : ∀ i, (s'.pos.instruments i).netQtyLots = (s.pos.instruments i).netQtyLots
  openLots : ∀ i d, (s'.pos.instruments i).openLots d = (s.pos.instruments i).openLots d

theorem SameBooks.refl (s : Core) : SameBooks s s := ⟨rfl, rfl, fun _ => rfl, fun _ _ => rfl⟩

theorem setUnwindMode_sameBooks (i : ℕ) (b : Bool) (s : Core) : SameBooks s (s.setUnwindMode i b) := by
  unfold Core.setUnwindMode
  split
  · refine ⟨rfl, rfl, fun j => ?_, fun j d => ?_⟩
    · by_cases hj : j = i
      · simp [PositionTable.modify, hj]
      · simp [PositionTable.modify, Function.update_of_ne hj]
    · by_cases hj : j = i
      · cases d <;> simp [PositionTable.modify, hj, InstrumentPosition.openLots]
      · simp [PositionTable.modify, Function.update_of_ne hj]
  · exact .refl s

theorem Env.apply_sameBooks (e : Env) (s : Core) : SameBooks s (e.apply s) := by
  cases e with
  | advance => exact ⟨rfl, rfl, fun _ => rfl, fun _ _ => rfl⟩
  | setUnwindMode i b => exact setUnwindMode_sameBooks i b s
  | onMarkPrice mark lot i =>
    simp only [Env.apply, Core.onMarkPrice]
    split
    · exact .refl s
    · exact ⟨rfl, rfl, fun _ => rfl, fun _ _ => rfl⟩
  | onRestMargin => exact ⟨rfl, rfl, fun _ => rfl, fun _ _ => rfl⟩
  | onBookSnapshot ex snap =>
    simp only [Env.apply, Core.onBookSnapshot]
    split
    · exact ⟨rfl, rfl, fun _ => rfl, fun _ _ => rfl⟩
    · exact .refl s
  | gatewayPop => exact ⟨rfl, rfl, fun _ => rfl, fun _ _ => rfl⟩
  | rejectPop => exact ⟨rfl, rfl, fun _ => rfl, fun _ _ => rfl⟩

theorem SameBooks.timers {s' : Core} (h : SameBooks s s') (ht : TimersOk s) : TimersOk s' := by
  refine ⟨?_, by rw [TimerWheel.Distinct, h.active]; exact ht.distinct⟩
  rw [h.active, h.pool]
  exact ht.live

end Environment

end OmsFormal.Oms
