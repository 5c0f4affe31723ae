import OmsFormal.Lifecycle
import OmsFormal.Deals
import Mathlib.Tactic.LinearCombination

/-!
# The ledger of fills

A ledger kept beside the core: which canonical fills were booked to each parent
since its signal was accepted, and how much of each instrument was bought and
sold. The parents' cumulative quantities and average prices and the net
positions are exactly what the ledger says.
-/

namespace OmsFormal.Oms
open Sor Rounding OMSOrderPool GuardedRun
set_option autoImplicit false

variable {cfg : ExecCoreConfig} {w : World} {r : ℕ → ℕ → ℕ} {s : Core}

/-- `fills p` are the canonical fills and prices booked to parent `p` since it was accepted. -/
structure Ledger where
  fills : ℕ → List (ℤ × ℚ)
  bought : ℕ → ℤ
  sold : ℕ → ℤ

namespace Ledger

def empty : Ledger := ⟨fun _ => [], fun _ => 0, fun _ => 0⟩

def bookFill (pid instr : ℕ) (dir : OrderDir) (lots : ℤ) (price : ℚ) (L : Ledger) : Ledger where
  fills := Function.update L.fills pid (L.fills pid ++ [(lots, price)])
  bought := match dir with
    | .buy => Function.update L.bought instr (L.bought instr + lots)
    | .sell => L.bought
  sold := match dir with
    | .buy => L.sold
    | .sell => Function.update L.sold instr (L.sold instr + lots)

def openParent (pid : ℕ) (L : Ledger) : Ledger := { L with fills := Function.update L.fills pid [] }

/-- What an event means to the ledger, read off the state before it. -/
def record (cfg : ExecCoreConfig) (r : ℕ → ℕ → ℕ) : Event → Core → Ledger → Ledger
  | .call w (.signal sig), s, L =>
    match signalFlow cfg w sig s with
    | .finished _ => L
    | .dispatching _ pid _ _ => L.openParent pid
  | .call w (.report rep), s, L =>
    if rep.execType.isFill then
      let child := s.pool.children rep.childId
      let parent := s.pool.parents child.parentId
      L.bookFill child.parentId parent.instrId parent.dir
        (r child.exchangeId parent.instrId * rep.fillQtyLots)
        (rep.fillPriceTicks * (w.states child.exchangeId).book.tickSize)
    else L
  | _, _, L => L

def lots (fills : List (ℤ × ℚ)) : ℤ := (fills.map Prod.fst).sum
def value (fills : List (ℤ × ℚ)) : ℚ := (fills.map fun f => f.2 * (f.1 : ℚ)).sum

end Ledger

def ledgerStep (cfg : ExecCoreConfig) (r : ℕ → ℕ → ℕ) (e : Event) (x : Core × Ledger) : Core × Ledger :=
  (step cfg e x.1, x.2.record cfg r e x.1)

theorem ledger_run_core (r : ℕ → ℕ → ℕ) (x : Core × Ledger) (evs : List Event) :
    (run (ledgerStep cfg r) x evs).1 = run (step cfg) x.1 evs :=
  run_proj Prod.fst fun _ _ => rfl

/-- The core agrees with its ledger; `net0` are the positions before the run. -/
structure LedgerOk (net0 : ℕ → ℤ) (L : Ledger) (s : Core) : Prop where
  cum : ∀ p, s.pool.ParentInUse p → (s.pool.parents p).cumQtyLots = Ledger.lots (L.fills p)
  value : ∀ p, s.pool.ParentInUse p →
    (s.pool.parents p).avgFillPrice * (s.pool.parents p).cumQtyLots = Ledger.value (L.fills p)
  net : ∀ i, (s.pos.instruments i).netQtyLots = net0 i + L.bought i - L.sold i

variable {net0 : ℕ → ℤ} {L : Ledger}

theorem micro_ledger {a b : Phase × Core} (h : Micro cfg w a b) (ha : StoreAt a)
    (hl : LedgerOk net0 L a.2) : LedgerOk net0 L b.2 := by
  refine ⟨fun p hu => ?_, fun p hu => ?_, fun i => by rw [micro_net h i]; exact hl.net i⟩
  · obtain ⟨hu', hdeal⟩ := micro_deal h ha hu
    rw [hdeal.cumQtyLots]
    exact hl.cum p hu'
  · obtain ⟨hu', hdeal⟩ := micro_deal h ha hu
    rw [hdeal.cumQtyLots, hdeal.avgFillPrice]
    exact hl.value p hu'

section Entry

/-- The running average times the quantity grows by the value of the fill. -/
theorem fill_value (p : ParentOrder) (lots : ℤ) (price ref : ℚ) (recvNs : ℕ) (href : 0 < ref)
    (hcum : 0 ≤ p.cumQtyLots) (hlots : 1 ≤ lots) :
    (p.fill lots price ref recvNs).avgFillPrice * (p.fill lots price ref recvNs).cumQtyLots =
      p.avgFillPrice * p.cumQtyLots + price * lots := by
  simp only [ParentOrder.fill]
  by_cases hzero : p.cumQtyLots = 0
  · simp [hzero]
  · have hpos : (0 : ℚ) < p.cumQtyLots := by exact_mod_cast lt_of_le_of_ne hcum (Ne.symm hzero)
    have hl : (0 : ℚ) < lots := by exact_mod_cast hlots
    rw [if_pos (mul_pos hpos href)]
    push_cast
    field_simp

theorem LedgerOk.of_sameBooks {s' : Core} (hl : LedgerOk net0 L s) (h : SameBooks s s') :
    LedgerOk net0 L s' :=
  ⟨by rw [h.pool]; exact hl.cum, by rw [h.pool]; exact hl.value, fun i => by rw [h.net]; exact hl.net i⟩

/-- A step that is local to `pid` has to agree with the ledger at `pid` only. -/
theorem LedgerOk.of_local {s' : Core} {L' : Ledger} {pid : ℕ} (hl : LedgerOk net0 L s)
    (hloc : Local pid s.pool s'.pool) (hfills : ∀ p, p ≠ pid → L'.fills p = L.fills p)
    (hcum : s'.pool.ParentInUse pid →
      (s'.pool.parents pid).cumQtyLots = Ledger.lots (L'.fills pid))
    (hvalue : s'.pool.ParentInUse pid → (s'.pool.parents pid).avgFillPrice *
      (s'.pool.parents pid).cumQtyLots = Ledger.value (L'.fills pid))
    (hnet : ∀ i, (s'.pos.instruments i).netQtyLots = net0 i + L'.bought i - L'.sold i) :
    LedgerOk net0 L' s' := by
  refine ⟨fun p hu => ?_, fun p hu => ?_, hnet⟩
  · by_cases hp : p = pid
    · subst hp
      exact hcum hu
    · have hu' := (hloc.inUse p hp).mp hu
      rw [hloc.record p hp hu', hfills p hp]
      exact hl.cum p hu'
  · by_cases hp : p = pid
    · subst hp
      exact hvalue hu
    · have hu' := (hloc.inUse p hp).mp hu
      rw [hloc.record p hp hu', hfills p hp]
      exact hl.value p hu'

theorem applyFill_net (dir : OrderDir) (lots : ℤ) (price : ℚ) (p : InstrumentPosition) :
    (p.applyFill dir lots price).netQtyLots = match dir with
      | .buy => p.netQtyLots + lots
      | .sell => p.netQtyLots - lots := by
  cases dir with
  | buy => rfl
  | sell => exact (sub_eq_add_neg _ _).symm

/-- Net positions after a fill: only the parent's instrument moves. -/
theorem bookFill_net (cid pid : ℕ) (rep : ExecutionReport) (i : ℕ) :
    ((bookFill cfg w cid pid rep s).pos.instruments i).netQtyLots =
      if i = (s.pool.parents pid).instrId then
        match (s.pool.parents pid).dir with
        | .buy => (s.pos.instruments i).netQtyLots +
            toCanonicalLots cfg w (s.pool.children cid) (s.pool.parents pid).instrId rep.fillQtyLots
        | .sell => (s.pos.instruments i).netQtyLots -
            toCanonicalLots cfg w (s.pool.children cid) (s.pool.parents pid).instrId rep.fillQtyLots
      else (s.pos.instruments i).netQtyLots := by
  simp only [bookFill, modify_net, releaseOpen_net, applyFill_net]
  split
  · rename_i hi
    rw [hi]
  · rfl

theorem bookFill_ledger {rep : ExecutionReport} (hl : LedgerOk net0 L s)
    (hinv : StoreInv Quiet s.pool) (hc : s.pool.ChildInUse rep.childId) (hmin : 1 ≤ rep.fillQtyLots)
    (hscaled : w.Scaled cfg r (s.pool.parents (s.parentOf rep.childId)).instrId)
    (hcum : 0 ≤ (s.pool.parents (s.parentOf rep.childId)).cumQtyLots) :
    LedgerOk net0
      (L.bookFill (s.parentOf rep.childId) (s.pool.parents (s.parentOf rep.childId)).instrId
        (s.pool.parents (s.parentOf rep.childId)).dir
        (r (s.pool.children rep.childId).exchangeId (s.pool.parents (s.parentOf rep.childId)).instrId *
          rep.fillQtyLots)
        (rep.fillPriceTicks * (w.states (s.pool.children rep.childId).exchangeId).book.tickSize))
      (bookFill cfg w rep.childId (s.parentOf rep.childId) rep s) := by
  have hu := hinv.parentOf_inUse hc
  have hcanonical := hscaled.toCanonicalLots (s.pool.children rep.childId) rep.fillQtyLots
  have hpos := hscaled.pos (s.pool.children rep.childId).exchangeId
  have hlots : 1 ≤ (r (s.pool.children rep.childId).exchangeId
      (s.pool.parents (s.parentOf rep.childId)).instrId : ℤ) * rep.fillQtyLots := by
    have : (1 : ℤ) ≤ r (s.pool.children rep.childId).exchangeId
      (s.pool.parents (s.parentOf rep.childId)).instrId := by exact_mod_cast hpos
    nlinarith
  have hrec : (bookFill cfg w rep.childId (s.parentOf rep.childId) rep s).pool.parents
      (s.parentOf rep.childId) = (s.pool.parents (s.parentOf rep.childId)).fill
        (r (s.pool.children rep.childId).exchangeId (s.pool.parents (s.parentOf rep.childId)).instrId *
          rep.fillQtyLots)
        (rep.fillPriceTicks * (w.states (s.pool.children rep.childId).exchangeId).book.tickSize)
        (cfg.instruments.lotSize (s.pool.parents (s.parentOf rep.childId)).instrId) rep.recvNs := by
    rw [bookFill_pool, modifyParent_parents, Function.update_self, hcanonical]
    rfl
  refine hl.of_local (bookFill_local rep) (fun p hp => Function.update_of_ne hp _ _) ?_ ?_ ?_
  · intro _
    rw [hrec]
    simp only [ParentOrder.fill, Ledger.bookFill, Function.update_self, Ledger.lots, List.map_append,
      List.sum_append, List.map_cons, List.map_nil, List.sum_cons, List.sum_nil, add_zero]
    rw [hl.cum _ hu]
    rfl
  · intro _
    rw [hrec, fill_value _ _ _ _ _ (cfg.instruments.lotSize_pos _) hcum hlots, hl.value _ hu]
    simp [Ledger.bookFill, Ledger.value]
  · intro i
    rw [bookFill_net, hcanonical, hl.net i]
    by_cases hi : i = (s.pool.parents (s.parentOf rep.childId)).instrId
    · rw [if_pos hi]
      cases hdir : (s.pool.parents (s.parentOf rep.childId)).dir with
      | buy =>
        simp only [Ledger.bookFill, ← hi, Function.update_self]
        ring
      | sell =>
        simp only [Ledger.bookFill, ← hi, Function.update_self]
        ring
    · rw [if_neg hi]
      cases (s.pool.parents (s.parentOf rep.childId)).dir <;>
        simp only [Ledger.bookFill, Function.update_of_ne hi]

theorem bookCancel_ledger (hl : LedgerOk net0 L s) (hinv : StoreInv Quiet s.pool) {cid : ℕ}
    (hc : s.pool.ChildInUse cid) (rep : ExecutionReport) :
    LedgerOk net0 L (bookCancel cfg w cid (s.parentOf cid) rep s) := by
  have hu := hinv.parentOf_inUse hc
  refine hl.of_local (bookCancel_local cfg w s cid rep) (fun _ _ => rfl) (fun _ => ?_) (fun _ => ?_)
    fun i => ?_
  · simpa [bookCancel_pool] using hl.cum _ hu
  · simpa [bookCancel_pool] using hl.value _ hu
  · rw [bookCancel_net]
    exact hl.net i

theorem reserved_ledger (hl : LedgerOk net0 L s) (hinv : StoreInv Quiet s.pool)
    {sig : StrategyOrderSignal} {pid : ℕ} {free : List ℕ} (hfree : s.pool.parentFree = pid :: free) :
    LedgerOk net0 (L.openParent pid) (reserved w sig pid free s) := by
  have hloc : Local pid s.pool (reserved w sig pid free s).pool :=
    (open_local hinv hfree).trans (setParentState_local (s := admitted w sig pid free s) _)
  have hrec := reserved_record w s sig pid free
  refine hl.of_local hloc (fun p hp => Function.update_of_ne hp _ _) (fun _ => ?_) (fun _ => ?_) fun i => ?_
  · rw [hrec]
    simp [Ledger.openParent, Ledger.lots, ParentOrder.setQuantity, ParentOrder.copySignal,
      ParentOrder.reset, ParentOrder.zero]
  · rw [hrec]
    simp [Ledger.openParent, Ledger.value, ParentOrder.setQuantity, ParentOrder.copySignal,
      ParentOrder.reset, ParentOrder.zero]
  · rw [reserved_net]
    exact hl.net i

theorem entered_ledger {c : Call} {a : Phase × Core} (h : Entered cfg w s c a)
    (hscaled : c.Scaled cfg r w s) (hs : Healthy r s) (hl : LedgerOk net0 L s) :
    LedgerOk net0 (L.record cfg r (.call w c) s) a.2 := by
  cases h with
  | refused href hflow =>
    have huse (p : ℕ) := inUse_of_parentFree href.records.parentFree p
    simp only [Ledger.record, hflow]
    refine ⟨fun p hu => ?_, fun p hu => ?_, fun i => ?_⟩
    · rw [href.records.parents p ((huse p).mp hu)]
      exact hl.cum p ((huse p).mp hu)
    · rw [href.records.parents p ((huse p).mp hu)]
      exact hl.value p ((huse p).mp hu)
    · rw [href.pos]
      exact hl.net i
  | admitted hpos hfree hinstr hqty hsplit hflow =>
    simp only [Ledger.record, hflow]
    exact reserved_ledger hl hs.store hfree
  | filled hlive hkind hmin hmax =>
    have hu := hs.store.parentOf_inUse hlive.1
    simp only [Ledger.record, hkind, if_true]
    exact bookFill_ledger hl hs.store hlive.1 hmin (hscaled _ hu) (hs.qty _ hu).cum
  | @ended rep hlive hkind =>
    have hnot : rep.execType.isFill = false := by
      cases hexec : rep.execType <;> simp_all [ExecType.isFill, ExecType.isEnd]
    simp only [Ledger.record, hnot, Bool.false_eq_true, if_false]
    exact bookCancel_ledger hl hs.store hlive.1 _
  | acknowledged hlive hkind =>
    simp only [Ledger.record, hkind, ExecType.isFill, Bool.false_eq_true, if_false]
    exact ⟨hl.cum, hl.value, hl.net⟩
  | ignored hkind =>
    simp only [Ledger.record, hkind, ExecType.isFill, Bool.false_eq_true, if_false]
    exact hl
  | @expired slot idx e he hlive =>
    exact bookCancel_ledger (s := s.setWheel (s.timerWheel.deactivate e)) ⟨hl.cum, hl.value, hl.net⟩
      hs.store hlive.1 _
  | unarmed => exact hl

end Entry

theorem ledgerStep_ok {e : Event} (hs : Healthy r s) (h : e.Admissible cfg r s)
    (hl : LedgerOk net0 L s) : LedgerOk net0 (L.record cfg r e s) (step cfg e s) := by
  cases e with
  | call w c =>
    have hcall := call_invariant
      (fun a => HealthyAt cfg w r a ∧ LedgerOk net0 (L.record cfg r (.call w c) s) a.2) c
      (fun a b hm ha => ⟨micro_healthy h.sound hm ha.1, micro_ledger hm ha.1.store ha.2⟩)
      ⟨entered_healthy h.sound (h.entered hs) h.scaled hs, entered_ledger (h.entered hs) h.scaled hs hl⟩
    exact hcall.2
  | env e => exact hl.of_sameBooks (e.apply_sameBooks s)

theorem run_ledger {evs : List Event} (h0 : Fresh s)
    (h : Along (step cfg) (Event.Admissible cfg r) s evs) :
    Healthy r (run (ledgerStep cfg r) (s, Ledger.empty) evs).1 ∧
    LedgerOk (fun i => (s.pos.instruments i).netQtyLots)
      (run (ledgerStep cfg r) (s, Ledger.empty) evs).2
      (run (ledgerStep cfg r) (s, Ledger.empty) evs).1 := by
  have hghost := Along.lift (ledgerStep cfg r) Prod.fst (s, Ledger.empty) (fun _ _ => rfl) h
  apply hghost.invariant fun x : Core × Ledger =>
    Healthy r x.1 ∧ LedgerOk (fun i => (s.pos.instruments i).netQtyLots) x.2 x.1
  · intro e x hx he
    exact ⟨step_healthy hx.1 he, ledgerStep_ok hx.1 he hx.2⟩
  · refine ⟨h0.healthy, ⟨fun p hu => absurd hu (h0.parentInUse p),
      fun p hu => absurd hu (h0.parentInUse p), fun i => ?_⟩⟩
    simp [Ledger.empty]

/-- Canonical leaves of the non-terminal children of parent `p`. -/
def OMSOrderPool.liveLots (r : ℕ → ℕ → ℕ) (pool : OMSOrderPool) (p : ℕ) : ℤ :=
  ((pool.parents p).childIds.map fun c =>
    if (pool.children c).state.terminal then 0
    else r (pool.children c).exchangeId (pool.parents p).instrId * (pool.children c).leavesQtyLots).sum

theorem liveLots_le_committed {idle : ℕ → Prop} (hinv : StoreInv idle s.pool) {p : ℕ}
    (hu : s.pool.ParentInUse p) : s.pool.liveLots r p ≤ s.pool.committed r p := by
  apply List.sum_le_sum
  intro c hc
  split
  · exact ChildOrderState.weight_nonneg _ _
  · rename_i hlive
    obtain ⟨hcu, _⟩ := (hinv.ok p).owned hu c hc
    rw [ChildOrderState.weight_of_working (hinv.working_of_live ⟨hcu, by simpa using hlive⟩)]
    exact le_max_right _ _

/-- Quantity conservation: in every state of a run, each parent in use adds up, is committed to
no more than it has left, and agrees with the ledger, and so does each net position. -/
theorem run_conserves_quantity {evs : List Event} (h0 : Fresh s)
    (h : Along (step cfg) (Event.Admissible cfg r) s evs) :
    let x := run (ledgerStep cfg r) (s, Ledger.empty) evs
    (∀ p, x.1.pool.ParentInUse p →
      (x.1.pool.parents p).totalQtyLots =
        (x.1.pool.parents p).cumQtyLots + (x.1.pool.parents p).leavesQtyLots ∧
      0 ≤ (x.1.pool.parents p).cumQtyLots ∧
      1 ≤ (x.1.pool.parents p).leavesQtyLots ∧
      x.1.pool.liveLots r p ≤ (x.1.pool.parents p).leavesQtyLots ∧
      (x.1.pool.parents p).cumQtyLots = Ledger.lots (x.2.fills p) ∧
      (x.1.pool.parents p).avgFillPrice * (x.1.pool.parents p).cumQtyLots =
        Ledger.value (x.2.fills p)) ∧
    ∀ i, (x.1.pos.instruments i).netQtyLots =
      (s.pos.instruments i).netQtyLots + x.2.bought i - x.2.sold i := by
  obtain ⟨hs, hl⟩ := run_ledger h0 h
  refine ⟨fun p hu => ?_, hl.net⟩
  have hq := hs.qty p hu
  exact ⟨hq.total, hq.cum, hq.leaves_pos (hs.store.alive p hu id),
    (liveLots_le_committed hs.store hu).trans hq.covered, hl.cum p hu, hl.value p hu⟩

theorem run_conserves_quantity_partialFill :
    let x := run (ledgerStep Sample.config fun _ _ => 1) (Sample.start 0, Ledger.empty) Sample.partialFillRun
    x.2.bought 0 = 1 ∧ (x.1.pos.instruments 0).netQtyLots = 0 + x.2.bought 0 - x.2.sold 0 :=
  ⟨by with_unfolding_all rfl,
    (run_conserves_quantity (Sample.fresh 0) Sample.partialFill_admissible).2 0⟩

end OmsFormal.Oms
