import OmsFormal.Ledger
import OmsFormal.PositionLimits

/-!
# What was asked for, what rests and what has filled

Each side of an instrument is asked for by the signals that are let through and by
nothing else. What its parents may still fill and what the ledger has booked for it
is together never more than that.
-/

namespace OmsFormal.Oms
open Sor Rounding OMSOrderPool GuardedRun
set_option autoImplicit false

/-- What a call asks the market for, on side `d` of instrument `i`. -/
def Call.askedLots (cfg : ExecCoreConfig) (w : World) (s : Core) (i : ℕ) (d : OrderDir) : Call → ℤ
  | .signal sig =>
    match signalFlow cfg w sig s with
    | .finished _ => 0
    | .dispatching .. => onSide sig.instrId sig.dir i d (effectiveQty sig s.pos)
  | _ => 0

/-- What a call books as filled, on side `d` of instrument `i`. -/
def Call.filledLots (r : ℕ → ℕ → ℕ) (s : Core) (i : ℕ) (d : OrderDir) : Call → ℤ
  | .report rep =>
    let child := s.pool.children rep.childId
    let parent := s.pool.parents child.parentId
    if rep.execType.isFill then
      onSide parent.instrId parent.dir i d (r child.exchangeId parent.instrId * rep.fillQtyLots)
    else 0
  | _ => 0

def Ledger.filled (L : Ledger) (i : ℕ) : OrderDir → ℤ
  | .buy => L.bought i
  | .sell => L.sold i

/-- A core with its ledger and the lots asked for so far. -/
structure LotAccount where
  booked : Core × Ledger
  asked : ℕ → OrderDir → ℤ

namespace LotAccount

def start (s : Core) : LotAccount where
  booked := (s, Ledger.empty)
  asked _ _ := 0

def step (cfg : ExecCoreConfig) (r : ℕ → ℕ → ℕ) (e : Event) (x : LotAccount) : LotAccount where
  booked := ledgerStep cfg r e x.booked
  asked :=
    match e with
    | .call w c => fun i d => x.asked i d + c.askedLots cfg w x.booked.1 i d
    | .env _ => x.asked

end LotAccount

variable {cfg : ExecCoreConfig} {w : World} {r : ℕ → ℕ → ℕ} {s : Core} {c : Call} {i : ℕ} {d : OrderDir}

section Calls

/-- What a signal asks for is no more than its quantity. -/
theorem askedLots_le {sig : StrategyOrderSignal} (hpos : 1 ≤ sig.qtyLots) :
    (Call.signal sig).askedLots cfg w s i d ≤ onSide sig.instrId sig.dir i d sig.qtyLots := by
  have hnonneg : 0 ≤ onSide sig.instrId sig.dir i d sig.qtyLots := onSide_nonneg _ _ (by omega)
  cases hflow : signalFlow cfg w sig s with
  | finished s' =>
    simp only [Call.askedLots, hflow]
    exact hnonneg
  | dispatching s' pid buf ctx =>
    simp only [Call.askedLots, hflow]
    by_cases hqty : effectiveQty sig s.pos = 0
    · rw [hqty, onSide_zero]
      exact hnonneg
    · unfold onSide
      split
      · exact clampReduceOnly_le hqty
      · exact le_rfl

theorem filledLots_nonneg (hwf : c.WellFormed s) : 0 ≤ c.filledLots r s i d := by
  cases c with
  | signal sig => exact le_rfl
  | visit slot idx => exact le_rfl
  | report rep =>
    simp only [Call.filledLots]
    split
    · rename_i hkind
      have hmin := (hwf.2 hkind).1
      exact onSide_nonneg _ _ (mul_nonneg (Int.natCast_nonneg _) (by omega))
    · exact le_rfl

theorem bookFill_filled (pid : ℕ) (instr : ℕ) (dir : OrderDir) (lots : ℤ) (price : ℚ) (L : Ledger) :
    (L.bookFill pid instr dir lots price).filled i d = L.filled i d + onSide instr dir i d lots := by
  by_cases hi : i = instr
  · subst hi
    cases dir <;> cases d <;> simp [Ledger.filled, Ledger.bookFill, onSide]
  · have hi' : ¬ instr = i := fun heq => hi heq.symm
    cases dir <;> cases d <;> simp [Ledger.filled, Ledger.bookFill, onSide, hi, hi']

/-- The ledger books what the call fills. -/
theorem record_filled (L : Ledger) (c : Call) (s : Core) :
    (L.record cfg r (.call w c) s).filled i d = L.filled i d + c.filledLots r s i d := by
  cases c with
  | signal sig =>
    simp only [Ledger.record, Call.filledLots, add_zero]
    split
    · rfl
    · cases d <;> rfl
  | visit slot idx => exact (add_zero _).symm
  | report rep =>
    simp only [Ledger.record, Call.filledLots]
    split
    · exact bookFill_filled _ _ _ _ _ L
    · exact (add_zero _).symm

theorem bookFill_resting {rep : ExecutionReport} (hs : Healthy r s) (hlive : s.pool.ChildLive rep.childId)
    (hscaled : w.Scaled cfg r (s.pool.parents (s.parentOf rep.childId)).instrId) :
    (bookFill cfg w rep.childId (s.parentOf rep.childId) rep s).pool.resting i d =
      s.pool.resting i d - onSide (s.pool.parents (s.parentOf rep.childId)).instrId
        (s.pool.parents (s.parentOf rep.childId)).dir i d
        (r (s.pool.children rep.childId).exchangeId (s.pool.parents (s.parentOf rep.childId)).instrId *
          rep.fillQtyLots) := by
  have hu := hs.store.parentOf_inUse hlive.1
  have hu' : (bookFill cfg w rep.childId (s.parentOf rep.childId) rep s).pool.ParentInUse
    (s.parentOf rep.childId) := hu
  have htotal := (hs.qty _ hu).total
  rw [← hscaled.toCanonicalLots]
  generalize hlots : toCanonicalLots cfg w (s.pool.children rep.childId)
    (s.pool.parents (s.parentOf rep.childId)).instrId rep.fillQtyLots = lots
  have hleaves : (s.pool.parents (s.parentOf rep.childId)).totalQtyLots -
      ((s.pool.parents (s.parentOf rep.childId)).cumQtyLots + lots) =
        (s.pool.parents (s.parentOf rep.childId)).leavesQtyLots + -lots := by omega
  rw [resting_local (bookFill_local rep) hu.1, quota_of_inUse hu, quota_of_inUse hu']
  simp only [bookFill_pool, modifyParent_parents, modifyChild_parents, Function.update_self,
    ParentOrder.fill, hlots, hleaves, onSide_add, onSide_neg]
  omega

theorem bookCancel_resting {cid : ℕ} {rep : ExecutionReport} (hinv : StoreInv Quiet s.pool)
    (hlive : s.pool.ChildLive cid) :
    (bookCancel cfg w cid (s.parentOf cid) rep s).pool.resting i d = s.pool.resting i d := by
  have hu := hinv.parentOf_inUse hlive.1
  have hu' : (bookCancel cfg w cid (s.parentOf cid) rep s).pool.ParentInUse (s.parentOf cid) := hu
  rw [resting_local (bookCancel_local cfg w s cid rep) hu.1, quota_of_inUse hu, quota_of_inUse hu']
  simp only [bookCancel_pool, modifyParent_parents, modifyChild_parents, Function.update_self,
    sub_add_cancel]

/-- When a call has booked its own effect, its side rests what it asks for more, and what it fills
less. -/
theorem entered_resting {a : Phase × Core} (h : Entered cfg w s c a) (hscaled : c.Scaled cfg r w s)
    (hs : Healthy r s) :
    a.2.pool.resting i d + c.filledLots r s i d = s.pool.resting i d + c.askedLots cfg w s i d := by
  cases h with
  | refused href hflow =>
    simp only [Call.filledLots, Call.askedLots, hflow, resting_of_sameRecords href.records]
  | admitted hpos hfree hinstr hqty hsplit hflow =>
    simp only [Call.filledLots, Call.askedLots, hflow, reserved_resting hs.store hfree hinstr, add_zero]
  | filled hlive hkind hmin =>
    have hbooked := bookFill_resting (i := i) (d := d) hs hlive
      (hscaled _ (hs.store.parentOf_inUse hlive.1))
    simp only [Call.filledLots, Call.askedLots, hkind, if_true, hbooked, add_zero]
    exact sub_add_cancel _ _
  | @ended rep hlive hkind =>
    have hnot : rep.execType.isFill = false := by
      cases hexec : rep.execType <;> simp_all [ExecType.isFill, ExecType.isEnd]
    simp only [Call.filledLots, Call.askedLots, hnot, Bool.false_eq_true, if_false, add_zero]
    exact bookCancel_resting hs.store hlive
  | acknowledged hlive hkind =>
    simp only [Call.filledLots, Call.askedLots, hkind]
    rfl
  | ignored hkind =>
    simp only [Call.filledLots, Call.askedLots, hkind]
    rfl
  | @expired slot idx e he hlive =>
    exact congrArg (· + 0) (bookCancel_resting (s := s.setWheel (s.timerWheel.deactivate e)) hs.store hlive)
  | unarmed => rfl

theorem call_resting (hadm : c.Admissible cfg r w s) (hs : Healthy r s) :
    (c.apply cfg w s).pool.resting i d + c.filledLots r s i d ≤
      s.pool.resting i d + c.askedLots cfg w s i d := by
  have hentered := hadm.entered hs
  have hend := call_invariant
    (fun a => HealthyAt cfg w r a ∧ a.2.pool.resting i d ≤ (c.entry cfg w s).2.pool.resting i d) c
    (fun a b hm ha => ⟨micro_healthy hadm.sound hm ha.1, (micro_resting hm ha.1).trans ha.2⟩)
    ⟨entered_healthy hadm.sound hentered hadm.scaled hs, le_rfl⟩
  rw [← entered_resting hentered hadm.scaled hs]
  exact add_le_add_left hend.2 _

end Calls

namespace LotAccount
variable {x : LotAccount} {net0 : ℕ → ℤ}

/-- What rests and what has filled was asked for, and the position is what the ledger says. -/
structure Ok (r : ℕ → ℕ → ℕ) (net0 : ℕ → ℤ) (x : LotAccount) : Prop where
  healthy : Healthy r x.booked.1
  ledger : LedgerOk net0 x.booked.2 x.booked.1
  asked : ∀ i d, x.booked.2.filled i d + x.booked.1.pool.resting i d ≤ x.asked i d
  filled : ∀ i d, 0 ≤ x.booked.2.filled i d

theorem step_ok {e : Event} (h : x.Ok r net0) (hadm : e.Admissible cfg r x.booked.1) :
    (step cfg r e x).Ok r net0 := by
  refine ⟨step_healthy h.healthy hadm, ledgerStep_ok h.healthy hadm h.ledger, fun i d => ?_, fun i d => ?_⟩
  · have hasked := h.asked i d
    cases e with
    | call w c =>
      have hresting := call_resting (i := i) (d := d) hadm h.healthy
      simp only [step, ledgerStep, Oms.step, record_filled]
      omega
    | env e =>
      simp only [step, ledgerStep, Oms.step, Ledger.record, (e.apply_sameBooks x.booked.1).pool]
      exact hasked
  · have hfilled := h.filled i d
    cases e with
    | call w c =>
      simp only [step, ledgerStep, record_filled]
      exact add_nonneg hfilled (filledLots_nonneg hadm.wellFormed)
    | env e => exact hfilled

theorem start_ok (h0 : Fresh s) : (start s).Ok r fun i => (s.pos.instruments i).netQtyLots where
  healthy := h0.healthy
  ledger := by
    refine ⟨fun p hu => absurd hu (h0.parentInUse p), fun p hu => absurd hu (h0.parentInUse p), fun i => ?_⟩
    simp [start, Ledger.empty]
  asked i d := by
    have hnone := h0.resting (i := i) (d := d)
    simp only [start, hnone, add_zero]
    cases d <;> exact le_rfl
  filled i d := by cases d <;> exact le_rfl

end LotAccount

end OmsFormal.Oms
