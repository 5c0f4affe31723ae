import OmsFormal.CallEntries

/-!
# What a call leaves alone after its entry

Once a call has booked its own effect, the rest of it re-arranges children,
clamps and closes. It opens no parent, changes no parent's instrument,
direction, flag, fills or average price, and moves no net position.
-/

namespace OmsFormal.Oms
open Sor Rounding OMSOrderPool
set_option autoImplicit false

variable {cfg : ExecCoreConfig} {w : World}

/-- What no small step changes of a parent that stays in use. -/
structure ParentOrder.SameDeal (a b : ParentOrder) : Prop where
  instrId : b.instrId = a.instrId
  dir : b.dir = a.dir
  reduceOnly : b.reduceOnly = a.reduceOnly
  strategyId : b.strategyId = a.strategyId
  cumQtyLots : b.cumQtyLots = a.cumQtyLots
  avgFillPrice : b.avgFillPrice = a.avgFillPrice

theorem ParentOrder.SameDeal.of_eq {a b : ParentOrder} (h : b = a) : SameDeal a b := by
  subst h
  exact ⟨rfl, rfl, rfl, rfl, rfl, rfl⟩

/-- The deal is kept, and some lots may have been given up. -/
structure ParentOrder.Shrunk (a b : ParentOrder) : Prop where
  deal : SameDeal a b
  leaves : b.leavesQtyLots ≤ a.leavesQtyLots

theorem ParentOrder.Shrunk.of_eq {a b : ParentOrder} (h : b = a) : Shrunk a b := by
  subst h
  exact ⟨.of_eq rfl, le_rfl⟩

/-- The parent of the call keeps its deal while it stays in use, and gains no lots. -/
theorem micro_shrunk {a b : Phase × Core} (h : Micro cfg w a b) (ha : StoreAt a)
    (hu : b.2.pool.ParentInUse a.1.pid) :
    a.2.pool.ParentInUse a.1.pid ∧
      ParentOrder.Shrunk (a.2.pool.parents a.1.pid) (b.2.pool.parents a.1.pid) := by
  have hgone {pid : ℕ} {pool : OMSOrderPool} {rec : ParentOrder}
      (hu : (pool.retire pid rec).ParentInUse pid) : False := retire_gone pool pid rec hu
  cases h with
  | @mark pid s =>
    exact ⟨ha.1, by constructor <;> simp [Phase.pid, setParentState_pool],
      by simp [Phase.pid, setParentState_pool]⟩
  | close =>
    obtain ⟨st, hpool⟩ := closeFilled_retire ha.2 ha.1
    simp only [hpool] at hu
    exact (hgone hu).elim
  | keep => exact ⟨ha.1, .of_eq rfl⟩
  | @trim pid s =>
    have hnn := excessLots_nonneg pid s
    refine ⟨ha.1, by constructor <;> simp [Phase.pid, trimmed_record, ParentOrder.giveUp], ?_⟩
    simp only [Phase.pid, trimmed_record, ParentOrder.giveUp]
    omega
  | reduced =>
    obtain ⟨st, hpool⟩ := closeReduceOnlyDone_retire ha.2.1 ha.1 ha.2.2
    simp only [hpool] at hu
    exact (hgone hu).elim
  | noLiquidity =>
    obtain ⟨st, hpool⟩ := closeUnfilled_retire w .noLiquidity ha.2.1 ha.1 ha.2.2
    simp only [hpool] at hu
    exact (hgone hu).elim
  | @route pid ctx s =>
    exact ⟨ha.1, by constructor <;> simp [Phase.pid, setParentState_pool],
      by simp [Phase.pid, setParentState_pool]⟩
  | @send pid cid ctx co rest free s =>
    refine ⟨ha.1, ?_, ?_⟩
    · constructor <;> simp [Phase.pid, sendChild, attachChild, ParentOrder.addChild]
    · simp [Phase.pid, sendChild, attachChild, ParentOrder.addChild]
  | @allocFailed pid ctx rest s hfree =>
    exact ⟨ha.1, .of_eq ((allocFailed_sameRecords hfree).parents pid ha.1)⟩
  | sent => exact ⟨ha.1, .of_eq (by simp only [releaseGap_pool])⟩
  | @noneSent pid ctx rest s hcount =>
    obtain ⟨st, hpool⟩ := noneSent_retire (w := w) ctx rest ha.2 ha.1 hcount
    simp only [hpool] at hu
    exact (hgone hu).elim

theorem micro_deal {a b : Phase × Core} (h : Micro cfg w a b) (ha : StoreAt a) {p : ℕ}
    (hu : b.2.pool.ParentInUse p) :
    a.2.pool.ParentInUse p ∧ ParentOrder.SameDeal (a.2.pool.parents p) (b.2.pool.parents p) := by
  by_cases hp : p = a.1.pid
  · subst hp
    obtain ⟨hu', hshrunk⟩ := micro_shrunk h ha hu
    exact ⟨hu', hshrunk.deal⟩
  · have hloc := micro_local h ha
    have hu' := (hloc.inUse p hp).mp hu
    exact ⟨hu', .of_eq (hloc.record p hp hu')⟩

@[simp] theorem releaseOpen_net (dir : OrderDir) (lots : ℤ) (p : InstrumentPosition) :
    (p.releaseOpen dir lots).netQtyLots = p.netQtyLots := by
  cases dir <;> rfl

@[simp] theorem reserveOpen_net (dir : OrderDir) (lots : ℤ) (p : InstrumentPosition) :
    (p.reserveOpen dir lots).netQtyLots = p.netQtyLots := by
  cases dir <;> rfl

theorem modify_net (pos : PositionTable) (i j : ℕ) (f : InstrumentPosition → InstrumentPosition) :
    ((pos.modify i f).instruments j).netQtyLots =
      if j = i then (f (pos.instruments i)).netQtyLots else (pos.instruments j).netQtyLots := by
  by_cases hj : j = i
  · simp [PositionTable.modify, hj]
  · simp [PositionTable.modify, hj]

theorem modify_keepsNet (pos : PositionTable) {f : InstrumentPosition → InstrumentPosition}
    (hf : ∀ p, (f p).netQtyLots = p.netQtyLots) (i j : ℕ) :
    ((pos.modify i f).instruments j).netQtyLots = (pos.instruments j).netQtyLots := by
  rw [modify_net]
  split
  · rename_i hj
    rw [hf, hj]
  · rfl

theorem reserved_net (w : World) (sig : StrategyOrderSignal) (pid : ℕ) (free : List ℕ) (s : Core) (i : ℕ) :
    ((reserved w sig pid free s).pos.instruments i).netQtyLots = (s.pos.instruments i).netQtyLots :=
  modify_keepsNet s.pos (reserveOpen_net _ _) _ i

theorem bookCancel_net (cid pid : ℕ) (rep : ExecutionReport) (s : Core) (i : ℕ) :
    ((bookCancel cfg w cid pid rep s).pos.instruments i).netQtyLots = (s.pos.instruments i).netQtyLots :=
  modify_keepsNet _ (releaseOpen_net _ _) _ i

theorem releaseGap_net (pid : ℕ) (ctx : RoutingContext) (rest : List ChildOrder) (s : Core) (i : ℕ) :
    ((releaseGap pid ctx rest s).pos.instruments i).netQtyLots = (s.pos.instruments i).netQtyLots := by
  unfold releaseGap
  split
  · exact modify_keepsNet s.pos (releaseOpen_net _ _) _ i
  · rfl

theorem micro_net {a b : Phase × Core} (h : Micro cfg w a b) (i : ℕ) :
    (b.2.pos.instruments i).netQtyLots = (a.2.pos.instruments i).netQtyLots := by
  cases h with
  | mark => rfl
  | close => rfl
  | keep => rfl
  | @trim pid s =>
    rw [trimmed_eq]
    exact modify_keepsNet s.pos (releaseOpen_net _ _) _ i
  | reduced => rfl
  | noLiquidity => rfl
  | route => rfl
  | send => rfl
  | allocFailed => rfl
  | sent => exact releaseGap_net _ _ _ _ i
  | noneSent => exact releaseGap_net _ _ _ _ i

/-- Positions move with the entry of a call only. -/
theorem call_net (c : Call) (s : Core) (i : ℕ) : ((c.apply cfg w s).pos.instruments i).netQtyLots =
    ((c.entry cfg w s).2.pos.instruments i).netQtyLots :=
  call_invariant
    (fun a => (a.2.pos.instruments i).netQtyLots = ((c.entry cfg w s).2.pos.instruments i).netQtyLots) c
    (fun _ _ hm ha => (micro_net hm i).trans ha) rfl

end OmsFormal.Oms
