import OmsFormal.ReduceOnly

/-!
# Positions within their limit

The risk engine compares a signal with the confirmed position alone, so it never
sees what the parents already in use may still fill. `WithinRoom` counts both:
no side may still fill more than the position has left to its limit. Every step
keeps that except a signal that passes the check and does not fit.
-/

namespace OmsFormal.Oms
open Sor Rounding OMSOrderPool GuardedRun
set_option autoImplicit false

/-- What parent `p` may still fill of instrument `i` in direction `d`. -/
def OMSOrderPool.quota (pool : OMSOrderPool) (i : ℕ) (d : OrderDir) (p : ℕ) : ℤ :=
  if pool.ParentInUse p ∧ (pool.parents p).instrId = i ∧ (pool.parents p).dir = d then
    (pool.parents p).leavesQtyLots else 0

/-- What all parents of one side may still fill together. -/
def OMSOrderPool.resting (pool : OMSOrderPool) (i : ℕ) (d : OrderDir) : ℤ :=
  (Finset.range kMaxParentOrders).sum (pool.quota i d)

/-- Lots that fills in direction `d` may still move the position before it is over its limit. -/
def Core.limitRoom (cfg : ExecCoreConfig) (i : ℕ) (d : OrderDir) (s : Core) : ℤ :=
  cfg.riskLimits.maxNetLots i + s.closable i d

/-- A signal for `i` that the risk engine lets through fits into the room its side has left,
next to what the parents already in use may still fill. -/
def Event.FitsLimit (cfg : ExecCoreConfig) (i : ℕ) : Event → Core → Prop
  | .call _ (.signal sig), s => sig.instrId = i →
      validate cfg.riskLimits cfg.instruments s.pos { sig with qtyLots := effectiveQty sig s.pos } = .ok →
      s.pool.resting i sig.dir + effectiveQty sig s.pos ≤ s.limitRoom cfg i sig.dir
  | _, _ => True

def WithinRoom (cfg : ExecCoreConfig) (i : ℕ) (s : Core) : Prop :=
  ∀ d, s.pool.resting i d ≤ s.limitRoom cfg i d

variable {cfg : ExecCoreConfig} {w : World} {r : ℕ → ℕ → ℕ} {s : Core} {i : ℕ} {d : OrderDir}

section Resting
variable {pool pool' : OMSOrderPool} {pid : ℕ}

theorem quota_nonneg (hall : AllQty r pool) (p : ℕ) : 0 ≤ pool.quota i d p := by
  unfold quota
  split
  · rename_i h
    exact (hall p h.1).leaves_nonneg
  · exact le_rfl

theorem resting_nonneg (hall : AllQty r pool) : 0 ≤ pool.resting i d :=
  Finset.sum_nonneg fun p _ => quota_nonneg hall p

theorem quota_of_not_inUse (h : ¬ pool.ParentInUse pid) : pool.quota i d pid = 0 :=
  if_neg fun hc => h hc.1

theorem quota_of_inUse (h : pool.ParentInUse pid) : pool.quota i d pid =
    onSide (pool.parents pid).instrId (pool.parents pid).dir i d (pool.parents pid).leavesQtyLots := by
  simp only [quota, onSide, h, true_and]

theorem resting_local (hloc : Local pid pool pool') (hpid : pid < kMaxParentOrders) :
    pool'.resting i d = pool.resting i d - pool.quota i d pid + pool'.quota i d pid := by
  apply SingleChange.range_sum_change hpid
  intro q _ hq
  by_cases hu : pool.ParentInUse q
  · simp only [quota, hloc.inUse q hq, hloc.record q hq hu]
  · rw [quota_of_not_inUse hu, quota_of_not_inUse fun h => hu ((hloc.inUse q hq).mp h)]

theorem Fresh.resting (h : Fresh s) : s.pool.resting i d = 0 :=
  Finset.sum_eq_zero fun p _ => quota_of_not_inUse (h.parentInUse p)

theorem resting_of_sameRecords (hsame : SameRecords pool pool') :
    pool'.resting i d = pool.resting i d := by
  apply Finset.sum_congr rfl
  intro q _
  have huse := inUse_of_parentFree hsame.parentFree q
  by_cases hu : pool.ParentInUse q
  · simp only [quota, huse, hsame.parents q hu]
  · rw [quota_of_not_inUse hu, quota_of_not_inUse fun h => hu (huse.mp h)]

/-- A parent that keeps its side and gains no lots asks for no more than before. -/
theorem quota_of_shrunk (h : ParentOrder.Shrunk (pool.parents pid) (pool'.parents pid))
    (hu : pool.ParentInUse pid) (hu' : pool'.ParentInUse pid) :
    pool'.quota i d pid ≤ pool.quota i d pid := by
  simp only [quota, hu, hu', h.deal.instrId, h.deal.dir, true_and]
  split
  · exact h.leaves
  · exact le_rfl

end Resting

section Steps

theorem micro_resting {a b : Phase × Core} (h : Micro cfg w a b) (ha : HealthyAt cfg w r a) :
    b.2.pool.resting i d ≤ a.2.pool.resting i d := by
  have hpid : a.2.pool.ParentInUse a.1.pid := by
    obtain ⟨phase, s⟩ := a
    cases phase with
    | idle => exact absurd rfl h.not_idle
    | booked pid => exact ha.store.1
    | trimmed pid ctx => exact ha.store.1
    | sending pid ctx rest => exact ha.store.1
  rw [resting_local (micro_local h ha.store) hpid.1]
  by_cases hu : b.2.pool.ParentInUse a.1.pid
  · have hle := quota_of_shrunk (i := i) (d := d) (micro_shrunk h ha.store hu).2 hpid hu
    omega
  · have hnn := quota_nonneg (i := i) (d := d) ha.qty.1 a.1.pid
    rw [quota_of_not_inUse hu]
    omega

theorem micro_withinRoom {a b : Phase × Core} (h : Micro cfg w a b) (ha : HealthyAt cfg w r a)
    (hroom : WithinRoom cfg i a.2) : WithinRoom cfg i b.2 := by
  intro d
  have hnet : b.2.closable i d = a.2.closable i d := by rw [Core.closable, micro_net h i]; rfl
  rw [Core.limitRoom, hnet]
  exact (micro_resting h ha).trans (hroom d)

end Steps

section Entry

/-- A signal is dispatched only after the risk engine has let it through. -/
theorem validate_of_dispatching {sig : StrategyOrderSignal} {s' : Core} {pid : ℕ}
    {buf : List ChildOrder} {ctx : RoutingContext}
    (h : signalFlow cfg w sig s = .dispatching s' pid buf ctx) :
    validate cfg.riskLimits cfg.instruments s.pos { sig with qtyLots := effectiveQty sig s.pos } = .ok := by
  have hsat : (signalFlow cfg w sig s).Sat (s.pool.parentFree.headD 0) (fun _ => True) fun _ _ _ =>
      validate cfg.riskLimits cfg.instruments s.pos
        { sig with qtyLots := effectiveQty sig s.pos } = .ok := by
    apply signalFlow_sat
    · exact fun _ => trivial
    · exact fun _ => trivial
    · exact fun _ _ _ _ _ _ => trivial
    · exact fun _ _ _ _ hval _ => hval
    · intro p free hfree
      rw [hfree]
      rfl
  rw [h] at hsat
  exact hsat.2

theorem reserved_resting {sig : StrategyOrderSignal} {pid : ℕ} {free : List ℕ}
    (hinv : StoreInv Quiet s.pool) (hfree : s.pool.parentFree = pid :: free)
    (hinstr : sig.instrId < kMaxInstruments) :
    (reserved w sig pid free s).pool.resting i d =
      s.pool.resting i d + onSide sig.instrId sig.dir i d (effectiveQty sig s.pos) := by
  have hloc : Local pid s.pool (reserved w sig pid free s).pool :=
    (open_local hinv hfree).trans (setParentState_local (s := admitted w sig pid free s) _)
  have hu := (reserved_storeInv (w := w) hinv hfree hinstr).1
  have hrec := reserved_record w s sig pid free
  rw [resting_local hloc hu.1, quota_of_not_inUse (open_fresh hfree), quota_of_inUse hu, hrec, sub_zero]
  rfl

/-- How far a position is from the other end of side `d` after a fill of `lots` on its own side. -/
theorem closable_fill (j : ℕ) (dir : OrderDir) (lots net : ℤ) (hlots : 0 ≤ lots) :
    closable d net - onSide j dir i d lots ≤
      closable d (if i = j then match dir with
        | .buy => net + lots
        | .sell => net - lots
      else net) := by
  by_cases hi : i = j
  · subst hi
    rw [if_pos rfl]
    cases d <;> cases dir <;> simp [onSide, closable] <;> omega
  · rw [if_neg hi, onSide, if_neg fun h => hi h.1.symm, sub_zero]

/-- A fill uses up room of its side, and as much of the lots resting there. -/
theorem bookFill_withinRoom {rep : ExecutionReport} (hs : Healthy r s)
    (hlive : s.pool.ChildLive rep.childId) (hmin : 1 ≤ rep.fillQtyLots)
    (hscaled : w.Scaled cfg r (s.pool.parents (s.parentOf rep.childId)).instrId)
    (hroom : WithinRoom cfg i s) :
    WithinRoom cfg i (bookFill cfg w rep.childId (s.parentOf rep.childId) rep s) := by
  intro d
  have hu := hs.store.parentOf_inUse hlive.1
  generalize hlots : toCanonicalLots cfg w (s.pool.children rep.childId)
    (s.pool.parents (s.parentOf rep.childId)).instrId rep.fillQtyLots = lots
  have hnn : 0 ≤ lots := by
    rw [← hlots, hscaled.toCanonicalLots]
    exact mul_nonneg (Int.natCast_nonneg _) (by omega)
  have htotal := (hs.qty _ hu).total
  have hresting : (bookFill cfg w rep.childId (s.parentOf rep.childId) rep s).pool.resting i d =
      s.pool.resting i d - onSide (s.pool.parents (s.parentOf rep.childId)).instrId
        (s.pool.parents (s.parentOf rep.childId)).dir i d lots := by
    have hu' : (bookFill cfg w rep.childId (s.parentOf rep.childId) rep s).pool.ParentInUse
      (s.parentOf rep.childId) := hu
    rw [resting_local (bookFill_local rep) hu.1, quota_of_inUse hu, quota_of_inUse hu']
    have hleaves : (s.pool.parents (s.parentOf rep.childId)).totalQtyLots -
        ((s.pool.parents (s.parentOf rep.childId)).cumQtyLots + lots) =
          (s.pool.parents (s.parentOf rep.childId)).leavesQtyLots + -lots := by omega
    simp only [bookFill_pool, modifyParent_parents, modifyChild_parents, Function.update_self,
      ParentOrder.fill, hlots, hleaves, onSide_add, onSide_neg]
    omega
  have hnet := @bookFill_net cfg w s rep.childId (s.parentOf rep.childId) rep i
  have hfill := closable_fill (i := i) (d := d) (s.pool.parents (s.parentOf rep.childId)).instrId
    (s.pool.parents (s.parentOf rep.childId)).dir lots (s.pos.instruments i).netQtyLots hnn
  have hold : s.pool.resting i d ≤ cfg.riskLimits.maxNetLots i +
      closable d (s.pos.instruments i).netQtyLots := hroom d
  rw [hlots] at hnet
  rw [hresting, Core.limitRoom, Core.closable, hnet]
  refine le_trans ?_ (add_le_add_right hfill _)
  omega

theorem bookCancel_withinRoom {cid : ℕ} {rep : ExecutionReport} (hinv : StoreInv Quiet s.pool)
    (hlive : s.pool.ChildLive cid) (hroom : WithinRoom cfg i s) :
    WithinRoom cfg i (bookCancel cfg w cid (s.parentOf cid) rep s) := by
  intro d
  have hu := hinv.parentOf_inUse hlive.1
  have hu' : (bookCancel cfg w cid (s.parentOf cid) rep s).pool.ParentInUse (s.parentOf cid) := hu
  have hresting : (bookCancel cfg w cid (s.parentOf cid) rep s).pool.resting i d = s.pool.resting i d := by
    rw [resting_local (bookCancel_local cfg w s cid rep) hu.1, quota_of_inUse hu, quota_of_inUse hu']
    simp only [bookCancel_pool, modifyParent_parents, modifyChild_parents, Function.update_self,
      sub_add_cancel]
  have hnet : (bookCancel cfg w cid (s.parentOf cid) rep s).closable i d = s.closable i d := by
    rw [Core.closable, bookCancel_net]
    rfl
  rw [hresting, Core.limitRoom, hnet]
  exact hroom d

theorem entered_withinRoom {c : Call} {a : Phase × Core} (h : Entered cfg w s c a)
    (hscaled : c.Scaled cfg r w s) (hs : Healthy r s) (hroom : WithinRoom cfg i s)
    (hfits : (Event.call w c).FitsLimit cfg i s) : WithinRoom cfg i a.2 := by
  cases h with
  | refused href =>
    intro d
    rw [resting_of_sameRecords href.records, Core.limitRoom, Core.closable, href.pos]
    exact hroom d
  | @admitted sig pid free hpos hfree hinstr hqty hsplit hflow =>
    intro d
    have hnet : (reserved w sig pid free s).closable i d = s.closable i d := by
      rw [Core.closable, reserved_net]
      rfl
    rw [reserved_resting hs.store hfree hinstr, Core.limitRoom, hnet]
    have hold := hroom d
    by_cases hside : sig.instrId = i ∧ sig.dir = d
    · obtain ⟨hi, rfl⟩ := hside
      rw [hi, onSide_self]
      exact hfits hi (validate_of_dispatching hflow)
    · rw [onSide, if_neg hside, add_zero]
      exact hold
  | filled hlive hkind hmin =>
    exact bookFill_withinRoom hs hlive hmin (hscaled _ (hs.store.parentOf_inUse hlive.1)) hroom
  | ended hlive => exact bookCancel_withinRoom hs.store hlive hroom
  | acknowledged => exact hroom
  | ignored => exact hroom
  | @expired slot idx e he hlive =>
    exact bookCancel_withinRoom (s := s.setWheel (s.timerWheel.deactivate e)) hs.store hlive hroom
  | unarmed => exact hroom

end Entry

section Run

theorem step_withinRoom {e : Event} (hs : Healthy r s) (h : e.Admissible cfg r s)
    (hroom : WithinRoom cfg i s) (hfits : e.FitsLimit cfg i s) : WithinRoom cfg i (step cfg e s) := by
  cases e with
  | call w c =>
    have hcall := call_invariant (fun a => HealthyAt cfg w r a ∧ WithinRoom cfg i a.2) c
      (fun a b hm ha => ⟨micro_healthy h.sound hm ha.1, micro_withinRoom hm ha.1 ha.2⟩)
      ⟨entered_healthy h.sound (h.entered hs) h.scaled hs,
        entered_withinRoom (h.entered hs) h.scaled hs hroom hfits⟩
    exact hcall.2
  | env e =>
    have hsame := e.apply_sameBooks s
    intro d
    rw [step, hsame.pool, Core.limitRoom, Core.closable, hsame.net]
    exact hroom d

/-- What keeps a run within the limit of instrument `i`. -/
structure LimitKept (cfg : ExecCoreConfig) (r : ℕ → ℕ → ℕ) (i : ℕ) (e : Event) (s : Core) : Prop where
  admissible : e.Admissible cfg r s
  fits : e.FitsLimit cfg i s

/-- From a flat position, a run whose accepted signals all fit into the room left to the limit
keeps the position within it. -/
theorem run_withinLimit {evs : List Event} (h0 : Fresh s) (hflat : (s.pos.instruments i).netQtyLots = 0)
    (hlimit : 0 < cfg.riskLimits.maxNetLots i) (h : Along (step cfg) (LimitKept cfg r i) s evs) :
    |((run (step cfg) s evs).pos.instruments i).netQtyLots| ≤ cfg.riskLimits.maxNetLots i := by
  obtain ⟨hs, hroom⟩ := h.invariant (fun s => Healthy r s ∧ WithinRoom cfg i s)
    (fun e s hs he => ⟨step_healthy hs.1 he.admissible,
      step_withinRoom hs.1 he.admissible hs.2 he.fits⟩) ⟨h0.healthy, fun d => by
        rw [h0.resting, Core.limitRoom, Core.closable, hflat]
        cases d <;> simp [closable, hlimit.le]⟩
  have hbuy := (resting_nonneg hs.qty).trans (hroom .buy)
  have hsell := (resting_nonneg hs.qty).trans (hroom .sell)
  simp only [Core.limitRoom, Core.closable, closable] at hbuy hsell
  exact abs_le.mpr ⟨by omega, by omega⟩

/-- The small set-up with a limit of `max` lots either way. -/
def Sample.limited (max : ℤ) : ExecCoreConfig :=
  { config with riskLimits := { config.riskLimits with maxNetLots := fun _ => max } }

/-- Two buys of four lots each pass a limit of four, because neither has filled when the other is
checked. -/
def Sample.overlapRun : List Event :=
  [.call (world 9) (.signal (signal .buy 4 false)),
   .call (world 9) (.signal (signal .buy 4 false)),
   .call (world 9) (.report (report 0 .fill 4)),
   .call (world 9) (.report (report 1 .fill 4))]

theorem Sample.limited_scaled (max depth : ℤ) (instr : ℕ) :
    (world depth).Scaled (limited max) canonical instr :=
  ⟨(scaled depth instr).lot, (scaled depth instr).pos⟩

theorem Sample.overlap_admissible :
    Along (step (limited 4)) (Event.Admissible (limited 4) canonical) (start 0) overlapRun := by
  refine ⟨⟨by decide, fun _ => limited_scaled 4 9 _, sound 9⟩,
    ⟨by decide, fun _ => limited_scaled 4 9 _, sound 9⟩,
    ⟨⟨?_, fun _ => by decide +kernel⟩, fun _ _ => limited_scaled 4 9 _, sound 9⟩,
    ⟨⟨?_, fun _ => by decide +kernel⟩, fun _ _ => limited_scaled 4 9 _, sound 9⟩, trivial⟩
  · refine childLive [] 2 32766 ?_ (by decide) (by decide) (by decide) ?_ <;> with_unfolding_all rfl
  · refine childLive [0] 2 32766 ?_ (by decide) (by decide) (by decide) ?_ <;> with_unfolding_all rfl

theorem overlapping_buys_exceed_limit :
    Along (step (Sample.limited 4)) (Event.Admissible (Sample.limited 4) canonical) (Sample.start 0)
      Sample.overlapRun ∧
    (Sample.limited 4).riskLimits.maxNetLots 0 = 4 ∧
    ((Sample.start 0).pos.instruments 0).netQtyLots = 0 ∧
    ((run (step (Sample.limited 4)) (Sample.start 0) Sample.overlapRun).pos.instruments 0).netQtyLots = 8 :=
  ⟨Sample.overlap_admissible, rfl, rfl, by decide +kernel⟩

theorem run_withinLimit_filled :
    |((run (step (Sample.limited 4)) (Sample.start 0)
      [.call (Sample.world 9) (.signal (Sample.signal .buy 4 false)),
       .call (Sample.world 9) (.report (Sample.report 0 .fill 4))]).pos.instruments 0).netQtyLots| ≤ 4 := by
  refine run_withinLimit (i := 0) (r := canonical) (Sample.fresh 0) rfl (by decide)
    ⟨⟨?_, ?_⟩, ⟨?_, trivial⟩, trivial⟩
  · exact ⟨by decide, fun _ => Sample.limited_scaled 4 9 _, Sample.sound 9⟩
  · intro _ _
    rw [(Sample.fresh 0).resting]
    decide +kernel
  · refine ⟨⟨?_, fun _ => by decide +kernel⟩, fun _ _ => Sample.limited_scaled 4 9 _, Sample.sound 9⟩
    refine Sample.firstChildLive ?_ ?_ <;> with_unfolding_all rfl

end Run

end OmsFormal.Oms
