import OmsFormal.DeadReportEffects

/-!
# Dead reports over whole runs

The records of freed parents are retired in every state of a run, so `Harmless`
decides what a report about a dead child does there. Harmless reports may be part
of the run itself.
-/

namespace OmsFormal.Oms
open Sor Rounding OMSOrderPool GuardedRun
set_option autoImplicit false

variable {cfg : ExecCoreConfig} {w : World} {rep : ExecutionReport} {s : Core} {pid : ℕ}
  {r : ℕ → ℕ → ℕ}

section FreeParents

theorem OMSOrderPool.FreeParents.of_local {pool pool' : OMSOrderPool} (h : pool.FreeParents)
    (hloc : Local pid pool pool') (hother : ∀ q, q ≠ pid → pool'.parents q = pool.parents q)
    (hself : ¬ pool'.ParentInUse pid → (pool'.parents pid).Retired) : pool'.FreeParents := by
  intro q hq
  by_cases hpid : q = pid
  · subst hpid
    exact hself hq
  · rw [hother q hpid]
    exact h q fun hu => hq ((hloc.inUse q hpid).mpr hu)

/-- No small step writes to the record of another parent, in use or not. -/
theorem micro_parents {a b : Phase × Core} (h : Micro cfg w a b) {q : ℕ} (hq : q ≠ a.1.pid) :
    b.2.pool.parents q = a.2.pool.parents q := by
  cases h with
  | mark => exact Function.update_of_ne hq _ _
  | close =>
    simp only [closeFilled, setParentState_pool, freeParent_parents, freeSlots_parents, modifyParent_parents]
    exact Function.update_of_ne hq _ _
  | keep => rfl
  | @trim pid s =>
    simp only [trimmed_eq, releaseChildren, modifyParent_parents, freeSlots_parents, Function.update_idem]
    exact Function.update_of_ne hq _ _
  | reduced =>
    simp only [closeReduceOnlyDone, setParentState_pool, freeParent_parents, modifyParent_parents]
    exact Function.update_of_ne hq _ _
  | noLiquidity =>
    simp only [closeUnfilled, notifyReject, setParentState_pool, freeParent_parents, modifyParent_parents]
    exact Function.update_of_ne hq _ _
  | route => exact Function.update_of_ne hq _ _
  | send =>
    simp only [sendChild, attachChild]
    exact Function.update_of_ne hq _ _
  | allocFailed hfree => simp only [allocChild, hfree]
  | sent => simp only [releaseGap_pool]
  | noneSent =>
    simp only [closeUnfilled, notifyReject, setParentState_pool, freeParent_parents, modifyParent_parents,
      releaseGap_pool]
    exact Function.update_of_ne hq _ _

theorem micro_retired {a b : Phase × Core} (h : Micro cfg w a b) (ha : HealthyAt cfg w r a)
    (hgone : ¬ b.2.pool.ParentInUse a.1.pid) : (b.2.pool.parents a.1.pid).Retired := by
  obtain ⟨hstore, _, hall, _⟩ := ha
  -- the quantities of the record that is retired add up, whatever its last state
  have hretired {s s' : Core} {pid : ℕ} {st : OrderState} (hq : QtyOk r s.pool pid)
      (hempty : (s.pool.parents pid).leavesQtyLots = 0 ∨ (s.pool.parents pid).childIds = [])
      (hpool : s'.pool = s.pool.retire pid { s.pool.parents pid with state := st }) :
      (s'.pool.parents pid).Retired := by
    rw [hpool, retire_record]
    exact ⟨by have := hq.total; simp only; omega, hempty⟩
  cases h with
  | mark => exact absurd hstore.1 hgone
  | close hl =>
    obtain ⟨st, hpool⟩ := closeFilled_retire hstore.2 hstore.1
    have hq := hall _ hstore.1
    exact hretired hq (Or.inl (le_antisymm hl hq.leaves_nonneg)) hpool
  | keep => exact absurd hstore.1 hgone
  | trim hleft hterm =>
    refine absurd ?_ hgone
    rw [trimmed_pool (terminal_of_allChildrenTerminal hstore.2 hstore.1 hterm)]
    exact hstore.1
  | reduced hflag hl =>
    obtain ⟨st, hpool⟩ := closeReduceOnlyDone_retire hstore.2.1 hstore.1 hstore.2.2
    exact hretired (hall _ hstore.1) (Or.inl hl) hpool
  | noLiquidity =>
    obtain ⟨st, hpool⟩ := closeUnfilled_retire w .noLiquidity hstore.2.1 hstore.1 hstore.2.2
    exact hretired (hall _ hstore.1) (Or.inr (childIds_nil hstore.2.1 hstore.1 hstore.2.2)) hpool
  | route => exact absurd hstore.1 hgone
  | send => exact absurd hstore.1 hgone
  | allocFailed hfree =>
    exact absurd ((inUse_of_parentFree (allocFailed_sameRecords hfree).parentFree _).mpr hstore.1) hgone
  | sent =>
    rw [releaseGap_pool] at hgone
    exact absurd hstore.1 hgone
  | @noneSent pid ctx rest s hcount =>
    obtain ⟨st, hpool⟩ := noneSent_retire (w := w) ctx rest hstore.2 hstore.1 hcount
    exact hretired (hall _ hstore.1) (Or.inr (childIds_nil hstore.2 hstore.1 hcount)) hpool

theorem micro_freeParents {a b : Phase × Core} (h : Micro cfg w a b) (ha : HealthyAt cfg w r a)
    (hfree : a.2.pool.FreeParents) : b.2.pool.FreeParents :=
  hfree.of_local (micro_local h ha.store) (fun _ hq => micro_parents h hq) (micro_retired h ha)

theorem entered_freeParents {c : Call} {a : Phase × Core} (h : Entered cfg w s c a)
    (hinv : StoreInv Quiet s.pool) (hfree : s.pool.FreeParents) : a.2.pool.FreeParents := by
  -- a booked report writes to the record of a parent in use
  have hbooked {pool' : OMSOrderPool} {pid : ℕ} {x : ParentOrder} (hu : s.pool.ParentInUse pid)
      (huse : pool'.parentFree = s.pool.parentFree)
      (hrec : pool'.parents = Function.update s.pool.parents pid x) :
      pool'.FreeParents := by
    intro q hq
    rw [inUse_of_parentFree huse] at hq
    rw [hrec, Function.update_of_ne fun he : q = pid => hq (he ▸ hu)]
    exact hfree q hq
  cases h with
  | refused h =>
    intro q hq
    rw [inUse_of_parentFree h.records.parentFree] at hq
    exact h.retired q (hfree q hq)
  | @admitted sig pid free hpos hpf hinstr =>
    have hloc : Local pid s.pool (reserved w sig pid free s).pool :=
      (open_local hinv hpf).trans (setParentState_local (s := admitted w sig pid free s) _)
    refine hfree.of_local hloc (fun q hq => ?_) fun hgone => absurd ?_ hgone
    · simp [reserved, Core.setParentState, admitted, openParent, hq]
    · exact (reserved_storeInv hinv hpf hinstr).1
  | filled hlive => exact hbooked (hinv.parentOf_inUse hlive.1) rfl rfl
  | ended hlive => exact hbooked (hinv.parentOf_inUse hlive.1) rfl rfl
  | acknowledged => exact hfree
  | ignored => exact hfree
  | expired he hlive => exact hbooked (hinv.parentOf_inUse hlive.1) rfl rfl
  | unarmed => exact hfree

theorem call_freeParents {c : Call} (h : c.Admissible cfg r w s) (hs : Healthy r s)
    (hfree : s.pool.FreeParents) : (c.apply cfg w s).pool.FreeParents :=
  (call_invariant (fun a => HealthyAt cfg w r a ∧ a.2.pool.FreeParents) c
    (fun _ _ hm ha => ⟨micro_healthy h.sound hm ha.1, micro_freeParents hm ha.1 ha.2⟩)
    ⟨entered_healthy h.sound (h.entered hs) h.scaled hs,
      entered_freeParents (h.entered hs) hs.store hfree⟩).2

end FreeParents

section Runs

/-- A call as the callers promise it, or a harmless report about a dead child. -/
def Event.Regular (cfg : ExecCoreConfig) (r : ℕ → ℕ → ℕ) (e : Event) (s : Core) : Prop :=
  e.Admissible cfg r s ∨
  ∃ w rep, e = .call w (.report rep) ∧ ¬ s.pool.ChildLive rep.childId ∧ Harmless cfg w rep s

theorem Harmless.parents (h : Harmless cfg w rep s) :
    (onExecutionReport cfg w rep s).pool.parents = s.pool.parents := by
  refine h.rule (P := fun s' => s'.pool.parents = s.pool.parents) rfl (fun _ => rfl) (fun h => ?_)
    fun h => ?_
  · obtain ⟨k, hk, hne, hworks⟩ := h.waits
    have hbooked := congrFun h.parents (s.parentOf rep.childId)
    rw [handleFill_waits (by rw [hbooked]; exact h.leaves.ne') hk hne hworks, setParentState_pool,
      modifyParent_parents, h.parents, ← h.marked]
    exact Function.update_eq_self _ _
  · obtain ⟨k, hk, hne, hworks⟩ := h.waits
    rw [handleCancelReject_waits h.leaves hk hne hworks, h.parents]

theorem Untouched.healthy {s' : Core} (h : Untouched s s') (hs : Healthy r s) : Healthy r s' := by
  have hchildren (c : ℕ) := childInUse_of_childFree h.records.childFree c
  refine ⟨h.records.storeInv hs.store, hs.timers.of_sameLive ⟨fun c hc => ?_, fun c hc _ => ?_⟩ h.timerWheel,
    hs.qty.of_sameRecords hs.store h.records⟩
  · exact ⟨(hchildren c).mp hc, h.records.children c ((hchildren c).mp hc)⟩
  · exact (hchildren c).mpr hc

theorem step_regular {e : Event} (hs : Healthy r s) (hfree : s.pool.FreeParents) (h : e.Regular cfg r s) :
    Healthy r (step cfg e s) ∧ (step cfg e s).pool.FreeParents := by
  rcases h with hadm | ⟨w, rep, rfl, _, hharmless⟩
  · refine ⟨step_healthy hs hadm, ?_⟩
    cases e with
    | call w c => exact call_freeParents hadm hs hfree
    | env e =>
      have hsame := e.apply_sameBooks s
      simp only [step, hsame.pool]
      exact hfree
  · have huntouched := hharmless.untouched
    refine ⟨huntouched.healthy hs, fun q hq => ?_⟩
    have hsame : (step cfg (.call w (.report rep)) s).pool.parents = s.pool.parents := hharmless.parents
    rw [hsame]
    exact hfree q fun hu => hq ((inUse_of_parentFree huntouched.records.parentFree q).mpr hu)

theorem Fresh.freeParents (h : Fresh s) : s.pool.FreeParents := by
  intro q _
  rw [h.pool]
  exact ⟨rfl, Or.inl rfl⟩

/-- A report about a dead child leaves everything in use as it is if it is harmless, in any state;
and only if it is harmless, in any state that a run of well-formed calls and harmless reports
reaches. -/
theorem deadReport_untouched (w : World) (rep : ExecutionReport) (hdead : ¬ s.pool.ChildLive rep.childId) :
    (Harmless cfg w rep s → Untouched s (onExecutionReport cfg w rep s)) ∧
    ∀ r s0 evs, Fresh s0 → Along (step cfg) (Event.Regular cfg r) s0 evs → run (step cfg) s0 evs = s →
      Untouched s (onExecutionReport cfg w rep s) → Harmless cfg w rep s := by
  refine ⟨Harmless.untouched, ?_⟩
  rintro r s0 evs h0 hrun rfl huntouched
  have hreached : Healthy r (run (step cfg) s0 evs) ∧ (run (step cfg) s0 evs).pool.FreeParents :=
    hrun.invariant (fun s => Healthy r s ∧ s.pool.FreeParents)
      (fun e s hs he => step_regular hs.1 hs.2 he) ⟨h0.healthy, h0.freeParents⟩
  exact Harmless.of_untouched hreached.1 hreached.2 hdead huntouched

end Runs

section Samples

/-- A buy that was filled completely, so that its child is free again. -/
def Sample.filledRun : List Event :=
  [.call (world 9) (.signal (signal .buy 4 false)),
   .call (world 9) (.report (report 0 .fill 4))]

theorem Sample.filled_admissible :
    Along (step config) (Event.Admissible config canonical) (start 0) filledRun := by
  refine ⟨⟨by decide, fun _ => scaled 9 _, sound 9⟩, ⟨⟨?_, ?_⟩, fun _ _ => scaled 9 _, sound 9⟩, trivial⟩
  · refine firstChildLive ?_ ?_ <;> with_unfolding_all rfl
  · intro _
    decide +kernel

/-- The same fill reported again is booked again. -/
theorem duplicateFill_booked :
    let s := run (step Sample.config) (Sample.start 0) Sample.filledRun
    let s' := onExecutionReport Sample.config (Sample.world 9) (Sample.report 0 .fill 4) s
    Fresh (Sample.start 0) ∧
    Along (step Sample.config) (Event.Admissible Sample.config canonical) (Sample.start 0) Sample.filledRun ∧
    ¬ s.pool.ChildInUse 0 ∧ (s.pos.instruments 0).netQtyLots = 4 ∧ (s'.pos.instruments 0).netQtyLots = 8 ∧
    ¬ Untouched s s' := by
  have hbefore :
      ((run (step Sample.config) (Sample.start 0) Sample.filledRun).pos.instruments 0).netQtyLots = 4 := by
    decide +kernel
  have hafter : ((onExecutionReport Sample.config (Sample.world 9) (Sample.report 0 .fill 4)
      (run (step Sample.config) (Sample.start 0) Sample.filledRun)).pos.instruments 0).netQtyLots = 8 := by
    decide +kernel
  refine ⟨Sample.fresh 0, Sample.filled_admissible, by decide +kernel, hbefore, hafter, fun h => ?_⟩
  rw [h.pos, hbefore] at hafter
  cases hafter

/-- A late acknowledgement of a freed child changes nothing. -/
theorem deadReport_untouched_new :
    let s := run (step Sample.config) (Sample.start 0) Sample.filledRun
    Untouched s (onExecutionReport Sample.config (Sample.world 9) (Sample.report 0 .new 0) s) := by
  have hfreed : ¬ (run (step Sample.config) (Sample.start 0) Sample.filledRun).pool.ChildInUse 0 := by
    decide +kernel
  exact (deadReport_untouched (Sample.world 9) (Sample.report 0 .new 0) fun h => hfreed h.1).1
    (Or.inr (Or.inr hfreed))

end Samples

end OmsFormal.Oms
