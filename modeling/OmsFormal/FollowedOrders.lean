import OmsFormal.LiveChildren
import OmsFormal.Runs

/-!
# An order followed by its own reports

A child order is sent, acknowledged, filled in parts and ended, and its id is then
used again. Whoever notes only what the reports and the timer of one order say of
it knows its record for as long as it lives: nothing else that happens to the core
changes the record, or drops it. What is on the books besides was just sent, and
every label agrees with the lots.
-/

namespace OmsFormal.Oms
open Sor Rounding OMSOrderPool GuardedRun
set_option autoImplicit false

/-- The label of a child says what has become of its lots. -/
def ChildOrderState.Labelled (c : ChildOrderState) : Prop :=
  match c.state with
  | .pendingNew => 0 ≤ c.cumQtyLots ∧ 0 ≤ c.leavesQtyLots ∧ c.cumQtyLots + c.leavesQtyLots = c.qtyLots
  | .partiallyFilled =>
    1 ≤ c.cumQtyLots ∧ 1 ≤ c.leavesQtyLots ∧ c.cumQtyLots + c.leavesQtyLots = c.qtyLots
  | .filled => 1 ≤ c.cumQtyLots ∧ c.leavesQtyLots = 0 ∧ c.cumQtyLots = c.qtyLots
  | .canceled | .rejected => 0 ≤ c.cumQtyLots ∧ c.leavesQtyLots = 0 ∧ c.cumQtyLots ≤ c.qtyLots
  | .new | .pendingCancel => False

/-- A record as a dispatch writes it. -/
structure ChildOrderState.JustSent (c : ChildOrderState) : Prop where
  state : c.state = .pendingNew
  cum : c.cumQtyLots = 0
  leaves : c.leavesQtyLots = c.qtyLots

/-- What a report says of the child it names. -/
def ExecutionReport.effect (rep : ExecutionReport) (c : ChildOrderState) : ChildOrderState :=
  match rep.execType with
  | .partialFill | .fill => c.fill rep.fillQtyLots
  | .canceled | .rejected => c.cancel rep.execType
  | .new => { c with state := .pendingNew }
  | .replaced => c

/-- The report a call delivers, or makes up for an expired timer. -/
def Call.delivers (s : Core) : Call → Option ExecutionReport
  | .signal _ => none
  | .report rep => some rep
  | .visit slot idx =>
    (s.timerWheel.entryAt slot idx).map fun e => timeoutReport e.childId (s.pool.children e.childId)

/-- What an event says of child `cid`. -/
def Event.tells (e : Event) (s : Core) (cid : ℕ) (rec : ChildOrderState) : ChildOrderState :=
  match e with
  | .env _ => rec
  | .call _ c =>
    match c.delivers s with
    | none => rec
    | some rep => if rep.childId = cid then rep.effect rec else rec

/-- The core, and a record that is kept of child `cid` from what is told of it while it lives. -/
structure Followed where
  core : Core
  record : ChildOrderState

def Followed.step (cfg : ExecCoreConfig) (cid : ℕ) (e : Event) (x : Followed) : Followed where
  core := Oms.step cfg e x.core
  record := if x.record.state.working then e.tells x.core cid x.record else x.record

variable {cfg : ExecCoreConfig} {w : World} {r : ℕ → ℕ → ℕ} {s : Core} {c : Call} {e : Event} {cid : ℕ}

section Labels

theorem ChildOrderState.JustSent.labelled {rec : ChildOrderState} (h : rec.JustSent)
    (hleaves : 0 ≤ rec.leavesQtyLots) : rec.Labelled := by
  unfold Labelled
  simp only [h.state, h.cum]
  exact ⟨le_rfl, hleaves, by rw [h.leaves, zero_add]⟩

theorem ChildOrderState.Labelled.working {rec : ChildOrderState} (h : rec.Labelled)
    (hw : rec.state.working = true) :
    0 ≤ rec.cumQtyLots ∧ 0 ≤ rec.leavesQtyLots ∧ rec.cumQtyLots + rec.leavesQtyLots = rec.qtyLots := by
  unfold Labelled at h
  cases hstate : rec.state <;> simp only [hstate, OrderState.working, Bool.false_eq_true] at h hw
  · exact h
  · omega

/-- Reports for a live child keep its label true. -/
theorem ChildOrderState.Labelled.effect {rec : ChildOrderState} {rep : ExecutionReport} (h : rec.Labelled)
    (hw : rec.state.working = true)
    (hfill : rep.execType.isFill = true → 1 ≤ rep.fillQtyLots ∧ rep.fillQtyLots ≤ rec.leavesQtyLots) :
    (rep.effect rec).Labelled := by
  obtain ⟨hcum, hleaves, htotal⟩ := h.working hw
  have hfilled (hkind : rep.execType.isFill = true) : (rec.fill rep.fillQtyLots).Labelled := by
    obtain ⟨hmin, hmax⟩ := hfill hkind
    unfold Labelled ChildOrderState.fill
    by_cases hdone : rec.qtyLots - (rec.cumQtyLots + rep.fillQtyLots) = 0
    · simp only [if_pos hdone]
      omega
    · simp only [if_neg hdone]
      omega
  have hended (t : ExecType) : (rec.cancel t).Labelled := by
    unfold Labelled ChildOrderState.cancel
    by_cases hkind : t = .canceled
    · simp only [if_pos hkind]
      exact ⟨hcum, trivial, by omega⟩
    · simp only [if_neg hkind]
      exact ⟨hcum, trivial, by omega⟩
  unfold ExecutionReport.effect
  cases hkind : rep.execType with
  | partialFill => exact hfilled (by rw [hkind]; rfl)
  | fill => exact hfilled (by rw [hkind]; rfl)
  | canceled => exact hended _
  | rejected => exact hended _
  | new => exact ⟨hcum, hleaves, htotal⟩
  | replaced => exact h

end Labels

section Entries

theorem update_tells (children : ℕ → ChildOrderState) {f : ChildOrderState → ChildOrderState}
    {rep : ExecutionReport} (hf : ∀ rec, rep.effect rec = f rec) (cid : ℕ) :
    Function.update children rep.childId (f (children rep.childId)) cid =
      if rep.childId = cid then rep.effect (children cid) else children cid := by
  by_cases hcid : rep.childId = cid
  · subst hcid
    rw [Function.update_self, if_pos rfl, hf]
  · rw [Function.update_of_ne (Ne.symm hcid), if_neg hcid]

theorem effect_fill {rep : ExecutionReport} (h : rep.execType.isFill = true) (rec : ChildOrderState) :
    rep.effect rec = rec.fill rep.fillQtyLots := by
  unfold ExecutionReport.effect
  cases hkind : rep.execType <;> simp_all [ExecType.isFill]

theorem effect_end {rep : ExecutionReport} (h : rep.execType.isEnd = true) (rec : ChildOrderState) :
    rep.effect rec = rec.cancel rep.execType := by
  unfold ExecutionReport.effect
  cases hkind : rep.execType <;> simp_all [ExecType.isEnd]

/-- Where a well-formed call has booked its own effect, every child has the record it was told of. -/
theorem entered_tells {a : Phase × Core} (h : Entered cfg w s c a) (cid : ℕ) :
    (a.2.pool.ChildInUse cid ↔ s.pool.ChildInUse cid) ∧
      (s.pool.ChildInUse cid →
        a.2.pool.children cid = (Event.call w c).tells s cid (s.pool.children cid)) := by
  cases h with
  | refused href hflow =>
    exact ⟨childInUse_of_childFree href.records.childFree cid, fun huse => href.records.children cid huse⟩
  | admitted hpos hfree hinstr hqty hsplit hflow => exact ⟨Iff.rfl, fun _ => rfl⟩
  | filled hlive hkind => exact ⟨Iff.rfl, fun _ => update_tells _ (effect_fill hkind) cid⟩
  | ended hlive hkind => exact ⟨Iff.rfl, fun _ => update_tells _ (effect_end hkind) cid⟩
  | @acknowledged rep hlive hkind =>
    have hack (rec : ChildOrderState) : rep.effect rec = { rec with state := .pendingNew } := by
      simp [ExecutionReport.effect, hkind]
    exact ⟨Iff.rfl, fun _ => update_tells _ hack cid⟩
  | @ignored rep hkind =>
    refine ⟨Iff.rfl, fun _ => ?_⟩
    simp [Event.tells, Call.delivers, ExecutionReport.effect, hkind]
  | @expired slot idx e he hlive =>
    refine ⟨Iff.rfl, fun _ => ?_⟩
    have hkind : (timeoutReport e.childId (s.pool.children e.childId)).execType.isEnd = true := rfl
    simp only [Event.tells, Call.delivers, he, Option.map_some]
    exact update_tells _ (effect_end hkind) cid
  | unarmed hnone =>
    refine ⟨Iff.rfl, fun _ => ?_⟩
    simp [Event.tells, Call.delivers, hnone]

end Entries

section Calls

/-- A small step drops children or sends one, and rewrites none. -/
theorem micro_known {a b : Phase × Core} (h : Micro cfg w a b) (ha : HealthyAt cfg w r a)
    (hc : b.2.pool.ChildInUse cid) : (b.2.pool.children cid).JustSent ∨
      a.2.pool.ChildInUse cid ∧ b.2.pool.children cid = a.2.pool.children cid := by
  rcases micro_live h ha.store (ha.qty.closeSafe ha.store) with
    ⟨hlive, -⟩ | ⟨pid, ctx, new, free, co, rest, hphase, -, hfree, rfl⟩
  · exact Or.inr (hlive.back cid hc)
  · have huse := attach_childInUse pid (newChild w (a.2.pool.parents pid).parentId ctx new co)
      (ha.store.of_sending hphase) hfree cid
    by_cases hnew : cid = new
    · subst hnew
      refine Or.inl ?_
      have hrec : (sendChild cfg w pid ctx cid free co a.2).pool.children cid =
          newChild w (a.2.pool.parents pid).parentId ctx cid co := Function.update_self _ _ _
      rw [hrec]
      exact ⟨rfl, rfl, rfl⟩
    · exact Or.inr ⟨(huse.mp hc).resolve_left hnew, Function.update_of_ne hnew _ _⟩

theorem call_tells (hs : Healthy r s) (hadm : c.Admissible cfg r w s) (cid : ℕ) :
    (s.pool.ChildInUse cid → ((Event.call w c).tells s cid (s.pool.children cid)).state.working = true →
      (c.apply cfg w s).pool.ChildInUse cid ∧
        (c.apply cfg w s).pool.children cid = (Event.call w c).tells s cid (s.pool.children cid)) ∧
    ((c.apply cfg w s).pool.ChildInUse cid → ((c.apply cfg w s).pool.children cid).JustSent ∨
      s.pool.ChildInUse cid ∧
        (c.apply cfg w s).pool.children cid = (Event.call w c).tells s cid (s.pool.children cid)) := by
  have hentered := hadm.entered hs
  obtain ⟨huse, hrec⟩ := entered_tells hentered cid
  have hend := call_invariant
    (fun b => HealthyAt cfg w r b ∧ KeepsLive (c.entry cfg w s).2 b.2 ∧
      (b.2.pool.ChildInUse cid → (b.2.pool.children cid).JustSent ∨
        (c.entry cfg w s).2.pool.ChildInUse cid ∧
          b.2.pool.children cid = (c.entry cfg w s).2.pool.children cid)) c
    (fun a b hm ha => ⟨micro_healthy hadm.sound hm ha.1, ha.2.1.trans (micro_keepsLive hm ha.1),
      fun hb => (micro_known hm ha.1 hb).elim Or.inl fun hold => by
        rw [hold.2]
        exact ha.2.2 hold.1⟩)
    ⟨entered_healthy hadm.sound hentered hadm.scaled hs, .of_same rfl rfl, fun hb => Or.inr ⟨hb, rfl⟩⟩
  refine ⟨fun hc hw => ?_, fun hc => ?_⟩
  · rw [← hrec hc] at hw ⊢
    obtain ⟨hlive, hsame⟩ := hend.2.1 cid ⟨huse.mpr hc, OrderState.not_terminal_of_working hw⟩
    exact ⟨hlive.1, hsame⟩
  · rcases hend.2.2 hc with hnew | ⟨hold, hsame⟩
    · exact Or.inl hnew
    · exact Or.inr ⟨huse.mp hold, hsame.trans (hrec (huse.mp hold))⟩

end Calls

section Runs

/-- A child that is told of as still working is on the books, with the record it was told of. -/
theorem step_kept (hs : Healthy r s) (hadm : e.Admissible cfg r s) (hc : s.pool.ChildInUse cid)
    (hw : (e.tells s cid (s.pool.children cid)).state.working = true) :
    (step cfg e s).pool.ChildInUse cid ∧
      (step cfg e s).pool.children cid = e.tells s cid (s.pool.children cid) := by
  cases e with
  | call w c => exact (call_tells hs hadm cid).1 hc hw
  | env e =>
    have hpool := (e.apply_sameBooks s).pool
    simp only [step, hpool]
    exact ⟨hc, rfl⟩

/-- Whatever is on the books was just sent, or was on them before and has been told of. -/
theorem step_known (hs : Healthy r s) (hadm : e.Admissible cfg r s)
    (hc : (step cfg e s).pool.ChildInUse cid) : ((step cfg e s).pool.children cid).JustSent ∨
      s.pool.ChildInUse cid ∧
        (step cfg e s).pool.children cid = e.tells s cid (s.pool.children cid) := by
  cases e with
  | call w c => exact (call_tells hs hadm cid).2 hc
  | env e =>
    have hpool := (e.apply_sameBooks s).pool
    simp only [step, hpool] at hc ⊢
    exact Or.inr ⟨hc, rfl⟩

/-- All labels are true. -/
def Core.Labelled (s : Core) : Prop := ∀ c, s.pool.ChildInUse c → (s.pool.children c).Labelled

theorem tells_labelled (hs : Healthy r s) (hlabel : s.Labelled) (hadm : e.Admissible cfg r s)
    (hc : s.pool.ChildInUse cid) : (e.tells s cid (s.pool.children cid)).Labelled := by
  have hlast := hlabel cid hc
  cases e with
  | env e => exact hlast
  | call w c =>
    cases c with
    | signal sig => exact hlast
    | report rep =>
      simp only [Event.tells, Call.delivers]
      split
      · rename_i hcid
        subst hcid
        obtain ⟨hlive, hfill⟩ := hadm.wellFormed
        exact hlast.effect (hs.store.working_of_live hlive) hfill
      · exact hlast
    | visit slot idx =>
      simp only [Event.tells, Call.delivers]
      cases hentry : s.timerWheel.entryAt slot idx with
      | none => exact hlast
      | some t =>
        simp only [Option.map_some]
        split
        · rename_i hcid
          obtain rfl : t.childId = cid := hcid
          obtain ⟨-, hw⟩ := hs.timers.live t (TimerWheel.entryAt_mem hentry)
          exact hlast.effect hw fun hkind => Bool.noConfusion hkind
        · exact hlast

theorem step_labelled (hs : Healthy r s) (hlabel : s.Labelled) (hadm : e.Admissible cfg r s) :
    (step cfg e s).Labelled := by
  intro c hc
  rcases step_known hs hadm hc with hnew | ⟨hold, hrec⟩
  · have hs' := step_healthy hs hadm
    have hqty := (hs'.qty _ (hs'.store.parentOf_inUse hc)).child c (hs'.store.mem_childIds hc)
      (by rw [hnew.state]; rfl)
    exact hnew.labelled hqty.2
  · rw [hrec]
    exact tells_labelled hs hlabel hadm hold

/-- What is kept of a child: true of it for as long as it works. -/
structure Followed.Ok (r : ℕ → ℕ → ℕ) (cid : ℕ) (x : Followed) : Prop where
  healthy : Healthy r x.core
  labelled : x.core.Labelled
  record : x.record.state.working = true →
    x.core.pool.ChildInUse cid ∧ x.core.pool.children cid = x.record

theorem Followed.step_ok {x : Followed} (h : x.Ok r cid) (hadm : e.Admissible cfg r x.core) :
    (Followed.step cfg cid e x).Ok r cid := by
  refine ⟨step_healthy h.healthy hadm, step_labelled h.healthy h.labelled hadm, fun hw => ?_⟩
  by_cases hlast : x.record.state.working = true
  · obtain ⟨huse, hrec⟩ := h.record hlast
    have htold : (Followed.step cfg cid e x).record = e.tells x.core cid (x.core.pool.children cid) := by
      rw [hrec]
      exact if_pos hlast
    rw [htold] at hw ⊢
    exact step_kept h.healthy hadm huse hw
  · have htold : (Followed.step cfg cid e x).record = x.record := if_neg hlast
    rw [htold] at hw
    exact absurd hw hlast

/-- Start to follow child `cid`. -/
def Core.follow (s : Core) (cid : ℕ) : Followed := ⟨s, s.pool.children cid⟩

theorem run_labelled {evs : List Event} (h0 : Fresh s)
    (h : Along (step cfg) (Event.Admissible cfg r) s evs) : (run (step cfg) s evs).Labelled :=
  (h.invariant (fun s => Healthy r s ∧ s.Labelled)
    (fun _ _ hs hadm => ⟨step_healthy hs.1 hadm, step_labelled hs.1 hs.2 hadm⟩)
    ⟨h0.healthy, fun c hc => absurd hc (by rw [h0.pool]; exact FreeStack.not_inUse_init _ c)⟩).2

/-- No order is lost, and none is changed by anything but its own reports: from any reachable state
and through any admissible run, a child that still works after all that was told of it is on the
books with exactly that record. Between two calls all labels agree with the lots, and what an event
leaves on the books was just sent, or was on them before and has been told of. -/
theorem run_followed {evs later : List Event} (h0 : Fresh s)
    (h : Along (step cfg) (Event.Admissible cfg r) s (evs ++ later))
    (hc : (run (step cfg) s evs).pool.ChildInUse cid) :
    let x := run (Followed.step cfg cid) ((run (step cfg) s evs).follow cid) later
    x.core = run (step cfg) s (evs ++ later) ∧
    (x.record.state.working = true →
      x.core.pool.ChildInUse cid ∧ x.core.pool.children cid = x.record) ∧
    x.core.Labelled ∧
    ∀ e, e.Admissible cfg r x.core → ∀ c, (step cfg e x.core).pool.ChildInUse c →
      ((step cfg e x.core).pool.children c).JustSent ∨
      x.core.pool.ChildInUse c ∧
        (step cfg e x.core).pool.children c = e.tells x.core c (x.core.pool.children c) := by
  intro x
  obtain ⟨hbefore, hlater⟩ := along_append.mp h
  have hstart : ((run (step cfg) s evs).follow cid).Ok r cid :=
    ⟨run_healthy h0.healthy hbefore, run_labelled h0 hbefore, fun _ => ⟨hc, rfl⟩⟩
  have hx : x.Ok r cid := (hlater.lift (Followed.step cfg cid) Followed.core
    ((run (step cfg) s evs).follow cid) fun _ _ => rfl).invariant (Followed.Ok r cid)
    (fun _ _ hx hadm => Followed.step_ok hx hadm) hstart
  refine ⟨?_, hx.record, hx.labelled, fun e hadm c hknown => step_known hx.healthy hadm hknown⟩
  rw [run_append]
  exact run_proj Followed.core fun _ _ => rfl

/-- An order for four lots of which one is filled. -/
theorem run_followed_partialFill :
    let x := run (Followed.step Sample.config 0)
      ((run (step Sample.config) (Sample.start 0)
        [.call (Sample.world 9) (.signal (Sample.signal .buy 4 false))]).follow 0)
      [.call (Sample.world 9) (.report (Sample.report 0 .partialFill 1))]
    x.record.leavesQtyLots = 3 ∧ x.core.pool.children 0 = x.record := by
  intro x
  have hworking : x.record.state.working = true := by decide +kernel
  have hinUse : (run (step Sample.config) (Sample.start 0)
      [.call (Sample.world 9) (.signal (Sample.signal .buy 4 false))]).pool.ChildInUse 0 :=
    (Sample.firstChildLive (by with_unfolding_all rfl) (by with_unfolding_all rfl)).1
  exact ⟨by decide +kernel,
    ((run_followed (Sample.fresh 0) Sample.partialFill_admissible hinUse).2.1 hworking).2⟩

end Runs

end OmsFormal.Oms
