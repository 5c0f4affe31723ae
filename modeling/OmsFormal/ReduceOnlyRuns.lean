import OmsFormal.ReduceOnly

/-!
# A reduce-only instrument over whole runs

From a state without orders, with every signal of the instrument reduce-only and
every reroute within the slack, the position only shrinks towards flat. Without
the condition on reroutes it can flip: the last part runs two reduce-only orders
against the same four lots.
-/

namespace OmsFormal.Oms
open Sor Rounding OMSOrderPool GuardedRun
set_option autoImplicit false

/-- Every signal of instrument `i` is reduce-only, by itself or by the kill switch. -/
def Event.ReduceOnlyFor (i : ℕ) : Event → Core → Prop
  | .call _ (.signal sig), s =>
    sig.instrId = i → sig.reduceOnly = true ∨ (s.pos.instruments i).unwindOnly = true
  | _, _ => True

/-- A reroute of instrument `i` gives up and sends no more than its side still has reserved
above what is in the market. -/
def Call.RerouteReserved (cfg : ExecCoreConfig) (w : World) (i : ℕ) (c : Call) (s : Core) : Prop :=
  match c.entry cfg w s with
  | (.booked pid, s') => reroutes pid s' = true → (s'.pool.parents pid).instrId = i →
      rerouteDemand cfg w pid s' ≤ s'.slack i (s'.pool.parents pid).dir
  | _ => True

def Event.RerouteReserved (cfg : ExecCoreConfig) (i : ℕ) : Event → Core → Prop
  | .call w c, s => c.RerouteReserved cfg w i s
  | .env _, _ => True

variable {cfg : ExecCoreConfig} {w : World} {s : Core} {i : ℕ} {d : OrderDir}

theorem Call.RerouteReserved.of_not_startsReroute {c : Call} (h : c.startsReroute cfg w s = false) :
    c.RerouteReserved cfg w i s :=
  Call.OnReroute.of_not_startsReroute (P := fun pid s' => (s'.pool.parents pid).instrId = i →
    rerouteDemand cfg w pid s' ≤ s'.slack i (s'.pool.parents pid).dir) h

section Entry

/-- An accepted reduce-only signal is on the closing side and fits into the position together
with what is already reserved. -/
theorem reserved_closing {sig : StrategyOrderSignal} {pid : ℕ} {free : List ℕ} (hs : Healthy canonical s)
    (hc : Closing i d s) (hfree : s.pool.parentFree = pid :: free) (hinstr : sig.instrId < kMaxInstruments)
    (hqty : effectiveQty sig s.pos ≠ 0)
    (honly : sig.instrId = i → sig.reduceOnly = true ∨ (s.pos.instruments i).unwindOnly = true) :
    Closing i d (reserved w sig pid free s) ∧ (reserved w sig pid free s).closable i d = s.closable i d := by
  have hrec := reserved_record w s sig pid free
  have hloc : Local pid s.pool (reserved w sig pid free s).pool :=
    (open_local hs.store hfree).trans (setParentState_local (s := admitted w sig pid free s) _)
  have hnet : (reserved w sig pid free s).closable i d = s.closable i d := by
    rw [Core.closable, reserved_net]
    rfl
  have hopen : ((reserved w sig pid free s).pos.instruments i).openLots d =
      (s.pos.instruments i).openLots d + onSide sig.instrId sig.dir i d (effectiveQty sig s.pos) :=
    reserve_openLots _ _ _ _
  have hspec (hi : sig.instrId = i) : sig.dir = d ∧
      effectiveQty sig s.pos ≤ s.closable i d - (s.pos.instruments i).openLots d := by
    subst hi
    obtain ⟨hreduces, hle⟩ := clampReduceOnly_spec hinstr (honly rfl) hqty
    obtain rfl := closing_unique hc.net hreduces
    exact ⟨rfl, hle⟩
  refine ⟨⟨fun p hu hp => ?_, ?_, by rw [hnet]; exact hc.net⟩, hnet⟩
  · by_cases hpid : p = pid
    · subst hpid
      rw [hrec] at hp ⊢
      exact (hspec hp).1
    · have hu' := (hloc.inUse p hpid).mp hu
      rw [hloc.record p hpid hu'] at hp ⊢
      exact hc.side p hu' hp
  · rw [hnet, hopen]
    by_cases hi : sig.instrId = i
    · obtain ⟨rfl, hle⟩ := hspec hi
      rw [hi, onSide_self]
      exact Or.inr (by omega)
    · rw [onSide, if_neg fun h => hi h.1, add_zero]
      refine hc.room.imp_left fun habsent p hu => ?_
      by_cases hpid : p = pid
      · subst hpid
        rw [hrec]
        exact hi
      · have hu' := (hloc.inUse p hpid).mp hu
        rw [hloc.record p hpid hu']
        exact habsent p hu'

theorem entered_closing {c : Call} {a : Phase × Core} (h : Entered cfg w s c a)
    (hscaled : c.Scaled cfg canonical w s) (hs : Healthy canonical s) (hc : Closing i d s)
    (hslack : 0 ≤ s.slack i d) (honly : (Event.call w c).ReduceOnlyFor i s) :
    Closing i d a.2 ∧ a.2.closable i d ≤ s.closable i d := by
  cases h with
  | @refused sig s' href =>
    have huse (p : ℕ) := inUse_of_parentFree href.records.parentFree p
    have hnet : s'.closable i d = s.closable i d := by rw [Core.closable, href.pos]; rfl
    refine ⟨hc.of_sameSides (fun p hu => ?_) (by rw [hnet]; exact hc.net) fun hroom => ?_, hnet.le⟩
    · have hu' := (huse p).mp hu
      rw [href.records.parents p hu']
      exact ⟨hu', rfl, rfl⟩
    · rw [hnet, href.pos]
      exact hroom
  | admitted hpos hfree hinstr hqty =>
    obtain ⟨hclosing, hnet⟩ := reserved_closing (w := w) hs hc hfree hinstr hqty honly
    exact ⟨hclosing, hnet.le⟩
  | filled hlive hkind hmin hmax =>
    exact bookFill_closing hs hc hslack hlive hmin hmax (hscaled _ (hs.store.parentOf_inUse hlive.1))
  | ended hlive =>
    obtain ⟨hclosing, hnet⟩ := bookCancel_closing hs hc hlive (hscaled _ (hs.store.parentOf_inUse hlive.1))
    exact ⟨hclosing, hnet.le⟩
  | acknowledged => exact ⟨⟨hc.side, hc.room, hc.net⟩, le_rfl⟩
  | ignored => exact ⟨hc, le_rfl⟩
  | @expired slot idx e he hlive =>
    have hset : Closing i d (s.setWheel (s.timerWheel.deactivate e)) := ⟨hc.side, hc.room, hc.net⟩
    have hs' : Healthy canonical (s.setWheel (s.timerWheel.deactivate e)) :=
      ⟨hs.store, setWheel_timers hs.timers e, hs.qty⟩
    obtain ⟨hclosing, hnet⟩ := bookCancel_closing hs' hset hlive
      (hscaled _ (hs.store.parentOf_inUse hlive.1))
    exact ⟨hclosing, hnet.le⟩
  | unarmed => exact ⟨hc, le_rfl⟩

end Entry

section Step

/-- What the router is asked for is never exceeded, so a first dispatch leaves slack behind. -/
theorem sending_drift {pid : ℕ} {ctx : RoutingContext} {buf : List ChildOrder}
    (ha : HealthyAt cfg w canonical (.sending pid ctx buf, s)) :
    0 ≤ driftLots cfg w (.sending pid ctx buf, s) := by
  have hroom := ha.qty.2.room
  have hnn := committed_nonneg canonical s.pool pid
  simp only [driftLots] at hroom ⊢
  omega

theorem entered_slack {c : Call} (h : Entered cfg w s c (c.entry cfg w s))
    (ha : HealthyAt cfg w canonical (c.entry cfg w s)) (hscaled : c.Scaled cfg canonical w s)
    (hs : Healthy canonical s) (hside : Closing i d (c.entry cfg w s).2) (hslack : 0 ≤ s.slack i d)
    (hok : c.RerouteReserved cfg w i s) : 0 ≤ finalSlack cfg w (c.entry cfg w s) i d := by
  unfold Call.RerouteReserved at hok
  have hfinal := entered_finalSlack (i := i) (d := d) h hscaled hs
  generalize c.entry cfg w s = a at *
  obtain ⟨phase, s'⟩ := a
  cases phase with
  | idle =>
    simp only [drift, driftLots, owedLots, neg_zero, onSide_zero] at hfinal
    omega
  | booked pid =>
    simp only [finalSlack, Phase.pid, owedLots]
    have hbooked : s'.slack i d = s.slack i d := by
      simp only [finalSlack, drift, driftLots, onSide_neg] at hfinal
      omega
    by_cases hi : (s'.pool.parents pid).instrId = i
    · have hdir := hside.side pid ha.store.1 hi
      rw [hi, hdir, onSide_self]
      split
      · rename_i hr
        have hle := hok hr hi
        rw [hdir] at hle
        omega
      · omega
    · rw [onSide, if_neg fun hc => hi hc.1]
      omega
  | trimmed pid ctx => cases h
  | sending pid ctx buf =>
    have hnn := onSide_nonneg (i := i) (d := d) (s'.pool.parents pid).instrId (s'.pool.parents pid).dir
      (sending_drift ha)
    simp only [drift, Phase.pid] at hfinal
    omega

/-- Reduce-only, with reroutes that are still reserved. -/
structure ReduceOnlyOk (cfg : ExecCoreConfig) (i : ℕ) (e : Event) (s : Core) : Prop where
  admissible : e.Admissible cfg canonical s
  reduceOnly : e.ReduceOnlyFor i s
  reserved : e.RerouteReserved cfg i s

/-- The invariant of a reduce-only instrument between two calls. -/
structure ClosingRun (i : ℕ) (d : OrderDir) (s : Core) : Prop where
  healthy : Healthy canonical s
  closing : Closing i d s
  slack : 0 ≤ s.slack i d

theorem step_closing {e : Event} (hs : ClosingRun i d s) (h : ReduceOnlyOk cfg i e s) :
    ClosingRun i d (step cfg e s) ∧ (step cfg e s).closable i d ≤ s.closable i d := by
  have hhealthy := step_healthy hs.healthy h.admissible
  cases e with
  | call w c =>
    have hentered := h.admissible.entered hs.healthy
    have ha := entered_healthy h.admissible.sound hentered h.admissible.scaled hs.healthy
    obtain ⟨hclosing, hle⟩ := entered_closing hentered h.admissible.scaled hs.healthy hs.closing hs.slack
      h.reduceOnly
    have hend := call_invariant
      (fun a => HealthyAt cfg w canonical a ∧ Closing i d a.2 ∧
        a.2.closable i d = (c.entry cfg w s).2.closable i d ∧
        finalSlack cfg w a i d = finalSlack cfg w (c.entry cfg w s) i d) c
      (fun a b hm ⟨ha, hcl, hnet, hf⟩ => ⟨micro_healthy h.admissible.sound hm ha, micro_closing hm ha hcl,
        by rw [Core.closable, micro_net hm i]; exact hnet, (micro_finalSlack hm ha).trans hf⟩)
      ⟨ha, hclosing, rfl, rfl⟩
    obtain ⟨_, hcl, hnet, hf⟩ := hend
    rw [finalSlack_idle] at hf
    refine ⟨⟨hhealthy, hcl, ?_⟩, by rw [step, hnet]; exact hle⟩
    rw [step, hf]
    exact entered_slack hentered ha h.admissible.scaled hs.healthy hclosing hs.slack h.reserved
  | env e =>
    have hsame := e.apply_sameBooks s
    have hnet : (step cfg (.env e) s).closable i d = s.closable i d := by
      rw [step, Core.closable, hsame.net]
      rfl
    refine ⟨⟨hhealthy, hs.closing.of_sameSides ?_ (by rw [hnet]; exact hs.closing.net) ?_, ?_⟩, hnet.le⟩
    · intro p hu
      rw [step, hsame.pool] at hu ⊢
      exact ⟨hu, rfl, rfl⟩
    · intro hroom
      rw [hnet, step, hsame.openLots]
      exact hroom
    · rw [step, hsame.slack]
      exact hs.slack

end Step

section Run

theorem closable_closingDir (net : ℤ) : closable (closingDir net) net = |net| := by
  unfold closingDir
  split
  · rename_i hneg
    rw [abs_of_neg hneg]
    rfl
  · rename_i hpos
    rw [abs_of_nonneg (not_lt.mp hpos)]
    rfl

theorem abs_of_closable {net : ℤ} (h : 0 ≤ closable d net) : |net| = closable d net := by
  cases d with
  | buy =>
    simp only [closable] at h ⊢
    exact abs_of_nonpos (by omega)
  | sell => exact abs_of_nonneg h

theorem between_of_closable {n0 net : ℤ} (h0 : 0 ≤ closable (closingDir n0) net)
    (hle : closable (closingDir n0) net ≤ closable (closingDir n0) n0) :
    min 0 n0 ≤ net ∧ net ≤ max 0 n0 := by
  by_cases hneg : n0 < 0
  · simp only [closingDir, hneg, if_true, closable] at h0 hle
    omega
  · simp only [closingDir, hneg, if_false, closable] at h0 hle
    omega

/-- A state without orders in which the closing counter is not negative. -/
theorem closingRun_of_idle (hs : Healthy canonical s) (hidle : ∀ p, ¬ s.pool.ParentInUse p)
    (hopen : 0 ≤ (s.pos.instruments i).openLots (closingDir (s.pos.instruments i).netQtyLots)) :
    ClosingRun i (closingDir (s.pos.instruments i).netQtyLots) s := by
  refine ⟨hs, ⟨fun p hu => absurd hu (hidle p), Or.inl fun p hu => absurd hu (hidle p), ?_⟩, ?_⟩
  · rw [Core.closable, closable_closingDir]
    exact abs_nonneg _
  · rw [Core.slack, exposure_eq_zero fun p hu => absurd hu (hidle p), sub_zero]
    exact hopen

/-- From a state without orders, a reduce-only instrument whose reroutes stay within the slack
ends up between flat and where it started, and its position never grows. -/
theorem run_reduceOnly_shrinks {r : ℕ → ℕ → ℕ} {past evs more : List Event} (h0 : Fresh s)
    (hpast : Along (step cfg) (Event.Admissible cfg r) s past)
    (hidle : ∀ p, ¬ (run (step cfg) s past).pool.ParentInUse p)
    (hopen : 0 ≤ ((run (step cfg) s past).pos.instruments i).openLots
      (closingDir ((run (step cfg) s past).pos.instruments i).netQtyLots))
    (h : Along (step cfg) (ReduceOnlyOk cfg i) (run (step cfg) s past) (evs ++ more)) :
    let net := fun evs => ((run (step cfg) s (past ++ evs)).pos.instruments i).netQtyLots
    (min 0 (net []) ≤ net evs ∧ net evs ≤ max 0 (net [])) ∧ |net (evs ++ more)| ≤ |net evs| := by
  intro net
  have hstart : Healthy canonical (run (step cfg) s past) :=
    ⟨(run_healthy h0.healthy hpast).store, (run_healthy h0.healthy hpast).timers,
      fun p hu => absurd hu (hidle p)⟩
  have hnet (evs : List Event) :
      net evs = ((run (step cfg) (run (step cfg) s past) evs).pos.instruments i).netQtyLots := by
    simp only [net, run_append]
  generalize run (step cfg) s past = start at *
  have hrun := closingRun_of_idle hstart hidle hopen
  rw [hnet, hnet, hnet, run_nil]
  generalize hd : closingDir (start.pos.instruments i).netQtyLots = d at *
  obtain ⟨hfirst, hrest⟩ := along_append.mp h
  have hstep (e : Event) (s : Core) (hs : ClosingRun i d s) (he : ReduceOnlyOk cfg i e s) :
      ClosingRun i d (step cfg e s) := (step_closing hs he).1
  have hle (e : Event) (s : Core) (hs : ClosingRun i d s) (he : ReduceOnlyOk cfg i e s) :
      (step cfg e s).closable i d ≤ s.closable i d := (step_closing hs he).2
  have hmid := hfirst.invariant (ClosingRun i d) hstep hrun
  have hend := hrest.invariant (ClosingRun i d) hstep hmid
  refine ⟨between_of_closable ?_ ?_, ?_⟩
  · rw [hd]
    exact hmid.closing.net
  · rw [hd]
    exact hfirst.antitone (ClosingRun i d) (fun s => s.closable i d) hstep hle hrun
  · have hanti := hrest.antitone (ClosingRun i d) (fun s => s.closable i d) hstep hle hmid
    rw [run_append, abs_of_closable hend.closing.net, abs_of_closable hmid.closing.net]
    exact hanti

end Run

section Flip

/-- Two reduce-only buys against a short of four lots. The first is canceled and sent again
without a reservation, so the second finds the same four lots of headroom. -/
def Sample.flipRun : List Event :=
  [.call (world 9) (.signal (signal .buy 4 true)),
   .call (world 9) (.report (report 0 .canceled 0)),
   .call (world 9) (.signal (signal .buy 4 true)),
   .call (world 9) (.report (report 0 .fill 4)),
   .call (world 9) (.report (report 1 .fill 4))]

theorem Sample.flip_admissible :
    Along (step config) (fun e s => e.Admissible config canonical s ∧ e.ReduceOnlyFor 0 s) (start (-4))
      flipRun := by
  refine ⟨⟨⟨by decide, fun _ => scaled 9 _, sound 9⟩, fun _ => Or.inl rfl⟩,
    ⟨⟨⟨?_, ?_⟩, fun _ _ => scaled 9 _, sound 9⟩, trivial⟩,
    ⟨⟨by decide, fun _ => scaled 9 _, sound 9⟩, fun _ => Or.inl rfl⟩,
    ⟨⟨⟨?_, ?_⟩, fun _ _ => scaled 9 _, sound 9⟩, trivial⟩,
    ⟨⟨⟨?_, ?_⟩, fun _ _ => scaled 9 _, sound 9⟩, trivial⟩, trivial⟩
  · refine firstChildLive ?_ ?_ <;> with_unfolding_all rfl
  · intro hfill
    cases hfill
  · refine childLive [] 2 32766 ?_ (by decide) (by decide) (by decide) ?_ <;> with_unfolding_all rfl
  · intro _
    decide +kernel
  · refine childLive [0] 2 32766 ?_ (by decide) (by decide) (by decide) ?_ <;> with_unfolding_all rfl
  · intro _
    decide +kernel

theorem reduceOnly_flips_after_reroute :
    Along (step Sample.config)
      (fun e s => e.Admissible Sample.config canonical s ∧ e.ReduceOnlyFor 0 s) (Sample.start (-4))
      Sample.flipRun ∧
    ((Sample.start (-4)).pos.instruments 0).netQtyLots = -4 ∧
    ((run (step Sample.config) (Sample.start (-4)) Sample.flipRun).pos.instruments 0).netQtyLots = 4 :=
  ⟨Sample.flip_admissible, rfl, by decide +kernel⟩

theorem run_reduceOnly_shrinks_partialFill :
    let net := fun evs =>
      ((run (step Sample.config) (Sample.start (-4)) ([] ++ evs)).pos.instruments 0).netQtyLots
    let first : List Event := [.call (Sample.world 9) (.signal (Sample.signal .buy 4 true))]
    let more : List Event := [.call (Sample.world 9) (.report (Sample.report 0 .partialFill 1))]
    net (first ++ more) = -3 ∧
    (min 0 (net []) ≤ net first ∧ net first ≤ max 0 (net [])) ∧ |net (first ++ more)| ≤ |net first| := by
  refine ⟨by decide +kernel, run_reduceOnly_shrinks (r := canonical) (Sample.fresh (-4)) trivial
    (Sample.fresh (-4)).parentInUse (by decide) ⟨⟨?_, fun _ => Or.inl rfl, ?_⟩,
      ⟨?_, trivial, ?_⟩, trivial⟩⟩
  · exact ⟨by decide, fun _ => Sample.scaled 9 _, Sample.sound 9⟩
  · exact Call.RerouteReserved.of_not_startsReroute (by decide +kernel)
  · refine ⟨⟨?_, fun _ => by decide +kernel⟩, fun _ _ => Sample.scaled 9 _, Sample.sound 9⟩
    refine Sample.firstChildLive ?_ ?_ <;> with_unfolding_all rfl
  · exact Call.RerouteReserved.of_not_startsReroute (by decide +kernel)

end Flip

end OmsFormal.Oms
