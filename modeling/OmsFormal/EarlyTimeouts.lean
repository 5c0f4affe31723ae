import OmsFormal.ClockedRuns

/-!
# When a child can be timed out early

A dispatch that lags a turn behind the wheel clock arms its timers in slots the
scan is about to pass, and they expire at once. While every dispatch is in reach,
no child is timed out more than a tick early.
-/

namespace OmsFormal.Oms
open Sor Rounding OMSOrderPool GuardedRun
set_option autoImplicit false

variable {cfg : ExecCoreConfig} {w : World} {s : Core} {span : ℕ}

section FreshIds

/-- The part of `InReach` that is about ids. -/
structure FreshIds (s : Core) : Prop where
  ids : s.pool.childFree.Nodup
  unarmed : ∀ e ∈ s.timerWheel.active, e.childId ∉ s.pool.childFree

theorem freshIds_of_live (hfree : FreeStack.Valid kMaxTotalChildren s.pool.childFree) (ht : TimersOk s) :
    FreshIds s :=
  ⟨hfree.nodup, fun e he => (ht.live e he).1.2⟩

/-- Where reports are well-formed a dispatch always finds fresh ids, so only the clocks matter. -/
theorem HealthyAt.sendsInReach {r : ℕ → ℕ → ℕ} {a : Phase × Core} (hsound : w.router.Sound)
    (ha : HealthyAt cfg w r a)
    (hreach : OnDispatch cfg w (fun _ rest s => ∀ co ∈ rest,
      s.timerWheel.tickOf (w.dispatchNs + timeoutNs cfg co.type) <
        s.timerWheel.tickOf s.timerWheel.nowNs + span) a) : OnDispatch cfg w (SendsInReach cfg w span) a := by
  obtain ⟨phase, s⟩ := a
  cases phase with
  | idle => exact trivial
  | booked pid =>
    intro hr _
    have hgo := reroutes_iff.mp hr
    have htrim := micro_healthy hsound (.trim hgo.1 hgo.2) ha
    have hids := freshIds_of_live htrim.store.2.1.childFree htrim.timers
    exact ⟨hids.ids, hids.unarmed, hreach hr⟩
  | trimmed pid ctx =>
    intro _
    have hids := freshIds_of_live ha.store.2.1.childFree ha.timers
    exact ⟨hids.ids, hids.unarmed, hreach⟩
  | sending pid ctx rest =>
    intro _
    have hids := freshIds_of_live ha.store.2.childFree ha.timers
    exact ⟨hids.ids, hids.unarmed, hreach⟩

end FreshIds

theorem rested_init (cfg : ExecCoreConfig) (t : ℕ) :
    Rested cfg (TimerWheel.init t).tickNs t (Core.init cfg t) := by
  have hnone : (Core.init cfg t).timerWheel.active = [] := rfl
  refine ⟨⟨⟨?_, ?_⟩, ?_, ?_, ?_, ?_, ?_⟩, le_rfl, rfl⟩ <;> rw [hnone] <;> simp

/-- While every dispatch is in reach, a child that the callback times out during `tick(now)` is due
no later than one tick after `now`. -/
theorem run_no_early_timeout {t : ℕ} {before : List Turn} {it : Iteration} {pre post : List Event}
    {ev : Event} {c : ℕ} (htaker : (TimerWheel.init t).tickNs ≤ cfg.childTimeoutNs)
    (hmaker : (TimerWheel.init t).tickNs ≤ cfg.makerTimeoutNs)
    (hclock : ClockedRun t (before ++ [.iteration it]))
    (hreach : Along (Turn.apply cfg) (Turn.InReach cfg) (Core.init cfg t) (before ++ [.iteration it]))
    (hev : it.events (run (Turn.apply cfg) (Core.init cfg t) before) = pre ++ ev :: post)
    (hout : ev.Expires c (run (step cfg) (run (Turn.apply cfg) (Core.init cfg t) before) pre)) :
    let child := (run (step cfg) (run (Turn.apply cfg) (Core.init cfg t) before) pre).pool.children c
    child.sentNs + timeoutNs cfg child.orderType ≤ it.now + (TimerWheel.init t).tickNs := by
  have hok : TimeoutsOk cfg (TimerWheel.init t).tickNs := ⟨by simp [TimerWheel.init], htaker, hmaker⟩
  have hturns := turns_timed hok (rested_init cfg t) hclock hreach
  have hit := (along_append.mp hturns).2.1 it rfl
  rw [hev] at hit
  exact (along_append.mp hit).2.1 c hout

section Lag

/-- Scanning empty positions dispatches nothing and changes nothing. -/
theorem inReach_of_unarmed {evs : List Event} (hempty : s.timerWheel.active = [])
    (h : ∀ ev ∈ evs, ∃ w slot idx, ev = .call w (.visit slot idx)) :
    Along (step cfg) (Event.InReach cfg) s evs := by
  induction evs with
  | nil => exact trivial
  | cons ev evs ih =>
    obtain ⟨w, slot, idx, rfl⟩ := h ev List.mem_cons_self
    have hnone : s.timerWheel.entryAt slot idx = none := by rw [TimerWheel.entryAt, hempty]; rfl
    have hentry : (Call.visit slot idx).entry cfg w s = (.idle, s) := by simp only [Call.entry, hnone]
    refine ⟨?_, ?_⟩
    · rw [Event.InReach, hentry]
      exact trivial
    · rw [step, call_of_idle hentry]
      exact ih fun x hx => h x (List.mem_cons_of_mem _ hx)

/-- Timeouts of one tick. -/
def Sample.hasty : ExecCoreConfig := { config with childTimeoutNs := 1000000, makerTimeoutNs := 1000000 }

def Sample.firstIteration : Iteration where
  signals := [(world 9, signal .buy 4 false)]
  reports := []
  worlds _ _ := world 9
  now := 0

/-- One tick later, with nothing on offer. -/
def Sample.nextIteration : Iteration where
  signals := []
  reports := []
  worlds _ _ := { world 0 with dispatchNs := 1000000 }
  now := 1000000

theorem Sample.hasty_scaled (depth : ℤ) (instr : ℕ) :
    (world depth).Scaled hasty canonical instr :=
  ⟨(scaled depth instr).lot, (scaled depth instr).pos⟩

theorem Sample.first_apply : run (Turn.apply hasty) (Core.init hasty 0) [.iteration firstIteration] =
    step hasty (.call (world 9) (.signal (signal .buy 4 false))) (Core.init hasty 0) := by
  rw [run_cons, run_nil, Turn.apply_eq]
  rfl

theorem Sample.next_events {s : Core} (h : TimerWheel.SameClock (TimerWheel.init 0) s.timerWheel) :
    nextIteration.events s = [.env .advance] ++ .call (nextIteration.worlds 0 0) (.visit 1 0) ::
      (List.range' 1 31).map fun idx => .call (nextIteration.worlds 0 0) (.visit 1 idx) := by
  rw [Iteration.events, tickEvents, h.scanEvents, TimerWheel.rounds, h.nowNs, h.tickNs]
  rfl

theorem Sample.first_clock : TimerWheel.SameClock (TimerWheel.init 0)
    (step hasty (.call (world 9) (.signal (signal .buy 4 false))) (Core.init hasty 0)).timerWheel :=
  call_clock hasty (world 9) (.signal (signal .buy 4 false)) (Core.init hasty 0)

theorem Sample.first_healthy :
    Healthy canonical (step hasty (.call (world 9) (.signal (signal .buy 4 false))) (Core.init hasty 0)) :=
  step_healthy (fresh_init hasty 0).healthy ⟨by decide, fun _ => hasty_scaled 9 _, sound 9⟩

theorem Sample.next_inReach : Along (Turn.apply hasty) (Turn.InReach hasty) (Core.init hasty 0)
    [.iteration firstIteration, .iteration nextIteration] := by
  have hsound : (nextIteration.worlds 0 0).router.Sound := sound 0
  refine ⟨⟨?_, trivial⟩, ?_, trivial⟩
  · have hadm : (Call.signal (signal .buy 4 false)).Admissible hasty canonical (world 9)
        (Core.init hasty 0) :=
      ⟨by decide, fun _ => hasty_scaled 9 _, sound 9⟩
    refine HealthyAt.sendsInReach (sound 9) (entered_healthy (sound 9)
      (hadm.entered (fresh_init hasty 0).healthy) hadm.scaled (fresh_init hasty 0).healthy) ?_
    decide +kernel
  · have hfirst := first_apply
    rw [run_cons, run_nil] at hfirst
    rw [hfirst]
    have hs := first_healthy
    have hhealthy : Healthy canonical (step hasty (.env .advance)
        (step hasty (.call (world 9) (.signal (signal .buy 4 false))) (Core.init hasty 0))) :=
      step_healthy hs trivial
    have hadm : (Call.visit 1 0).Admissible hasty canonical (nextIteration.worlds 0 0)
        (step hasty (.env .advance)
          (step hasty (.call (world 9) (.signal (signal .buy 4 false))) (Core.init hasty 0))) :=
      ⟨trivial, fun _ _ => ⟨(hasty_scaled 0 _).lot, (hasty_scaled 0 _).pos⟩, hsound⟩
    rw [Turn.InReach, Turn.events, next_events first_clock]
    refine ⟨trivial, ?_, inReach_of_unarmed (by decide +kernel) ?_⟩
    · refine HealthyAt.sendsInReach hsound
        (entered_healthy hsound (hadm.entered hhealthy) hadm.scaled hhealthy) ?_
      decide +kernel
    · intro ev hev
      obtain ⟨idx, _, rfl⟩ := List.mem_map.mp hev
      exact ⟨_, _, _, rfl⟩

theorem run_no_early_timeout_due :
    let child := (run (step Sample.hasty) (run (Turn.apply Sample.hasty) (Core.init Sample.hasty 0)
      [.iteration Sample.firstIteration]) [.env .advance]).pool.children 0
    child.sentNs = 1 ∧
    child.sentNs + timeoutNs Sample.hasty child.orderType ≤ 1000000 + (TimerWheel.init 0).tickNs := by
  have hfirst : ∀ x ∈ Sample.firstIteration.readings, x ≤ 1 := by decide
  have hnext : ∀ x ∈ Sample.nextIteration.readings, x ≤ 1000000 := by decide
  refine ⟨by decide +kernel, @run_no_early_timeout Sample.hasty 0 [.iteration Sample.firstIteration]
    Sample.nextIteration [.env .advance]
    ((List.range' 1 31).map fun idx => .call (Sample.nextIteration.worlds 0 0) (.visit 1 idx))
    (.call (Sample.nextIteration.worlds 0 0) (.visit 1 0)) 0
    (by decide) (by decide) ?_ Sample.next_inReach ?_ ?_⟩
  · exact ⟨1, ⟨by decide, by decide, fun _ _ => hfirst, fun _ _ => le_rfl⟩,
      1000000, ⟨by decide, by decide, fun _ _ => hnext, fun _ _ => le_rfl⟩, trivial⟩
  · rw [Sample.first_apply]
    exact Sample.next_events Sample.first_clock
  · rw [Sample.first_apply]
    exact ⟨_, 1, 0, ⟨1, 0, 0, 1000001⟩, rfl, by decide +kernel, rfl, by decide +kernel⟩

/-- A dispatch that comes 6193 ms after the reading its iteration started from. -/
def Sample.lateWorld : World := { world 9 with dispatchNs := 6193000000 }

def Sample.lateIteration : Iteration where
  signals := [(lateWorld, signal .buy 4 false)]
  reports := []
  worlds _ _ := lateWorld
  now := 1000000

/-- The new timer is due at 8193 ms. That is slot 1 of the ring, which the same tick then scans: the
child is canceled at a reading of 1 ms, before it was even sent. -/
theorem late_dispatch_expires_at_once :
    ClockedRun 0 [.iteration Sample.lateIteration] ∧
    Sample.config.childTimeoutNs = 2000000000 ∧ Sample.config.makerTimeoutNs = 5000000000 ∧
    ∃ pre ev post, Sample.lateIteration.events (Core.init Sample.config 0) = pre ++ ev :: post ∧
      ev.Expires 0 (run (step Sample.config) (Core.init Sample.config 0) pre) ∧
      ((run (step Sample.config) (Core.init Sample.config 0) pre).pool.children 0).sentNs = 6193000000 ∧
      ((run (step Sample.config) (Core.init Sample.config 0) pre).pool.children 0).orderType = .taker ∧
      ¬ ((run (step Sample.config) (Core.init Sample.config 0) pre).pool.children 0).dueNs Sample.config ≤
        Sample.lateIteration.now + (TimerWheel.init 0).tickNs := by
  have hlast : ∀ x ∈ Sample.lateIteration.readings, x ≤ 6193000000 := by decide
  refine ⟨⟨6193000000, ⟨by decide, by decide, fun _ _ => hlast, fun _ _ => le_rfl⟩, trivial⟩, rfl, rfl,
    [.call Sample.lateWorld (.signal (Sample.signal .buy 4 false)), .env .advance],
    .call Sample.lateWorld (.visit 1 0),
    (List.range' 1 31).map fun idx => .call Sample.lateWorld (.visit 1 idx), rfl, ?_, ?_, ?_, ?_⟩
  · exact ⟨Sample.lateWorld, 1, 0, ⟨1, 0, 0, 8193000000⟩, rfl, by decide +kernel, rfl, by decide +kernel⟩
  · decide +kernel
  · decide +kernel
  · decide +kernel

end Lag

end OmsFormal.Oms
