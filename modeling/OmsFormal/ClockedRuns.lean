import OmsFormal.TimerDeadlines

/-!
# Runs by the clock

A core runs by iterations of its loop, each with a reading of the clock taken
before it handles anything. Signals and reports may take any time, so the scan
that follows may lag behind the deadlines that were just armed; `Turn.InReach`
says that it lags less than one turn of the ring.
-/

namespace OmsFormal.Oms
open Sor Rounding OMSOrderPool GuardedRun
set_option autoImplicit false

/-- One call of `tick`: what the queue pops return, the worlds of the callbacks and the argument. -/
structure Iteration where
  signals : List (World × StrategyOrderSignal)
  reports : List (World × ExecutionReport)
  worlds : ℕ → ℕ → World
  now : ℕ

/-- Other threads go on between two iterations; the wheel clock is not theirs. -/
inductive Turn where
  | iteration (it : Iteration)
  | outside (e : Env) (h : e ≠ .advance)

def Iteration.events (it : Iteration) (s : Core) : List Event :=
  tickEvents it.signals it.reports it.worlds it.now s.timerWheel

def Turn.events : Turn → Core → List Event
  | .iteration it, s => it.events s
  | .outside e _, _ => [.env e]

def Turn.apply (cfg : ExecCoreConfig) : Turn → Core → Core
  | .iteration it, s => Core.tick cfg it.signals it.reports it.worlds it.now s
  | .outside e _, s => e.apply s

section Clock

/-- The clock readings that reach the wheel before its scan, in order: the argument of `tick` and
the dispatch times of the signals and reports. -/
def Iteration.readings (it : Iteration) : List ℕ :=
  it.now :: (it.signals.map (fun x => x.1.dispatchNs) ++ it.reports.map fun x => x.1.dispatchNs)

/-- The readings of an iteration that starts at `t` or later and is over by `t'`. -/
structure Iteration.Clocked (t : ℕ) (it : Iteration) (t' : ℕ) : Prop where
  start : t ≤ it.now
  calls : it.readings.Pairwise (· ≤ ·)
  callbacks : ∀ clock idx, ∀ x ∈ it.readings, x ≤ (it.worlds clock idx).dispatchNs
  finish : ∀ clock idx, (it.worlds clock idx).dispatchNs ≤ t'

/-- A run driven by one clock that never goes back. -/
def ClockedRun : ℕ → List Turn → Prop
  | _, [] => True
  | t, .iteration it :: turns => ∃ t', it.Clocked t t' ∧ ClockedRun t' turns
  | t, .outside _ _ :: turns => ClockedRun t turns

end Clock

/-- How far ahead of the wheel clock a call may arm a timer. The scan of the current slot is over
when a signal or a report is handled, and is still going on inside a callback. -/
def Call.span : Call → ℕ
  | .visit _ _ => kFineSlots
  | _ => kFineSlots + 1

def Event.InReach (cfg : ExecCoreConfig) : Event → Core → Prop
  | .call w c, s => OnDispatch cfg w (SendsInReach cfg w c.span) (c.entry cfg w s)
  | .env _, _ => True

/-- Every dispatch of the turn, reroutes inside callbacks included, arms its timers within reach. -/
def Turn.InReach (cfg : ExecCoreConfig) (turn : Turn) (s : Core) : Prop :=
  Along (step cfg) (Event.InReach cfg) s (turn.events s)

/-- The scan finds a timer of child `c`, and the callback finds `c` at work and cancels it. -/
def Event.Expires (c : ℕ) (ev : Event) (s : Core) : Prop :=
  ∃ w slot idx x, ev = .call w (.visit slot idx) ∧ s.timerWheel.entryAt slot idx = some x ∧
    x.childId = c ∧ (s.pool.children c).state.working = true

/-- A child that is timed out is due by `limit`. -/
def Event.OnTime (cfg : ExecCoreConfig) (limit : ℕ) (ev : Event) (s : Core) : Prop :=
  ∀ c, ev.Expires c s → (s.pool.children c).dueNs cfg ≤ limit

variable {cfg : ExecCoreConfig} {w : World} {s s' : Core} {span idx now : ℕ}

section Turns

theorem Turn.apply_eq (turn : Turn) (s : Core) :
    turn.apply cfg s = run (step cfg) s (turn.events s) := by
  cases turn with
  | iteration it => exact tick_eq it.signals it.reports it.worlds cfg it.now s
  | outside e h => rfl

theorem Env.clock {e : Env} (h : e ≠ .advance) (s : Core) : (e.apply s).timerWheel = s.timerWheel := by
  cases e with
  | advance => exact absurd rfl h
  | setUnwindMode i b =>
    simp only [Env.apply, Core.setUnwindMode]
    split <;> rfl
  | onMarkPrice mark lot i =>
    simp only [Env.apply, Core.onMarkPrice]
    split <;> rfl
  | onRestMargin => rfl
  | onBookSnapshot ex snap =>
    simp only [Env.apply, Core.onBookSnapshot]
    split <;> rfl
  | gatewayPop => rfl
  | rejectPop => rfl

end Turns

section Visit

theorem FewerTimers.trans {s'' : Core} (h : FewerTimers cfg s s') (h' : FewerTimers cfg s' s'') :
    FewerTimers cfg s s'' :=
  ⟨h'.active.trans h.active, h.clock.trans h'.clock, fun c => (h'.due c).trans (h.due c)⟩

/-- A call books its own effect without arming a timer; the visit of a position empties it. -/
theorem entry_fewer (cfg : ExecCoreConfig) (w : World) (c : Call) (s : Core) :
    FewerTimers cfg s (c.entry cfg w s).2 := by
  cases c with
  | signal sig => exact signalFlow_fewer cfg w sig s
  | report rep => exact reportEntry_fewer rep s
  | visit slot idx =>
    simp only [Call.entry]
    cases s.timerWheel.entryAt slot idx with
    | none => exact .of_same rfl rfl
    | some e =>
      have hoff : FewerTimers cfg s (s.setWheel (s.timerWheel.deactivate e)) :=
        ⟨List.erase_sublist, ⟨rfl, rfl⟩, fun _ => rfl⟩
      simp only [timeoutEntry]
      split
      · exact hoff.trans (reportEntry_fewer _ _)
      · exact hoff

theorem visit_empties {slot : ℕ} (hplaced : s.timerWheel.Placed) :
    ∀ e ∈ ((Call.visit slot idx).entry cfg w s).2.timerWheel.active, ¬ (e.slot = slot ∧ e.idx = idx) := by
  rintro e he ⟨rfl, rfl⟩
  have hmem := (entry_fewer cfg w (.visit e.slot e.idx) s).active.subset he
  have hat := hplaced.entryAt hmem
  have hnodup : s.timerWheel.active.Nodup := List.Nodup.of_map _ hplaced.position
  have hoff : e ∈ s.timerWheel.active.erase e := by
    simp only [Call.entry, hat, timeoutEntry] at he
    split at he
    · exact (reportEntry_fewer _ _).active.subset he
    · exact he
  exact (hnodup.not_mem_erase) hoff

/-- A timer found at the slot the clock stands at is due within this tick. -/
theorem Timed.due_now (hs : Timed cfg kFineSlots idx s) (htick : 0 < s.timerWheel.tickNs) {e : TimerEntry}
    (he : e ∈ s.timerWheel.active) (hslot : e.slot = s.timerWheel.slotFor s.timerWheel.nowNs) :
    s.timerWheel.tickOf e.deadlineNs = s.timerWheel.tickOf s.timerWheel.nowNs ∧
    (s.pool.children e.childId).dueNs cfg ≤ s.timerWheel.nowNs + s.timerWheel.tickNs := by
  have hbehind := hs.behind e he
  have hahead := hs.ahead e he
  have hsame : s.timerWheel.tickOf e.deadlineNs = s.timerWheel.tickOf s.timerWheel.nowNs := by
    rw [hs.slot e he, TimerWheel.slotFor_eq, TimerWheel.slotFor_eq] at hslot
    simp only [kFineSlots] at hslot hahead
    omega
  refine ⟨hsame, ?_⟩
  rw [← hs.due e he]
  have hlt := Nat.lt_succ_self (e.deadlineNs / s.timerWheel.tickNs)
  have hnow := Nat.div_mul_le_self s.timerWheel.nowNs s.timerWheel.tickNs
  rw [Nat.div_lt_iff_lt_mul htick, Nat.succ_mul] at hlt
  unfold TimerWheel.tickOf at hsame
  rw [hsame] at hlt
  omega

theorem Timed.next (hs : Timed cfg kFineSlots idx s)
    (hfree : ∀ e ∈ s.timerWheel.active,
      ¬ (e.slot = s.timerWheel.slotFor s.timerWheel.nowNs ∧ e.idx = idx)) :
    Timed cfg kFineSlots (idx + 1) s := by
  refine ⟨hs.placed, hs.slot, hs.due, hs.behind, hs.ahead, fun e he heq => ?_⟩
  have hle := hs.scanned e he heq
  have hslot : e.slot = s.timerWheel.slotFor s.timerWheel.nowNs := by
    rw [hs.slot e he, TimerWheel.slotFor_eq, TimerWheel.slotFor_eq, heq]
  have hne : e.idx ≠ idx := fun hidx => hfree e he ⟨hslot, hidx⟩
  omega

/-- One position of the scan: what it finds is due, and the rest stays timed. -/
theorem visit_timed (hs : Timed cfg kFineSlots idx s) (hp : Punctual cfg w s.timerWheel)
    (hnow : s.timerWheel.nowNs ≤ now)
    (hreach : (Event.call w (.visit (s.timerWheel.slotFor s.timerWheel.nowNs) idx)).InReach cfg s) :
    (Event.call w (.visit (s.timerWheel.slotFor s.timerWheel.nowNs) idx)).OnTime cfg
      (now + s.timerWheel.tickNs) s ∧
    Timed cfg kFineSlots (idx + 1)
      (step cfg (.call w (.visit (s.timerWheel.slotFor s.timerWheel.nowNs) idx)) s) := by
  have hfewer := entry_fewer cfg w (.visit (s.timerWheel.slotFor s.timerWheel.nowNs) idx) s
  constructor
  · rintro c ⟨w', slot, i, x, hev, hat, rfl, _⟩
    simp only [Event.call.injEq, Call.visit.injEq] at hev
    obtain ⟨_, hslot, _⟩ := hev
    have hmem := TimerWheel.entryAt_mem hat
    have hdue := (hs.due_now hp.tick hmem ((TimerWheel.entryAt_place hat).1.trans hslot.symm)).2
    omega
  · refine call_timed hp hfewer.clock ((hfewer.timed hs).next fun e he hpos => ?_) hreach
    rw [TimerWheel.slotFor, hfewer.clock.nowNs, hfewer.clock.tickNs] at hpos
    exact visit_empties hs.placed e he hpos

end Visit

section Scan

/-- The tick of the wheel against the configured timeouts. -/
structure TimeoutsOk (cfg : ExecCoreConfig) (tickNs : ℕ) : Prop where
  tick : 0 < tickNs
  taker : tickNs ≤ cfg.childTimeoutNs
  maker : tickNs ≤ cfg.makerTimeoutNs

/-- The state between two iterations: all armed timers are ahead, and the wheel is not past `t`. -/
structure Rested (cfg : ExecCoreConfig) (tickNs t : ℕ) (s : Core) : Prop where
  timed : Timed cfg (kFineSlots + 1) kSlotDepth s
  now : s.timerWheel.nowNs ≤ t
  tick : s.timerWheel.tickNs = tickNs

variable {tickNs t : ℕ} {worlds : ℕ → ℕ → World}

theorem TimeoutsOk.punctual (h : TimeoutsOk cfg tickNs) {wheel : TimerWheel} (htick : wheel.tickNs = tickNs)
    (hnow : wheel.nowNs ≤ w.dispatchNs) : Punctual cfg w wheel := by
  subst htick
  exact ⟨h.tick, hnow, h.taker, h.maker⟩

theorem Timed.widen (hs : Timed cfg kFineSlots idx s) : Timed cfg (kFineSlots + 1) idx s :=
  ⟨hs.placed, hs.slot, hs.due, hs.behind, fun e he => Nat.lt_succ_of_lt (hs.ahead e he), hs.scanned⟩

theorem Timed.advance (hs : Timed cfg (kFineSlots + 1) kSlotDepth s) (htick : 0 < s.timerWheel.tickNs) :
    Timed cfg kFineSlots 0 (s.setWheel s.timerWheel.advance) := by
  have hnext : (s.timerWheel.nowNs + s.timerWheel.tickNs) / s.timerWheel.tickNs =
      s.timerWheel.nowNs / s.timerWheel.tickNs + 1 := Nat.add_div_right _ htick
  refine ⟨⟨hs.placed.bound, hs.placed.position⟩, hs.slot, hs.due, fun e he => ?_, fun e he => ?_,
    fun _ _ _ => Nat.zero_le _⟩
  · have hbehind := hs.behind e he
    have hne : s.timerWheel.tickOf e.deadlineNs ≠ s.timerWheel.tickOf s.timerWheel.nowNs := fun heq =>
      Nat.not_le.mpr (hs.placed.bound e he).2 (hs.scanned e he heq)
    simp only [TimerWheel.tickOf, TimerWheel.advance, Core.setWheel] at hbehind hne ⊢
    omega
  · have hahead := hs.ahead e he
    simp only [TimerWheel.tickOf, TimerWheel.advance, Core.setWheel] at hahead ⊢
    omega

/-- The scan of the slot the clock stands at, from position `idx` on. -/
theorem visits_timed (hok : TimeoutsOk cfg tickNs) (n : ℕ) {clock slot : ℕ}
    (hs : Timed cfg kFineSlots idx s) (hclock : s.timerWheel.nowNs = clock)
    (htick : s.timerWheel.tickNs = tickNs) (hslot : s.timerWheel.slotFor clock = slot) (hnow : clock ≤ now)
    (hworlds : ∀ clock idx, now ≤ (worlds clock idx).dispatchNs)
    (hreach : Along (step cfg) (Event.InReach cfg) s
      ((List.range' idx n).map fun i => .call (worlds clock i) (.visit slot i))) :
    Along (step cfg) (Event.OnTime cfg (now + tickNs)) s
      ((List.range' idx n).map fun i => .call (worlds clock i) (.visit slot i)) ∧
    Timed cfg kFineSlots (idx + n) (run (step cfg) s
      ((List.range' idx n).map fun i => .call (worlds clock i) (.visit slot i))) := by
  induction n generalizing idx s with
  | zero => exact ⟨trivial, hs⟩
  | succ n ih =>
    simp only [List.range'_succ, List.map_cons, Along, run_cons] at hreach ⊢
    subst hclock hslot
    obtain ⟨hone, hnext⟩ := visit_timed hs (hok.punctual htick (hnow.trans (hworlds _ _))) hnow hreach.1
    rw [htick] at hone
    have hsame := call_clock cfg (worlds s.timerWheel.nowNs idx)
      (.visit (s.timerWheel.slotFor s.timerWheel.nowNs) idx) s
    obtain ⟨hrest, hend⟩ := ih hnext hsame.nowNs (hsame.tickNs.trans htick)
      (by rw [TimerWheel.slotFor, step, hsame.tickNs]; rfl) hreach.2
    refine ⟨⟨hone, hrest⟩, ?_⟩
    rw [Nat.add_right_comm] at hend
    exact hend

theorem scan_timed (hok : TimeoutsOk cfg tickNs) (n : ℕ) (hs : Rested cfg tickNs now s)
    (hroom : s.timerWheel.nowNs + n * tickNs ≤ now)
    (hworlds : ∀ clock idx, now ≤ (worlds clock idx).dispatchNs)
    (hreach : Along (step cfg) (Event.InReach cfg) s (scanEvents worlds n s.timerWheel)) :
    Along (step cfg) (Event.OnTime cfg (now + tickNs)) s (scanEvents worlds n s.timerWheel) ∧
    Rested cfg tickNs now (run (step cfg) s (scanEvents worlds n s.timerWheel)) := by
  induction n generalizing s with
  | zero => exact ⟨trivial, hs⟩
  | succ n ih =>
    have htick := hs.tick
    rw [Nat.succ_mul] at hroom
    simp only [scanEvents, Along, run_cons, along_append, run_append] at hreach ⊢
    generalize hadv : step cfg (.env .advance) s = s1 at hreach ⊢
    have hadv' : s1 = s.setWheel s.timerWheel.advance := hadv.symm
    have hwheel : s1.timerWheel = s.timerWheel.advance := by rw [hadv']; rfl
    have hclock : s1.timerWheel.nowNs = s.timerWheel.nowNs + tickNs := by rw [hwheel, ← htick]; rfl
    have htick1 : s1.timerWheel.tickNs = tickNs := by rw [hwheel, ← htick]; rfl
    have htimed : Timed cfg kFineSlots 0 s1 := by
      rw [hadv']
      exact hs.timed.advance (by rw [htick]; exact hok.tick)
    rw [← hwheel] at hreach ⊢
    obtain ⟨_, hslot, hrest⟩ := hreach
    have hsame := run_clock cfg (slotEvents_calls worlds s1.timerWheel) s1
    rw [← hsame.scanEvents worlds n] at hrest ⊢
    simp only [slotEvents, List.range_eq_range'] at hslot hrest hsame ⊢
    obtain ⟨hgood, hend⟩ := visits_timed hok kSlotDepth htimed rfl htick1 rfl (by omega) hworlds hslot
    rw [zero_add] at hend
    have hrested := ih ⟨hend.widen, by rw [hsame.nowNs]; omega, hsame.tickNs.trans htick1⟩
      (by rw [hsame.nowNs]; omega) hrest
    refine ⟨⟨?_, hgood, hrested.1⟩, hrested.2⟩
    rintro c ⟨w, slot, i, x, hev, _⟩
    cases hev

end Scan

section Iterations
variable {tickNs t : ℕ}

theorem calls_timed (hok : TimeoutsOk cfg tickNs) {evs : List Event} (hs : Rested cfg tickNs now s)
    (hevs : ∀ ev ∈ evs, ∃ w c, ev = .call w c ∧ c.span = kFineSlots + 1 ∧ now ≤ w.dispatchNs)
    (hreach : Along (step cfg) (Event.InReach cfg) s evs) :
    Along (step cfg) (Event.OnTime cfg (now + tickNs)) s evs ∧
      Rested cfg tickNs now (run (step cfg) s evs) := by
  induction evs generalizing s with
  | nil => exact ⟨trivial, hs⟩
  | cons ev evs ih =>
    obtain ⟨w, c, rfl, hspan, hnow⟩ := hevs ev List.mem_cons_self
    obtain ⟨hone, hrest⟩ := hreach
    have hfewer := entry_fewer cfg w c s
    have hclock := call_clock cfg w c s
    have htimed : Timed cfg (kFineSlots + 1) kSlotDepth (c.apply cfg w s) := by
      refine call_timed (hok.punctual hs.tick (hs.now.trans hnow)) hfewer.clock (hfewer.timed hs.timed) ?_
      rw [← hspan]
      exact hone
    have hnext := ih (s := step cfg (.call w c) s)
      ⟨htimed, by rw [step, hclock.nowNs]; exact hs.now, hclock.tickNs.trans hs.tick⟩
      (fun x hx => hevs x (List.mem_cons_of_mem _ hx)) hrest
    refine ⟨⟨?_, hnext.1⟩, hnext.2⟩
    rintro k ⟨w', slot, i, x, hev, _⟩
    simp only [Event.call.injEq] at hev
    rw [hev.2] at hspan
    simp [Call.span, kFineSlots] at hspan

/-- One iteration of the loop: whatever it times out is due by its own reading of the clock. -/
theorem iteration_timed (hok : TimeoutsOk cfg tickNs) {it : Iteration} {t' : ℕ} (hs : Rested cfg tickNs t s)
    (hclock : it.Clocked t t') (hreach : Along (step cfg) (Event.InReach cfg) s (it.events s)) :
    Along (step cfg) (Event.OnTime cfg (it.now + tickNs)) s (it.events s) ∧
    Rested cfg tickNs t' (run (step cfg) s (it.events s)) := by
  have hnow : ∀ x ∈ it.readings, it.now ≤ x := by
    intro x hx
    rcases List.mem_cons.mp hx with rfl | hx
    · exact le_rfl
    · exact (List.pairwise_cons.mp hclock.calls).1 x hx
  have hmem (x : ℕ) (hx : x ∈ it.signals.map (fun x => x.1.dispatchNs) ++
      it.reports.map fun x => x.1.dispatchNs) : it.now ≤ x := hnow x (List.mem_cons_of_mem _ hx)
  have hworlds (clock idx : ℕ) : it.now ≤ (it.worlds clock idx).dispatchNs :=
    hclock.callbacks clock idx it.now List.mem_cons_self
  have hcalls : ∀ ev ∈ it.signals.map (fun x => Event.call x.1 (.signal x.2)) ++
      it.reports.map (fun x => .call x.1 (.report x.2)),
      ∃ w c, ev = .call w c ∧ c.span = kFineSlots + 1 ∧ it.now ≤ w.dispatchNs := by
    intro ev hev
    rcases List.mem_append.mp hev with hev | hev
    · obtain ⟨x, hx, rfl⟩ := List.mem_map.mp hev
      exact ⟨_, _, rfl, rfl, hmem _ (List.mem_append_left _ (List.mem_map.mpr ⟨x, hx, rfl⟩))⟩
    · obtain ⟨x, hx, rfl⟩ := List.mem_map.mp hev
      exact ⟨_, _, rfl, rfl, hmem _ (List.mem_append_right _ (List.mem_map.mpr ⟨x, hx, rfl⟩))⟩
  have hlast : it.now ≤ t' := (hworlds 0 0).trans (hclock.finish 0 0)
  rw [Iteration.events, tickEvents, ← List.append_assoc] at hreach ⊢
  generalize it.signals.map (fun x => Event.call x.1 (.signal x.2)) ++
    it.reports.map (fun x => .call x.1 (.report x.2)) = calls at hcalls hreach ⊢
  rw [along_append] at hreach ⊢
  rw [run_append]
  obtain ⟨hfirst, hrested⟩ := calls_timed hok ⟨hs.timed, hs.now.trans hclock.start, hs.tick⟩ hcalls hreach.1
  have hsame := run_clock cfg (fun ev hev => by
    obtain ⟨w, c, heq, _⟩ := hcalls ev hev
    exact ⟨w, c, heq⟩) s
  have hscan := hreach.2
  rw [← hsame.scanEvents it.worlds] at hscan ⊢
  have hrounds : s.timerWheel.nowNs + s.timerWheel.rounds it.now * tickNs ≤ it.now := by
    have hle := Nat.div_mul_le_self (it.now - s.timerWheel.nowNs) tickNs
    have hstart := hs.now.trans hclock.start
    rw [TimerWheel.rounds, hs.tick]
    omega
  obtain ⟨hsecond, hend⟩ := scan_timed hok _ hrested (by rw [hsame.nowNs]; exact hrounds) hworlds hscan
  exact ⟨⟨hfirst, hsecond⟩, ⟨hend.timed, hend.now.trans hlast, hend.tick⟩⟩

/-- Every turn of a run by the clock is on time, as far as its dispatches are in reach. -/
theorem turns_timed (hok : TimeoutsOk cfg tickNs) {turns : List Turn} (hs : Rested cfg tickNs t s)
    (hclock : ClockedRun t turns) (hreach : Along (Turn.apply cfg) (Turn.InReach cfg) s turns) :
    Along (Turn.apply cfg) (fun turn s => ∀ it, turn = .iteration it →
      Along (step cfg) (Event.OnTime cfg (it.now + tickNs)) s (it.events s)) s turns := by
  induction turns generalizing t s with
  | nil => exact trivial
  | cons turn turns ih =>
    obtain ⟨hone, hrest⟩ := hreach
    cases turn with
    | iteration it =>
      obtain ⟨t', hit, hturns⟩ := hclock
      obtain ⟨hgood, hend⟩ := iteration_timed hok hs hit hone
      rw [Turn.apply_eq] at hrest
      refine ⟨fun it' heq => ?_, ?_⟩
      · cases heq
        exact hgood
      · rw [Turn.apply_eq]
        exact ih hend hturns hrest
    | outside e h =>
      have hwheel : ((Turn.outside e h).apply cfg s).timerWheel = s.timerWheel := Env.clock h s
      have hpool : ((Turn.outside e h).apply cfg s).pool = s.pool := (e.apply_sameBooks s).pool
      refine ⟨fun it heq => (by cases heq), ih ⟨hs.timed.of_same hwheel (by rw [hpool]), ?_, ?_⟩ hclock hrest⟩
      · rw [hwheel]
        exact hs.now
      · rw [hwheel]
        exact hs.tick

end Iterations

end OmsFormal.Oms
