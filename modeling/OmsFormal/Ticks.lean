import OmsFormal.Runs

/-!
# One iteration of the execution loop

`tick` drains the queues and then advances the wheel clock one slot at a time,
scanning each slot it gets to. That is a run of the events of `Runs`, and a clock
that advances by a whole turn of the ring scans every position.
-/

namespace OmsFormal.Oms
open Sor Rounding OMSOrderPool GuardedRun
set_option autoImplicit false

variable {cfg : ExecCoreConfig} {w : World} {s : Core}

section Clock

/-- The wheels show the same time. -/
structure TimerWheel.SameClock (a b : TimerWheel) : Prop where
  nowNs : b.nowNs = a.nowNs
  tickNs : b.tickNs = a.tickNs

theorem TimerWheel.SameClock.trans {a b c : TimerWheel} (h : SameClock a b) (h' : SameClock b c) :
    SameClock a c :=
  ⟨h'.nowNs.trans h.nowNs, h'.tickNs.trans h.tickNs⟩

theorem TimerWheel.insert_clock (c now timeout : ℕ) (wheel : TimerWheel) :
    SameClock wheel (wheel.insert c now timeout).2 := by
  simp only [TimerWheel.insert]
  split <;> exact ⟨rfl, rfl⟩

theorem TimerWheel.cancel_clock (c : ℕ) (wheel : TimerWheel) : SameClock wheel (wheel.cancel c) := by
  unfold cancel
  split <;> exact ⟨rfl, rfl⟩

theorem micro_clock {a b : Phase × Core} (h : Micro cfg w a b) :
    TimerWheel.SameClock a.2.timerWheel b.2.timerWheel := by
  cases h with
  | trim =>
    rw [trimmed_eq]
    exact ⟨rfl, rfl⟩
  | send => exact TimerWheel.insert_clock _ _ _ _
  | sent =>
    rw [releaseGap_timerWheel]
    exact ⟨rfl, rfl⟩
  | @noneSent pid ctx rest s =>
    have hwheel : (closeUnfilled w pid .childPoolExhausted (releaseGap pid ctx rest s)).timerWheel =
      (releaseGap pid ctx rest s).timerWheel := rfl
    rw [hwheel, releaseGap_timerWheel]
    exact ⟨rfl, rfl⟩
  | _ => exact ⟨rfl, rfl⟩

theorem reportEntry_clock (cfg : ExecCoreConfig) (w : World) (rep : ExecutionReport) (s : Core) :
    TimerWheel.SameClock s.timerWheel (reportEntry cfg w rep s).2.timerWheel := by
  simp only [reportEntry]
  split
  · exact ⟨rfl, rfl⟩
  · cases rep.execType with
    | new => exact ⟨rfl, rfl⟩
    | partialFill => exact TimerWheel.cancel_clock _ _
    | fill => exact TimerWheel.cancel_clock _ _
    | canceled => exact TimerWheel.cancel_clock _ _
    | rejected => exact TimerWheel.cancel_clock _ _
    | replaced => exact ⟨rfl, rfl⟩

theorem signalFlow_timerWheel (cfg : ExecCoreConfig) (w : World) (sig : StrategyOrderSignal) (s : Core) :
    (signalFlow cfg w sig s).entry.2.timerWheel = s.timerWheel := by
  rcases signal_cases cfg w sig s with ⟨s', hflow, href⟩ | ⟨pid, free, _, _, _, _, hflow⟩
  · rw [hflow]
    exact href.timerWheel
  · rw [hflow]
    rfl

theorem call_clock (cfg : ExecCoreConfig) (w : World) (c : Call) (s : Core) :
    TimerWheel.SameClock s.timerWheel (c.apply cfg w s).timerWheel := by
  refine call_invariant (fun a => TimerWheel.SameClock s.timerWheel a.2.timerWheel) c
    (fun a b hm ha => ha.trans (micro_clock hm)) ?_
  cases c with
  | signal sig =>
    simp only [Call.entry, signalFlow_timerWheel]
    exact ⟨rfl, rfl⟩
  | report rep => exact reportEntry_clock cfg w rep s
  | visit slot idx =>
    simp only [Call.entry]
    cases s.timerWheel.entryAt slot idx with
    | none => exact ⟨rfl, rfl⟩
    | some e =>
      simp only [timeoutEntry]
      split
      · have hreport := reportEntry_clock cfg w
          (timeoutReport e.childId (s.pool.children e.childId)) (s.setWheel (s.timerWheel.deactivate e))
        exact ⟨hreport.nowNs, hreport.tickNs⟩
      · exact ⟨rfl, rfl⟩

theorem run_clock (cfg : ExecCoreConfig) {evs : List Event} (h : ∀ ev ∈ evs, ∃ w c, ev = .call w c)
    (s : Core) :
    TimerWheel.SameClock s.timerWheel (run (step cfg) s evs).timerWheel := by
  induction evs generalizing s with
  | nil => exact ⟨rfl, rfl⟩
  | cons ev evs ih =>
    obtain ⟨w, c, rfl⟩ := h ev List.mem_cons_self
    exact (call_clock cfg w c s).trans (ih (fun x hx => h x (List.mem_cons_of_mem _ hx)) _)

end Clock

section Tick

/-- The events of one iteration of the execution loop. -/
inductive TickEvent (signals : List (World × StrategyOrderSignal))
    (reports : List (World × ExecutionReport)) (worlds : ℕ → ℕ → World) : Event → Prop
  | signal {x : World × StrategyOrderSignal} (h : x ∈ signals) :
      TickEvent signals reports worlds (.call x.1 (.signal x.2))
  | report {x : World × ExecutionReport} (h : x ∈ reports) :
      TickEvent signals reports worlds (.call x.1 (.report x.2))
  | advance : TickEvent signals reports worlds (.env .advance)
  | visit (clock slot idx : ℕ) : TickEvent signals reports worlds (.call (worlds clock idx) (.visit slot idx))

/-- The run scans position `idx` of slot `slot`. -/
def Scans (slot idx : ℕ) (evs : List Event) : Prop := ∃ w, Event.call w (.visit slot idx) ∈ evs

/-- One scan of the slot the wheel clock stands at. -/
def slotEvents (worlds : ℕ → ℕ → World) (wheel : TimerWheel) : List Event :=
  (List.range kSlotDepth).map fun idx =>
    .call (worlds wheel.nowNs idx) (.visit (wheel.slotFor wheel.nowNs) idx)

/-- `n` rounds of the tick loop: the clock moves on by a tick, and the slot it gets to is scanned. -/
def scanEvents (worlds : ℕ → ℕ → World) : ℕ → TimerWheel → List Event
  | 0, _ => []
  | n + 1, wheel =>
    .env .advance :: (slotEvents worlds wheel.advance ++ scanEvents worlds n wheel.advance)

/-- The rounds the tick loop makes to get to `now`. -/
def TimerWheel.rounds (wheel : TimerWheel) (now : ℕ) : ℕ := (now - wheel.nowNs) / wheel.tickNs

def tickEvents (signals : List (World × StrategyOrderSignal)) (reports : List (World × ExecutionReport))
    (worlds : ℕ → ℕ → World) (now : ℕ) (wheel : TimerWheel) : List Event :=
  signals.map (fun x => .call x.1 (.signal x.2)) ++
    (reports.map (fun x => .call x.1 (.report x.2)) ++ scanEvents worlds (wheel.rounds now) wheel)

variable (signals : List (World × StrategyOrderSignal)) (reports : List (World × ExecutionReport))
  (worlds : ℕ → ℕ → World)

/-- One position of the slot scan is one event, in the world its callback would see. -/
theorem visitEntry_step (slot idx : ℕ) (s : Core) :
    TimerWheel.visitEntry Core.timerWheel Core.setWheel
      (fun clock idx cid s => onTimeout cfg (worlds clock idx) cid s) slot idx s =
    step cfg (.call (worlds s.timerWheel.nowNs idx) (.visit slot idx)) s := by
  simp only [step, Call.apply, TimerWheel.visitEntry]

theorem TimerWheel.SameClock.slotEvents {a b : TimerWheel} (h : SameClock a b) :
    slotEvents worlds b = slotEvents worlds a := by
  simp only [Oms.slotEvents, slotFor, h.nowNs, h.tickNs]

theorem TimerWheel.SameClock.advance {a b : TimerWheel} (h : SameClock a b) :
    SameClock a.advance b.advance :=
  ⟨by simp only [TimerWheel.advance, h.nowNs, h.tickNs], h.tickNs⟩

/-- Which slots are scanned depends on the clock only. -/
theorem TimerWheel.SameClock.scanEvents {a b : TimerWheel} (h : SameClock a b) (n : ℕ) :
    scanEvents worlds n b = scanEvents worlds n a := by
  induction n generalizing a b with
  | zero => rfl
  | succ n ih => rw [Oms.scanEvents, Oms.scanEvents, h.advance.slotEvents, ih h.advance]

theorem slotEvents_calls (wheel : TimerWheel) : ∀ ev ∈ slotEvents worlds wheel, ∃ w c, ev = .call w c := by
  intro ev hev
  obtain ⟨idx, _, rfl⟩ := List.mem_map.mp hev
  exact ⟨_, _, rfl⟩

theorem checkSlot_eq (cfg : ExecCoreConfig) (s : Core) :
    TimerWheel.checkSlot Core.timerWheel Core.setWheel
      (fun clock idx cid s => onTimeout cfg (worlds clock idx) cid s)
      (s.timerWheel.slotFor s.timerWheel.nowNs) s = run (step cfg) s (slotEvents worlds s.timerWheel) := by
  unfold TimerWheel.checkSlot slotEvents
  generalize s.timerWheel.slotFor s.timerWheel.nowNs = slot
  generalize List.range kSlotDepth = positions
  generalize hclock : s.timerWheel.nowNs = clock
  induction positions generalizing s with
  | nil => rfl
  | cons i positions ih =>
    rw [List.foldl_cons, visitEntry_step, List.map_cons, run_cons, hclock]
    exact ih _ ((call_clock cfg _ (.visit slot i) s).nowNs.trans hclock)

theorem tickLoop_eq (cfg : ExecCoreConfig) (n : ℕ) (s : Core) :
    TimerWheel.tickLoop Core.timerWheel Core.setWheel
      (fun clock idx cid s => onTimeout cfg (worlds clock idx) cid s) n s =
    run (step cfg) s (scanEvents worlds n s.timerWheel) := by
  induction n generalizing s with
  | zero => rfl
  | succ n ih =>
    have hadvance : step cfg (.env .advance) s = s.setWheel s.timerWheel.advance := rfl
    have hclock : TimerWheel.SameClock s.timerWheel.advance
        (run (step cfg) (s.setWheel s.timerWheel.advance)
          (slotEvents worlds s.timerWheel.advance)).timerWheel :=
      run_clock cfg (slotEvents_calls worlds s.timerWheel.advance) (s.setWheel s.timerWheel.advance)
    rw [scanEvents, run_cons, run_append, hadvance, ← hclock.scanEvents worlds n, ← ih]
    have hslot := checkSlot_eq worlds cfg (s.setWheel s.timerWheel.advance)
    exact congrArg (TimerWheel.tickLoop Core.timerWheel Core.setWheel _ n) hslot

/-- One iteration of the execution loop is the run of its events. -/
theorem tick_eq (cfg : ExecCoreConfig) (now : ℕ) (s : Core) :
    Core.tick cfg signals reports worlds now s =
      run (step cfg) s (tickEvents signals reports worlds now s.timerWheel) := by
  have hsignals : ∀ ev ∈ signals.map fun x => Event.call x.1 (.signal x.2), ∃ w c, ev = .call w c :=
    fun ev hev => by obtain ⟨x, _, rfl⟩ := List.mem_map.mp hev; exact ⟨_, _, rfl⟩
  have hreports : ∀ ev ∈ reports.map fun x => Event.call x.1 (.report x.2), ∃ w c, ev = .call w c :=
    fun ev hev => by obtain ⟨x, _, rfl⟩ := List.mem_map.mp hev; exact ⟨_, _, rfl⟩
  have hclock := (run_clock cfg hsignals s).trans (run_clock cfg hreports _)
  rw [tickEvents, run_append, run_append, ← hclock.scanEvents worlds, ← tickLoop_eq,
    TimerWheel.rounds, ← hclock.nowNs, ← hclock.tickNs]
  simp only [run, List.foldl_map]
  rfl

theorem mem_slotEvents {wheel : TimerWheel} {ev : Event} (h : ev ∈ slotEvents worlds wheel) :
    TickEvent signals reports worlds ev := by
  obtain ⟨idx, _, rfl⟩ := List.mem_map.mp h
  exact .visit _ _ _

theorem mem_scanEvents {n : ℕ} {wheel : TimerWheel} {ev : Event} (h : ev ∈ scanEvents worlds n wheel) :
    TickEvent signals reports worlds ev := by
  induction n generalizing wheel with
  | zero => cases h
  | succ n ih =>
    rcases List.mem_cons.mp h with rfl | h
    · exact .advance
    · exact (List.mem_append.mp h).elim (mem_slotEvents signals reports worlds) ih

theorem tick_run (now : ℕ) (s : Core) :
    ∃ evs, (∀ ev ∈ evs, TickEvent signals reports worlds ev) ∧
      Core.tick cfg signals reports worlds now s = run (step cfg) s evs := by
  refine ⟨_, fun ev hev => ?_, tick_eq signals reports worlds cfg now s⟩
  rcases List.mem_append.mp hev with hev | hev
  · obtain ⟨x, hx, rfl⟩ := List.mem_map.mp hev
    exact .signal hx
  · rcases List.mem_append.mp hev with hev | hev
    · obtain ⟨x, hx, rfl⟩ := List.mem_map.mp hev
      exact .report hx
    · exact mem_scanEvents signals reports worlds hev

/-- `n` rounds of the loop scan the next `n` slots of the ring. -/
theorem scanEvents_scans {n j idx : ℕ} {wheel : TimerWheel} (hj : j < n) (hidx : idx < kSlotDepth) :
    Scans (wheel.slotFor (wheel.nowNs + (j + 1) * wheel.tickNs)) idx (scanEvents worlds n wheel) := by
  induction n generalizing wheel j with
  | zero => omega
  | succ n ih =>
    cases j with
    | zero =>
      have hmem : Event.call (worlds wheel.advance.nowNs idx)
          (.visit (wheel.advance.slotFor wheel.advance.nowNs) idx) ∈ slotEvents worlds wheel.advance :=
        List.mem_map_of_mem (List.mem_range.mpr hidx)
      rw [zero_add, one_mul]
      exact ⟨_, List.mem_cons_of_mem _ (List.mem_append_left _ hmem)⟩
    | succ j =>
      obtain ⟨w, hw⟩ := @ih j wheel.advance (by omega)
      refine ⟨w, List.mem_cons_of_mem _ (List.mem_append_right _ ?_)⟩
      have hsum : wheel.nowNs + (j + 1 + 1) * wheel.tickNs =
          wheel.nowNs + wheel.tickNs + (j + 1) * wheel.tickNs := by ring
      rw [hsum]
      exact hw

/-- The slots of a whole turn of the ring, in clock order, are all the slots. -/
theorem slotFor_turn {wheel : TimerWheel} (htick : 0 < wheel.tickNs) {slot : ℕ} (hslot : slot < kFineSlots) :
    ∃ j, j < kFineSlots ∧ wheel.slotFor (wheel.nowNs + (j + 1) * wheel.tickNs) = slot := by
  have hdiv (j : ℕ) : (wheel.nowNs + (j + 1) * wheel.tickNs) / wheel.tickNs =
    wheel.nowNs / wheel.tickNs + (j + 1) :=
    Nat.add_mul_div_right _ _ htick
  refine ⟨(slot + kFineSlots - 1 + (kFineSlots - (wheel.nowNs / wheel.tickNs) % kFineSlots)) % kFineSlots,
    Nat.mod_lt _ (by decide), ?_⟩
  simp only [TimerWheel.slotFor, hdiv, kFineSlots] at hslot ⊢
  omega

/-- An idle iteration that moves the clock by a whole turn of the ring scans every position. -/
theorem tick_scans_all (now : ℕ) (s : Core) (htick : 0 < s.timerWheel.tickNs)
    (hturn : s.timerWheel.nowNs + kFineSlots * s.timerWheel.tickNs ≤ now) :
    ∃ evs, (∀ ev ∈ evs, TickEvent [] [] worlds ev) ∧
      (∀ slot idx, slot < kFineSlots → idx < kSlotDepth → Scans slot idx evs) ∧
      Core.tick cfg [] [] worlds now s = run (step cfg) s evs := by
  refine ⟨_, fun ev hev => mem_scanEvents [] [] worlds hev, fun slot idx hslot hidx => ?_,
    tick_eq [] [] worlds cfg now s⟩
  obtain ⟨j, hj, rfl⟩ := slotFor_turn htick hslot
  have hn : kFineSlots ≤ s.timerWheel.rounds now := by
    rw [TimerWheel.rounds, Nat.le_div_iff_mul_le htick]
    omega
  exact scanEvents_scans worlds (by omega) hidx

end Tick

end OmsFormal.Oms
