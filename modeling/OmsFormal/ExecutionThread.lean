import OmsFormal.SpscQueue
import OmsFormal.ClockedRuns

/-!
# The execution thread and its queues

The strategy and the gateways push into two rings; the execution thread pops them,
runs the handlers to completion and turns the timer wheel, over and over. Every
access to a ring is one step here, and so is every test of a loop. The threads
interleave freely, yet the core only ever goes through a run of single events.
-/

namespace OmsFormal.Oms
open GuardedRun
set_option autoImplicit false

def kInboundQueueSize : ℕ := 2 ^ 10

/-- What the next access of a `pop` returns to the caller, if it returns. -/
inductive PopOutcome (T : Type) where
  | underway
  | empty
  | value (v : T)

def SpscQueue.popOutcome {T : Type} (q : SpscQueue T) : PopOutcome T :=
  match q.consumer with
  | .idle => .underway
  | .loaded t => if t = q.head then .empty else .underway
  | .reading _ => .underway
  | .storing _ v => .value v

/-- Where an iteration of `run` stands; `now` is the clock reading it began with. -/
inductive LoopPc where
  | signals (now : ℕ)
  | reports (now : ℕ)
  | clock (now : ℕ)
  | scan (now idx : ℕ)
  | stopped
  deriving DecidableEq

/-- `trace` is what the core went through so far. -/
structure ExecutionThread where
  core : Core
  strategyQueue : SpscQueue StrategyOrderSignal
  execReportQueue : SpscQueue ExecutionReport
  pc : LoopPc
  running : Bool
  trace : List Event

/-- Who moves next. A handler sees the world `w`, and an iteration that begins with the step reads
`now` from the clock. The wheel clock is the execution thread's own. -/
inductive ThreadAction where
  | strategy (sig : StrategyOrderSignal)
  | gateway (rep : ExecutionReport)
  | other (e : Env) (h : e ≠ .advance)
  | stop
  | exec (w : World) (now : ℕ)

namespace ThreadAction

def isExec : ThreadAction → Bool
  | .exec _ _ => true
  | _ => false

/-- The producers rest, and nobody stops the loop. -/
def quiet : ThreadAction → Bool
  | .exec _ _ => true
  | .other _ _ => true
  | _ => false

end ThreadAction

namespace ExecutionThread

def init (cfg : ExecCoreConfig) (nowNs : ℕ) (signals : ℕ → StrategyOrderSignal)
    (reports : ℕ → ExecutionReport) (now : ℕ) : ExecutionThread where
  core := Core.init cfg nowNs
  strategyQueue := SpscQueue.init signals
  execReportQueue := SpscQueue.init reports
  pc := .signals now
  running := true
  trace := []

section Steps
variable (cfg : ExecCoreConfig)

def perform (e : Event) (t : ExecutionThread) : ExecutionThread :=
  { t with core := Oms.step cfg e t.core, trace := t.trace ++ [e] }

def execStep (w : World) (now : ℕ) (t : ExecutionThread) : ExecutionThread :=
  match t.pc with
  | .signals began =>
    let popped := { t with strategyQueue := t.strategyQueue.popStep kInboundQueueSize }
    match t.strategyQueue.popOutcome with
    | .underway => popped
    | .empty => { popped with pc := .reports began }
    | .value sig => perform cfg (.call w (.signal sig)) popped
  | .reports began =>
    let popped := { t with execReportQueue := t.execReportQueue.popStep kInboundQueueSize }
    match t.execReportQueue.popOutcome with
    | .underway => popped
    | .empty => { popped with pc := .clock began }
    | .value rep => perform cfg (.call w (.report rep)) popped
  | .clock began =>
    if t.core.timerWheel.nowNs + t.core.timerWheel.tickNs ≤ began then
      { perform cfg (.env .advance) t with pc := .scan began 0 }
    else { t with pc := if t.running then .signals now else .stopped }
  | .scan began idx =>
    if idx < kSlotDepth then
      { perform cfg (.call w (.visit (t.core.timerWheel.slotFor t.core.timerWheel.nowNs) idx)) t with
        pc := .scan began (idx + 1) }
    else { t with pc := .clock began }
  | .stopped => t

def step : ThreadAction → ExecutionThread → ExecutionThread
  | .strategy sig, t => { t with strategyQueue := t.strategyQueue.pushStep kInboundQueueSize sig }
  | .gateway rep, t => { t with execReportQueue := t.execReportQueue.pushStep kInboundQueueSize rep }
  | .other e _, t => perform cfg (.env e) t
  | .stop, t => { t with running := false }
  | .exec w now, t => execStep cfg w now t

end Steps

end ExecutionThread

/-- The signal an event handles. -/
def Event.signalOf : Event → Option StrategyOrderSignal
  | .call _ (.signal sig) => some sig
  | _ => none

def Event.reportOf : Event → Option ExecutionReport
  | .call _ (.report rep) => some rep
  | _ => none

/-- A move of the timer wheel, whatever its callback does. -/
inductive WheelMove where
  | advance
  | visit (slot idx : ℕ)

def Event.wheelMoveOf : Event → Option WheelMove
  | .call _ (.visit slot idx) => some (.visit slot idx)
  | .env .advance => some .advance
  | _ => none

/-- The moves that scan the first `n` positions of the slot a wheel stands at. -/
def TimerWheel.scanMoves (wheel : TimerWheel) (n : ℕ) : List WheelMove :=
  (List.range n).map (.visit (wheel.slotFor wheel.nowNs))

/-- The moves of `n` whole rounds of the tick loop. -/
def TimerWheel.roundMoves : ℕ → TimerWheel → List WheelMove
  | 0, _ => []
  | n + 1, wheel => .advance :: wheel.advance.scanMoves kSlotDepth ++ roundMoves n wheel.advance

section Pops
variable {T : Type} {n : ℕ} {q : SpscQueue T}

theorem SpscQueue.popStep_underway (n : ℕ) (h : q.popOutcome = .underway) :
    (q.popStep n).popped = q.popped := by
  cases hpc : q.consumer with
  | storing t v => simp [popOutcome, hpc] at h
  | idle => simp [popStep, hpc]
  | loaded t => simp [popStep, hpc]
  | reading t => simp [popStep, hpc]

theorem SpscQueue.popFails_of_empty (h : q.popOutcome = .empty) : q.PopFails := by
  unfold popOutcome at h
  split at h
  · cases h
  · rename_i t hpc
    split at h
    · rename_i heq
      exact ⟨t, hpc, heq⟩
    · cases h
  · cases h
  · cases h

theorem SpscQueue.popStep_empty (n : ℕ) (h : q.popOutcome = .empty) :
    (q.popStep n).popped = q.popped ∧ (q.popStep n).consumer = .idle := by
  obtain ⟨t, hpc, heq⟩ := popFails_of_empty h
  simp [popStep, hpc, heq]

theorem SpscQueue.popStep_value (n : ℕ) {v : T} (h : q.popOutcome = .value v) :
    (q.popStep n).popped = q.popped ++ [v] ∧ (q.popStep n).consumer = .idle := by
  unfold popOutcome at h
  split at h
  · cases h
  · split at h <;> cases h
  · cases h
  · rename_i t x hpc
    cases h
    simp [popStep, hpc]

/-- A pop that returns false has taken everything there was. -/
theorem SpscQueue.Ring.popped_of_empty (hring : Ring n q) (h : q.popOutcome = .empty) :
    q.popped = q.pushed := by
  have hcontent := hring.empty_of_popFails (popFails_of_empty h)
  apply hring.order.eq_of_length
  have hle := hring.le
  have hlen := congrArg List.length hcontent
  simp only [content, List.length_drop, List.length_nil] at hlen
  omega

/-- Steps that the loop over a ring still takes, if no more is pushed. -/
def SpscQueue.stepsToDrain (q : SpscQueue T) : ℕ :=
  4 * q.content.length + 2 - match q.consumer with
    | .idle => 0
    | .loaded _ => 1
    | .reading _ => 2
    | .storing _ _ => 3

theorem SpscQueue.stepsToDrain_idle (h : q.consumer = .idle) :
    q.stepsToDrain = 4 * q.content.length + 2 := by
  simp [stepsToDrain, h]

theorem SpscQueue.stepsToDrain_le (q : SpscQueue T) : q.stepsToDrain ≤ 4 * q.content.length + 2 :=
  Nat.sub_le _ _

theorem SpscQueue.le_stepsToDrain (q : SpscQueue T) : 4 * q.content.length ≤ q.stepsToDrain + 1 := by
  unfold stepsToDrain
  split <;> omega

theorem SpscQueue.content_length_pop (n : ℕ) (q : SpscQueue T) :
    (q.popStep n).content.length = q.pushed.length - (q.popStep n).popped.length := by
  simp [content, popStep_pushed]

/-- Every access of a pop that does not return false brings the end of the loop nearer. -/
theorem SpscQueue.Ring.stepsToDrain_pop (hring : Ring n q) (h : q.popOutcome ≠ .empty) :
    (q.popStep n).stepsToDrain + 1 ≤ q.stepsToDrain ∧ (q.popStep n).content.length ≤ q.content.length := by
  have hcons := hring.consumer
  have hlen := content_length_pop n q
  have hcontent : q.content.length = q.pushed.length - q.popped.length := by simp [content]
  cases hpc : q.consumer with
  | idle =>
    simp only [popStep, hpc] at hlen
    simp only [stepsToDrain, popStep, hpc, hlen, hcontent]
    omega
  | loaded t =>
    have hne : ¬ t = q.head := by
      intro heq
      exact h (by simp [popOutcome, hpc, heq])
    simp only [ConsumerOk, hpc] at hcons
    have hlt := hring.behind (hcons ▸ hne)
    simp only [popStep, hpc, hne, if_false] at hlen
    simp only [stepsToDrain, popStep, hpc, hne, if_false, hlen, hcontent]
    omega
  | reading t =>
    simp only [ConsumerOk, Nonempty, hpc] at hcons
    simp only [popStep, hpc] at hlen
    simp only [stepsToDrain, popStep, hpc, hlen, hcontent]
    omega
  | storing t v =>
    simp only [ConsumerOk, hpc] at hcons
    obtain ⟨hlt, -⟩ := List.getElem?_eq_some_iff.mp hcons.2
    simp only [popStep, hpc, List.length_append, List.length_singleton] at hlen
    simp only [stepsToDrain, popStep, hpc, hlen, hcontent]
    omega

end Pops

section Moves

theorem TimerWheel.SameClock.slotFor {a b : TimerWheel} (h : SameClock a b) :
    b.slotFor b.nowNs = a.slotFor a.nowNs := by
  simp only [TimerWheel.slotFor, h.nowNs, h.tickNs]

theorem TimerWheel.roundMoves_succ (n : ℕ) (wheel : TimerWheel) :
    roundMoves (n + 1) wheel =
      roundMoves n wheel ++ .advance :: (advance^[n + 1] wheel).scanMoves kSlotDepth := by
  induction n generalizing wheel with
  | zero => simp [roundMoves]
  | succ n ih =>
    rw [roundMoves, ih, roundMoves, Function.iterate_succ_apply]
    simp

theorem TimerWheel.scanMoves_succ (wheel : TimerWheel) (n : ℕ) :
    wheel.scanMoves (n + 1) = wheel.scanMoves n ++ [.visit (wheel.slotFor wheel.nowNs) n] := by
  simp [scanMoves, List.range_succ]

theorem TimerWheel.iterate_tickNs (n : ℕ) (wheel : TimerWheel) :
    (advance^[n] wheel).tickNs = wheel.tickNs := by
  induction n generalizing wheel with
  | zero => rfl
  | succ n ih => exact (ih wheel.advance)

theorem TimerWheel.scanMoves_prefix {wheel : TimerWheel} {n k : ℕ} (h : n ≤ k) :
    wheel.scanMoves n <+: wheel.scanMoves k := by
  obtain ⟨d, rfl⟩ := Nat.exists_eq_add_of_le h
  apply List.IsPrefix.map
  rw [List.range_add]
  exact List.prefix_append _ _

theorem TimerWheel.SameClock.rounds {a b : TimerWheel} (h : a.SameClock b) (now : ℕ) :
    b.rounds now = a.rounds now := by
  simp only [TimerWheel.rounds, h.nowNs, h.tickNs]

theorem TimerWheel.rounds_advance {wheel : TimerWheel} (htick : 0 < wheel.tickNs) {now : ℕ}
    (h : wheel.nowNs + wheel.tickNs ≤ now) : wheel.advance.rounds now + 1 = wheel.rounds now := by
  have hsub : now - wheel.nowNs = now - (wheel.nowNs + wheel.tickNs) + wheel.tickNs := by omega
  simp only [TimerWheel.rounds, TimerWheel.advance]
  rw [hsub, Nat.add_div_right _ htick]

end Moves

namespace LoopPc

def popsSignals : LoopPc → Bool
  | .signals _ => true
  | _ => false

def popsReports : LoopPc → Bool
  | .reports _ => true
  | _ => false

/-- The clock reading of the iteration. -/
def began : LoopPc → ℕ
  | .signals now => now
  | .reports now => now
  | .clock now => now
  | .scan now _ => now
  | .stopped => 0

/-- The positions of the slot that were scanned, in the middle of a scan. -/
def scanned : LoopPc → Option ℕ
  | .scan _ idx => some idx
  | _ => none

end LoopPc

namespace ExecutionThread

def signalsHandled (t : ExecutionThread) : List StrategyOrderSignal := t.trace.filterMap Event.signalOf
def reportsHandled (t : ExecutionThread) : List ExecutionReport := t.trace.filterMap Event.reportOf
def wheelMoves (t : ExecutionThread) : List WheelMove := t.trace.filterMap Event.wheelMoveOf

/-- The wheel went through `n` whole rounds, and through the scanned part of the one under way. -/
def WheelAt (wheel : TimerWheel) (n : ℕ) (t : ExecutionThread) : Prop :=
  match t.pc.scanned with
  | none => TimerWheel.SameClock (TimerWheel.advance^[n] wheel) t.core.timerWheel ∧
      t.wheelMoves = wheel.roundMoves n
  | some idx => TimerWheel.SameClock (TimerWheel.advance^[n + 1] wheel) t.core.timerWheel ∧
      idx ≤ kSlotDepth ∧
      t.wheelMoves = wheel.roundMoves n ++ .advance :: (TimerWheel.advance^[n + 1] wheel).scanMoves idx

/-- The thread after it started with the core `s`. -/
structure Ok (cfg : ExecCoreConfig) (s : Core) (t : ExecutionThread) : Prop where
  strategyRing : SpscQueue.Ring kInboundQueueSize t.strategyQueue
  reportRing : SpscQueue.Ring kInboundQueueSize t.execReportQueue
  core : t.core = run (Oms.step cfg) s t.trace
  signals : t.signalsHandled = t.strategyQueue.popped
  reports : t.reportsHandled = t.execReportQueue.popped
  signalsIdle : t.pc.popsSignals = false → t.strategyQueue.consumer = .idle
  reportsIdle : t.pc.popsReports = false → t.execReportQueue.consumer = .idle
  wheel : ∃ n, WheelAt s.timerWheel n t

section Invariant
variable {cfg : ExecCoreConfig} {s : Core} {t : ExecutionThread}

theorem init_ok (nowNs : ℕ) (signals : ℕ → StrategyOrderSignal) (reports : ℕ → ExecutionReport) (now : ℕ) :
    Ok cfg (Core.init cfg nowNs) (init cfg nowNs signals reports now) := by
  refine ⟨SpscQueue.Ring.init signals, SpscQueue.Ring.init reports, rfl, rfl, rfl, fun _ => rfl,
    fun _ => rfl, 0, ⟨rfl, rfl⟩, rfl⟩

theorem perform_core (h : t.core = run (Oms.step cfg) s t.trace) (e : Event) :
    (perform cfg e t).core = run (Oms.step cfg) s (perform cfg e t).trace := by
  rw [perform, run_append, ← h]
  rfl

theorem perform_signals (cfg : ExecCoreConfig) (e : Event) (t : ExecutionThread) :
    (perform cfg e t).signalsHandled = t.signalsHandled ++ e.signalOf.toList := by
  cases he : e.signalOf <;> simp [perform, signalsHandled, he]

theorem perform_reports (cfg : ExecCoreConfig) (e : Event) (t : ExecutionThread) :
    (perform cfg e t).reportsHandled = t.reportsHandled ++ e.reportOf.toList := by
  cases he : e.reportOf <;> simp [perform, reportsHandled, he]

theorem perform_moves (cfg : ExecCoreConfig) (e : Event) (t : ExecutionThread) :
    (perform cfg e t).wheelMoves = t.wheelMoves ++ e.wheelMoveOf.toList := by
  cases he : e.wheelMoveOf <;> simp [perform, wheelMoves, he]

/-- Outside a scan, where the loop stands does not matter for the wheel. -/
theorem WheelAt.of_same {wheel : TimerWheel} {n : ℕ} {t' : ExecutionThread} (h : WheelAt wheel n t)
    (hpc : t'.pc.scanned = t.pc.scanned)
    (hclock : TimerWheel.SameClock t.core.timerWheel t'.core.timerWheel)
    (hmoves : t'.wheelMoves = t.wheelMoves) : WheelAt wheel n t' := by
  unfold WheelAt at h ⊢
  rw [hpc]
  cases hscan : t.pc.scanned with
  | none =>
    simp only [hscan] at h
    exact ⟨h.1.trans hclock, hmoves.trans h.2⟩
  | some idx =>
    simp only [hscan] at h
    exact ⟨h.1.trans hclock, h.2.1, hmoves.trans h.2.2⟩

theorem other_ok (h : Ok cfg s t) {e : Env} (he : e ≠ .advance) : Ok cfg s (perform cfg (.env e) t) := by
  obtain ⟨n, hwheel⟩ := h.wheel
  have hsame : (perform cfg (.env e) t).core.timerWheel = t.core.timerWheel := Env.clock he t.core
  have hmove : (Event.env e).wheelMoveOf = none := by
    cases e with
    | advance => exact absurd rfl he
    | _ => rfl
  refine ⟨h.strategyRing, h.reportRing, perform_core h.core _, ?_, ?_, h.signalsIdle, h.reportsIdle, n, ?_⟩
  · rw [perform_signals]
    simp [Event.signalOf, h.signals, perform]
  · rw [perform_reports]
    simp [Event.reportOf, h.reports, perform]
  · refine hwheel.of_same rfl (hsame ▸ ⟨rfl, rfl⟩) ?_
    rw [perform_moves, hmove]
    simp

theorem strategy_ok (h : Ok cfg s t) (sig : StrategyOrderSignal) : Ok cfg s (step cfg (.strategy sig) t) := by
  obtain ⟨hpopped, hconsumer, -⟩ := t.strategyQueue.pushStep_frame kInboundQueueSize sig
  exact ⟨SpscQueue.pushStep_ring h.strategyRing sig, h.reportRing, h.core, h.signals.trans hpopped.symm,
    h.reports, fun hpc => hconsumer.trans (h.signalsIdle hpc), h.reportsIdle, h.wheel⟩

theorem gateway_ok (h : Ok cfg s t) (rep : ExecutionReport) : Ok cfg s (step cfg (.gateway rep) t) := by
  obtain ⟨hpopped, hconsumer, -⟩ := t.execReportQueue.pushStep_frame kInboundQueueSize rep
  exact ⟨h.strategyRing, SpscQueue.pushStep_ring h.reportRing rep, h.core, h.signals,
    h.reports.trans hpopped.symm, h.signalsIdle, fun hpc => hconsumer.trans (h.reportsIdle hpc), h.wheel⟩

/-- A handler that pops does not move the wheel. -/
theorem perform_call {n : ℕ} (hwheel : WheelAt s.timerWheel n t) (w : World) (c : Call)
    (hmove : (Event.call w c).wheelMoveOf = none) : WheelAt s.timerWheel n (perform cfg (.call w c) t) := by
  refine hwheel.of_same rfl (call_clock cfg w c t.core) ?_
  rw [perform_moves, hmove]
  simp

theorem execSignals_ok (h : Ok cfg s t) (w : World) (now : ℕ) {began : ℕ} (hpc : t.pc = .signals began) :
    Ok cfg s (execStep cfg w now t) := by
  obtain ⟨n, hwheel⟩ := h.wheel
  have hring := SpscQueue.popStep_ring h.strategyRing
  have hreports : t.execReportQueue.consumer = .idle := h.reportsIdle (by rw [hpc]; rfl)
  have hscan : t.pc.scanned = none := by rw [hpc]; rfl
  cases hout : t.strategyQueue.popOutcome with
  | underway =>
    have hpopped := SpscQueue.popStep_underway kInboundQueueSize hout
    simp only [execStep, hpc, hout]
    exact ⟨hring, h.reportRing, h.core, h.signals.trans hpopped.symm, h.reports, nofun,
      fun _ => hreports, n, hwheel.of_same hscan.symm ⟨rfl, rfl⟩ rfl⟩
  | empty =>
    obtain ⟨hpopped, hidle⟩ := SpscQueue.popStep_empty kInboundQueueSize hout
    simp only [execStep, hpc, hout]
    exact ⟨hring, h.reportRing, h.core, h.signals.trans hpopped.symm, h.reports, fun _ => hidle,
      fun _ => hreports, n, hwheel.of_same hscan.symm ⟨rfl, rfl⟩ rfl⟩
  | value sig =>
    obtain ⟨hpopped, hidle⟩ := SpscQueue.popStep_value kInboundQueueSize hout
    simp only [execStep, hpc, hout]
    refine ⟨hring, h.reportRing, perform_core h.core _, ?_, ?_, fun _ => hidle, fun _ => hreports, n, ?_⟩
    · rw [perform_signals]
      exact (congrArg (· ++ [sig]) h.signals).trans hpopped.symm
    · rw [perform_reports]
      exact (List.append_nil _).trans h.reports
    · apply perform_call _ w (.signal sig) rfl
      exact hwheel.of_same hscan.symm ⟨rfl, rfl⟩ rfl

theorem execReports_ok (h : Ok cfg s t) (w : World) (now : ℕ) {began : ℕ} (hpc : t.pc = .reports began) :
    Ok cfg s (execStep cfg w now t) := by
  obtain ⟨n, hwheel⟩ := h.wheel
  have hring := SpscQueue.popStep_ring h.reportRing
  have hsignals : t.strategyQueue.consumer = .idle := h.signalsIdle (by rw [hpc]; rfl)
  have hscan : t.pc.scanned = none := by rw [hpc]; rfl
  cases hout : t.execReportQueue.popOutcome with
  | underway =>
    have hpopped := SpscQueue.popStep_underway kInboundQueueSize hout
    simp only [execStep, hpc, hout]
    exact ⟨h.strategyRing, hring, h.core, h.signals, h.reports.trans hpopped.symm, fun _ => hsignals,
      nofun, n, hwheel.of_same hscan.symm ⟨rfl, rfl⟩ rfl⟩
  | empty =>
    obtain ⟨hpopped, hidle⟩ := SpscQueue.popStep_empty kInboundQueueSize hout
    simp only [execStep, hpc, hout]
    exact ⟨h.strategyRing, hring, h.core, h.signals, h.reports.trans hpopped.symm, fun _ => hsignals,
      fun _ => hidle, n, hwheel.of_same hscan.symm ⟨rfl, rfl⟩ rfl⟩
  | value rep =>
    obtain ⟨hpopped, hidle⟩ := SpscQueue.popStep_value kInboundQueueSize hout
    simp only [execStep, hpc, hout]
    refine ⟨h.strategyRing, hring, perform_core h.core _, ?_, ?_, fun _ => hsignals, fun _ => hidle, n, ?_⟩
    · rw [perform_signals]
      exact (List.append_nil _).trans h.signals
    · rw [perform_reports]
      exact (congrArg (· ++ [rep]) h.reports).trans hpopped.symm
    · apply perform_call _ w (.report rep) rfl
      exact hwheel.of_same hscan.symm ⟨rfl, rfl⟩ rfl

theorem execClock_ok (h : Ok cfg s t) (w : World) (now : ℕ) {began : ℕ} (hpc : t.pc = .clock began) :
    Ok cfg s (execStep cfg w now t) := by
  obtain ⟨n, hwheel⟩ := h.wheel
  have hsignals : t.strategyQueue.consumer = .idle := h.signalsIdle (by rw [hpc]; rfl)
  have hreports : t.execReportQueue.consumer = .idle := h.reportsIdle (by rw [hpc]; rfl)
  have hscan : t.pc.scanned = none := by rw [hpc]; rfl
  simp only [execStep, hpc]
  split
  · refine ⟨h.strategyRing, h.reportRing, perform_core h.core (.env .advance), ?_, ?_, fun _ => hsignals,
      fun _ => hreports, n, ?_⟩
    · exact (perform_signals cfg _ t).trans ((List.append_nil _).trans h.signals)
    · exact (perform_reports cfg _ t).trans ((List.append_nil _).trans h.reports)
    · unfold WheelAt at hwheel ⊢
      simp only [hscan] at hwheel
      refine ⟨?_, Nat.zero_le _, ?_⟩
      · rw [Function.iterate_succ_apply']
        exact hwheel.1.advance
      · refine (perform_moves cfg _ t).trans ?_
        rw [hwheel.2]
        rfl
  · refine ⟨h.strategyRing, h.reportRing, h.core, h.signals, h.reports, fun _ => hsignals,
      fun _ => hreports, n, hwheel.of_same ?_ ⟨rfl, rfl⟩ rfl⟩
    rw [hscan]
    split <;> rfl

theorem execScan_ok (h : Ok cfg s t) (w : World) (now : ℕ) {began idx : ℕ} (hpc : t.pc = .scan began idx) :
    Ok cfg s (execStep cfg w now t) := by
  obtain ⟨n, hwheel⟩ := h.wheel
  have hsignals : t.strategyQueue.consumer = .idle := h.signalsIdle (by rw [hpc]; rfl)
  have hreports : t.execReportQueue.consumer = .idle := h.reportsIdle (by rw [hpc]; rfl)
  have hscan : t.pc.scanned = some idx := by rw [hpc]; rfl
  unfold WheelAt at hwheel
  simp only [hscan] at hwheel
  obtain ⟨hclock, hidx, hmoves⟩ := hwheel
  have hslot := hclock.slotFor
  simp only [execStep, hpc]
  generalize t.core.timerWheel.slotFor t.core.timerWheel.nowNs = slot at hslot ⊢
  split
  · rename_i hlt
    refine ⟨h.strategyRing, h.reportRing, perform_core h.core (.call w (.visit slot idx)), ?_, ?_,
      fun _ => hsignals, fun _ => hreports, n, ?_⟩
    · exact (perform_signals cfg _ t).trans ((List.append_nil _).trans h.signals)
    · exact (perform_reports cfg _ t).trans ((List.append_nil _).trans h.reports)
    · refine ⟨hclock.trans (call_clock cfg w _ t.core), hlt, ?_⟩
      refine (perform_moves cfg _ t).trans ?_
      rw [hmoves, TimerWheel.scanMoves_succ, ← hslot]
      simp [Event.wheelMoveOf]
  · have hall : idx = kSlotDepth := by omega
    refine ⟨h.strategyRing, h.reportRing, h.core, h.signals, h.reports, fun _ => hsignals,
      fun _ => hreports, n + 1, hclock, ?_⟩
    rw [TimerWheel.roundMoves_succ, ← hall]
    exact hmoves

theorem step_ok (h : Ok cfg s t) (a : ThreadAction) : Ok cfg s (step cfg a t) := by
  cases a with
  | strategy sig => exact strategy_ok h sig
  | gateway rep => exact gateway_ok h rep
  | other e he => exact other_ok h he
  | stop =>
    exact ⟨h.strategyRing, h.reportRing, h.core, h.signals, h.reports, h.signalsIdle, h.reportsIdle, h.wheel⟩
  | exec w now =>
    simp only [step]
    cases hpc : t.pc with
    | signals began => exact execSignals_ok h w now hpc
    | reports began => exact execReports_ok h w now hpc
    | clock began => exact execClock_ok h w now hpc
    | scan began idx => exact execScan_ok h w now hpc
    | stopped =>
      simp only [execStep, hpc]
      exact h

theorem run_ok (h : Ok cfg s t) (acts : List ThreadAction) : Ok cfg s (run (step cfg) t acts) := by
  have hall : Along (step cfg) (fun _ _ => True) t acts := along_true
  exact hall.invariant (Ok cfg s) (fun a _ ht _ => step_ok ht a) h

end Invariant

section Serial
variable {cfg : ExecCoreConfig} {s : Core} {t : ExecutionThread}

/-- The threaded program, seen from the core: a run of single events in which every pushed signal
and report is handled at most once, in the order it was pushed, and in which the wheel scans slot
after slot. A queue is left only when all that was pushed is handled. -/
structure Serial (cfg : ExecCoreConfig) (s : Core) (t : ExecutionThread) : Prop where
  core : t.core = run (Oms.step cfg) s t.trace
  signals : t.signalsHandled <+: t.strategyQueue.pushed
  reports : t.reportsHandled <+: t.execReportQueue.pushed
  signalsLeft : t.pc.popsSignals = true → t.strategyQueue.popOutcome = .empty →
    t.signalsHandled = t.strategyQueue.pushed
  reportsLeft : t.pc.popsReports = true → t.execReportQueue.popOutcome = .empty →
    t.reportsHandled = t.execReportQueue.pushed
  signalsWaiting : t.strategyQueue.pushed.length < t.signalsHandled.length + kInboundQueueSize
  reportsWaiting : t.execReportQueue.pushed.length < t.reportsHandled.length + kInboundQueueSize
  wheel : ∃ n, t.wheelMoves <+: s.timerWheel.roundMoves n

theorem Ok.serial (h : Ok cfg s t) : Serial cfg s t := by
  obtain ⟨n, hwheel⟩ := h.wheel
  refine ⟨h.core, ?_, ?_, fun _ hempty => ?_, fun _ hempty => ?_, ?_, ?_, n + 1, ?_⟩
  · rw [h.signals]
    exact h.strategyRing.order
  · rw [h.reports]
    exact h.reportRing.order
  · rw [h.signals]
    exact h.strategyRing.popped_of_empty hempty
  · rw [h.reports]
    exact h.reportRing.popped_of_empty hempty
  · rw [h.signals]
    exact h.strategyRing.bound
  · rw [h.reports]
    exact h.reportRing.bound
  · rw [TimerWheel.roundMoves_succ]
    unfold WheelAt at hwheel
    cases hscan : t.pc.scanned with
    | none =>
      simp only [hscan] at hwheel
      rw [hwheel.2]
      exact List.prefix_append _ _
    | some idx =>
      simp only [hscan] at hwheel
      rw [hwheel.2.2, List.prefix_append_right_inj, List.prefix_cons_inj]
      exact TimerWheel.scanMoves_prefix hwheel.2.1

/-- However the strategy, the gateways, the feeds, the operator and the execution thread interleave,
the core only goes through runs of single events. -/
theorem run_serial (cfg : ExecCoreConfig) (nowNs now : ℕ) (signals : ℕ → StrategyOrderSignal)
    (reports : ℕ → ExecutionReport) (acts : List ThreadAction) :
    Serial cfg (Core.init cfg nowNs) (run (step cfg) (init cfg nowNs signals reports now) acts) :=
  (run_ok (init_ok nowNs signals reports now) acts).serial

end Serial

section Progress
variable {cfg : ExecCoreConfig} {s : Core} {t : ExecutionThread}

/-- Steps from the test of the tick loop to the next iteration. -/
def clockSteps (wheel : TimerWheel) (began : ℕ) : ℕ := (kSlotDepth + 2) * wheel.rounds began + 1

/-- Bound on the steps until both queues are empty, if no more is pushed. -/
def stepsLeft (t : ExecutionThread) : ℕ :=
  let signals := t.strategyQueue.content.length
  let reports := t.execReportQueue.content.length
  if signals = 0 ∧ reports = 0 then 0
  else
    match t.pc with
    | .signals _ => t.strategyQueue.stepsToDrain + (4 * reports + 2)
    | .reports began => t.execReportQueue.stepsToDrain +
        if signals = 0 then 0 else clockSteps t.core.timerWheel began + (4 * signals + 2) + 2
    | .clock began => clockSteps t.core.timerWheel began + (4 * signals + 2) + (4 * reports + 2)
    | .scan began idx => (kSlotDepth - idx) + 1 + clockSteps t.core.timerWheel began +
        (4 * signals + 2) + (4 * reports + 2)
    | .stopped => 0

/-- The thread runs and nobody told it to stop. -/
structure Up (cfg : ExecCoreConfig) (s : Core) (t : ExecutionThread) : Prop where
  ok : Ok cfg s t
  running : t.running = true
  pc : t.pc ≠ .stopped
  tick : 0 < t.core.timerWheel.tickNs

theorem popped_done {T : Type} {n : ℕ} {q : SpscQueue T} (hring : SpscQueue.Ring n q)
    (h : q.popOutcome = .empty) :
    q.content.length = 0 ∧ (q.popStep n).content.length = 0 ∧ q.stepsToDrain = 1 := by
  have hpopped := hring.popped_of_empty h
  obtain ⟨t, hpc, -⟩ := SpscQueue.popFails_of_empty h
  have hafter := SpscQueue.content_length_pop n q
  rw [(SpscQueue.popStep_empty n h).1, hpopped, Nat.sub_self] at hafter
  have hcontent : q.content.length = 0 := by simp [SpscQueue.content, hpopped]
  refine ⟨hcontent, hafter, ?_⟩
  simp [SpscQueue.stepsToDrain, hpc, hcontent]

theorem execSignals_drops (h : Up cfg s t) (w : World) (now : ℕ) {began : ℕ} (hpc : t.pc = .signals began) :
    (execStep cfg w now t).stepsLeft ≤ t.stepsLeft - 1 := by
  have hreports := SpscQueue.stepsToDrain_idle (h.ok.reportsIdle (by rw [hpc]; rfl))
  cases hout : t.strategyQueue.popOutcome with
  | underway =>
    obtain ⟨hdrop, hle⟩ := h.ok.strategyRing.stepsToDrain_pop (by rw [hout]; nofun)
    simp only [execStep, hpc, hout, stepsLeft]
    split <;> split <;> omega
  | empty =>
    obtain ⟨hnone, hafter, hone⟩ := popped_done h.ok.strategyRing hout
    simp only [execStep, hpc, hout, stepsLeft, hnone, hafter, hone, hreports, true_and, if_true]
    split <;> omega
  | value sig =>
    obtain ⟨hdrop, hle⟩ := h.ok.strategyRing.stepsToDrain_pop (by rw [hout]; nofun)
    simp only [execStep, hpc, hout, stepsLeft, perform]
    split <;> split <;> omega

theorem execReports_drops (h : Up cfg s t) (w : World) (now : ℕ) {began : ℕ} (hpc : t.pc = .reports began) :
    (execStep cfg w now t).stepsLeft ≤ t.stepsLeft - 1 := by
  cases hout : t.execReportQueue.popOutcome with
  | underway =>
    obtain ⟨hdrop, hle⟩ := h.ok.reportRing.stepsToDrain_pop (by rw [hout]; nofun)
    simp only [execStep, hpc, hout, stepsLeft]
    by_cases hsignals : t.strategyQueue.content.length = 0
    · simp only [hsignals, true_and, if_true]
      split <;> split <;> omega
    · simp only [hsignals, false_and, if_false]
      omega
  | empty =>
    obtain ⟨hnone, hafter, hone⟩ := popped_done h.ok.reportRing hout
    simp only [execStep, hpc, hout, stepsLeft, hnone, hafter, hone, and_true]
    split <;> omega
  | value rep =>
    obtain ⟨hdrop, hle⟩ := h.ok.reportRing.stepsToDrain_pop (by rw [hout]; nofun)
    have hclock := (call_clock cfg w (.report rep) t.core).rounds began
    simp only [execStep, hpc, hout, stepsLeft, perform, clockSteps, Oms.step, hclock]
    by_cases hsignals : t.strategyQueue.content.length = 0
    · simp only [hsignals, true_and, if_true]
      split <;> split <;> omega
    · simp only [hsignals, false_and, if_false]
      omega

theorem execClock_drops (h : Up cfg s t) (w : World) (now : ℕ) {began : ℕ} (hpc : t.pc = .clock began) :
    (execStep cfg w now t).stepsLeft ≤ t.stepsLeft - 1 := by
  have hsignals := SpscQueue.stepsToDrain_idle (h.ok.signalsIdle (by rw [hpc]; rfl))
  simp only [execStep, hpc]
  split
  · rename_i hle
    have hrounds := TimerWheel.rounds_advance h.tick hle
    have hwheel : (Env.advance.apply t.core).timerWheel = t.core.timerWheel.advance := rfl
    simp only [stepsLeft, perform, Oms.step, hwheel, clockSteps, hpc, ← hrounds, Nat.mul_add, mul_one]
    split <;> omega
  · simp only [stepsLeft, h.running, if_true, hpc, hsignals, clockSteps]
    split <;> omega

theorem execScan_drops (w : World) (now : ℕ) {began idx : ℕ} (hpc : t.pc = .scan began idx) :
    (execStep cfg w now t).stepsLeft ≤ t.stepsLeft - 1 := by
  simp only [execStep, hpc]
  split
  · have hclock := (call_clock cfg w
      (.visit (t.core.timerWheel.slotFor t.core.timerWheel.nowNs) idx) t.core).rounds began
    simp only [stepsLeft, perform, Oms.step, clockSteps, hpc, hclock]
    split <;> omega
  · simp only [stepsLeft, clockSteps, hpc]
    split <;> omega

theorem Ok.tickNs (h : Ok cfg s t) : t.core.timerWheel.tickNs = s.timerWheel.tickNs := by
  obtain ⟨n, hwheel⟩ := h.wheel
  unfold WheelAt at hwheel
  cases hscan : t.pc.scanned with
  | none =>
    simp only [hscan] at hwheel
    exact hwheel.1.tickNs.trans (TimerWheel.iterate_tickNs n s.timerWheel)
  | some idx =>
    simp only [hscan] at hwheel
    exact hwheel.1.tickNs.trans (TimerWheel.iterate_tickNs (n + 1) s.timerWheel)

theorem execStep_up (h : Up cfg s t) (w : World) (now : ℕ) :
    (execStep cfg w now t).running = true ∧ (execStep cfg w now t).pc ≠ .stopped := by
  have hrun := h.running
  cases hpc : t.pc with
  | signals began =>
    simp only [execStep, hpc]
    split <;> exact ⟨hrun, nofun⟩
  | reports began =>
    simp only [execStep, hpc]
    split <;> exact ⟨hrun, nofun⟩
  | clock began =>
    simp only [execStep, hpc]
    split
    · exact ⟨hrun, nofun⟩
    · simp [hrun]
  | scan began idx =>
    simp only [execStep, hpc]
    split <;> exact ⟨hrun, nofun⟩
  | stopped => exact absurd hpc h.pc

theorem step_up (h : Up cfg s t) {a : ThreadAction} (ha : a ≠ .stop) : Up cfg s (step cfg a t) := by
  have hok := step_ok h.ok a
  have htick : 0 < (step cfg a t).core.timerWheel.tickNs := by
    rw [hok.tickNs, ← h.ok.tickNs]
    exact h.tick
  cases a with
  | strategy sig => exact ⟨hok, h.running, h.pc, htick⟩
  | gateway rep => exact ⟨hok, h.running, h.pc, htick⟩
  | other e he => exact ⟨hok, h.running, h.pc, htick⟩
  | stop => exact absurd rfl ha
  | exec w now => exact ⟨hok, (execStep_up h w now).1, (execStep_up h w now).2, htick⟩

theorem step_drops (h : Up cfg s t) (w : World) (now : ℕ) :
    (step cfg (.exec w now) t).stepsLeft ≤ t.stepsLeft - 1 := by
  simp only [step]
  cases hpc : t.pc with
  | signals began => exact execSignals_drops h w now hpc
  | reports began => exact execReports_drops h w now hpc
  | clock began => exact execClock_drops h w now hpc
  | scan began idx => exact execScan_drops w now hpc
  | stopped => exact absurd hpc h.pc

theorem step_stepsLeft_le (h : Up cfg s t) {a : ThreadAction} (ha : a.quiet = true) :
    (step cfg a t).stepsLeft ≤ t.stepsLeft := by
  cases a with
  | exec w now => exact (step_drops h w now).trans (Nat.sub_le _ _)
  | other e he =>
    have hwheel : (e.apply t.core).timerWheel = t.core.timerWheel := Env.clock he t.core
    simp only [step, perform, stepsLeft, Oms.step, hwheel]
    exact le_rfl
  | strategy sig => exact absurd ha Bool.false_ne_true
  | gateway rep => exact absurd ha Bool.false_ne_true
  | stop => exact absurd ha Bool.false_ne_true

theorem execStep_pushed (w : World) (now : ℕ) (t : ExecutionThread) :
    (execStep cfg w now t).strategyQueue.pushed = t.strategyQueue.pushed ∧
    (execStep cfg w now t).execReportQueue.pushed = t.execReportQueue.pushed := by
  have hsignals := t.strategyQueue.popStep_pushed kInboundQueueSize
  have hreports := t.execReportQueue.popStep_pushed kInboundQueueSize
  unfold execStep
  split
  · split <;> exact ⟨hsignals, rfl⟩
  · split <;> exact ⟨rfl, hreports⟩
  · split <;> exact ⟨rfl, rfl⟩
  · split <;> exact ⟨rfl, rfl⟩
  · exact ⟨rfl, rfl⟩

theorem step_pushed {a : ThreadAction} (ha : a.quiet = true) (t : ExecutionThread) :
    (step cfg a t).strategyQueue.pushed = t.strategyQueue.pushed ∧
    (step cfg a t).execReportQueue.pushed = t.execReportQueue.pushed := by
  cases a with
  | exec w now => exact execStep_pushed w now t
  | other e he => exact ⟨rfl, rfl⟩
  | strategy sig => exact absurd ha Bool.false_ne_true
  | gateway rep => exact absurd ha Bool.false_ne_true
  | stop => exact absurd ha Bool.false_ne_true

theorem Up.handled_of_stepsLeft (h : Up cfg s t) (hzero : t.stepsLeft = 0) :
    t.signalsHandled = t.strategyQueue.pushed ∧ t.reportsHandled = t.execReportQueue.pushed := by
  have hempty : t.strategyQueue.content.length = 0 ∧ t.execReportQueue.content.length = 0 := by
    by_contra hsome
    unfold stepsLeft at hzero
    simp only [hsome, if_false] at hzero
    cases hpc : t.pc with
    | signals began => simp [hpc] at hzero
    | reports began =>
      have hle := t.execReportQueue.le_stepsToDrain
      simp only [hpc] at hzero
      split at hzero <;> omega
    | clock began => simp [hpc] at hzero
    | scan began idx => simp [hpc] at hzero
    | stopped => exact h.pc hpc
  obtain ⟨hsignals, hreports⟩ := hempty
  simp only [SpscQueue.content, List.length_drop] at hsignals hreports
  have hs := h.ok.strategyRing.order
  have hr := h.ok.reportRing.order
  rw [h.ok.signals, h.ok.reports]
  exact ⟨hs.eq_of_length_le (by omega), hr.eq_of_length_le (by omega)⟩

theorem stepsLeft_le (t : ExecutionThread) :
    t.stepsLeft ≤ (kSlotDepth + 2) * (t.core.timerWheel.rounds t.pc.began + 1) +
      4 * (t.strategyQueue.content.length + t.execReportQueue.content.length) + 6 := by
  have hsignals := t.strategyQueue.stepsToDrain_le
  have hreports := t.execReportQueue.stepsToDrain_le
  unfold stepsLeft
  cases hpc : t.pc <;> simp only [clockSteps, LoopPc.began, Nat.mul_add, mul_one] <;> split <;>
    (try split) <;> omega

/-- While the loop runs and nothing more is pushed, all that was pushed is handled: four steps for
each element and the rest of a turn of the wheel are enough, whatever the other threads do. -/
theorem quiet_drains (cfg : ExecCoreConfig) (nowNs now : ℕ) (signals : ℕ → StrategyOrderSignal)
    (reports : ℕ → ExecutionReport) (acts more : List ThreadAction) (hrun : ThreadAction.stop ∉ acts)
    (hquiet : ∀ a ∈ more, a.quiet = true) :
    let t := run (step cfg) (init cfg nowNs signals reports now) acts
    let t' := run (step cfg) t more
    (kSlotDepth + 2) * (t.core.timerWheel.rounds t.pc.began + 1) +
      4 * (t.strategyQueue.content.length + t.execReportQueue.content.length) + 6 ≤
        more.countP ThreadAction.isExec →
    t'.signalsHandled = t.strategyQueue.pushed ∧ t'.reportsHandled = t.execReportQueue.pushed := by
  intro t t' hk
  have hup : Up cfg (Core.init cfg nowNs) t := by
    have hall : Along (step cfg) (fun a _ => a ≠ .stop) (init cfg nowNs signals reports now) acts :=
      along_of_forall fun a ha _ heq => hrun (heq ▸ ha)
    refine hall.invariant (Up cfg (Core.init cfg nowNs)) (fun a _ ht ha => step_up ht ha) ?_
    exact ⟨init_ok nowNs signals reports now, rfl, nofun, Nat.succ_pos _⟩
  have hall : Along (step cfg) (fun a _ => a.quiet = true) t more :=
    along_of_forall fun a ha _ => hquiet a ha
  have hnostop {a : ThreadAction} (ha : a.quiet = true) : a ≠ .stop := by
    rintro rfl
    exact Bool.false_ne_true ha
  have hdone := hall.countdown (Up cfg (Core.init cfg nowNs)) stepsLeft ThreadAction.isExec
    (fun a _ ht ha => step_up ht (hnostop ha))
    (fun a _ ht _ hexec => by
      cases a with
      | exec w now => exact step_drops ht w now
      | _ => exact absurd hexec Bool.false_ne_true)
    (fun a _ ht ha => step_stepsLeft_le ht ha) hup ((stepsLeft_le t).trans hk)
  have hpushed : t'.strategyQueue.pushed = t.strategyQueue.pushed ∧
      t'.execReportQueue.pushed = t.execReportQueue.pushed := by
    apply hall.invariant (fun x => x.strategyQueue.pushed = t.strategyQueue.pushed ∧
      x.execReportQueue.pushed = t.execReportQueue.pushed) _ ⟨rfl, rfl⟩
    intro a x hx ha
    exact ⟨(step_pushed ha x).1.trans hx.1, (step_pushed ha x).2.trans hx.2⟩
  obtain ⟨hsignals, hreports⟩ := hdone.1.handled_of_stepsLeft hdone.2
  exact ⟨hsignals.trans hpushed.1, hreports.trans hpushed.2⟩

/-- A signal and a report wait in the queues. -/
def Sample.waiting : List ThreadAction :=
  List.replicate 4 (.strategy (Sample.signal .buy 4 false)) ++
    List.replicate 4 (.gateway (Sample.report 0 .fill 4))

theorem quiet_drains_fill :
    let t := run (step Sample.config) (init Sample.config 0 (fun _ => Sample.signal .sell 1 true)
      (fun _ => Sample.report 0 .new 0) 0) Sample.waiting
    let t' := run (step Sample.config) t (List.replicate 48 (.exec (Sample.world 9) 0))
    t'.signalsHandled = [Sample.signal .buy 4 false] ∧ t'.reportsHandled = [Sample.report 0 .fill 4] :=
  quiet_drains Sample.config 0 0 (fun _ => Sample.signal .sell 1 true) (fun _ => Sample.report 0 .new 0)
    Sample.waiting (List.replicate 48 (.exec (Sample.world 9) 0)) (by simp [Sample.waiting])
    (by simp [ThreadAction.quiet]) (by decide +kernel)

end Progress

end ExecutionThread

end OmsFormal.Oms
