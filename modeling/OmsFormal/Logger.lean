import OmsFormal.SpscQueue

/-!
# The asynchronous logger

The hot path formats into a ring and never waits: a call that finds the ring full
is dropped and counted. A background thread prints what it finds, repeats the
warnings and errors on stderr, flushes now and then, and after a shutdown goes on
until the ring is empty. `log` and the drain loop are the two sides of the ring,
one atomic access a step. The file was opened, and one thread does the logging.
-/

namespace OmsFormal.Oms
open GuardedRun
set_option autoImplicit false

inductive LogLevel where
  | debug | info | warn | error
  deriving DecidableEq, Repr

def LogLevel.levelStr : LogLevel → List Char
  | .debug => "DEBUG".toList
  | .info => "INFO ".toList
  | .warn => "WARN ".toList
  | .error => "ERROR".toList

def kLogRingSize : ℕ := 2 ^ 16
def kMsgLen : ℕ := 184

/-- A formatted entry. The message has a cell of `kMsgLen` bytes, the last of them for the
terminator. -/
structure LogEntry where
  tsNs : ℕ
  level : LogLevel
  msg : List Char
  fits : msg.length < kMsgLen

namespace LogEntry

/-- What `snprintf` leaves of a text. -/
def format (tsNs : ℕ) (level : LogLevel) (text : List Char) : LogEntry where
  tsNs := tsNs
  level := level
  msg := text.take (kMsgLen - 1)
  fits := (List.length_take_le _ _).trans_lt (by decide)

def fileLine (e : LogEntry) : List Char :=
  Nat.toDigits 10 e.tsNs ++ '\t' :: e.level.levelStr ++ '\t' :: e.msg ++ ['\n']

/-- The colour an entry is repeated in on stderr, if it is. -/
def colour (e : LogEntry) : Option (List Char) :=
  match e.level with
  | .error => some "31".toList
  | .warn => some "33".toList
  | _ => none

def stderrLine (e : LogEntry) (colour : List Char) : List Char :=
  "\x1b[1;".toList ++ colour ++ "m[".toList ++ e.level.levelStr ++ "]\x1b[0m ".toList ++ e.msg ++ ['\n']

/-- What an entry prints on stderr. -/
def echo (e : LogEntry) : List (List Char) := (e.colour.map e.stderrLine).toList

end LogEntry

/-- Where the drain thread stands in its loop. -/
inductive Drain where
  | top
  | stopping
  | loading
  | comparing (t : ℕ)
  | printing (t : ℕ)
  | echoing (t : ℕ)
  | storing (t : ℕ)
  | flushing (t : ℕ)
  | ending
  | ended
  deriving DecidableEq, Repr

/-- The ring with both sides' program counters, what was printed and how many lines of the file are
flushed. `calls` counts the calls of `log` that returned. -/
structure AsyncLogger where
  ring : SpscQueue LogEntry
  dropped : ℕ
  running : Bool
  drain : Drain
  file : List (List Char)
  flushed : ℕ
  stderr : List (List Char)
  calls : ℕ

inductive LogAction where
  | log (tsNs : ℕ) (level : LogLevel) (text : List Char)
  | drain
  | shutdown

namespace AsyncLogger

/-- The logger after `init`. -/
def init (ring : ℕ → LogEntry) : AsyncLogger where
  ring := SpscQueue.init ring
  dropped := 0
  running := true
  drain := .top
  file := []
  flushed := 0
  stderr := []
  calls := 0

/-- The next access of a call of `log`; an idle caller starts to log `e`. -/
def logStep (e : LogEntry) (x : AsyncLogger) : AsyncLogger :=
  let ring := x.ring.pushStep kLogRingSize e
  match x.ring.producer with
  | .idle => { x with ring := ring }
  | .loaded h _ =>
    if SpscQueue.next kLogRingSize h = x.ring.tail then
      { x with ring := ring, dropped := x.dropped + 1, calls := x.calls + 1 }
    else { x with ring := ring }
  | .writing _ _ => { x with ring := ring }
  | .storing _ _ => { x with ring := ring, calls := x.calls + 1 }

/-- The next access of the drain loop. -/
def drainStep (x : AsyncLogger) : AsyncLogger :=
  let ring := x.ring.popStep kLogRingSize
  match x.drain with
  | .top => { x with drain := if x.running then .loading else .stopping }
  | .stopping => { x with drain := if x.ring.tail = x.ring.head then .ending else .loading }
  | .loading => { x with ring := ring, drain := .comparing x.ring.tail }
  | .comparing t => { x with ring := ring, drain := if t = x.ring.head then .top else .printing t }
  | .printing t =>
    { x with ring := ring, file := x.file ++ [(x.ring.buf t).fileLine], drain := .echoing t }
  | .echoing t => { x with stderr := x.stderr ++ (x.ring.buf t).echo, drain := .storing t }
  | .storing t => { x with ring := ring, drain := .flushing t }
  | .flushing t =>
    { x with flushed := if t &&& 0xFF = 0 then x.file.length else x.flushed, drain := .top }
  | .ending => { x with flushed := x.file.length, drain := .ended }
  | .ended => x

def step : LogAction → AsyncLogger → AsyncLogger
  | .log tsNs level text, x => x.logStep (.format tsNs level text)
  | .drain, x => x.drainStep
  | .shutdown, x => { x with running := false }

/-- Entries printed to the file so far. -/
def printed (x : AsyncLogger) : ℕ :=
  match x.drain with
  | .echoing _ => x.ring.popped.length + 1
  | .storing _ => x.ring.popped.length + 1
  | _ => x.ring.popped.length

/-- Entries through with stderr so far. -/
def echoed (x : AsyncLogger) : ℕ :=
  match x.drain with
  | .storing _ => x.ring.popped.length + 1
  | _ => x.ring.popped.length

/-- Entries through with the flush that may follow them. -/
def settled (x : AsyncLogger) : ℕ :=
  match x.drain with
  | .flushing _ => x.ring.popped.length - 1
  | _ => x.ring.popped.length

/-- The drain thread and its side of the ring stand at the same place. -/
def DrainOk (x : AsyncLogger) : Prop :=
  match x.drain with
  | .comparing t => x.ring.consumer = .loaded t
  | .printing t => x.ring.consumer = .reading t
  | .echoing t => ∃ e, x.ring.consumer = .storing t e
  | .storing t => ∃ e, x.ring.consumer = .storing t e
  | .flushing t => x.ring.consumer = .idle ∧ t % 256 = (x.ring.popped.length - 1) % 256
  | _ => x.ring.consumer = .idle

structure Ok (x : AsyncLogger) : Prop where
  ring : SpscQueue.Ring kLogRingSize x.ring
  drain : x.DrainOk
  file : x.file = (x.ring.pushed.take x.printed).map LogEntry.fileLine
  stderr : x.stderr = (x.ring.pushed.take x.echoed).flatMap LogEntry.echo
  counted : x.ring.pushed.length + x.dropped = x.calls
  flushed : x.flushed ≤ x.file.length
  due : ∀ i < x.settled, i % 256 = 0 → i < x.flushed

variable {x : AsyncLogger}

section Log

theorem logStep_ring (e : LogEntry) : (x.logStep e).ring = x.ring.pushStep kLogRingSize e := by
  unfold logStep
  split
  · rfl
  · split <;> rfl
  · rfl
  · rfl

/-- A call of `log` shares only the ring and the counters with the drain thread. -/
theorem logStep_rest (e : LogEntry) : (x.logStep e).drain = x.drain ∧ (x.logStep e).file = x.file ∧
    (x.logStep e).flushed = x.flushed ∧ (x.logStep e).stderr = x.stderr ∧
    (x.logStep e).running = x.running := by
  unfold logStep
  split
  · exact ⟨rfl, rfl, rfl, rfl, rfl⟩
  · split <;> exact ⟨rfl, rfl, rfl, rfl, rfl⟩
  · exact ⟨rfl, rfl, rfl, rfl, rfl⟩
  · exact ⟨rfl, rfl, rfl, rfl, rfl⟩

theorem logStep_counted (e : LogEntry) (h : x.ring.pushed.length + x.dropped = x.calls) :
    (x.logStep e).ring.pushed.length + (x.logStep e).dropped = (x.logStep e).calls := by
  unfold logStep
  split
  · rename_i hpc
    simpa [SpscQueue.pushStep, hpc] using h
  · rename_i hpc
    split
    · simp only [SpscQueue.pushStep, hpc]
      omega
    · simpa [SpscQueue.pushStep, hpc] using h
  · rename_i hpc
    simpa [SpscQueue.pushStep, hpc] using h
  · rename_i hpc
    simp only [SpscQueue.pushStep, hpc, List.length_append, List.length_singleton]
    omega

end Log

section Invariant

theorem Ok.storing_lt {t : ℕ} {e : LogEntry} (h : x.Ok) (hc : x.ring.consumer = .storing t e) :
    x.ring.pushed[x.ring.popped.length]? = some e ∧ x.ring.popped.length < x.ring.pushed.length := by
  have hcons := h.ring.consumer
  simp only [SpscQueue.ConsumerOk, hc] at hcons
  exact ⟨hcons.2, (List.getElem?_eq_some_iff.mp hcons.2).1⟩

theorem echoed_le (x : AsyncLogger) : x.echoed ≤ x.printed := by
  cases hd : x.drain <;> simp [echoed, printed, hd]

theorem Ok.printed_le (h : x.Ok) : x.printed ≤ x.ring.pushed.length := by
  have hdrain := h.drain
  have hle := h.ring.le
  unfold DrainOk at hdrain
  unfold printed
  split
  · rename_i t hd
    simp only [hd] at hdrain
    obtain ⟨e, hc⟩ := hdrain
    exact (h.storing_lt hc).2
  · rename_i t hd
    simp only [hd] at hdrain
    obtain ⟨e, hc⟩ := hdrain
    exact (h.storing_lt hc).2
  · exact hle

theorem take_of_prefix {α : Type} {k : ℕ} {l l' : List α} (h : l <+: l') (hk : k ≤ l.length) :
    l'.take k = l.take k := by
  obtain ⟨t, rfl⟩ := h
  exact List.take_append_of_le_length hk

theorem init_ok (ring : ℕ → LogEntry) : (init ring).Ok := by
  refine ⟨SpscQueue.Ring.init ring, rfl, rfl, rfl, rfl, le_rfl, fun i hi => ?_⟩
  exact absurd hi (Nat.not_lt_zero i)

theorem logStep_ok (h : x.Ok) (e : LogEntry) : (x.logStep e).Ok := by
  obtain ⟨hdrain, hfile, hflushed, hstderr, -⟩ := logStep_rest (x := x) e
  obtain ⟨hpopped, hconsumer, hpushed⟩ := x.ring.pushStep_frame kLogRingSize e
  rw [← logStep_ring] at hpopped hconsumer hpushed
  have hprinted : (x.logStep e).printed = x.printed := by
    simp only [printed, hdrain, hpopped]
  have hechoed : (x.logStep e).echoed = x.echoed := by
    simp only [echoed, hdrain, hpopped]
  have hsettled : (x.logStep e).settled = x.settled := by
    simp only [settled, hdrain, hpopped]
  have hp := h.printed_le
  refine ⟨?_, ?_, ?_, ?_, logStep_counted e h.counted, ?_, ?_⟩
  · rw [logStep_ring]
    exact SpscQueue.pushStep_ring h.ring e
  · have hok := h.drain
    simp only [DrainOk, hdrain, hpopped, hconsumer] at hok ⊢
    exact hok
  · rw [hfile, hprinted, take_of_prefix hpushed hp]
    exact h.file
  · rw [hstderr, hechoed, take_of_prefix hpushed (x.echoed_le.trans hp)]
    exact h.stderr
  · rw [hfile, hflushed]
    exact h.flushed
  · rw [hsettled, hflushed]
    exact h.due

/-- The cell at the tail holds the oldest entry that was not taken yet. -/
theorem oldest {n : ℕ} {q : SpscQueue LogEntry} (h : SpscQueue.Ring n q)
    (hlt : q.popped.length < q.pushed.length) : q.pushed[q.popped.length]? = some (q.buf q.tail) := by
  have hget : q.pushed[q.popped.length]? = some q.pushed[q.popped.length] := List.getElem?_eq_getElem hlt
  rw [h.tail, h.cells _ _ le_rfl hget]
  exact hget

theorem take_succ_of_get {α : Type} {k : ℕ} {l : List α} {v : α} (h : l[k]? = some v) :
    l.take (k + 1) = l.take k ++ [v] := by
  rw [List.take_add_one, h]
  rfl

/-- Multiples of 256 below a bound that is not one stay below it when it moves up by one. -/
theorem due_succ {p f : ℕ} (h : ∀ i < p, i % 256 = 0 → i < f) (hp : p % 256 ≠ 0) :
    ∀ i < p + 1, i % 256 = 0 → i < f := by
  intro i hi hzero
  refine h i (lt_of_le_of_ne (Nat.le_of_lt_succ hi) ?_) hzero
  rintro rfl
  exact hp hzero

theorem file_length {k : ℕ} {file : List (List Char)} {l : List LogEntry} (hk : k ≤ l.length)
    (h : file = (l.take k).map LogEntry.fileLine) : file.length = k := by
  rw [h, List.length_map, List.length_take, Nat.min_eq_left hk]

theorem drainStep_ok (h : x.Ok) : x.drainStep.Ok := by
  obtain ⟨hring, hdrain, hfile, hstderr, hcounted, hflushed, hdue⟩ := h
  have hpop : SpscQueue.Ring kLogRingSize (x.ring.popStep kLogRingSize) := SpscQueue.popStep_ring hring
  cases hd : x.drain with
  | top =>
    simp only [DrainOk, printed, echoed, settled, hd] at hdrain hfile hstderr hdue
    by_cases hrun : x.running = true
    · simp only [drainStep, hd, hrun, if_true]
      exact ⟨hring, hdrain, hfile, hstderr, hcounted, hflushed, hdue⟩
    · simp only [drainStep, hd, hrun]
      exact ⟨hring, hdrain, hfile, hstderr, hcounted, hflushed, hdue⟩
  | stopping =>
    simp only [DrainOk, printed, echoed, settled, hd] at hdrain hfile hstderr hdue
    simp only [drainStep, hd]
    split
    · exact ⟨hring, hdrain, hfile, hstderr, hcounted, hflushed, hdue⟩
    · exact ⟨hring, hdrain, hfile, hstderr, hcounted, hflushed, hdue⟩
  | loading =>
    simp only [DrainOk, printed, echoed, settled, hd] at hdrain hfile hstderr hdue
    simp only [drainStep, hd]
    refine ⟨hpop, ?_, ?_, ?_, ?_, hflushed, ?_⟩ <;>
      simp only [DrainOk, printed, echoed, settled, SpscQueue.popStep, hdrain]
    · exact hfile
    · exact hstderr
    · exact hcounted
    · exact hdue
  | comparing t =>
    simp only [DrainOk, printed, echoed, settled, hd] at hdrain hfile hstderr hdue
    simp only [drainStep, hd]
    by_cases hempty : t = x.ring.head
    · rw [if_pos hempty]
      refine ⟨hpop, ?_, ?_, ?_, ?_, hflushed, ?_⟩ <;>
        simp only [DrainOk, printed, echoed, settled, SpscQueue.popStep, hdrain, hempty, if_true]
      · exact hfile
      · exact hstderr
      · exact hcounted
      · exact hdue
    · rw [if_neg hempty]
      refine ⟨hpop, ?_, ?_, ?_, ?_, hflushed, ?_⟩ <;>
        simp only [DrainOk, printed, echoed, settled, SpscQueue.popStep, hdrain, hempty, if_false]
      · exact hfile
      · exact hstderr
      · exact hcounted
      · exact hdue
  | printing t =>
    have hcons := hring.consumer
    simp only [DrainOk, printed, echoed, settled, hd] at hdrain hfile hstderr hdue
    simp only [SpscQueue.ConsumerOk, hdrain] at hcons
    obtain ⟨rfl, hlt⟩ := hcons
    have hget := oldest hring hlt
    simp only [drainStep, hd]
    refine ⟨hpop, ?_, ?_, ?_, ?_, ?_, ?_⟩ <;>
      simp only [DrainOk, printed, echoed, settled, SpscQueue.popStep, hdrain]
    · exact ⟨_, rfl⟩
    · rw [hfile, take_succ_of_get hget, List.map_append]
      rfl
    · exact hstderr
    · exact hcounted
    · rw [List.length_append]
      omega
    · exact hdue
  | echoing t =>
    simp only [DrainOk, printed, echoed, settled, hd] at hdrain hfile hstderr hdue
    obtain ⟨e, hcon⟩ := hdrain
    have hcons := hring.consumer
    simp only [SpscQueue.ConsumerOk, hcon] at hcons
    obtain ⟨rfl, hget⟩ := hcons
    have hcell := oldest hring (List.getElem?_eq_some_iff.mp hget).1
    simp only [drainStep, hd]
    refine ⟨hring, ⟨e, hcon⟩, hfile, ?_, hcounted, hflushed, hdue⟩
    simp only [echoed]
    rw [hstderr, take_succ_of_get hcell, List.flatMap_append]
    simp
  | storing t =>
    simp only [DrainOk, printed, echoed, settled, hd] at hdrain hfile hstderr hdue
    obtain ⟨e, hcon⟩ := hdrain
    have hcons := hring.consumer
    simp only [SpscQueue.ConsumerOk, hcon] at hcons
    simp only [drainStep, hd]
    refine ⟨hpop, ?_, ?_, ?_, ?_, hflushed, ?_⟩ <;>
      simp only [DrainOk, printed, echoed, settled, SpscQueue.popStep, hcon, List.length_append,
        List.length_singleton, Nat.add_sub_cancel]
    · refine ⟨trivial, ?_⟩
      rw [hcons.1, hring.tail]
      exact Nat.mod_mod_of_dvd _ (by decide)
    · exact hfile
    · exact hstderr
    · exact hcounted
    · exact hdue
  | flushing t =>
    simp only [DrainOk, printed, echoed, settled, hd] at hdrain hfile hstderr hdue
    obtain ⟨hcon, hcell⟩ := hdrain
    have hlen := file_length hring.le hfile
    have hmask : t &&& 0xFF = t % 256 := Nat.and_two_pow_sub_one_eq_mod t 8
    simp only [drainStep, hd, hmask, hcell]
    split
    · refine ⟨hring, hcon, hfile, hstderr, hcounted, le_rfl, fun i hi _ => ?_⟩
      exact hlen.symm ▸ hi
    · rename_i hnot
      refine ⟨hring, hcon, hfile, hstderr, hcounted, hflushed, ?_⟩
      simp only [settled]
      rcases Nat.eq_zero_or_pos x.ring.popped.length with hzero | hpos
      · rw [hzero]
        exact fun i hi => absurd hi (Nat.not_lt_zero i)
      · have hsucc := due_succ hdue hnot
        rwa [Nat.sub_add_cancel hpos] at hsucc
  | ending =>
    simp only [DrainOk, printed, echoed, settled, hd] at hdrain hfile hstderr hdue
    have hlen := file_length hring.le hfile
    simp only [drainStep, hd]
    exact ⟨hring, hdrain, hfile, hstderr, hcounted, le_rfl, fun i hi _ => hlen.symm ▸ hi⟩
  | ended =>
    simp only [drainStep, hd]
    exact ⟨hring, hdrain, hfile, hstderr, hcounted, hflushed, hdue⟩

theorem step_ok (h : x.Ok) (a : LogAction) : (step a x).Ok := by
  cases a with
  | log tsNs level text => exact logStep_ok h _
  | drain => exact drainStep_ok h
  | shutdown => exact ⟨h.ring, h.drain, h.file, h.stderr, h.counted, h.flushed, h.due⟩

theorem run_ok (ring : ℕ → LogEntry) (acts : List LogAction) : (run step (init ring) acts).Ok := by
  have hall : Along step (fun _ _ => True) (init ring) acts := along_true
  exact hall.invariant Ok (fun a _ h _ => step_ok h a) (init_ok ring)

end Invariant

section Outputs

/-- What can be said of the outputs at any time: the lines are those of the calls that were not
dropped, in order and whole, only so many are missing yet, and few are not flushed. -/
structure Faithful (x : AsyncLogger) : Prop where
  file : x.file <+: x.ring.pushed.map LogEntry.fileLine
  stderr : x.stderr <+: x.ring.pushed.flatMap LogEntry.echo
  backlog : x.ring.pushed.length ≤ x.file.length + (kLogRingSize - 1)
  counted : x.ring.pushed.length + x.dropped = x.calls
  full : x.ring.PushFails kLogRingSize → x.ring.content.length = kLogRingSize - 1
  flushed : x.flushed ≤ x.file.length
  unflushed : x.file.length ≤ x.flushed + 256

theorem popped_le_printed (x : AsyncLogger) : x.ring.popped.length ≤ x.printed := by
  cases hd : x.drain <;> simp [printed, hd]

theorem printed_le_settled (x : AsyncLogger) : x.printed ≤ x.settled + 1 := by
  cases hd : x.drain <;> simp only [printed, settled, hd] <;> omega

/-- A multiple of 256 is never far below. -/
theorem unflushed_le {k f : ℕ} (h : ∀ i < k, i % 256 = 0 → i < f) : k ≤ f + 255 := by
  rcases Nat.eq_zero_or_pos k with hzero | hpos
  · omega
  · have hlast := h ((k - 1) / 256 * 256) (by omega) (Nat.mul_mod_left _ _)
    omega

theorem Ok.faithful (h : x.Ok) : x.Faithful := by
  have hlen := file_length h.printed_le h.file
  have hbound := h.ring.bound
  have hpopped := popped_le_printed x
  have hsettled := printed_le_settled x
  have hdue := unflushed_le h.due
  refine ⟨?_, ?_, by omega, h.counted, SpscQueue.Ring.full_of_pushFails h.ring, h.flushed, by omega⟩
  · rw [h.file]
    exact (List.take_prefix _ _).map _
  · rw [h.stderr]
    exact (List.take_prefix _ _).flatMap _

/-- However the logging thread, the drain thread and a shutdown interleave, no entry that was
accepted is lost, repeated, reordered or torn on its way to the file and to stderr, every refused
call was counted as dropped and found the ring full, and at most 256 lines await a flush. -/
theorem run_faithful (ring : ℕ → LogEntry) (acts : List LogAction) :
    (run step (init ring) acts).Faithful :=
  (run_ok ring acts).faithful

end Outputs

section Shutdown
variable {base : List LogEntry}

/-- Until it is told to stop, the drain thread does not look for a reason to end. -/
def Up (x : AsyncLogger) : Prop :=
  x.running = true ∧ x.drain ≠ .stopping ∧ x.drain ≠ .ending ∧ x.drain ≠ .ended

/-- Told to stop when `base` was in the ring or through it, the drain thread ends only behind
`base`, and not before its last flush. -/
structure Closing (base : List LogEntry) (x : AsyncLogger) : Prop where
  ok : x.Ok
  stopped : x.running = false
  kept : base <+: x.ring.pushed
  drained : x.drain = .ending ∨ x.drain = .ended → base.length ≤ x.ring.popped.length
  flushed : x.drain = .ended → x.flushed = x.file.length

theorem step_up (h : x.Up) {a : LogAction} (ha : a ≠ .shutdown) : (step a x).Up := by
  obtain ⟨hrun, hstop, hending, hended⟩ := h
  cases a with
  | log tsNs level text =>
    obtain ⟨hdrain, -, -, -, hrunning⟩ := logStep_rest (x := x) (.format tsNs level text)
    rw [Up, step, hdrain, hrunning]
    exact ⟨hrun, hstop, hending, hended⟩
  | drain =>
    cases hd : x.drain with
    | comparing t =>
      simp only [Up, step, drainStep, hd]
      split <;> simp [hrun]
    | stopping => exact absurd hd hstop
    | ending => exact absurd hd hending
    | ended => exact absurd hd hended
    | top => simp [Up, step, drainStep, hd, hrun]
    | loading => simp [Up, step, drainStep, hd, hrun]
    | printing t => simp [Up, step, drainStep, hd, hrun]
    | echoing t => simp [Up, step, drainStep, hd, hrun]
    | storing t => simp [Up, step, drainStep, hd, hrun]
    | flushing t => simp [Up, step, drainStep, hd, hrun]
  | shutdown => exact absurd rfl ha

theorem drainStep_frame (x : AsyncLogger) :
    x.drainStep.running = x.running ∧ x.drainStep.ring.pushed = x.ring.pushed := by
  have hpop := x.ring.popStep_pushed kLogRingSize
  unfold drainStep
  split
  · exact ⟨rfl, rfl⟩
  · exact ⟨rfl, rfl⟩
  · exact ⟨rfl, hpop⟩
  · exact ⟨rfl, hpop⟩
  · exact ⟨rfl, hpop⟩
  · exact ⟨rfl, rfl⟩
  · exact ⟨rfl, hpop⟩
  · exact ⟨rfl, rfl⟩
  · exact ⟨rfl, rfl⟩
  · exact ⟨rfl, rfl⟩

theorem Up.closing (h : x.Up) (hok : x.Ok) : Closing x.ring.pushed (step .shutdown x) := by
  obtain ⟨-, -, hending, hended⟩ := h
  refine ⟨step_ok hok _, rfl, List.prefix_refl _, fun hdrain => ?_, fun hdrain => absurd hdrain hended⟩
  exact (hdrain.elim hending hended).elim

theorem step_closing (h : Closing base x) (a : LogAction) : Closing base (step a x) := by
  obtain ⟨hok, hstop, hbase, hdrained, hflushed⟩ := h
  have hok' := step_ok hok a
  cases a with
  | log tsNs level text =>
    obtain ⟨hdrain, hfile, hfl, -, hrunning⟩ := logStep_rest (x := x) (.format tsNs level text)
    obtain ⟨hpopped, -, hpushed⟩ := x.ring.pushStep_frame kLogRingSize (.format tsNs level text)
    rw [← logStep_ring] at hpopped hpushed
    refine ⟨hok', hrunning.trans hstop, hbase.trans hpushed, ?_, ?_⟩
    · simp only [step, hdrain, hpopped]
      exact hdrained
    · simp only [step, hdrain, hfile, hfl]
      exact hflushed
  | drain =>
    obtain ⟨hrunning, hpushed⟩ := drainStep_frame x
    refine ⟨hok', hrunning.trans hstop, hpushed.symm ▸ hbase, ?_, ?_⟩
    · cases hd : x.drain with
      | stopping =>
        simp only [step, drainStep, hd]
        intro hend
        have heq : x.ring.tail = x.ring.head := by
          by_contra hne
          simp [hne] at hend
        exact (hok.ring.caught_up heq).symm ▸ hbase.length_le
      | ending =>
        simp only [step, drainStep, hd]
        exact fun _ => hdrained (Or.inl hd)
      | ended =>
        simp only [step, drainStep, hd]
        exact fun _ => hdrained (Or.inr hd)
      | top => simp [step, drainStep, hd, hstop]
      | comparing t =>
        simp only [step, drainStep, hd]
        split <;> simp
      | loading => simp [step, drainStep, hd]
      | printing t => simp [step, drainStep, hd]
      | echoing t => simp [step, drainStep, hd]
      | storing t => simp [step, drainStep, hd]
      | flushing t => simp [step, drainStep, hd]
    · cases hd : x.drain with
      | ending => simp [step, drainStep, hd]
      | ended =>
        simp only [step, drainStep, hd]
        exact fun _ => hflushed hd
      | stopping =>
        simp only [step, drainStep, hd]
        split <;> simp
      | comparing t =>
        simp only [step, drainStep, hd]
        split <;> simp
      | top => simp [step, drainStep, hd, hstop]
      | loading => simp [step, drainStep, hd]
      | printing t => simp [step, drainStep, hd]
      | echoing t => simp [step, drainStep, hd]
      | storing t => simp [step, drainStep, hd]
      | flushing t => simp [step, drainStep, hd]
  | shutdown => exact ⟨hok', rfl, hbase, hdrained, hflushed⟩

/-- How many steps the drain thread still takes after a shutdown, if nothing more is logged. -/
def stepsLeft (x : AsyncLogger) : ℕ :=
  let left := x.ring.pushed.length - x.ring.popped.length
  match x.drain with
  | .top => 8 * left + 3
  | .stopping => 8 * left + 2
  | .loading => 8 * left + 4 * (1 - left) + 1
  | .comparing _ => 8 * left + 4 * (1 - left)
  | .printing _ => 8 * left - 1
  | .echoing _ => 8 * left - 2
  | .storing _ => 8 * left - 3
  | .flushing _ => 8 * left + 4
  | .ending => 1
  | .ended => 0

theorem stepsLeft_le (x : AsyncLogger) :
    x.stepsLeft ≤ 8 * (x.ring.pushed.length - x.ring.popped.length) + 5 := by
  cases hd : x.drain <;> simp only [stepsLeft, hd] <;> omega

/-- An entry under way is still in the ring. -/
theorem Ok.left_pos (h : x.Ok) {t : ℕ}
    (hd : x.drain = .printing t ∨ x.drain = .echoing t ∨ x.drain = .storing t) :
    x.ring.popped.length < x.ring.pushed.length := by
  have hdrain := h.drain
  unfold DrainOk at hdrain
  rcases hd with hd | hd | hd
  · simp only [hd] at hdrain
    have hcons := h.ring.consumer
    simp only [SpscQueue.ConsumerOk, hdrain] at hcons
    exact hcons.2
  · simp only [hd] at hdrain
    obtain ⟨e, hc⟩ := hdrain
    exact (h.storing_lt hc).2
  · simp only [hd] at hdrain
    obtain ⟨e, hc⟩ := hdrain
    exact (h.storing_lt hc).2

theorem Ok.ended_of_stepsLeft (h : x.Ok) (hzero : x.stepsLeft = 0) : x.drain = .ended := by
  cases hd : x.drain with
  | ended => rfl
  | printing t =>
    have hpos := h.left_pos (Or.inl hd)
    simp only [stepsLeft, hd] at hzero
    omega
  | echoing t =>
    have hpos := h.left_pos (Or.inr (Or.inl hd))
    simp only [stepsLeft, hd] at hzero
    omega
  | storing t =>
    have hpos := h.left_pos (Or.inr (Or.inr hd))
    simp only [stepsLeft, hd] at hzero
    omega
  | top => simp [stepsLeft, hd] at hzero
  | stopping => simp [stepsLeft, hd] at hzero
  | loading => simp [stepsLeft, hd] at hzero
  | comparing t =>
    simp only [stepsLeft, hd] at hzero
    omega
  | flushing t => simp [stepsLeft, hd] at hzero
  | ending => simp [stepsLeft, hd] at hzero

theorem Closing.stepsLeft_drain (h : Closing base x) : x.drainStep.stepsLeft ≤ x.stepsLeft - 1 := by
  have hle := h.ok.ring.le
  have hdrain := h.ok.drain
  cases hd : x.drain with
  | top => simp [stepsLeft, drainStep, hd, h.stopped]
  | stopping =>
    by_cases heq : x.ring.tail = x.ring.head
    · simp only [stepsLeft, drainStep, hd, heq, if_true]
      omega
    · have hlt := h.ok.ring.behind heq
      simp only [stepsLeft, drainStep, hd, heq, if_false]
      omega
  | loading =>
    simp only [DrainOk, hd] at hdrain
    simp only [stepsLeft, drainStep, hd, SpscQueue.popStep, hdrain]
    omega
  | comparing t =>
    simp only [DrainOk, hd] at hdrain
    have hcons := h.ok.ring.consumer
    simp only [SpscQueue.ConsumerOk, hdrain] at hcons
    obtain rfl := hcons
    by_cases heq : x.ring.tail = x.ring.head
    · have hlen := h.ok.ring.caught_up heq
      simp only [stepsLeft, drainStep, hd, SpscQueue.popStep, hdrain, heq, if_true]
      omega
    · have hlt := h.ok.ring.behind heq
      simp only [stepsLeft, drainStep, hd, SpscQueue.popStep, hdrain, heq, if_false]
      omega
  | printing t =>
    simp only [DrainOk, hd] at hdrain
    simp only [stepsLeft, drainStep, hd, SpscQueue.popStep, hdrain]
    omega
  | echoing t =>
    simp only [stepsLeft, drainStep, hd]
    omega
  | storing t =>
    have hpos := h.ok.left_pos (Or.inr (Or.inr hd))
    simp only [DrainOk, hd] at hdrain
    obtain ⟨e, hcon⟩ := hdrain
    simp only [stepsLeft, drainStep, hd, SpscQueue.popStep, hcon, List.length_append, List.length_singleton]
    omega
  | flushing t =>
    simp only [stepsLeft, drainStep, hd]
    omega
  | ending => simp [stepsLeft, drainStep, hd]
  | ended => simp [stepsLeft, drainStep, hd]

/-- A shutdown loses nothing: once the drain thread has ended, every entry that was in the ring when
the shutdown began is in the file and, if it is loud, on stderr, and all of it is flushed. And the
thread does end, within eight steps for each entry it still has, when no more is logged. -/
theorem shutdown_drains (ring : ℕ → LogEntry) (before after : List LogAction)
    (h : LogAction.shutdown ∉ before) :
    let x := run step (init ring) before
    let y := run step x (.shutdown :: after)
    (y.drain = .ended → x.ring.pushed.map LogEntry.fileLine <+: y.file ∧
      x.ring.pushed.flatMap LogEntry.echo <+: y.stderr ∧ y.flushed = y.file.length) ∧
    ∀ k, 8 * (y.ring.pushed.length - y.ring.popped.length) + 5 ≤ k →
      (run step y (List.replicate k .drain)).drain = .ended := by
  intro x y
  have hup : x.Up := by
    have hall : Along step (fun a _ => a ≠ .shutdown) (init ring) before :=
      along_of_forall fun a ha _ heq => h (heq ▸ ha)
    exact hall.invariant Up (fun a _ hx ha => step_up hx ha) ⟨rfl, by simp [init]⟩
  have hclosing : Closing x.ring.pushed y := by
    have hall : Along step (fun _ _ => True) (step .shutdown x) after := along_true
    exact hall.invariant (Closing x.ring.pushed) (fun a _ hx _ => step_closing hx a)
      (hup.closing (run_ok ring before))
  refine ⟨fun hend => ?_, fun k hk => ?_⟩
  · have hdrained := hclosing.drained (Or.inr hend)
    have hfile := hclosing.ok.file
    have hstderr := hclosing.ok.stderr
    simp only [printed, echoed, hend] at hfile hstderr
    have hsub : x.ring.pushed <+: y.ring.pushed.take y.ring.popped.length :=
      List.prefix_take_iff.mpr ⟨hclosing.kept, hdrained⟩
    refine ⟨?_, ?_, hclosing.flushed hend⟩
    · rw [hfile]
      exact hsub.map _
    · rw [hstderr]
      exact hsub.flatMap _
  · have hall : Along step (fun a _ => a = .drain) y (List.replicate k .drain) :=
      along_of_forall fun a ha _ => List.eq_of_mem_replicate ha
    have hdrop (a : LogAction) (z : AsyncLogger) (hz : Closing x.ring.pushed z) (ha : a = .drain) :
        (step a z).stepsLeft ≤ z.stepsLeft - 1 := by
      rw [ha]
      exact hz.stepsLeft_drain
    have hrest := hall.countdown (Closing x.ring.pushed) stepsLeft (fun _ => true)
      (fun a _ hz _ => step_closing hz a) (fun a z hz ha _ => hdrop a z hz ha)
      (fun a z hz ha => (hdrop a z hz ha).trans (Nat.sub_le _ _)) hclosing
      (((stepsLeft_le y).trans hk).trans (by simp))
    exact hrest.1.ok.ended_of_stepsLeft hrest.2

/-- One warning is logged, then the shutdown drains it. -/
def Sample.ring : ℕ → LogEntry := fun _ => .format 0 .debug []

def Sample.warning : List LogAction := List.replicate 4 (.log 7 .warn "MARGIN_LOW".toList)

theorem shutdown_drains_warning :
    let y := run step (run step (init Sample.ring) Sample.warning)
      (.shutdown :: List.replicate 11 .drain)
    y.file = ["7\tWARN \tMARGIN_LOW\n".toList] ∧ y.flushed = y.file.length := by
  refine ⟨by decide +kernel, ?_⟩
  exact ((shutdown_drains Sample.ring Sample.warning (List.replicate 11 .drain)
    (by simp [Sample.warning])).1 (by decide +kernel)).2.2

end Shutdown

end AsyncLogger

end OmsFormal.Oms
