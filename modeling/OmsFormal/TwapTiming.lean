import OmsFormal.Rounding
import OmsFormal.TwapScheduler

/-!
# The pace of a TWAP

The interval to the next slice is drawn around the duration of the order divided by its
slices, and counts from the tick that sent the last one. So how far an order can fall
behind depends on the draws and on how often the scheduler is ticked, and on nothing else.
-/

namespace OmsFormal.Algos
open Sor Oms GuardedRun Rounding
set_option autoImplicit false

/-- What sizes and intervals are drawn from. A negative interval would not survive its cast. -/
structure TwapPace where
  durationNs : ℕ
  sizeJitterFrac : ℚ
  intervalJitterFrac : ℚ
  intervalJitter_le : intervalJitterFrac ≤ 1

/-- `drawn` is what the generator returns, if it is asked. -/
def jittered (frac drawn : ℚ) : ℚ := if frac ≤ 0 then 1 else drawn

/-- A value of the uniform distribution around one. -/
def Drawn (frac drawn : ℚ) : Prop := 1 - frac ≤ drawn ∧ drawn ≤ 1 + frac

/-- How far a draw is from one at most. -/
def spread (frac : ℚ) : ℚ := max frac 0

namespace TwapScheduler

def nominalLots (s : TwapScheduler) : ℚ := (s.cfg.totalQtyLots : ℚ) / (s.totalSlices : ℚ)

def nominalIntervalNs (pace : TwapPace) (s : TwapScheduler) : ℚ :=
  (pace.durationNs : ℚ) / (s.totalSlices : ℚ)

def intervalNs (pace : TwapPace) (drawn : ℚ) (s : TwapScheduler) : ℕ :=
  (truncate (s.nominalIntervalNs pace * jittered pace.intervalJitterFrac drawn)).toNat

/-- What a tick draws for the slice and for the interval after it. -/
def draw (pace : TwapPace) (sizeDrawn intervalDrawn : ℚ) (s : TwapScheduler) : TwapDraw where
  sliceLots := roundHalfAway (s.nominalLots * jittered pace.sizeJitterFrac sizeDrawn)
  intervalNs := UInt64.ofNat (s.intervalNs pace intervalDrawn)

/-- The shortest interval that can be drawn. -/
def shortestNs (pace : TwapPace) (s : TwapScheduler) : ℕ :=
  (truncate (s.nominalIntervalNs pace * (1 - spread pace.intervalJitterFrac))).toNat

/-- The longest interval that can be drawn. -/
def longestNs (pace : TwapPace) (s : TwapScheduler) : ℕ :=
  (truncate (s.nominalIntervalNs pace * (1 + spread pace.intervalJitterFrac))).toNat

end TwapScheduler

structure PacedTick where
  nowNs : ℕ
  sizeDrawn : ℚ
  intervalDrawn : ℚ

/-- A scheduler with the times of the ticks that sent a slice, and of the last tick. -/
structure PacedRun where
  twap : TwapRun
  times : List ℕ
  lastNs : ℕ

namespace PacedRun

def start (cfg : TwapConfig) (startNs : ℕ) : PacedRun where
  twap := TwapRun.step (.start (UInt64.ofNat startNs)) (TwapRun.init cfg)
  times := []
  lastNs := startNs

def step (pace : TwapPace) (t : PacedTick) (x : PacedRun) : PacedRun :=
  let draw := x.twap.scheduler.draw pace t.sizeDrawn t.intervalDrawn
  { twap := TwapRun.step (.tick (UInt64.ofNat t.nowNs) draw) x.twap
    times := x.times ++
      if (x.twap.scheduler.tick (UInt64.ofNat t.nowNs) draw).1.isSome then [t.nowNs] else []
    lastNs := t.nowNs }

/-- A tick on a clock that does not go back, at most `gapNs` after the one before. -/
structure OnTick (pace : TwapPace) (gapNs : ℕ) (t : PacedTick) (x : PacedRun) : Prop where
  later : x.lastNs ≤ t.nowNs
  soon : t.nowNs ≤ x.lastNs + gapNs
  size : Drawn pace.sizeJitterFrac t.sizeDrawn
  interval : Drawn pace.intervalJitterFrac t.intervalDrawn
  clock : t.nowNs + x.twap.scheduler.longestNs pace < 2 ^ 64

end PacedRun

section Draws
variable {pace : TwapPace} {s : TwapScheduler} {frac drawn : ℚ}

theorem spread_nonneg (frac : ℚ) : 0 ≤ spread frac := le_max_right _ _

theorem jittered_mem (h : Drawn frac drawn) :
    1 - spread frac ≤ jittered frac drawn ∧ jittered frac drawn ≤ 1 + spread frac := by
  unfold jittered spread
  split
  · rename_i hnone
    rw [max_eq_right hnone]
    norm_num
  · rename_i hsome
    rw [max_eq_left (not_le.mp hsome).le]
    exact h

theorem TwapScheduler.nominalIntervalNs_nonneg (pace : TwapPace) (s : TwapScheduler) :
    0 ≤ s.nominalIntervalNs pace :=
  div_nonneg (Nat.cast_nonneg _) (Nat.cast_nonneg _)

theorem TwapScheduler.intervalNs_mem (h : Drawn pace.intervalJitterFrac drawn) :
    s.shortestNs pace ≤ s.intervalNs pace drawn ∧ s.intervalNs pace drawn ≤ s.longestNs pace := by
  have hnominal := s.nominalIntervalNs_nonneg pace
  obtain ⟨hlow, hhigh⟩ := jittered_mem h
  exact ⟨Int.toNat_le_toNat (truncate_mono (mul_le_mul_of_nonneg_left hlow hnominal)),
    Int.toNat_le_toNat (truncate_mono (mul_le_mul_of_nonneg_left hhigh hnominal))⟩

end Draws

namespace PacedRun
variable {cfg : TwapConfig} {pace : TwapPace} {startNs gapNs : ℕ} {t : PacedTick} {x : PacedRun}

/-- The schedule after `k` slices: when the next one is due, and when those before it went out. -/
structure Scheduled (pace : TwapPace) (startNs gapNs : ℕ) (x : PacedRun) : Prop where
  earliest : startNs + x.times.length * x.twap.scheduler.shortestNs pace ≤
    x.twap.scheduler.nextDeadlineNs.toNat
  latest : x.twap.scheduler.nextDeadlineNs.toNat ≤
    startNs + x.times.length * (x.twap.scheduler.longestNs pace + gapNs)
  ahead : x.lastNs ≤ x.twap.scheduler.nextDeadlineNs.toNat
  apart : ∀ t ∈ x.times, t + x.twap.scheduler.shortestNs pace ≤ x.twap.scheduler.nextDeadlineNs.toNat

/-- The volume after `k` slices: `k` draws of the nominal size, or all but one lot for each slice
that is left. -/
structure Sized (cfg : TwapConfig) (pace : TwapPace) (x : PacedRun) : Prop where
  most : (x.twap.emittedLots : ℚ) ≤
    x.twap.emitted.length * (x.twap.scheduler.nominalLots * (1 + spread pace.sizeJitterFrac) + 1 / 2)
  least : (x.twap.emitted.length : ℚ) *
      (x.twap.scheduler.nominalLots * (1 - spread pace.sizeJitterFrac) - 1 / 2) ≤ x.twap.emittedLots ∨
    cfg.totalQtyLots - x.twap.scheduler.slicesRemaining ≤ x.twap.emittedLots

structure Paced (cfg : TwapConfig) (pace : TwapPace) (startNs gapNs : ℕ) (x : PacedRun) : Prop where
  course : x.twap.OnCourse cfg
  setup : x.twap.scheduler.cfg = cfg ∧
    x.twap.scheduler.totalSlices = clampSliceCount cfg.numSlices cfg.totalQtyLots
  count : x.times.length = x.twap.emitted.length
  scheduled : x.twap.scheduler.done = false → Scheduled pace startNs gapNs x
  sized : x.twap.scheduler.done = false → Sized cfg pace x
  times : ∀ j t, x.times[j]? = some t → startNs + j * x.twap.scheduler.shortestNs pace ≤ t ∧
    t ≤ startNs + j * (x.twap.scheduler.longestNs pace + gapNs) + gapNs
  spaced : x.times.Pairwise fun t t' => t + x.twap.scheduler.shortestNs pace ≤ t'

theorem start_paced (h : 1 ≤ cfg.totalQtyLots) (hclock : startNs < 2 ^ 64) :
    (start cfg startNs).Paced cfg pace startNs gapNs := by
  have hdeadline : (start cfg startNs).twap.scheduler.nextDeadlineNs.toNat = startNs :=
    UInt64.toNat_ofNat_of_lt' hclock
  refine ⟨TwapRun.step_onCourse (TwapRun.init_onCourse h) (.start (UInt64.ofNat startNs)), ⟨rfl, rfl⟩,
    rfl, fun _ => ?_, fun _ => ?_, fun j t ht => (by cases ht), List.Pairwise.nil⟩
  · refine ⟨?_, ?_, hdeadline.ge, fun t ht => (by cases ht)⟩
    · rw [hdeadline]
      simp [start]
    · rw [hdeadline]
      exact Nat.le_add_right _ _
  · refine ⟨?_, Or.inl ?_⟩
    · simp [start, TwapRun.step, TwapRun.init, TwapRun.emittedLots]
    · simp [start, TwapRun.step, TwapRun.init, TwapRun.emittedLots]

section Tick
variable {draw : TwapDraw} {s : TwapScheduler} {nowNs : UInt64}

theorem scheduleNext_of_done (h : s.done = true) : (s.scheduleNext nowNs draw).done = true := by
  rw [TwapScheduler.scheduleNext, if_pos h]
  exact h

theorem scheduleNext_of_not_done (h : s.done = false) :
    s.scheduleNext nowNs draw = { s with nextDeadlineNs := nowNs + draw.intervalNs } :=
  if_neg (by rw [h]; exact Bool.false_ne_true)

theorem scheduleNext_setup (s : TwapScheduler) (nowNs : UInt64) (draw : TwapDraw) :
    (s.scheduleNext nowNs draw).cfg = s.cfg ∧ (s.scheduleNext nowNs draw).totalSlices = s.totalSlices ∧
      (s.scheduleNext nowNs draw).slicesRemaining = s.slicesRemaining := by
  unfold TwapScheduler.scheduleNext
  split
  · exact ⟨rfl, rfl, rfl⟩
  · exact ⟨rfl, rfl, rfl⟩

theorem step_idle
    (h : x.twap.scheduler.done = true ∨ UInt64.ofNat t.nowNs < x.twap.scheduler.nextDeadlineNs) :
    step pace t x = { x with lastNs := t.nowNs } := by
  simp [step, TwapRun.step, TwapScheduler.tick, if_pos h]

theorem step_emits
    (h : ¬ (x.twap.scheduler.done = true ∨ UInt64.ofNat t.nowNs < x.twap.scheduler.nextDeadlineNs)) :
    let draw := x.twap.scheduler.draw pace t.sizeDrawn t.intervalDrawn
    let sent := x.twap.scheduler.makeSliceSignal draw
    step pace t x =
      { twap := ⟨sent.2.scheduleNext (UInt64.ofNat t.nowNs) draw, x.twap.emitted ++ [sent.1]⟩
        times := x.times ++ [t.nowNs]
        lastNs := t.nowNs } := by
  simp [step, TwapRun.step, TwapScheduler.tick, if_neg h]

end Tick

section Steps

/-- The slice that is sent is on schedule, and so is the next one. -/
theorem Scheduled.emit (h : Scheduled pace startNs gapNs x) (ht : OnTick pace gapNs t x)
    (hdue : x.twap.scheduler.nextDeadlineNs.toNat ≤ t.nowNs) {x' : PacedRun}
    (htimes : x'.times = x.times ++ [t.nowNs]) (hlast : x'.lastNs = t.nowNs)
    (hshort : x'.twap.scheduler.shortestNs pace = x.twap.scheduler.shortestNs pace)
    (hlong : x'.twap.scheduler.longestNs pace = x.twap.scheduler.longestNs pace)
    (hdeadline : x'.twap.scheduler.nextDeadlineNs.toNat =
      t.nowNs + x.twap.scheduler.intervalNs pace t.intervalDrawn) : Scheduled pace startNs gapNs x' := by
  obtain ⟨hlo, hhi⟩ := x.twap.scheduler.intervalNs_mem ht.interval
  have hearliest := h.earliest
  have hlatest := h.latest
  have hahead := h.ahead
  have hsoon := ht.soon
  refine ⟨?_, ?_, ?_, fun t' ht' => ?_⟩
  · rw [htimes, hshort, hdeadline, List.length_append, List.length_singleton, Nat.add_mul, Nat.one_mul]
    omega
  · rw [htimes, hlong, hdeadline, List.length_append, List.length_singleton, Nat.add_mul, Nat.one_mul]
    omega
  · rw [hlast, hdeadline]
    exact Nat.le_add_right _ _
  · rw [hshort, hdeadline]
    rw [htimes] at ht'
    rcases List.mem_append.mp ht' with hold | hnew
    · have hapart := h.apart t' hold
      omega
    · rw [List.mem_singleton.mp hnew]
      omega

theorem nominalLots_ge_one (h : 1 ≤ cfg.totalQtyLots) (hx : Paced cfg pace startNs gapNs x) :
    1 ≤ x.twap.scheduler.nominalLots := by
  have hcount := TwapRun.clampSliceCount_eq h
  have hmem := TwapRun.sliceCount_mem h
  rw [TwapScheduler.nominalLots, hx.setup.1, hx.setup.2]
  have hpos : (0 : ℚ) < (clampSliceCount cfg.numSlices cfg.totalQtyLots : ℕ) := by
    have hone : 1 ≤ clampSliceCount cfg.numSlices cfg.totalQtyLots := by omega
    exact_mod_cast hone
  rw [one_le_div hpos]
  exact_mod_cast hcount.trans_le hmem.2

/-- A slice that is not the last is what was drawn, cut to one lot from below and to what the slices
after it leave from above. -/
theorem sliceLots_drawn (hx : x.twap.OnCourse cfg) (draw : TwapDraw)
    (hmore : 2 ≤ x.twap.scheduler.slicesRemaining) :
    x.twap.scheduler.sliceLots draw ≤ max draw.sliceLots 1 ∧
    (draw.sliceLots ≤ x.twap.scheduler.sliceLots draw ∨
      x.twap.scheduler.sliceLots draw = x.twap.scheduler.remainingLots - x.twap.scheduler.minReserve) := by
  have hreserve := hx.reserve
  rw [TwapScheduler.sliceLots, if_neg (by omega), TwapScheduler.minReserve, clampLots]
  split
  · exact ⟨le_max_right _ _, Or.inl (by omega)⟩
  · split
    · exact ⟨by omega, Or.inr rfl⟩
    · exact ⟨le_max_left _ _, Or.inl le_rfl⟩

theorem Sized.emit (h : Sized cfg pace x) (hx : Paced cfg pace startNs gapNs x)
    (hT : 1 ≤ cfg.totalQtyLots) (hsize : Drawn pace.sizeJitterFrac t.sizeDrawn)
    (hmore : 2 ≤ x.twap.scheduler.slicesRemaining) {x' : PacedRun}
    (hnominal : x'.twap.scheduler.nominalLots = x.twap.scheduler.nominalLots)
    (hlength : x'.twap.emitted.length = x.twap.emitted.length + 1)
    (hlots : x'.twap.emittedLots = x.twap.emittedLots +
      x.twap.scheduler.sliceLots (x.twap.scheduler.draw pace t.sizeDrawn t.intervalDrawn))
    (hslices : x'.twap.scheduler.slicesRemaining = x.twap.scheduler.slicesRemaining - 1) :
    Sized cfg pace x' := by
  have hone := nominalLots_ge_one hT hx
  obtain ⟨hhigh, hlow⟩ := sliceLots_drawn hx.course
    (x.twap.scheduler.draw pace t.sizeDrawn t.intervalDrawn) hmore
  obtain ⟨hpositive, -, -⟩ := TwapRun.sliceLots_mem hx.course (by omega)
    (x.twap.scheduler.draw pace t.sizeDrawn t.intervalDrawn)
  have hremaining := hx.course.remaining
  obtain ⟨hmin, hmax⟩ := jittered_mem hsize
  generalize hdrawn : x.twap.scheduler.nominalLots * jittered pace.sizeJitterFrac t.sizeDrawn = drawn at *
  have hround := roundHalfAway_near drawn
  have hdraw : (x.twap.scheduler.draw pace t.sizeDrawn t.intervalDrawn).sliceLots = roundHalfAway drawn := by
    rw [← hdrawn]
    rfl
  rw [hdraw] at hhigh hlow
  generalize x.twap.scheduler.sliceLots (x.twap.scheduler.draw pace t.sizeDrawn t.intervalDrawn) = lots at *
  have hspread := spread_nonneg pace.sizeJitterFrac
  have hupper : drawn ≤ x.twap.scheduler.nominalLots * (1 + spread pace.sizeJitterFrac) := by
    rw [← hdrawn]
    exact mul_le_mul_of_nonneg_left hmax (by linarith)
  have hlower : x.twap.scheduler.nominalLots * (1 - spread pace.sizeJitterFrac) ≤ drawn := by
    rw [← hdrawn]
    exact mul_le_mul_of_nonneg_left hmin (by linarith)
  have hslice : (lots : ℚ) ≤
      x.twap.scheduler.nominalLots * (1 + spread pace.sizeJitterFrac) + 1 / 2 := by
    have hcast : (lots : ℚ) ≤ max (roundHalfAway drawn : ℚ) 1 := by exact_mod_cast hhigh
    refine hcast.trans (max_le (by linarith) ?_)
    have hnonneg := mul_nonneg (zero_le_one.trans hone) hspread
    linarith
  constructor
  · rw [hnominal, hlength, hlots]
    push_cast
    have hmost := h.most
    linarith
  · rw [hnominal, hlength, hlots, hslices]
    rcases hlow with hlow | hall
    · rcases h.least with hleast | hleast
      · have hcast : (roundHalfAway drawn : ℚ) ≤ lots := by exact_mod_cast hlow
        refine Or.inl ?_
        push_cast
        linarith
      · exact Or.inr (by omega)
    · rw [TwapScheduler.minReserve] at hall
      exact Or.inr (by omega)

theorem shortestNs_congr (pace : TwapPace) {s s' : TwapScheduler} (h : s'.totalSlices = s.totalSlices) :
    s'.shortestNs pace = s.shortestNs pace := by
  rw [TwapScheduler.shortestNs, TwapScheduler.nominalIntervalNs, h]
  rfl

theorem longestNs_congr (pace : TwapPace) {s s' : TwapScheduler} (h : s'.totalSlices = s.totalSlices) :
    s'.longestNs pace = s.longestNs pace := by
  rw [TwapScheduler.longestNs, TwapScheduler.nominalIntervalNs, h]
  rfl

theorem nominalLots_congr {s s' : TwapScheduler} (hcfg : s'.cfg = s.cfg)
    (h : s'.totalSlices = s.totalSlices) : s'.nominalLots = s.nominalLots := by
  rw [TwapScheduler.nominalLots, TwapScheduler.nominalLots, hcfg, h]

theorem idle_paced (hx : Paced cfg pace startNs gapNs x)
    (hidle : x.twap.scheduler.done = false → t.nowNs ≤ x.twap.scheduler.nextDeadlineNs.toNat) :
    Paced cfg pace startNs gapNs { x with lastNs := t.nowNs } where
  course := hx.course
  setup := hx.setup
  count := hx.count
  scheduled hdone := ⟨(hx.scheduled hdone).earliest, (hx.scheduled hdone).latest, hidle hdone,
    (hx.scheduled hdone).apart⟩
  sized hdone := ⟨(hx.sized hdone).most, (hx.sized hdone).least⟩
  times := hx.times
  spaced := hx.spaced

theorem emit_paced (hx : Paced cfg pace startNs gapNs x) (hT : 1 ≤ cfg.totalQtyLots)
    (ht : OnTick pace gapNs t x) (hdone : x.twap.scheduler.done = false)
    (hdue : x.twap.scheduler.nextDeadlineNs.toNat ≤ t.nowNs) {x' : PacedRun} (hstep : step pace t x = x')
    (hemits : ¬ (x.twap.scheduler.done = true ∨
      UInt64.ofNat t.nowNs < x.twap.scheduler.nextDeadlineNs)) : Paced cfg pace startNs gapNs x' := by
  have hcourse : x'.twap.OnCourse cfg := by
    rw [← hstep]
    exact TwapRun.step_onCourse hx.course (.tick _ _)
  have hscheduled := hx.scheduled hdone
  obtain ⟨hcfg, hslices, hleft⟩ := scheduleNext_setup
    (x.twap.scheduler.makeSliceSignal (x.twap.scheduler.draw pace t.sizeDrawn t.intervalDrawn)).2
    (UInt64.ofNat t.nowNs) (x.twap.scheduler.draw pace t.sizeDrawn t.intervalDrawn)
  rw [step_emits hemits] at hstep
  subst hstep
  have hcfg' : _ = x.twap.scheduler.cfg := hcfg
  have hslices' : _ = x.twap.scheduler.totalSlices := hslices
  have hshort := shortestNs_congr pace hslices'
  have hlong := longestNs_congr pace hslices'
  refine ⟨hcourse, ⟨hcfg'.trans hx.setup.1, hslices'.trans hx.setup.2⟩, ?_, fun hnext => ?_, fun hnext => ?_,
    fun j t' ht' => ?_, ?_⟩
  · simp only [List.length_append, List.length_singleton, hx.count]
  · have hmore : (x.twap.scheduler.makeSliceSignal
        (x.twap.scheduler.draw pace t.sizeDrawn t.intervalDrawn)).2.done = false := by
      by_contra hlast
      rw [scheduleNext_of_done (Bool.not_eq_false _ ▸ hlast)] at hnext
      exact absurd hnext Bool.false_ne_true.symm
    refine hscheduled.emit ht hdue rfl rfl hshort hlong ?_
    have hclock := ht.clock
    have hlongest := (x.twap.scheduler.intervalNs_mem ht.interval).2
    rw [scheduleNext_of_not_done hmore]
    change (UInt64.ofNat t.nowNs + UInt64.ofNat (x.twap.scheduler.intervalNs pace t.intervalDrawn)).toNat = _
    rw [UInt64.toNat_add, UInt64.toNat_ofNat_of_lt' (by change t.nowNs < 2 ^ 64; omega),
      UInt64.toNat_ofNat_of_lt' (by change x.twap.scheduler.intervalNs pace t.intervalDrawn < 2 ^ 64; omega),
      Nat.mod_eq_of_lt (by omega)]
  · have hpositive := mt (TwapRun.done_iff_slicesRemaining hcourse).mpr
      (by rw [hnext]; exact Bool.false_ne_true)
    have hleft' : _ = x.twap.scheduler.slicesRemaining - 1 := hleft
    refine (hx.sized hdone).emit hx hT ht.size (by dsimp only at hpositive; omega)
      (nominalLots_congr hcfg' hslices') ?_ ?_ hleft'
    · rw [List.length_append, List.length_singleton]
    · rw [TwapRun.emittedLots_append]
      rfl
  · rw [hshort, hlong]
    rw [List.getElem?_append] at ht'
    split at ht'
    · exact hx.times j t' ht'
    · rename_i hlast
      obtain ⟨hlt, rfl⟩ := List.getElem?_eq_some_iff.mp ht'
      rw [List.length_singleton] at hlt
      obtain rfl : j = x.times.length := by omega
      rw [List.getElem_singleton]
      have hearliest := hscheduled.earliest
      have hlatest := hscheduled.latest
      have hahead := hscheduled.ahead
      have hsoon := ht.soon
      constructor <;> omega
  · rw [hshort]
    refine List.pairwise_append.mpr ⟨hx.spaced, List.pairwise_singleton _ _, fun t' ht' t'' ht'' => ?_⟩
    rw [List.mem_singleton.mp ht'']
    exact (hscheduled.apart t' ht').trans hdue

theorem step_paced (hx : Paced cfg pace startNs gapNs x) (hT : 1 ≤ cfg.totalQtyLots)
    (ht : OnTick pace gapNs t x) : Paced cfg pace startNs gapNs (step pace t x) := by
  have hclock := ht.clock
  have hnow : (UInt64.ofNat t.nowNs).toNat = t.nowNs :=
    UInt64.toNat_ofNat_of_lt' (by change t.nowNs < 2 ^ 64; omega)
  by_cases hidle : x.twap.scheduler.done = true ∨ UInt64.ofNat t.nowNs < x.twap.scheduler.nextDeadlineNs
  · rw [step_idle hidle]
    refine idle_paced hx fun hdone => ?_
    rcases hidle with hall | hearly
    · rw [hdone] at hall
      exact absurd hall Bool.false_ne_true
    · rw [UInt64.lt_iff_toNat_lt, hnow] at hearly
      exact hearly.le
  · obtain ⟨hdone, hdue⟩ := not_or.mp hidle
    rw [UInt64.not_lt, UInt64.le_iff_toNat_le, hnow] at hdue
    exact emit_paced hx hT ht (Bool.not_eq_true _ ▸ hdone) hdue rfl hidle

end Steps

/-- A TWAP keeps its pace, whatever is drawn: no slice is early, none is later than the longest
intervals and the gaps between the ticks explain, and until the last slice the volume is that of as
many nominal sizes, up to the jitter and half a lot each. Once the ticks have gone past the latest
time of a slice, it has been sent. -/
theorem run_onSchedule {ticks : List PacedTick} (hT : 1 ≤ cfg.totalQtyLots) (hclock : startNs < 2 ^ 64)
    (h : Along (step pace) (OnTick pace gapNs) (start cfg startNs) ticks) :
    let x := run (step pace) (start cfg startNs) ticks
    let shortest := x.twap.scheduler.shortestNs pace
    let longest := x.twap.scheduler.longestNs pace
    (∀ j t, x.times[j]? = some t →
      startNs + j * shortest ≤ t ∧ t ≤ startNs + j * (longest + gapNs) + gapNs) ∧
    x.times.Pairwise (fun t t' => t + shortest ≤ t') ∧
    (∀ j : ℕ, (j : ℤ) < TwapRun.sliceCount cfg → startNs + j * (longest + gapNs) < x.lastNs →
      j < x.times.length) ∧
    (x.twap.scheduler.done = false → Sized cfg pace x) ∧
    (longest : ℚ) * TwapRun.sliceCount cfg ≤ pace.durationNs * (1 + spread pace.intervalJitterFrac) := by
  intro x shortest longest
  have hx : Paced cfg pace startNs gapNs x := h.invariant (Paced cfg pace startNs gapNs)
    (fun t x hx ht => step_paced hx hT ht) (start_paced hT hclock)
  refine ⟨hx.times, hx.spaced, fun j hj hlate => ?_, hx.sized, ?_⟩
  · by_contra hfew
    have hcount := hx.course.count
    have hlength := hx.count
    have hdone : x.twap.scheduler.done = false := by
      rw [← Bool.not_eq_true, TwapRun.done_iff_slicesRemaining hx.course]
      omega
    have hlatest : _ ≤ startNs + x.times.length * (longest + gapNs) := (hx.scheduled hdone).latest
    have hahead := (hx.scheduled hdone).ahead
    have hmono : x.times.length * (longest + gapNs) ≤ j * (longest + gapNs) :=
      Nat.mul_le_mul_right _ (not_lt.mp hfew)
    omega
  · have hcount := TwapRun.clampSliceCount_eq hT
    have hpositive := (TwapRun.sliceCount_mem hT).1
    have hslices : (x.twap.scheduler.totalSlices : ℚ) = TwapRun.sliceCount cfg := by
      rw [hx.setup.2]
      exact_mod_cast hcount
    have hzero : (0 : ℚ) < TwapRun.sliceCount cfg := by exact_mod_cast hpositive
    have hnonneg : 0 ≤ x.twap.scheduler.nominalIntervalNs pace * (1 + spread pace.intervalJitterFrac) :=
      mul_nonneg (x.twap.scheduler.nominalIntervalNs_nonneg pace)
        (by linarith [spread_nonneg pace.intervalJitterFrac])
    have hle : (longest : ℚ) ≤
        x.twap.scheduler.nominalIntervalNs pace * (1 + spread pace.intervalJitterFrac) := by
      have hcast : ((longest : ℤ) : ℚ) =
          (truncate (x.twap.scheduler.nominalIntervalNs pace * (1 + spread pace.intervalJitterFrac)) : ℚ) :=
        congrArg Int.cast (Int.toNat_of_nonneg (truncate_nonneg hnonneg))
      calc (longest : ℚ) = ((longest : ℤ) : ℚ) := by push_cast; rfl
        _ = _ := hcast
        _ ≤ _ := truncate_le hnonneg
    refine (mul_le_mul_of_nonneg_right hle hzero.le).trans_eq ?_
    rw [TwapScheduler.nominalIntervalNs, hslices]
    field_simp

/-- Three slices over nine microseconds, none of them drawn, and ticks every two microseconds. -/
def Sample.threePace : TwapPace := ⟨9000, 0, 0, by norm_num⟩

def Sample.pacedTicks : List PacedTick :=
  [⟨0, 1, 1⟩, ⟨2000, 1, 1⟩, ⟨4000, 1, 1⟩, ⟨6000, 1, 1⟩, ⟨8000, 1, 1⟩]

theorem run_onSchedule_threeSlices :
    (run (step Sample.threePace) (start TwapRun.Sample.threeLots 0) Sample.pacedTicks).times =
      [0, 4000, 8000] ∧
    (run (step Sample.threePace) (start TwapRun.Sample.threeLots 0) Sample.pacedTicks).times.Pairwise
      (fun t t' => t + (run (step Sample.threePace) (start TwapRun.Sample.threeLots 0)
        Sample.pacedTicks).twap.scheduler.shortestNs Sample.threePace ≤ t') := by
  have hdrawn : Drawn 0 1 := by norm_num [Drawn]
  have hticks : Along (step Sample.threePace) (OnTick Sample.threePace 2000)
      (start TwapRun.Sample.threeLots 0) Sample.pacedTicks := by
    refine ⟨⟨?_, ?_, hdrawn, hdrawn, ?_⟩, ⟨?_, ?_, hdrawn, hdrawn, ?_⟩, ⟨?_, ?_, hdrawn, hdrawn, ?_⟩,
      ⟨?_, ?_, hdrawn, hdrawn, ?_⟩, ⟨?_, ?_, hdrawn, hdrawn, ?_⟩, trivial⟩ <;> decide +kernel
  exact ⟨by decide +kernel, (run_onSchedule (by decide) (by decide) hticks).2.1⟩

end PacedRun

end OmsFormal.Algos
