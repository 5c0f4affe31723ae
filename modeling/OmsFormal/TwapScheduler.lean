import OmsFormal.OmsTypes
import OmsFormal.GuardedRun
import Mathlib.Algebra.BigOperators.Group.List.Basic
import Mathlib.Algebra.Order.Ring.Int

/-!
# The TWAP scheduler

A parent order is cut into slices that go out one by one. The size of a slice is drawn
around its fair share and then clamped, so that one lot is left for every slice after
it; the last slice takes what is left. What the generator and the floating point
arithmetic make of a draw is not modelled: any integer may come out.
-/

namespace OmsFormal.Algos
open Sor Oms GuardedRun
set_option autoImplicit false

structure TwapConfig where
  instrId : ℕ
  dir : OrderDir
  strategyId : ℕ
  totalQtyLots : ℤ
  numSlices : ℕ
  limitPriceUsd : ℚ
  reduceOnly : Bool
  orderType : Sor.OrderType

def clampSliceCount (requested : ℕ) (totalLots : ℤ) : ℕ :=
  if requested = 0 ∨ totalLots ≤ 0 then 1 else (min (requested : ℤ) totalLots).toNat

/-- The rounded size of a slice and the interval to the next one, as drawn. -/
structure TwapDraw where
  sliceLots : ℤ
  intervalNs : UInt64

/-- `std::clamp`, which asks for `lo <= hi`. -/
def clampLots (lots lo hi : ℤ) : ℤ :=
  if lots < lo then lo else if hi < lots then hi else lots

structure TwapScheduler where
  cfg : TwapConfig
  remainingLots : ℤ
  totalSlices : ℕ
  slicesRemaining : ℕ
  nextDeadlineNs : UInt64

namespace TwapScheduler

def init (cfg : TwapConfig) : TwapScheduler where
  cfg := cfg
  remainingLots := cfg.totalQtyLots
  totalSlices := clampSliceCount cfg.numSlices cfg.totalQtyLots
  slicesRemaining := clampSliceCount cfg.numSlices cfg.totalQtyLots
  nextDeadlineNs := 0

def start (startNs : UInt64) (s : TwapScheduler) : TwapScheduler := { s with nextDeadlineNs := startNs }

def done (s : TwapScheduler) : Bool := decide (s.remainingLots ≤ 0) || decide (s.slicesRemaining = 0)

/-- One lot for every slice after this one. -/
def minReserve (s : TwapScheduler) : ℤ := (s.slicesRemaining - 1 : ℕ)

def sliceLots (draw : TwapDraw) (s : TwapScheduler) : ℤ :=
  if s.slicesRemaining = 1 then s.remainingLots
  else clampLots draw.sliceLots 1 (s.remainingLots - s.minReserve)

def makeSliceSignal (draw : TwapDraw) (s : TwapScheduler) : StrategyOrderSignal × TwapScheduler :=
  ({ instrId := s.cfg.instrId
     dir := s.cfg.dir
     strategyId := s.cfg.strategyId
     qtyLots := s.sliceLots draw
     limitPriceUsd := s.cfg.limitPriceUsd
     reduceOnly := s.cfg.reduceOnly
     orderType := s.cfg.orderType
     signalNs := 0
     shortVolFactor := 0
     bookImbalance := 0 },
   { s with
     remainingLots := s.remainingLots - s.sliceLots draw
     slicesRemaining := s.slicesRemaining - 1 })

def scheduleNext (nowNs : UInt64) (draw : TwapDraw) (s : TwapScheduler) : TwapScheduler :=
  if s.done then { s with nextDeadlineNs := 0xFFFFFFFFFFFFFFFF }
  else { s with nextDeadlineNs := nowNs + draw.intervalNs }

def tick (nowNs : UInt64) (draw : TwapDraw) (s : TwapScheduler) :
    Option StrategyOrderSignal × TwapScheduler :=
  if s.done = true ∨ nowNs < s.nextDeadlineNs then (none, s)
  else (some (s.makeSliceSignal draw).1, (s.makeSliceSignal draw).2.scheduleNext nowNs draw)

end TwapScheduler

inductive TwapCall
  | start (startNs : UInt64)
  | tick (nowNs : UInt64) (draw : TwapDraw)

/-- The scheduler and the signals it has emitted. -/
structure TwapRun where
  scheduler : TwapScheduler
  emitted : List StrategyOrderSignal

namespace TwapRun

def init (cfg : TwapConfig) : TwapRun := ⟨TwapScheduler.init cfg, []⟩

def step : TwapCall → TwapRun → TwapRun
  | .start startNs, x => { x with scheduler := x.scheduler.start startNs }
  | .tick nowNs draw, x =>
    { scheduler := (x.scheduler.tick nowNs draw).2
      emitted := x.emitted ++ (x.scheduler.tick nowNs draw).1.toList }

def emittedLots (x : TwapRun) : ℤ := (x.emitted.map StrategyOrderSignal.qtyLots).sum

/-- The number of slices an order is cut into: no more than asked for, none of them empty. -/
def sliceCount (cfg : TwapConfig) : ℤ :=
  if cfg.numSlices = 0 then 1 else min (cfg.numSlices : ℤ) cfg.totalQtyLots

/-- Where a tick may clamp, the bounds of the clamp are in order. -/
def Clamps : TwapCall → TwapRun → Prop
  | .start _, _ => True
  | .tick nowNs _, x => x.scheduler.done = false → x.scheduler.nextDeadlineNs ≤ nowNs →
      x.scheduler.slicesRemaining ≠ 1 → 1 ≤ x.scheduler.remainingLots - x.scheduler.minReserve

/-- Slices are positive and add up to the order, which is done after the last of them. -/
structure Exact (cfg : TwapConfig) (x : TwapRun) : Prop where
  positive : ∀ sig ∈ x.emitted, 1 ≤ sig.qtyLots
  remaining : x.scheduler.remainingLots = cfg.totalQtyLots - x.emittedLots
  reserve : (x.scheduler.slicesRemaining : ℤ) ≤ x.scheduler.remainingLots
  done_iff : x.scheduler.done = true ↔ (x.emitted.length : ℤ) = sliceCount cfg
  complete : x.scheduler.done = true → x.emittedLots = cfg.totalQtyLots ∧ x.scheduler.remainingLots = 0
  silent : x.scheduler.done = true → ∀ nowNs draw, x.scheduler.tick nowNs draw = (none, x.scheduler)

/-- What is left is enough for the slices that are left, and gone with the last. -/
structure OnCourse (cfg : TwapConfig) (x : TwapRun) : Prop where
  positive : ∀ sig ∈ x.emitted, 1 ≤ sig.qtyLots
  remaining : x.scheduler.remainingLots = cfg.totalQtyLots - x.emittedLots
  count : (x.emitted.length : ℤ) + x.scheduler.slicesRemaining = sliceCount cfg
  reserve : (x.scheduler.slicesRemaining : ℤ) ≤ x.scheduler.remainingLots
  last : x.scheduler.slicesRemaining = 0 → x.scheduler.remainingLots = 0

section Clamp
variable {lots lo hi : ℤ}

theorem clampLots_mem (lots : ℤ) (h : lo ≤ hi) : lo ≤ clampLots lots lo hi ∧ clampLots lots lo hi ≤ hi := by
  unfold clampLots
  split
  · exact ⟨le_rfl, h⟩
  · split <;> omega

theorem clampSliceCount_eq {cfg : TwapConfig} (h : 1 ≤ cfg.totalQtyLots) :
    (clampSliceCount cfg.numSlices cfg.totalQtyLots : ℤ) = sliceCount cfg := by
  unfold clampSliceCount sliceCount
  by_cases hzero : cfg.numSlices = 0
  · rw [if_pos (Or.inl hzero), if_pos hzero]
    rfl
  · rw [if_neg (by omega), if_neg hzero]
    omega

theorem sliceCount_mem {cfg : TwapConfig} (h : 1 ≤ cfg.totalQtyLots) :
    1 ≤ sliceCount cfg ∧ sliceCount cfg ≤ cfg.totalQtyLots := by
  unfold sliceCount
  split
  · exact ⟨le_rfl, h⟩
  · exact ⟨le_min (by omega) h, min_le_right _ _⟩

end Clamp

section Step
variable {cfg : TwapConfig} {x : TwapRun} {nowNs : UInt64} {draw : TwapDraw}

theorem init_onCourse (h : 1 ≤ cfg.totalQtyLots) : (init cfg).OnCourse cfg := by
  have hcount := clampSliceCount_eq h
  have hmem := sliceCount_mem h
  refine ⟨fun sig hsig => absurd hsig List.not_mem_nil, ?_, ?_, ?_, ?_⟩
  · exact (sub_zero _).symm
  · rw [← hcount]
    exact zero_add _
  · exact hcount.trans_le hmem.2
  · intro hzero
    have hnone : clampSliceCount cfg.numSlices cfg.totalQtyLots = 0 := hzero
    omega

theorem done_iff_slicesRemaining (h : x.OnCourse cfg) :
    x.scheduler.done = true ↔ x.scheduler.slicesRemaining = 0 := by
  have hreserve := h.reserve
  have hlast := h.last
  rw [TwapScheduler.done, Bool.or_eq_true, decide_eq_true_eq, decide_eq_true_eq]
  omega

theorem OnCourse.clamps (h : x.OnCourse cfg) (call : TwapCall) : Clamps call x := by
  cases call with
  | start startNs => exact trivial
  | tick nowNs draw =>
    intro hdone _ _
    have hslices := mt (done_iff_slicesRemaining h).mpr (by rw [hdone]; exact Bool.false_ne_true)
    have hreserve := h.reserve
    rw [TwapScheduler.minReserve]
    omega

/-- A slice takes at least one lot and leaves one for each slice after it, the last one none. -/
theorem sliceLots_mem (h : x.OnCourse cfg) (hslices : x.scheduler.slicesRemaining ≠ 0) (draw : TwapDraw) :
    1 ≤ x.scheduler.sliceLots draw ∧
    ((x.scheduler.slicesRemaining - 1 : ℕ) : ℤ) ≤ x.scheduler.remainingLots - x.scheduler.sliceLots draw ∧
    (x.scheduler.slicesRemaining = 1 → x.scheduler.sliceLots draw = x.scheduler.remainingLots) := by
  have hreserve := h.reserve
  rw [TwapScheduler.sliceLots]
  split
  · omega
  · have hclamp := clampLots_mem draw.sliceLots
      (show 1 ≤ x.scheduler.remainingLots - x.scheduler.minReserve by
        rw [TwapScheduler.minReserve]
        omega)
    rw [TwapScheduler.minReserve] at hclamp ⊢
    omega

theorem emittedLots_append (x : TwapRun) (sig : StrategyOrderSignal) (s : TwapScheduler) :
    emittedLots ⟨s, x.emitted ++ [sig]⟩ = x.emittedLots + sig.qtyLots := by
  simp [emittedLots]

theorem emit_onCourse (h : x.OnCourse cfg) (hslices : x.scheduler.slicesRemaining ≠ 0) (deadlineNs : UInt64) :
    OnCourse cfg
      { scheduler := { (x.scheduler.makeSliceSignal draw).2 with nextDeadlineNs := deadlineNs }
        emitted := x.emitted ++ [(x.scheduler.makeSliceSignal draw).1] } := by
  obtain ⟨hpos, hleft, hall⟩ := sliceLots_mem h hslices draw
  have hremaining := h.remaining
  have hcount := h.count
  refine ⟨fun sig hsig => ?_, ?_, ?_, hleft, fun hzero => ?_⟩
  · rcases List.mem_append.mp hsig with hold | hnew
    · exact h.positive sig hold
    · rw [List.mem_singleton.mp hnew]
      exact hpos
  · rw [emittedLots_append]
    change x.scheduler.remainingLots - _ = cfg.totalQtyLots - (x.emittedLots + x.scheduler.sliceLots draw)
    omega
  · rw [List.length_append, List.length_singleton]
    change ((x.emitted.length + 1 : ℕ) : ℤ) + (x.scheduler.slicesRemaining - 1 : ℕ) = sliceCount cfg
    omega
  · change x.scheduler.slicesRemaining - 1 = 0 at hzero
    change x.scheduler.remainingLots - x.scheduler.sliceLots draw = 0
    rw [hall (by omega), sub_self]

theorem step_onCourse (h : x.OnCourse cfg) (call : TwapCall) : (step call x).OnCourse cfg := by
  cases call with
  | start startNs => exact ⟨h.positive, h.remaining, h.count, h.reserve, h.last⟩
  | tick nowNs draw =>
    rw [step, TwapScheduler.tick]
    by_cases hidle : x.scheduler.done = true ∨ nowNs < x.scheduler.nextDeadlineNs
    · rw [if_pos hidle, Option.toList_none, List.append_nil]
      exact h
    · have hslices := mt (done_iff_slicesRemaining h).mpr (not_or.mp hidle).1
      rw [if_neg hidle, Option.toList_some, TwapScheduler.scheduleNext]
      split
      · exact emit_onCourse h hslices _
      · exact emit_onCourse h hslices _

theorem OnCourse.exact (h : x.OnCourse cfg) : x.Exact cfg := by
  have hdone := done_iff_slicesRemaining h
  have hcount := h.count
  refine ⟨h.positive, h.remaining, h.reserve, ?_, fun hd => ?_, fun hd nowNs draw => ?_⟩
  · rw [hdone]
    omega
  · have hzero := h.last (hdone.mp hd)
    have hremaining := h.remaining
    omega
  · rw [TwapScheduler.tick, if_pos (Or.inl hd)]

end Step

/-- Whatever is drawn and whenever it is ticked, a TWAP of a positive order never clamps between
crossed bounds, and its slices are positive and add up to the order exactly. -/
theorem run_exact {cfg : TwapConfig} (h : 1 ≤ cfg.totalQtyLots) (calls : List TwapCall) :
    Along step Clamps (init cfg) calls ∧ Always step (Exact cfg) (init cfg) calls := by
  have hall : Along step (fun _ _ => True) (init cfg) calls := along_true
  have hstep : ∀ call x, OnCourse cfg x → True → OnCourse cfg (step call x) :=
    fun call _ hx _ => step_onCourse hx call
  constructor
  · exact hall.strengthen (OnCourse cfg) hstep (fun call _ hx _ => hx.clamps call) (init_onCourse h)
  · exact hall.always (OnCourse cfg) hstep (fun _ hx => hx.exact) (init_onCourse h)

/-- Three lots in ten slices: two lots are drawn, and nothing, and far too much. -/
def Sample.threeLots : TwapConfig := ⟨0, .buy, 1, 3, 10, 100, false, .taker⟩

def Sample.threeTicks : List TwapCall := [.tick 0 ⟨2, 10⟩, .tick 10 ⟨-7, 10⟩, .tick 20 ⟨1000, 10⟩]

theorem run_exact_threeLots :
    Always step (Exact Sample.threeLots) (init Sample.threeLots) Sample.threeTicks ∧
    (run step (init Sample.threeLots) Sample.threeTicks).scheduler.done = true :=
  ⟨(run_exact (show 1 ≤ Sample.threeLots.totalQtyLots by decide) Sample.threeTicks).2, by decide⟩

end TwapRun

end OmsFormal.Algos
