import OmsFormal.Positions
import OmsFormal.GuardedRun
import Mathlib.Tactic.Linarith

/-!
# Local and REST margin estimates

The monitor is meant to offer the risk engine the lower of two estimates: one
replayed from local events, one reported by the exchange. It stores a single
locked margin, which a REST update overwrites and local events go on changing, so
each estimate can be undercut. `Covered` is what each call has to meet for the
published figure to stay below both.
-/

namespace OmsFormal.Oms
open GuardedRun
set_option autoImplicit false

/-- A mark price is read against the position of its instrument. -/
inductive MarginCall where
  | onFill (fillLots : ℤ) (fillPriceUsd lotSize : ℚ)
  | onRelease (lots : ℤ) (priceUsd lotSize : ℚ)
  | onMarkPrice (p : InstrumentPosition) (markUsd lotSize : ℚ)
  | onRestUpdate (equityUsd usedMarginUsd : ℚ) (tsNs : ℕ)

/-- The monitor with the margin state it publishes. -/
structure MarginBook where
  monitor : MarginMonitor
  margin : MarginState

namespace MarginBook

def init (cfg : MarginConfig) : MarginBook := ⟨MarginMonitor.init cfg, MarginState.update cfg.equityUsd 0⟩

def publish (m : MarginMonitor) : MarginBook := ⟨m, m.recomputeAvailable⟩

def call (cfg : MarginConfig) : MarginCall → MarginBook → MarginBook
  | .onFill lots price lot, b => publish (b.monitor.onFill cfg lots price lot)
  | .onRelease lots price lot, b => publish (b.monitor.onRelease cfg lots price lot)
  | .onMarkPrice p mark lot, b =>
    match b.monitor.onMarkPrice p mark lot with
    | none => b
    | some m => publish m
  | .onRestUpdate equity used ts, b => publish (b.monitor.onRestUpdate equity used ts)

def availableConservative (b : MarginBook) : ℚ := b.margin.marginAvailable

end MarginBook

/-- The published book, the book that has seen the local events only, and the last REST report. -/
structure Estimates where
  book : MarginBook
  replay : MarginBook
  rest : Option (ℚ × ℚ)

namespace Estimates

def init (cfg : MarginConfig) : Estimates := ⟨MarginBook.init cfg, MarginBook.init cfg, none⟩

def step (cfg : MarginConfig) (c : MarginCall) (x : Estimates) : Estimates :=
  match c with
  | .onRestUpdate equity used _ => { x with book := x.book.call cfg c, rest := some (equity, used) }
  | _ => { x with book := x.book.call cfg c, replay := x.replay.call cfg c }

/-- The published margin is at most the local estimate and at most the REST estimate. -/
def Conservative (x : Estimates) : Prop :=
  x.book.availableConservative ≤ x.replay.availableConservative ∧
  ∀ equity used, x.rest = some (equity, used) → x.book.availableConservative ≤ equity - used

/-- Unrealised losses count against the margin, profits do not. -/
def loss (upnl : ℚ) : ℚ := if upnl < 0 then upnl else 0

/-- What a release of `delta` leaves locked. -/
def released (delta locked : ℚ) : ℚ := if locked > delta then locked - delta else 0

/-- The condition on one call. A REST report must not promise more than the local estimate; after
one, nothing may take the locked margin below the reported one (less a loss), and a release must
take as much from the replayed margin as the reported equity needs. -/
def Covered (cfg : MarginConfig) (c : MarginCall) (x : Estimates) : Prop :=
  match c with
  | .onRestUpdate equity used _ => equity - used ≤ cfg.equityUsd - x.replay.monitor.lockedMargin
  | .onFill lots price lot => ∀ equity used, x.rest = some (equity, used) →
      lots * lot * price * cfg.initialMarginRate < 0 →
      used + loss x.book.monitor.upnl ≤
        x.book.monitor.lockedMargin + lots * lot * price * cfg.initialMarginRate
  | .onRelease lots price lot => ∀ equity used, x.rest = some (equity, used) →
      let delta := lots * lot * price * cfg.initialMarginRate
      used + loss x.book.monitor.upnl ≤ released delta x.book.monitor.lockedMargin ∧
      equity - cfg.equityUsd ≤
        released delta x.book.monitor.lockedMargin - released delta x.replay.monitor.lockedMargin
  | .onMarkPrice p mark lot => ∀ equity used, x.rest = some (equity, used) →
      p.netQtyLots ≠ 0 → 0 < p.avgEntryPrice →
      used + loss ((mark - p.avgEntryPrice) * (p.netQtyLots * lot)) ≤ x.book.monitor.lockedMargin

/-- How the two books are related. -/
structure Tracked (cfg : MarginConfig) (x : Estimates) : Prop where
  book : x.book.margin = x.book.monitor.recomputeAvailable
  replay : x.replay.margin = x.replay.monitor.recomputeAvailable
  startup : x.replay.monitor.localEquity = cfg.equityUsd
  upnl : x.book.monitor.upnl = x.replay.monitor.upnl
  unreported : x.rest = none → x.book.monitor = x.replay.monitor
  reported : ∀ equity used, x.rest = some (equity, used) → x.book.monitor.localEquity = equity

variable {cfg : MarginConfig} {x : Estimates}

theorem tracked_init (cfg : MarginConfig) : Tracked cfg (init cfg) := by
  refine ⟨?_, ?_, rfl, rfl, fun _ => rfl, fun _ _ h => ?_⟩
  · simp [init, MarginBook.init, MarginMonitor.init, MarginMonitor.recomputeAvailable]
  · simp [init, MarginBook.init, MarginMonitor.init, MarginMonitor.recomputeAvailable]
  · cases h

theorem step_tracked (h : Tracked cfg x) (c : MarginCall) : Tracked cfg (step cfg c x) := by
  obtain ⟨hbook, hreplay, hstart, hupnl, hnone, hsome⟩ := h
  cases c with
  | onFill lots price lot =>
    refine ⟨rfl, rfl, hstart, hupnl, fun hr => ?_, hsome⟩
    simp only [step, MarginBook.call, MarginBook.publish, hnone hr]
  | onRelease lots price lot =>
    refine ⟨rfl, rfl, hstart, hupnl, fun hr => ?_, hsome⟩
    simp only [step, MarginBook.call, MarginBook.publish, hnone hr]
  | onMarkPrice p mark lot =>
    by_cases hflat : p.netQtyLots = 0 ∨ p.avgEntryPrice ≤ 0
    · simp only [step, MarginBook.call, MarginMonitor.onMarkPrice, if_pos hflat]
      exact ⟨hbook, hreplay, hstart, hupnl, hnone, hsome⟩
    · simp only [step, MarginBook.call, MarginMonitor.onMarkPrice, if_neg hflat]
      refine ⟨rfl, rfl, hstart, rfl, fun hr => ?_, hsome⟩
      simp only [MarginBook.publish, hnone hr]
  | onRestUpdate equity used ts =>
    refine ⟨rfl, hreplay, hstart, hupnl, fun hr => ?_, fun e u he => ?_⟩
    · cases hr
    · cases he
      rfl

/-- The estimates compared in terms of equity and locked margin: the losses cancel. -/
theorem conservative_iff (h : Tracked cfg x) :
    x.Conservative ↔
      x.book.monitor.localEquity - x.book.monitor.lockedMargin ≤
        cfg.equityUsd - x.replay.monitor.lockedMargin ∧
      ∀ equity used, x.rest = some (equity, used) →
        used + loss x.book.monitor.upnl ≤ x.book.monitor.lockedMargin := by
  have hbook : x.book.availableConservative =
      x.book.monitor.localEquity + loss x.book.monitor.upnl - x.book.monitor.lockedMargin := by
    rw [MarginBook.availableConservative, h.book]
    rfl
  have hreplay : x.replay.availableConservative =
      cfg.equityUsd + loss x.book.monitor.upnl - x.replay.monitor.lockedMargin := by
    rw [MarginBook.availableConservative, h.replay, h.upnl, ← h.startup]
    rfl
  rw [Conservative, hbook, hreplay]
  constructor
  · rintro ⟨hlocal, hrest⟩
    refine ⟨by linarith, fun equity used he => ?_⟩
    have hone := hrest equity used he
    rw [h.reported equity used he] at hone
    linarith
  · rintro ⟨hlocal, hrest⟩
    refine ⟨by linarith, fun equity used he => ?_⟩
    have hone := hrest equity used he
    rw [h.reported equity used he]
    linarith

theorem loss_nonpos (upnl : ℚ) : loss upnl ≤ 0 := by
  unfold loss
  split
  · rename_i h
    exact h.le
  · exact le_rfl

/-- A call keeps the published margin below both estimates exactly when it is covered. -/
theorem step_conservative_iff (h : Tracked cfg x) (hx : x.Conservative) (c : MarginCall) :
    (step cfg c x).Conservative ↔ Covered cfg c x := by
  rw [conservative_iff (step_tracked h c)]
  obtain ⟨hlocal, hrest⟩ := (conservative_iff h).mp hx
  cases c with
  | onFill lots price lot =>
    constructor
    · rintro ⟨_, hnew⟩ equity used he _
      exact hnew equity used he
    · intro hcov
      refine ⟨?_, fun equity used he => ?_⟩
      · simp only [step, MarginBook.call, MarginBook.publish, MarginMonitor.onFill]
        linarith
      · by_cases hneg : lots * lot * price * cfg.initialMarginRate < 0
        · exact hcov equity used he hneg
        · have hold := hrest equity used he
          simp only [step, MarginBook.call, MarginBook.publish, MarginMonitor.onFill]
          linarith
  | onRelease lots price lot =>
    constructor
    · rintro ⟨hnew, hnewRest⟩ equity used he
      refine ⟨hnewRest equity used he, ?_⟩
      simp only [step, MarginBook.call, MarginBook.publish, MarginMonitor.onRelease,
        h.reported equity used he] at hnew
      simp only [released]
      linarith
    · intro hcov
      refine ⟨?_, fun equity used he => (hcov equity used he).1⟩
      simp only [step, MarginBook.call, MarginBook.publish, MarginMonitor.onRelease]
      cases hr : x.rest with
      | none => rw [h.unreported hr, h.startup]
      | some er =>
        have hlead := (hcov er.1 er.2 hr).2
        simp only [released] at hlead
        rw [h.reported er.1 er.2 hr]
        linarith
  | onMarkPrice p mark lot =>
    by_cases hflat : p.netQtyLots = 0 ∨ p.avgEntryPrice ≤ 0
    · simp only [step, MarginBook.call, MarginMonitor.onMarkPrice, if_pos hflat, Covered]
      refine ⟨fun _ equity used _ hnet havg => ?_, fun _ => ⟨hlocal, hrest⟩⟩
      exact absurd hflat (not_or.mpr ⟨hnet, not_le.mpr havg⟩)
    · obtain ⟨hnet, havg⟩ := not_or.mp hflat
      simp only [step, MarginBook.call, MarginMonitor.onMarkPrice, if_neg hflat, Covered]
      refine ⟨fun hnew equity used he _ _ => hnew.2 equity used he, fun hcov =>
        ⟨hlocal, fun equity used he => ?_⟩⟩
      exact hcov equity used he hnet (not_le.mp havg)
  | onRestUpdate equity used ts =>
    refine ⟨fun hnew => hnew.1, fun hcov => ⟨hcov, fun e u he => ?_⟩⟩
    cases he
    have hloss := loss_nonpos x.book.monitor.upnl
    simp only [step, MarginBook.call, MarginBook.publish, MarginMonitor.onRestUpdate]
    linarith

/-- The published margin stays below both estimates over a whole sequence of calls exactly when
every call is covered. -/
theorem run_conservative_iff (cfg : MarginConfig) (calls : List MarginCall) :
    Always (step cfg) Conservative (init cfg) calls ↔ Along (step cfg) (Covered cfg) (init cfg) calls := by
  have hall : Along (step cfg) (fun _ _ => True) (init cfg) calls := along_true
  refine hall.always_iff (Tracked cfg) (fun c x h _ => step_tracked h c)
    (fun c x h _ hx => step_conservative_iff h hx c) (tracked_init cfg) ?_
  rw [conservative_iff (tracked_init cfg)]
  exact ⟨le_rfl, fun _ _ h => by cases h⟩

/-- Ten lots at a hundred lock 100 of a thousand; the exchange has seen only half of it yet. -/
theorem rest_exceeds_local :
    ¬ ∀ cfg calls, Always (step cfg) Conservative (init cfg) calls := by
  intro h
  have hlast := h ⟨1 / 10, 1000⟩ [.onFill 10 100 1, .onRestUpdate 1000 50 1] _ List.prefix_rfl
  exact absurd hlast.1 (by decide +kernel)

end Estimates

end OmsFormal.Oms
