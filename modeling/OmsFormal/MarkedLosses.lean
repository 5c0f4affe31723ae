import OmsFormal.MarginEstimates

/-!
# Marks and the losses they show

Every mark price overwrites the one unrealised profit the monitor keeps, whatever
instrument it is for. `Marked` remembers the latest mark of each instrument, so
that a loss a later mark has covered up can still be named.
-/

namespace OmsFormal.Oms
open GuardedRun
set_option autoImplicit false

/-- The arguments of one `on_mark_price` call. -/
structure Mark where
  instrId : ℕ
  markUsd : ℚ
  lotSize : ℚ

/-- The profit of a position at a mark, a loss where it is negative. -/
def InstrumentPosition.unrealised (p : InstrumentPosition) (markUsd lotSize : ℚ) : ℚ :=
  (markUsd - p.avgEntryPrice) * (p.netQtyLots * lotSize)

/-- The margin book, and the latest mark and lot size of every instrument that was marked. -/
structure Marked where
  book : MarginBook
  latest : ℕ → Option (ℚ × ℚ)

namespace Marked

def step (cfg : MarginConfig) (pos : ℕ → InstrumentPosition) (m : Mark) (x : Marked) : Marked where
  book := x.book.call cfg (.onMarkPrice (pos m.instrId) m.markUsd m.lotSize)
  latest := Function.update x.latest m.instrId (some (m.markUsd, m.lotSize))

/-- No instrument was marked yet. -/
def start (m : MarginMonitor) : Marked := ⟨MarginBook.publish m, fun _ => none⟩

/-- The loss of every instrument at its latest mark counts against the available margin. -/
def LossesCount (pos : ℕ → InstrumentPosition) (x : Marked) : Prop :=
  ∀ i mark lot, x.latest i = some (mark, lot) → (pos i).unrealised mark lot < 0 →
    x.book.margin.marginAvailable ≤
      x.book.monitor.localEquity - x.book.monitor.lockedMargin + (pos i).unrealised mark lot

/-- A mark of an open position shows no less of a loss than the latest marks of the others do. A
position without an entry price has no loss beyond the published one. -/
def Deepens (pos : ℕ → InstrumentPosition) (m : Mark) (x : Marked) : Prop :=
  let p := pos m.instrId
  if p.netQtyLots = 0 then True
  else if p.avgEntryPrice ≤ 0 then
    p.unrealised m.markUsd m.lotSize < 0 →
      Estimates.loss x.book.monitor.upnl ≤ p.unrealised m.markUsd m.lotSize
  else
    ∀ j ≠ m.instrId, ∀ mark lot, x.latest j = some (mark, lot) → (pos j).unrealised mark lot < 0 →
      Estimates.loss (p.unrealised m.markUsd m.lotSize) ≤ (pos j).unrealised mark lot

variable {cfg : MarginConfig} {pos : ℕ → InstrumentPosition} {x : Marked} {m : Mark}

/-- The book publishes what its monitor says. -/
def Published (x : Marked) : Prop := x.book.margin = x.book.monitor.recomputeAvailable

theorem step_published (h : x.Published) (m : Mark) : (step cfg pos m x).Published := by
  unfold Published step MarginBook.call
  simp only
  cases x.book.monitor.onMarkPrice (pos m.instrId) m.markUsd m.lotSize with
  | none => exact h
  | some monitor => rfl

/-- The losses compared with the one the monitor keeps: equity and locked margin cancel. -/
theorem lossesCount_iff (h : x.Published) :
    x.LossesCount pos ↔ ∀ i mark lot, x.latest i = some (mark, lot) →
      (pos i).unrealised mark lot < 0 → Estimates.loss x.book.monitor.upnl ≤ (pos i).unrealised mark lot := by
  have havail : x.book.margin.marginAvailable =
      x.book.monitor.localEquity + Estimates.loss x.book.monitor.upnl - x.book.monitor.lockedMargin := by
    rw [h]
    rfl
  unfold LossesCount
  rw [havail]
  constructor
  · intro hall i mark lot hmark hloss
    have hone := hall i mark lot hmark hloss
    linarith
  · intro hall i mark lot hmark hloss
    have hone := hall i mark lot hmark hloss
    linarith

theorem lossesCount_update {i : ℕ} {mark lot : ℚ} {latest : ℕ → Option (ℚ × ℚ)} {bound : ℚ} :
    (∀ j mark' lot', Function.update latest i (some (mark, lot)) j = some (mark', lot') →
        (pos j).unrealised mark' lot' < 0 → bound ≤ (pos j).unrealised mark' lot') ↔
      ((pos i).unrealised mark lot < 0 → bound ≤ (pos i).unrealised mark lot) ∧
      ∀ j ≠ i, ∀ mark' lot', latest j = some (mark', lot') →
        (pos j).unrealised mark' lot' < 0 → bound ≤ (pos j).unrealised mark' lot' := by
  constructor
  · intro h
    refine ⟨h i mark lot (Function.update_self i _ _), fun j hj mark' lot' hmark => ?_⟩
    apply h j mark' lot'
    rw [Function.update_of_ne hj]
    exact hmark
  · rintro ⟨hself, hothers⟩ j mark' lot' hmark
    by_cases hj : j = i
    · subst hj
      rw [Function.update_self] at hmark
      cases hmark
      exact hself
    · rw [Function.update_of_ne hj] at hmark
      exact hothers j hj mark' lot' hmark

/-- One more mark leaves all losses counted exactly when it covers none of them up. -/
theorem step_lossesCount_iff (hpub : x.Published) (h : x.LossesCount pos) :
    (step cfg pos m x).LossesCount pos ↔ Deepens pos m x := by
  have hold := (lossesCount_iff hpub).mp h
  rw [lossesCount_iff (step_published hpub m)]
  unfold Deepens
  simp only [step, MarginBook.call]
  by_cases hflat : (pos m.instrId).netQtyLots = 0
  · have hzero : (pos m.instrId).unrealised m.markUsd m.lotSize = 0 := by
      simp [InstrumentPosition.unrealised, hflat]
    rw [MarginMonitor.onMarkPrice, if_pos (Or.inl hflat), lossesCount_update, if_pos hflat, hzero]
    exact iff_of_true ⟨fun hneg => absurd hneg (lt_irrefl 0), fun j _ => hold j⟩ trivial
  · rw [if_neg hflat]
    by_cases hunpriced : (pos m.instrId).avgEntryPrice ≤ 0
    · rw [MarginMonitor.onMarkPrice, if_pos (Or.inr hunpriced), lossesCount_update, if_pos hunpriced]
      exact ⟨fun hnew => hnew.1, fun hself => ⟨hself, fun j _ => hold j⟩⟩
    · rw [MarginMonitor.onMarkPrice, if_neg (not_or.mpr ⟨hflat, hunpriced⟩), lossesCount_update,
        if_neg hunpriced]
      refine ⟨fun hnew => hnew.2, fun hothers => ⟨fun hneg => ?_, hothers⟩⟩
      exact (if_pos hneg).le

/-- Over any sequence of marks no loss is covered up exactly when every mark deepens what the others
show. -/
theorem run_lossesCount_iff (cfg : MarginConfig) (pos : ℕ → InstrumentPosition) (monitor : MarginMonitor)
    (marks : List Mark) :
    Always (step cfg pos) (LossesCount pos) (start monitor) marks ↔
      Along (step cfg pos) (Deepens pos) (start monitor) marks := by
  have hall : Along (step cfg pos) (fun _ _ => True) (start monitor) marks := along_true
  apply hall.always_iff Published
  · exact fun m x h _ => step_published h m
  · exact fun m x hpub _ h => step_lossesCount_iff hpub h
  · exact rfl
  · exact fun i mark lot hmark => by cases hmark

/-- Two longs of ten lots bought at 100. -/
def Sample.twoLongs (i : ℕ) : InstrumentPosition :=
  if i < 2 then { InstrumentPosition.zero with netQtyLots := 10, avgEntryPrice := 100 }
  else InstrumentPosition.zero

/-- The loss of 100 on the first long is gone from the margin once the second one shows a profit. -/
theorem loss_covered_up :
    ¬ Always (step ⟨1 / 10, 1000⟩ Sample.twoLongs) (LossesCount Sample.twoLongs)
      (start (MarginMonitor.init ⟨1 / 10, 1000⟩)) [⟨0, 90, 1⟩, ⟨1, 110, 1⟩] := by
  intro h
  have hlast := h _ List.prefix_rfl 0 90 1 rfl (by decide +kernel)
  exact absurd hlast (by decide +kernel)

end Marked

end OmsFormal.Oms
