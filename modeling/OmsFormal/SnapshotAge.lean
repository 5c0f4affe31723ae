import OmsFormal.RerouteInputs
import Mathlib.Data.Finset.Max

/-!
# The age of a snapshot

The age of a snapshot is an unsigned difference, so a snapshot that is stamped after
the sampled clock looks as if it were almost 2^64 nanoseconds old. The scan then
passes over the newest market data there is.
-/

namespace OmsFormal.Oms
open Sor
set_option autoImplicit false

/-- The age wraps when the snapshot is later than the clock. -/
theorem age_toNat (now ts : UInt64) :
    (now - ts).toNat =
      if ts.toNat ≤ now.toNat then now.toNat - ts.toNat else 2 ^ 64 + now.toNat - ts.toNat := by
  have hnow := now.toNat_lt
  have hts := ts.toNat_lt
  rw [UInt64.toNat_sub]
  split <;> omega

/-- The inputs a snapshot gives to an order of this direction. -/
def ExchangeSnapshot.inputs (s : ExchangeSnapshot) (dir : OrderDir) : RoutingInputs where
  shortVolFactor := s.volFactor
  bookImbalance := match dir with
    | .buy => s.bookImbalance
    | .sell => -s.bookImbalance
  dataFresh := true

/-- The snapshot was written, and less than two seconds before `nowNs`, or after it. -/
def ExchangeSnapshot.Current (s : ExchangeSnapshot) (nowNs : UInt64) : Prop :=
  0 < s.lastUpdateNs.toNat ∧ nowNs.toNat < s.lastUpdateNs.toNat + 2000000000

/-- The age does not wrap, or wraps so far that it is below two seconds again. -/
def ExchangeSnapshot.Timely (s : ExchangeSnapshot) (nowNs : UInt64) : Prop :=
  s.lastUpdateNs.toNat ≤ nowNs.toNat ∨ nowNs.toNat + 2 ^ 64 < s.lastUpdateNs.toNat + 2000000000

theorem ExchangeSnapshot.fresh_iff (s : ExchangeSnapshot) (nowNs : UInt64) :
    s.fresh nowNs = true ↔ s.Current nowNs ∧ s.Timely nowNs := by
  have hts := s.lastUpdateNs.toNat_lt
  have hlimit : kMaxStaleNs.toNat = 2000000000 := rfl
  rw [ExchangeSnapshot.fresh, Bool.and_eq_true, decide_eq_true_eq, decide_eq_true_eq, Current, Timely,
    gt_iff_lt, UInt64.lt_iff_toNat_lt, UInt64.lt_iff_toNat_lt, age_toNat, hlimit, UInt64.toNat_zero]
  split <;> omega

namespace BookSnapshotCache

/-- No exchange was updated later. -/
structure Latest (c : BookSnapshotCache) (i : ℕ) : Prop where
  bound : i < kMaxExchanges
  latest : ∀ j < kMaxExchanges,
    (c.exchanges j).lastUpdateNs.toNat ≤ (c.exchanges i).lastUpdateNs.toNat

def Current (c : BookSnapshotCache) (nowNs : UInt64) : Prop :=
  ∃ i < kMaxExchanges, (c.exchanges i).Current nowNs

/-- Where some exchange has current data, an order is routed on that of a latest one. -/
def ServesLatest (c : BookSnapshotCache) (dir : OrderDir) (nowNs : UInt64) : Prop :=
  c.Current nowNs → ∃ i, c.Latest i ∧ c.getRoutingInputs dir nowNs = (c.exchanges i).inputs dir

/-- The snapshot the scan finds happens to say what a latest one says. -/
def Coincides (c : BookSnapshotCache) (nowNs : UInt64) : Prop :=
  ∃ i, c.Freshest nowNs i ∧ ∃ j, c.Latest j ∧ (c.exchanges i).volFactor = (c.exchanges j).volFactor ∧
    (c.exchanges i).bookImbalance = (c.exchanges j).bookImbalance

/-- The latest snapshot has not overtaken the clock, or the one that is found instead says the same. -/
def LatestSeen (c : BookSnapshotCache) (nowNs : UInt64) : Prop :=
  c.Current nowNs → (∃ i, c.Latest i ∧ (c.exchanges i).Timely nowNs) ∨ c.Coincides nowNs

/-- The exchange `i` is updated at `ts`. -/
def stamp (c : BookSnapshotCache) (i : ℕ) (ts : UInt64) : BookSnapshotCache where
  exchanges := Function.update c.exchanges i { c.exchanges i with lastUpdateNs := ts }

variable {c : BookSnapshotCache} {dir : OrderDir} {nowNs : UInt64}

theorem exists_freshest {i : ℕ} (hi : i < kMaxExchanges) (hfresh : (c.exchanges i).fresh nowNs = true) :
    ∃ k, c.Freshest nowNs k := by
  obtain ⟨m, hm, hmax⟩ := Finset.exists_max_image
    ((Finset.range kMaxExchanges).filter fun j => (c.exchanges j).fresh nowNs = true)
    (fun j => (c.exchanges j).lastUpdateNs.toNat)
    ⟨i, Finset.mem_filter.mpr ⟨Finset.mem_range.mpr hi, hfresh⟩⟩
  obtain ⟨hmlt, hmfresh⟩ := Finset.mem_filter.mp hm
  have hex : ∃ k, k < kMaxExchanges ∧ (c.exchanges k).fresh nowNs = true ∧
      (c.exchanges m).lastUpdateNs.toNat ≤ (c.exchanges k).lastUpdateNs.toNat :=
    ⟨m, Finset.mem_range.mp hmlt, hmfresh, le_rfl⟩
  -- the scan replaces its candidate by a strictly later one only, so it keeps the first maximum
  obtain ⟨hlt, hfirst, hge⟩ := Nat.find_spec hex
  refine ⟨Nat.find hex, hlt, hfirst, fun j hj hjfresh => ?_, fun j hj hjfresh => ?_⟩
  · have hless : ¬ (c.exchanges m).lastUpdateNs.toNat ≤ (c.exchanges j).lastUpdateNs.toNat :=
      fun hle => Nat.find_min hex hj ⟨hj.trans hlt, hjfresh, hle⟩
    rw [UInt64.lt_iff_toNat_lt]
    exact (not_le.mp hless).trans_le hge
  · rw [UInt64.le_iff_toNat_le]
    exact (hmax j (Finset.mem_filter.mpr ⟨Finset.mem_range.mpr hj, hjfresh⟩)).trans hge

/-- Where nothing is fresh, the scan falls back to zero. -/
theorem getRoutingInputs_stale (h : ∀ i < kMaxExchanges, (c.exchanges i).fresh nowNs = false) :
    c.getRoutingInputs dir nowNs = ⟨0, 0, false⟩ := by
  change ((List.range kMaxExchanges).foldl (c.keepFresher dir nowNs) (0, ⟨0, 0, false⟩)).2 = _
  rw [foldl_after]
  intro i hi hfresh
  rw [h i (List.mem_range.mp hi)] at hfresh
  exact absurd hfresh Bool.false_ne_true

theorem dataFresh_iff : (c.getRoutingInputs dir nowNs).dataFresh = true ↔ ∃ i, c.Freshest nowNs i := by
  constructor
  · intro h
    by_contra hnone
    rw [getRoutingInputs_stale fun i hi => ?_] at h
    · exact absurd h Bool.false_ne_true
    · exact Bool.eq_false_iff.mpr fun hfresh => hnone (exists_freshest hi hfresh)
  · rintro ⟨i, hi⟩
    rw [getRoutingInputs_freshest hi]

theorem inputs_inj {s t : ExchangeSnapshot} (h : s.inputs dir = t.inputs dir) :
    s.volFactor = t.volFactor ∧ s.bookImbalance = t.bookImbalance := by
  refine ⟨congrArg RoutingInputs.shortVolFactor h, ?_⟩
  have himb := congrArg RoutingInputs.bookImbalance h
  cases dir with
  | buy => exact himb
  | sell => exact neg_inj.mp himb

/-- The freshest snapshot is as late as any fresh one. -/
theorem Freshest.latest {i k : ℕ} (h : c.Freshest nowNs k) (hi : c.Latest i)
    (hfresh : (c.exchanges i).fresh nowNs = true) : c.Latest k :=
  ⟨h.bound, fun j hj => (hi.latest j hj).trans (UInt64.le_iff_toNat_le.mp (h.later i hi.bound hfresh))⟩

theorem Latest.current {i : ℕ} (h : c.Latest i) (hc : c.Current nowNs) :
    (c.exchanges i).Current nowNs := by
  obtain ⟨j, hj, hpos, hnow⟩ := hc
  have hle := h.latest j hj
  exact ⟨hpos.trans_le hle, hnow.trans_le (Nat.add_le_add_right hle _)⟩

theorem servesLatest_iff : c.ServesLatest dir nowNs ↔ c.LatestSeen nowNs := by
  constructor
  · intro h hcurrent
    obtain ⟨i, hi, hinputs⟩ := h hcurrent
    obtain ⟨k, hk⟩ := dataFresh_iff.mp (congrArg RoutingInputs.dataFresh hinputs)
    rw [getRoutingInputs_freshest hk] at hinputs
    exact Or.inr ⟨k, hk, i, hi, inputs_inj (s := c.exchanges k) hinputs⟩
  · intro h hcurrent
    rcases h hcurrent with ⟨i, hi, htimely⟩ | ⟨k, hk, j, hj, hvol, himb⟩
    · have hfresh := ((c.exchanges i).fresh_iff nowNs).mpr ⟨hi.current hcurrent, htimely⟩
      obtain ⟨k, hk⟩ := exists_freshest hi.bound hfresh
      exact ⟨k, hk.latest hi hfresh, getRoutingInputs_freshest hk⟩
    · refine ⟨j, hj, ?_⟩
      rw [getRoutingInputs_freshest hk, hvol, himb]
      rfl

theorem current_of_dataFresh (h : (c.getRoutingInputs dir nowNs).dataFresh = true) : c.Current nowNs := by
  obtain ⟨i, hi⟩ := dataFresh_iff.mp h
  exact ⟨i, hi.bound, ((c.exchanges i).fresh_iff nowNs |>.mp hi.fresh).1⟩

theorem stamp_current {i : ℕ} {ts : UInt64} (h : c.Current nowNs)
    (hlater : (c.exchanges i).lastUpdateNs.toNat ≤ ts.toNat) : (c.stamp i ts).Current nowNs := by
  obtain ⟨j, hj, hpos, hnow⟩ := h
  refine ⟨j, hj, ?_⟩
  simp only [stamp]
  by_cases hji : j = i
  · subst hji
    rw [Function.update_self]
    exact ⟨hpos.trans_le hlater, hnow.trans_le (Nat.add_le_add_right hlater _)⟩
  · rw [Function.update_of_ne hji]
    exact ⟨hpos, hnow⟩

/-- One exchange, updated a nanosecond after the clock was read. -/
def Sample.overtaken : BookSnapshotCache where
  exchanges i := if i = 0 then ⟨1 / 2, 1 / 4, 100, 1001⟩ else ⟨0, 0, 0, 0⟩

theorem overtaken_latest : (Sample.overtaken.stamp 0 1500).Latest 0 := by
  refine ⟨by decide, fun j _ => ?_⟩
  by_cases hj : j = 0
  · rw [hj]
  · simp [stamp, Sample.overtaken, hj]

end BookSnapshotCache

end OmsFormal.Oms
