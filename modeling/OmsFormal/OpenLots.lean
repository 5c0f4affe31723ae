import OmsFormal.SlackRuns
import Mathlib.Algebra.Order.BigOperators.Group.Finset

/-!
# When the open-lot counters are exact

The slack starts at zero, so the counters stay exact for as long as no call has
a drift. Two kinds of call have one: a signal whose quantity the router covers
in part only, because the rest stays reserved, and a reroute that sends or gives
up lots, because it reserves nothing while the cancel or fill before it has
already released its own.
-/

namespace OmsFormal.Oms
open Sor Rounding OMSOrderPool GuardedRun
set_option autoImplicit false

/-- Every open-lot counter equals what is in the market on its side. -/
structure OpenLotsExact (s : Core) : Prop where
  exact : ∀ i d, (s.pos.instruments i).openLots d = s.pool.exposure i d
  nonneg : ∀ i d, 0 ≤ (s.pos.instruments i).openLots d
  zero : ∀ i d, (∀ p, s.pool.ParentInUse p →
    ¬ ((s.pool.parents p).instrId = i ∧ (s.pool.parents p).dir = d)) → (s.pos.instruments i).openLots d = 0

/-- The router covers an accepted signal in full, and a report or a timeout that reroutes its
parent gives nothing up and finds nothing to send. -/
def Call.Balanced (cfg : ExecCoreConfig) (w : World) : Call → Core → Prop
  | .signal sig, s =>
    match signalFlow cfg w sig s with
    | .finished _ => True
    | .dispatching _ _ buf ctx => pendingLots ctx buf = effectiveQty sig s.pos
  | c, s =>
    match c.entry cfg w s with
    | (.booked pid, s') => reroutes pid s' = true →
        excessLots pid s' = 0 ∧ w.router.optimalSplit (trimmedContext cfg w pid s') = []
    | _ => True

def Event.Balanced (cfg : ExecCoreConfig) : Event → Core → Prop
  | .call w c, s => c.Balanced cfg w s
  | .env _, _ => True

variable {cfg : ExecCoreConfig} {w : World} {s : Core}

section Exact
variable {i : ℕ} {d : OrderDir}

theorem openLots_nonneg (hs : Healthy canonical s) {p c : ℕ} (hu : s.pool.ParentInUse p)
    (hc : c ∈ (s.pool.parents p).childIds) : 0 ≤ (s.pool.children c).openLots := by
  obtain ⟨hcu, hcp⟩ := (hs.store.ok p).owned hu c hc
  rcases (hs.store.ok p).settled c hcu hcp with hw | ht
  · rw [ChildOrderState.openLots_of_live (OrderState.not_terminal_of_working hw)]
    exact ((hs.qty p hu).child c hc hw).2
  · rw [ChildOrderState.openLots_of_terminal ht]

theorem openLeaves_nonneg (hs : Healthy canonical s) {p : ℕ} (hu : s.pool.ParentInUse p) :
    0 ≤ s.pool.openLeaves p := by
  apply List.sum_nonneg
  intro x hx
  obtain ⟨c, hc, rfl⟩ := List.mem_map.mp hx
  exact openLots_nonneg hs hu hc

theorem share_nonneg (hs : Healthy canonical s) (p : ℕ) : 0 ≤ s.pool.share i d p := by
  unfold share
  split
  · rename_i h
    exact openLeaves_nonneg hs h.1
  · exact le_rfl

theorem exposure_nonneg (hs : Healthy canonical s) : 0 ≤ s.pool.exposure i d :=
  Finset.sum_nonneg fun p _ => share_nonneg hs p

theorem exposure_eq_zero {pool : OMSOrderPool} (h : ∀ p, pool.ParentInUse p →
    ¬ ((pool.parents p).instrId = i ∧ (pool.parents p).dir = d)) : pool.exposure i d = 0 := by
  apply Finset.sum_eq_zero
  intro p _
  exact if_neg fun hc => h p hc.1 hc.2

theorem openLotsExact_iff (hs : Healthy canonical s) : OpenLotsExact s ↔ ∀ i d, s.slack i d = 0 := by
  constructor
  · intro h i d
    exact sub_eq_zero.mpr (h.exact i d)
  · intro h
    have hexact (i : ℕ) (d : OrderDir) := sub_eq_zero.mp (h i d)
    refine ⟨hexact, fun i d => ?_, fun i d hnone => ?_⟩
    · rw [hexact]
      exact exposure_nonneg hs
    · rw [hexact, exposure_eq_zero hnone]

end Exact

section Demand
variable {pid : ℕ}

/-- A reroute asks for its leaves less what it gives up, and sends whole lots only. -/
theorem asked_pos (hsound : w.router.Sound) (ha : HealthyAt cfg w canonical (.booked pid, s))
    (hr : reroutes pid s = true) :
    ∀ co ∈ asked w pid (trimmedContext cfg w pid s) (trimmed pid s),
      1 ≤ co.lots (resolveReferenceLotSize (trimmedContext cfg w pid s)) := by
  have hnn : 0 ≤ (s.pool.parents pid).leavesQtyLots := (ha.qty.1 pid ha.store.1).leaves_nonneg
  have hle := excessLots_le hnn
  have hleft := (reroutes_iff.mp hr).1
  have htarget : (trimmedContext cfg w pid s).targetLots =
      (s.pool.parents pid).leavesQtyLots - excessLots pid s := by
    simp only [trimmedContext, trimmed_record]
    rfl
  unfold asked
  split
  · intro co hco
    cases hco
  · rename_i hask
    simp only [trimmed_record, ParentOrder.giveUp, not_and] at hask
    have hpos : 1 ≤ (trimmedContext cfg w pid s).targetLots := by
      rw [htarget]
      cases hflag : (s.pool.parents pid).reduceOnly with
      | true =>
        have hne := hask hflag
        omega
      | false =>
        have hzero : excessLots pid s = 0 := by simp [excessLots, hflag]
        omega
    exact (hsound.split _ hpos (cfg.instruments.lotSize_pos _)).pos

theorem pendingLots_eq_zero {ctx : RoutingContext} {rest : List ChildOrder}
    (h : ∀ co ∈ rest, 1 ≤ co.lots (resolveReferenceLotSize ctx)) (hzero : pendingLots ctx rest = 0) :
    rest = [] := by
  cases rest with
  | nil => rfl
  | cons co rest =>
    have hco := h co List.mem_cons_self
    have hrest := pendingLots_nonneg fun x hx => h x (List.mem_cons_of_mem co hx)
    simp only [pendingLots, List.map_cons, List.sum_cons] at hzero hrest
    omega

theorem rerouteDemand_eq_zero (hsound : w.router.Sound) (ha : HealthyAt cfg w canonical (.booked pid, s))
    (hr : reroutes pid s = true) :
    rerouteDemand cfg w pid s = 0 ↔
      excessLots pid s = 0 ∧ w.router.optimalSplit (trimmedContext cfg w pid s) = [] := by
  have hasked (hexcess : excessLots pid s = 0) :
      asked w pid (trimmedContext cfg w pid s) (trimmed pid s) =
        w.router.optimalSplit (trimmedContext cfg w pid s) := by
    refine if_neg fun hc => ?_
    have hleft := (reroutes_iff.mp hr).1
    have hl := hc.2
    simp only [trimmed_record, ParentOrder.giveUp] at hl
    omega
  constructor
  · intro hzero
    have hexcess := excessLots_nonneg pid s
    have hpending := pendingLots_nonneg (asked_pos hsound ha hr)
    unfold rerouteDemand at hzero
    have hnone := pendingLots_eq_zero (asked_pos hsound ha hr) (by omega)
    have hgone : excessLots pid s = 0 := by omega
    exact ⟨hgone, by rw [← hasked hgone]; exact hnone⟩
  · rintro ⟨hexcess, hnone⟩
    rw [rerouteDemand, hasked hexcess, hexcess, hnone]
    rfl

end Demand

section Step

theorem drift_eq_zero_iff {a : Phase × Core} : (∀ i d, drift cfg w a i d = 0) ↔ driftLots cfg w a = 0 := by
  constructor
  · intro h
    have hself := h (a.2.pool.parents a.1.pid).instrId (a.2.pool.parents a.1.pid).dir
    rwa [drift, onSide_self] at hself
  · intro h i d
    rw [drift, h, onSide_zero]

theorem booked_drift (hsound : w.router.Sound) {pid : ℕ} (ha : HealthyAt cfg w canonical (.booked pid, s)) :
    driftLots cfg w (.booked pid, s) = 0 ↔ (reroutes pid s = true →
      excessLots pid s = 0 ∧ w.router.optimalSplit (trimmedContext cfg w pid s) = []) := by
  simp only [driftLots, owedLots, neg_eq_zero]
  cases hr : reroutes pid s with
  | true =>
    simp only [if_true, true_imp_iff]
    exact rerouteDemand_eq_zero hsound ha hr
  | false => simp

/-- A call has no drift exactly when it is balanced. -/
theorem entered_drift (hsound : w.router.Sound) {c : Call} (h : Entered cfg w s c (c.entry cfg w s))
    (ha : HealthyAt cfg w canonical (c.entry cfg w s)) :
    driftLots cfg w (c.entry cfg w s) = 0 ↔ c.Balanced cfg w s := by
  cases c with
  | signal sig =>
    simp only [Call.entry, Call.Balanced] at h ⊢
    rcases signal_cases cfg w sig s with ⟨s', hflow, _⟩ | ⟨pid, free, _, _, _, _, hflow⟩
    · simp only [hflow, Flow.entry, driftLots, owedLots, neg_zero]
    · have hleaves : ((reserved w sig pid free s).pool.parents pid).leavesQtyLots =
        effectiveQty sig s.pos := by
        rw [reserved_record]
        rfl
      simp only [hflow, Flow.entry, driftLots, hleaves]
      rw [sub_eq_zero, eq_comm]
  | report rep =>
    simp only [Call.Balanced]
    generalize hentry : (Call.report rep).entry cfg w s = a at h ha
    cases h with
    | filled => exact booked_drift hsound ha
    | ended => exact booked_drift hsound ha
    | acknowledged => simp only [driftLots, owedLots, neg_zero]
    | ignored => simp only [driftLots, owedLots, neg_zero]
  | visit slot idx =>
    simp only [Call.Balanced]
    generalize hentry : (Call.visit slot idx).entry cfg w s = a at h ha
    cases h with
    | expired => exact booked_drift hsound ha
    | unarmed => simp only [driftLots, owedLots, neg_zero]

theorem SameBooks.slack {s' : Core} (h : SameBooks s s') (i : ℕ) (d : OrderDir) :
    s'.slack i d = s.slack i d := by
  rw [Core.slack, h.openLots, h.pool]
  rfl

/-- Exact counters stay exact over a step exactly when the step is balanced. -/
theorem step_openLots {e : Event} (hs : Healthy canonical s) (h : e.Admissible cfg canonical s)
    (hexact : OpenLotsExact s) : OpenLotsExact (step cfg e s) ↔ e.Balanced cfg s := by
  have hzero := (openLotsExact_iff hs).mp hexact
  rw [openLotsExact_iff (step_healthy hs h)]
  cases e with
  | call w c =>
    have hentered := h.entered hs
    have hmoved : (∀ i d, (c.apply cfg w s).slack i d = 0) ↔
        ∀ i d, drift cfg w (c.entry cfg w s) i d = 0 := by
      simp only [call_slack h hs, hzero, zero_add]
    simp only [step, Event.Balanced]
    rw [hmoved, drift_eq_zero_iff]
    exact entered_drift h.sound hentered (entered_healthy h.sound hentered h.scaled hs)
  | env e =>
    simp only [step, Event.Balanced, iff_true]
    intro i d
    rw [(e.apply_sameBooks s).slack, hzero]

end Step

/-- A buy of four lots is canceled and sent again, and the new order fills: the counter has then
released eight lots of four it ever reserved. -/
def Sample.rerouteRun : List Event :=
  [.call (world 9) (.signal (signal .buy 4 false)),
   .call (world 9) (.report (report 0 .canceled 0)),
   .call (world 9) (.report (report 0 .fill 4))]

theorem Sample.reroute_admissible :
    Along (step config) (Event.Admissible config canonical) (start 0) rerouteRun := by
  refine ⟨⟨by decide, fun _ => scaled 9 _, sound 9⟩, ⟨⟨?_, ?_⟩, fun _ _ => scaled 9 _, sound 9⟩,
    ⟨⟨?_, ?_⟩, fun _ _ => scaled 9 _, sound 9⟩, trivial⟩
  · refine firstChildLive ?_ ?_ <;> with_unfolding_all rfl
  · intro hfill
    cases hfill
  · refine firstChildLive ?_ ?_ <;> with_unfolding_all rfl
  · intro _
    decide +kernel

end OmsFormal.Oms
