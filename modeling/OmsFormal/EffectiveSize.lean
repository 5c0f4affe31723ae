import OmsFormal.DeadSignals

/-!
# The size that decides about a reduce-only signal

A reduce-only signal is cut down to what the position allows before any risk check
looks at it, but after the notional gate has looked at the requested size. Two
requests with the same effective size therefore fare alike exactly when the gate
treats them alike.
-/

namespace OmsFormal.Oms
open Sor Rounding OMSOrderPool
set_option autoImplicit false

section Decision
variable (cfg : ExecCoreConfig) (w : World)

/-- What becomes of a signal that has passed the gate: the reason it is rejected for, if any. -/
def admission (sig : StrategyOrderSignal) (s : Core) : Option RejectReason :=
  match s.pool.parentFree with
  | [] => some .parentPoolExhausted
  | pid :: free =>
    if sig.instrId < kMaxInstruments ∧ effectiveQty sig s.pos = 0 then some .reduceOnlyViolation
    else
      match validate cfg.riskLimits cfg.instruments s.pos { sig with qtyLots := effectiveQty sig s.pos } with
      | .ok =>
        match signalSplit w sig (admittedContext cfg w sig pid free s) with
        | [] => some .noLiquidity
        | _ :: _ => none
      | reason => some (rejectReasonOf reason)

/-- `none` where the signal is approved and dispatched, otherwise the reason of its reject. -/
def signalDecision (sig : StrategyOrderSignal) (s : Core) : Option RejectReason :=
  if approve cfg.notionalGate cfg.instruments w.reply sig = false then some .notionalGateBlock
  else admission cfg w sig s

/-- The handler does what was decided. -/
def Flow.Follows (sig : StrategyOrderSignal) (s : Core) : Option RejectReason → Flow → Prop
  | none, .dispatching _ _ _ _ => True
  | some reason, .finished s' => ∃ pool, s' =
      notifyReject w sig.instrId sig.dir sig.strategyId sig.qtyLots reason { s with pool := pool }
  | _, _ => False

/-- Same decision, and where the signal is approved the same state: parent, children, outbound
orders and reservation. -/
structure SameOutcome (sig sig' : StrategyOrderSignal) (s : Core) : Prop where
  decision : signalDecision cfg w sig s = signalDecision cfg w sig' s
  state : signalDecision cfg w sig s = none → onStrategyOrder cfg w sig s = onStrategyOrder cfg w sig' s

end Decision

variable {cfg : ExecCoreConfig} {w : World} {sig : StrategyOrderSignal} {s : Core}

theorem signalFlow_follows (cfg : ExecCoreConfig) (w : World) (sig : StrategyOrderSignal) (s : Core) :
    (signalFlow cfg w sig s).Follows w sig s (signalDecision cfg w sig s) := by
  unfold signalDecision admission signalFlow
  by_cases hblock : approve cfg.notionalGate cfg.instruments w.reply sig = false
  · rw [if_pos hblock, if_pos hblock]
    exact ⟨s.pool, rfl⟩
  · rw [if_neg hblock, if_neg hblock]
    cases hfree : s.pool.parentFree with
    | nil =>
      simp only [allocParent, hfree]
      exact ⟨_, rfl⟩
    | cons pid free =>
      simp only [allocParent, hfree]
      by_cases hnone : sig.instrId < kMaxInstruments ∧ effectiveQty sig s.pos = 0
      · rw [if_pos hnone, if_pos hnone]
        exact ⟨_, rfl⟩
      · rw [if_neg hnone, if_neg hnone]
        simp only [admittedContext, admitted, openParent, modifyParent, Function.update_self,
          Function.update_idem]
        cases hval : validate cfg.riskLimits cfg.instruments s.pos
            { sig with qtyLots := effectiveQty sig s.pos } with
        | ok =>
          simp only
          cases hsplit : signalSplit w sig (signalContext cfg w sig (ParentOrder.setQuantity w sig
              (effectiveQty sig s.pos) (ParentOrder.copySignal w sig (reduceOnlyInForce sig s.pos)
                { ParentOrder.reset with parentId := pid })) (effectiveQty sig s.pos)) with
          | nil => exact ⟨_, rfl⟩
          | cons co rest => trivial
        | fatFinger => exact ⟨_, rfl⟩
        | positionLimit => exact ⟨_, rfl⟩
        | margin => exact ⟨_, rfl⟩
        | notional => exact ⟨_, rfl⟩
        | disabled => exact ⟨_, rfl⟩

section Sizes
variable {q q' : ℤ}

/-- Behind the gate only the effective size is looked at. -/
theorem admission_congr
    (h : effectiveQty { sig with qtyLots := q } s.pos = effectiveQty { sig with qtyLots := q' } s.pos) :
    admission cfg w { sig with qtyLots := q } s = admission cfg w { sig with qtyLots := q' } s := by
  simp only [admission, admittedContext, admitted, h]
  rfl

theorem reserved_congr (pid : ℕ) (free : List ℕ)
    (h : effectiveQty { sig with qtyLots := q } s.pos = effectiveQty { sig with qtyLots := q' } s.pos) :
    reserved w { sig with qtyLots := q } pid free s = reserved w { sig with qtyLots := q' } pid free s := by
  simp only [reserved, admitted, h]
  rfl

theorem admittedContext_congr (pid : ℕ) (free : List ℕ)
    (h : effectiveQty { sig with qtyLots := q } s.pos = effectiveQty { sig with qtyLots := q' } s.pos) :
    admittedContext cfg w { sig with qtyLots := q } pid free s =
      admittedContext cfg w { sig with qtyLots := q' } pid free s := by
  simp only [admittedContext, admitted, h]
  rfl

theorem rejectReasonOf_ne_block (reason : RiskRejectReason) : rejectReasonOf reason ≠ .notionalGateBlock := by
  cases reason <;> decide

theorem admission_ne_block : admission cfg w sig s ≠ some .notionalGateBlock := by
  unfold admission
  cases s.pool.parentFree with
  | nil => simp
  | cons pid free =>
    simp only
    split
    · simp
    · split
      · split <;> simp
      · exact fun h => rejectReasonOf_ne_block _ (Option.some.inj h)

theorem signalDecision_block_iff (cfg : ExecCoreConfig) (w : World) (sig : StrategyOrderSignal) (s : Core) :
    signalDecision cfg w sig s = some .notionalGateBlock ↔
      approve cfg.notionalGate cfg.instruments w.reply sig = false := by
  unfold signalDecision
  split
  · rename_i hblock
    exact ⟨fun _ => hblock, fun _ => rfl⟩
  · rename_i hpass
    exact ⟨fun h => absurd h admission_ne_block, fun h => absurd h hpass⟩

/-- Where both requests are approved they leave the same state. -/
theorem onStrategyOrder_congr
    (h : effectiveQty { sig with qtyLots := q } s.pos = effectiveQty { sig with qtyLots := q' } s.pos)
    (hq : signalDecision cfg w { sig with qtyLots := q } s = none)
    (hq' : signalDecision cfg w { sig with qtyLots := q' } s = none) :
    onStrategyOrder cfg w { sig with qtyLots := q } s =
      onStrategyOrder cfg w { sig with qtyLots := q' } s := by
  have hfollow := signalFlow_follows cfg w { sig with qtyLots := q } s
  have hfollow' := signalFlow_follows cfg w { sig with qtyLots := q' } s
  rw [hq] at hfollow
  rw [hq'] at hfollow'
  rcases signal_cases cfg w { sig with qtyLots := q } s with
    ⟨s', hflow, -⟩ | ⟨pid, free, hfree, -, -, -, hflow⟩
  · rw [hflow] at hfollow
    exact hfollow.elim
  rcases signal_cases cfg w { sig with qtyLots := q' } s with
    ⟨s', hflow', -⟩ | ⟨pid', free', hfree', -, -, -, hflow'⟩
  · rw [hflow'] at hfollow'
    exact hfollow'.elim
  obtain ⟨rfl, rfl⟩ := List.cons.inj (hfree.symm.trans hfree')
  rw [onStrategyOrder, onStrategyOrder, hflow, hflow', reserved_congr pid free h,
    admittedContext_congr pid free h]
  rfl

end Sizes

/-- Two requests with the same effective size fare alike exactly when the notional gate, which sees
the requested sizes, decides alike about them. -/
theorem sameOutcome_iff (cfg : ExecCoreConfig) (w : World) (sig : StrategyOrderSignal) (s : Core) (q q' : ℤ)
    (hclamp : effectiveQty { sig with qtyLots := q } s.pos = effectiveQty { sig with qtyLots := q' } s.pos) :
    SameOutcome cfg w { sig with qtyLots := q } { sig with qtyLots := q' } s ↔
      approve cfg.notionalGate cfg.instruments w.reply { sig with qtyLots := q } =
        approve cfg.notionalGate cfg.instruments w.reply { sig with qtyLots := q' } := by
  constructor
  · intro h
    have hblock := signalDecision_block_iff cfg w { sig with qtyLots := q } s
    have hblock' := signalDecision_block_iff cfg w { sig with qtyLots := q' } s
    rw [h.decision, hblock'] at hblock
    exact Bool.eq_iff_iff.mpr (by simpa using not_congr hblock.symm)
  · intro h
    have hdecision : signalDecision cfg w { sig with qtyLots := q } s =
        signalDecision cfg w { sig with qtyLots := q' } s := by
      rw [signalDecision, signalDecision, h, admission_congr hclamp]
    exact ⟨hdecision, fun hnone => onStrategyOrder_congr hclamp hnone (hdecision ▸ hnone)⟩

namespace Sample

/-- A core that has bought five lots. -/
def longFive : Core :=
  onExecutionReport config (world 5) (report 0 .fill 5)
    (onStrategyOrder config (world 5) (signal .buy 5 false) (Core.init config 0))

/-- A reduce-only sale with a limit of 50 USD. -/
def limitedSale (qty : ℤ) : StrategyOrderSignal := { signal .sell qty true with limitPriceUsd := 50 }

end Sample

/-- Five and nine lots are both cut to five, and both pass the gate. -/
theorem sameOutcome_iff_longFive :
    effectiveQty (Sample.limitedSale 9) Sample.longFive.pos = 5 ∧
    SameOutcome Sample.config (Sample.world 5) (Sample.limitedSale 5) (Sample.limitedSale 9)
      Sample.longFive :=
  ⟨by decide +kernel, (sameOutcome_iff Sample.config (Sample.world 5) (Sample.limitedSale 0)
    Sample.longFive 5 9 (by decide +kernel)).mpr (by decide +kernel)⟩

/-- A request for twenty million lots is cut to the same five, and the gate blocks it. -/
theorem longFive_outcomes_differ :
    reduceOnlyInForce (Sample.limitedSale 5) Sample.longFive.pos = true ∧
    effectiveQty (Sample.limitedSale 5) Sample.longFive.pos = 5 ∧
    effectiveQty (Sample.limitedSale 20000000) Sample.longFive.pos = 5 ∧
    signalDecision Sample.config (Sample.world 5) (Sample.limitedSale 5) Sample.longFive = none ∧
    signalDecision Sample.config (Sample.world 5) (Sample.limitedSale 20000000) Sample.longFive =
      some .notionalGateBlock ∧
    ¬ SameOutcome Sample.config (Sample.world 5) (Sample.limitedSale 5) (Sample.limitedSale 20000000)
      Sample.longFive := by
  refine ⟨by decide +kernel, by decide +kernel, by decide +kernel, by decide +kernel, by decide +kernel,
    fun h => ?_⟩
  have hdecision := h.decision
  revert hdecision
  decide +kernel

end OmsFormal.Oms
