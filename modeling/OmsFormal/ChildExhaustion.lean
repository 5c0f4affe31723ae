import OmsFormal.DeadSignals

/-!
# Running out of children

A dispatch that has room takes one child id per child order and leaves the books
alone. Half of the parents, each split sixteen ways, therefore use up all children
while the other half is still free, and the next signal meets an empty child pool.
-/

namespace OmsFormal.Oms
open Sor Rounding OMSOrderPool GuardedRun
set_option autoImplicit false

section Dispatch
variable (cfg : ExecCoreConfig) (w : World) {pid : ℕ} (ctx : RoutingContext)

/-- What a dispatch loop with enough room leaves behind. -/
structure Sent (n : ℕ) (s s' : Core) : Prop where
  childFree : s'.pool.childFree.length + n = s.pool.childFree.length
  parentFree : s'.pool.parentFree = s.pool.parentFree
  pos : s'.pos = s.pos

theorem dispatchLoop_sent (i : ℕ) (buf : List ChildOrder) (s : Core)
    (hcount : (s.pool.parents pid).childCount = i)
    (hroom : i + buf.length ≤ ParentOrder.kMaxChildrenPerParent)
    (hfree : buf.length ≤ s.pool.childFree.length) :
    (dispatchLoop cfg w pid ctx i buf s).2 = [] ∧
    ((dispatchLoop cfg w pid ctx i buf s).1.pool.parents pid).childCount = i + buf.length ∧
    Sent buf.length s (dispatchLoop cfg w pid ctx i buf s).1 := by
  induction buf generalizing i s with
  | nil => exact ⟨rfl, hcount, rfl, rfl, rfl⟩
  | cons co rest ih =>
    rw [List.length_cons] at hroom hfree
    obtain ⟨cid, free, hcons⟩ := List.exists_cons_of_length_pos (Nat.lt_of_lt_of_le (Nat.succ_pos _) hfree)
    have hnext : ((sendChild cfg w pid ctx cid free co s).pool.parents pid).childCount = i + 1 := by
      rw [sendChild_count, hcount]
    have hlen : (sendChild cfg w pid ctx cid free co s).pool.childFree.length + 1 =
        s.pool.childFree.length := by
      rw [hcons]
      rfl
    obtain ⟨hrest, hsum, hsent⟩ :=
      ih (i + 1) (sendChild cfg w pid ctx cid free co s) hnext (by omega) (by omega)
    rw [dispatchLoop_send hcount (by omega) hcons]
    refine ⟨hrest, by rw [hsum, List.length_cons]; omega, ?_, ?_, ?_⟩
    · have := hsent.childFree
      rw [List.length_cons]
      omega
    · exact hsent.parentFree.trans rfl
    · exact hsent.pos.trans rfl

theorem dispatchChildOrders_sent {buf : List ChildOrder} {s : Core} (hbuf : buf ≠ [])
    (hcount : (s.pool.parents pid).childCount = 0)
    (hroom : buf.length ≤ ParentOrder.kMaxChildrenPerParent) (hfree : buf.length ≤ s.pool.childFree.length) :
    Sent buf.length s (dispatchChildOrders cfg w pid buf ctx s) := by
  obtain ⟨hrest, hsum, hsent⟩ := dispatchLoop_sent cfg w ctx 0 buf s hcount (by omega) hfree
  have hgap : gapLots ctx [] = 0 := by simp [gapLots]
  have hlen := List.length_pos_of_ne_nil hbuf
  simp only [dispatchChildOrders, hrest, releaseGap_eq, hgap, max_self]
  rw [if_neg (by rw [hsum]; omega), PositionTable.modify_releaseOpen_zero]
  exact hsent

theorem signalFlow_of_ok (sig : StrategyOrderSignal) {s : Core} {free : List ℕ}
    (happrove : approve cfg.notionalGate cfg.instruments w.reply sig = true)
    (hfree : s.pool.parentFree = pid :: free) (hqty : effectiveQty sig s.pos ≠ 0)
    (hval : validate cfg.riskLimits cfg.instruments s.pos
      { sig with qtyLots := effectiveQty sig s.pos } = .ok)
    (hsplit : signalSplit w sig (admittedContext cfg w sig pid free s) ≠ []) :
    signalFlow cfg w sig s = .dispatching (reserved w sig pid free s) pid
      (signalSplit w sig (admittedContext cfg w sig pid free s)) (admittedContext cfg w sig pid free s) := by
  obtain ⟨co, rest, hcons⟩ := List.exists_cons_of_ne_nil hsplit
  have hcons' := hcons
  simp only [admittedContext, admitted, openParent, Function.update_self] at hcons'
  simp only [signalFlow, happrove, allocParent, hfree, modifyParent, Function.update_self,
    Function.update_idem, hqty, and_false, if_false, hval, hcons, Bool.true_eq_false]
  rw [hcons']
  simp only [reserved, admitted, openParent, Core.setParentState, modifyParent, admittedContext,
    Function.update_self, Function.update_idem]

end Dispatch

namespace Sample

/-- Sixteen asks of one lot each. -/
def ladderVenue : ExchangeState :=
  { venue 1 with
    book := { (venue 1).book with
      sides := fun
        | .bid => []
        | .ask => (List.range 16).map fun i => ⟨100 + i, 1⟩ } }

def ladder : World := { world 1 with states := fun _ => ladderVenue }

/-- The request of a purchase of `qty` lots, whatever the state it meets. -/
def ladderContext (qty : ℤ) : RoutingContext :=
  signalContext config ladder (signal .buy qty false)
    (ParentOrder.setQuantity ladder (signal .buy qty false) qty
      (ParentOrder.copySignal ladder (signal .buy qty false) false ParentOrder.zero)) qty

/-- A core that `k` purchases of sixteen lots have left behind. -/
structure Climbed (k : ℕ) (s : Core) : Prop where
  parents : s.pool.parentFree.length + k = kMaxParentOrders
  children : s.pool.childFree.length + 16 * k = kMaxTotalChildren
  normal : (s.pos.instruments 0).unwindOnly = false
  margin : 0 ≤ s.pos.margin.marginAvailable

theorem climbed_start : Climbed 0 (start 0) where
  parents := List.length_range'
  children := List.length_range'
  normal := rfl
  margin := by decide +kernel

section Climb
variable {k : ℕ} {s : Core} {pid : ℕ} {free : List ℕ}

theorem effectiveQty_buy (h : Climbed k s) (qty : ℤ) : effectiveQty (signal .buy qty false) s.pos = qty := by
  have hnormal : (s.pos.instruments (signal .buy qty false).instrId).unwindOnly = false := h.normal
  have hflag : (signal .buy qty false).reduceOnly = false := rfl
  have hinstr : ¬ (signal .buy qty false).instrId ≥ kMaxInstruments :=
    show ¬ (0 : ℕ) ≥ kMaxInstruments by decide
  rw [effectiveQty, clampReduceOnly, if_neg hinstr, clampReduceOnlyImpl, hnormal, hflag]
  rfl

theorem admittedContext_buy (h : Climbed k s) (pid : ℕ) (free : List ℕ) (qty : ℤ) :
    admittedContext config ladder (signal .buy qty false) pid free s = ladderContext qty := by
  simp only [admittedContext, admitted, openParent, Function.update_self, effectiveQty_buy h]
  rfl

theorem validate_buy (h : Climbed k s) (qty : ℤ) :
    validate config.riskLimits config.instruments s.pos (signal .buy qty false) = .ok := by
  have hmargin : ¬ s.pos.margin.marginAvailable < 0 := not_lt.mpr h.margin
  simp [validate, checkFatFinger, checkPosition, checkMargin, config, signal, kMaxInstruments, hmargin]

theorem signalFlow_buy (h : Climbed k s) (qty : ℤ) (hqty : qty ≠ 0) (hfree : s.pool.parentFree = pid :: free)
    (hsplit : signalSplit ladder (signal .buy qty false) (ladderContext qty) ≠ []) :
    signalFlow config ladder (signal .buy qty false) s =
      .dispatching (reserved ladder (signal .buy qty false) pid free s) pid
        (signalSplit ladder (signal .buy qty false) (ladderContext qty)) (ladderContext qty) := by
  have hctx := admittedContext_buy h pid free qty
  have heff := effectiveQty_buy h qty
  have hflow := signalFlow_of_ok config ladder (signal .buy qty false) rfl hfree (by rw [heff]; exact hqty)
    (by rw [heff]; exact validate_buy h qty) (by rw [hctx]; exact hsplit)
  rw [hctx] at hflow
  exact hflow

/-- One more purchase of sixteen lots takes one parent and sixteen children. -/
theorem climb (h : Climbed k s) (hk : k < 2048) :
    Climbed (k + 1) (onStrategyOrder config ladder (signal .buy 16 false) s) := by
  have hlen : (signalSplit ladder (signal .buy 16 false) (ladderContext 16)).length = 16 := by decide +kernel
  have hsplit : signalSplit ladder (signal .buy 16 false) (ladderContext 16) ≠ [] :=
    List.ne_nil_of_length_pos (by rw [hlen]; decide)
  have hparents := h.parents
  have hchildren := h.children
  have hmax : kMaxParentOrders = 4096 ∧ kMaxTotalChildren = 32768 := ⟨rfl, rfl⟩
  obtain ⟨pid, free, hfree⟩ := List.exists_cons_of_length_pos (show 0 < s.pool.parentFree.length by omega)
  have hcount : ((reserved ladder (signal .buy 16 false) pid free s).pool.parents pid).childCount = 0 := by
    rw [reserved_record]
    rfl
  have hroom : (signalSplit ladder (signal .buy 16 false) (ladderContext 16)).length ≤
      (reserved ladder (signal .buy 16 false) pid free s).pool.childFree.length := by
    rw [hlen]
    change 16 ≤ s.pool.childFree.length
    omega
  have hsent := dispatchChildOrders_sent config ladder (ladderContext 16) hsplit hcount
    (by rw [hlen]; decide) hroom
  rw [hlen] at hsent
  rw [onStrategyOrder, signalFlow_buy h 16 (by decide) hfree hsplit]
  refine ⟨?_, ?_, ?_, ?_⟩
  · have hrest : free.length + 1 = s.pool.parentFree.length := by rw [hfree]; rfl
    change (dispatchChildOrders _ _ _ _ _ _).pool.parentFree.length + _ = _
    rw [hsent.parentFree]
    change free.length + _ = _
    omega
  · have htaken := hsent.childFree
    change (dispatchChildOrders _ _ _ _ _ _).pool.childFree.length + _ = _
    change _ = s.pool.childFree.length at htaken
    omega
  · change ((dispatchChildOrders _ _ _ _ _ _).pos.instruments 0).unwindOnly = false
    have hpos : (reserved ladder (signal .buy 16 false) pid free s).pos.instruments 0 =
        (s.pos.instruments 0).reserveOpen .buy (effectiveQty (signal .buy 16 false) s.pos) := by
      simp [reserved, PositionTable.modify, signal]
    rw [hsent.pos, hpos, reserveOpen_unwindOnly, h.normal]
  · change 0 ≤ (dispatchChildOrders _ _ _ _ _ _).pos.margin.marginAvailable
    rw [hsent.pos]
    exact h.margin

theorem climbed_replicate (n : ℕ) (hn : k + n ≤ 2048) (h : Climbed k s) :
    Climbed (k + n) (run (step config) s
      (List.replicate n (.call ladder (.signal (signal .buy 16 false))))) := by
  induction n generalizing k s with
  | zero => exact h
  | succ n ih =>
    rw [List.replicate_succ, run_cons, show k + (n + 1) = k + 1 + n by omega]
    exact ih (by omega) (climb h (by omega))

/-- With all children out, a purchase of twenty lots of which the venue offers sixteen dies and
leaves four lots reserved. -/
theorem dies_reserved (h : Climbed 2048 s) :
    SignalDies config ladder (signal .buy 20 false) s ∧
    ¬ NoTrace ladder (signal .buy 20 false) s (onStrategyOrder config ladder (signal .buy 20 false) s) := by
  have hmax : kMaxParentOrders = 4096 ∧ kMaxTotalChildren = 32768 := ⟨rfl, rfl⟩
  have hparents := h.parents
  have hchildren := h.children
  obtain ⟨pid, free, hfree⟩ := List.exists_cons_of_length_pos (show 0 < s.pool.parentFree.length by omega)
  have hnone : s.pool.childFree = [] := List.length_eq_zero_iff.mp (by omega)
  have hgap : gapLots (ladderContext 20)
      (signalSplit ladder (signal .buy 20 false) (ladderContext 20)) = 16 := by decide +kernel
  have hsplit : signalSplit ladder (signal .buy 20 false) (ladderContext 20) ≠ [] := by decide +kernel
  have heff := effectiveQty_buy h 20
  have hflow := signalFlow_buy h 20 (by decide) hfree hsplit
  have hcount : ((reserved ladder (signal .buy 20 false) pid free s).pool.parents pid).childCount = 0 := by
    rw [reserved_record]
    rfl
  have hexit := dispatchEmpty_exit config ladder (signal .buy 20 false) (ladderContext 20) hfree hnone hsplit
  constructor
  · have hnone' : (reserved ladder (signal .buy 20 false) pid free s).pool.childFree = [] := hnone
    simp only [SignalDies, Flow.Dies, hflow, dispatchLoop_childless _ _ _ hsplit hnone' hcount,
      allocChild_parents, hcount]
  · intro hclean
    rw [onStrategyOrder, hflow] at hclean
    have hiff := (hexit.noTrace_iff (by rw [heff]; decide)).mp hclean
    rw [heff, hgap] at hiff
    exact absurd hiff.1 (by decide)

end Climb

def climbRun : List Event := List.replicate 2048 (.call ladder (.signal (signal .buy 16 false)))

theorem climbed_climbRun : Climbed 2048 (run (step config) (start 0) climbRun) := by
  have h := climbed_replicate 2048 (by omega) climbed_start
  rwa [zero_add] at h

end Sample

/-- Ordinary purchases lead to a state in which a signal dies and leaves a reservation behind. -/
theorem deadSignal_keepsReservation :
    SignalDies Sample.config Sample.ladder (Sample.signal .buy 20 false)
      (run (step Sample.config) (Sample.start 0) Sample.climbRun) ∧
    ¬ NoTrace Sample.ladder (Sample.signal .buy 20 false)
      (run (step Sample.config) (Sample.start 0) Sample.climbRun)
      (onStrategyOrder Sample.config Sample.ladder (Sample.signal .buy 20 false)
        (run (step Sample.config) (Sample.start 0) Sample.climbRun)) :=
  Sample.dies_reserved Sample.climbed_climbRun

end OmsFormal.Oms
