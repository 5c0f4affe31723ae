import OmsFormal.ReduceOnly
import OmsFormal.RerouteEntries
import OmsFormal.RoutingSoundness

/-!
# The unwind switch

Operations can switch an instrument to unwind-only at any time. A dispatch under
the switch should only reduce the position and never by more than all of it.
The first dispatch clamps against the live switch; a reroute clamps only parents
whose flag was captured at signal time. Nothing here depends on the reports being
well formed.
-/

namespace OmsFormal.Oms
open Sor Rounding OMSOrderPool GuardedRun
set_option autoImplicit false

section Handed
variable (cfg : ExecCoreConfig) (w : World)

def dispatchedOrders (pid : ℕ) (ctx : RoutingContext) : ℕ → List ChildOrder → Core → List OutboundOrder
  | _, [], _ => []
  | i, co :: rest, s =>
    if (s.pool.parents pid).childCount ≥ ParentOrder.kMaxChildrenPerParent then []
    else
      match s.pool.allocChild with
      | (none, _) => []
      | (some cid, pool) =>
        let parent := pool.parents pid
        outboundOrder (newChild w parent.parentId ctx cid co) parent.instrId ::
          dispatchedOrders pid ctx (i + 1) rest (dispatchOne cfg w pid ctx i cid co { s with pool := pool })

/-- The quantity of an order in canonical lots of its instrument. -/
def OutboundOrder.canonicalLots (o : OutboundOrder) : ℚ :=
  o.qtyLots * (w.states o.exchangeId).book.lotSize / cfg.instruments.lotSize o.instrId

/-- Canonical lots one dispatch hands to the gateways. -/
def handedLots (pid : ℕ) (buf : List ChildOrder) (ctx : RoutingContext) (s : Core) : ℚ :=
  ((dispatchedOrders cfg w pid ctx 0 buf s).map (OutboundOrder.canonicalLots cfg w)).sum

variable {cfg w} {pid : ℕ} {ctx : RoutingContext}

/-- The dispatch loop pushes exactly the listed orders. -/
theorem dispatchLoop_gateways (i : ℕ) (buf : List ChildOrder) (s : Core) :
    (dispatchLoop cfg w pid ctx i buf s).1.gateways =
      (dispatchedOrders cfg w pid ctx i buf s).foldl (fun g o => pushOutbound cfg o g) s.gateways := by
  induction buf generalizing i s with
  | nil => rfl
  | cons co rest ih =>
    simp only [dispatchLoop, dispatchedOrders]
    split
    · rfl
    · generalize s.pool.allocChild = alloc
      obtain ⟨_ | cid, pool⟩ := alloc
      · rfl
      · simp only [ih, List.foldl_cons]
        rfl

theorem dispatchChildOrders_gateways (buf : List ChildOrder) (s : Core) :
    (dispatchChildOrders cfg w pid buf ctx s).gateways =
      (dispatchedOrders cfg w pid ctx 0 buf s).foldl (fun g o => pushOutbound cfg o g) s.gateways := by
  rw [← dispatchLoop_gateways]
  simp only [dispatchChildOrders]
  split
  · exact releaseGap_gateways _ _
  · exact releaseGap_gateways _ _

/-- Rounding to native lots never hands out more than the split asks for. -/
theorem handed_le_demanded (i : ℕ) (buf : List ChildOrder) (s : Core) :
    ((dispatchedOrders cfg w pid ctx i buf s).map (OutboundOrder.canonicalLots cfg w)).sum ≤
      demandedLots (cfg.instruments.lotSize (s.pool.parents pid).instrId) buf := by
  have href := cfg.instruments.lotSize_pos (s.pool.parents pid).instrId
  induction buf generalizing i s with
  | nil => exact le_rfl
  | cons co rest ih =>
    have hrest : 0 ≤ demandedLots (cfg.instruments.lotSize (s.pool.parents pid).instrId) (co :: rest) := by
      apply List.sum_nonneg
      intro x hx
      obtain ⟨co', _, rfl⟩ := List.mem_map.mp hx
      exact le_max_right _ _
    simp only [dispatchedOrders]
    split
    · exact hrest
    · cases hfree : s.pool.childFree with
      | nil =>
        simp only [allocChild, hfree]
        exact hrest
      | cons cid free =>
        simp only [allocChild, hfree, List.map_cons, List.sum_cons, demandedLots]
        refine add_le_add ?_ ?_
        · have hone := truncate_div_mul_le co.qty (w.states co.exchangeId).book.lotSize
          have hmax : max co.qty 0 / cfg.instruments.lotSize (s.pool.parents pid).instrId =
              max (co.qty / cfg.instruments.lotSize (s.pool.parents pid).instrId) 0 := by
            rw [← max_div_div_right href.le, zero_div]
          rw [← hmax]
          exact div_le_div_of_nonneg_right hone href.le
        · refine (ih (i + 1) _ ?_).trans_eq ?_
          · simpa [dispatchOne, ParentOrder.addChild] using href
          · simp [dispatchOne, ParentOrder.addChild, demandedLots]

end Handed

section Property
variable (cfg : ExecCoreConfig) (w : World)

/-- What the switch asks of a dispatch: only reduce, and by no more than the position. -/
def UnwindBound (pid : ℕ) (s : Core) (buf : List ChildOrder) (ctx : RoutingContext) : Prop :=
  let parent := s.pool.parents pid
  let p := s.pos.instruments parent.instrId
  parent.instrId < kMaxInstruments → p.unwindOnly = true →
    reducesSomething parent.dir p.netQtyLots = true ∧ handedLots cfg w pid buf ctx s ≤ |p.netQtyLots|

def Flow.Unwinds : Flow → Prop
  | .finished _ => True
  | .dispatching s pid buf ctx => UnwindBound cfg w pid s buf ctx

/-- Whatever a call dispatches respects the switch. -/
def Event.Unwinds : Event → Core → Prop
  | .call w c, s => (c.flow cfg w s).Unwinds cfg w
  | .env _, _ => True

/-- A reroute under the switch has a parent that is clamped, against a counter that is not
negative, or that reduces the position and fits into it as it is. -/
def RerouteUnwinds (pid : ℕ) (s : Core) : Prop :=
  let parent := s.pool.parents pid
  let p := s.pos.instruments parent.instrId
  p.unwindOnly = true →
    (parent.reduceOnly = true ∨ reducesSomething parent.dir p.netQtyLots = true) ∧
    (parent.reduceOnly = true ∧ 0 ≤ p.openLots parent.dir ∨ parent.leavesQtyLots ≤ |p.netQtyLots|)

/-- A signal under the switch meets a counter that is not negative, or fits into the position. -/
def SignalUnwinds (sig : StrategyOrderSignal) (s : Core) : Prop :=
  let p := s.pos.instruments sig.instrId
  p.unwindOnly = true → 0 ≤ p.openLots sig.dir ∨ sig.qtyLots ≤ |p.netQtyLots|

def Call.UnwindSafe (c : Call) (s : Core) : Prop :=
  match c with
  | .signal sig => SignalUnwinds sig s
  | .report _ => c.OnReroute cfg w RerouteUnwinds s
  | .visit _ _ => c.OnReroute cfg w RerouteUnwinds s

/-- The call asks the real router, and reaches the switch with its counters in order. -/
def Event.UnwindSafe : Event → Core → Prop
  | .call w c, s => (∃ eng : RoutingEngine, w.router = eng.router) ∧ c.UnwindSafe cfg w s
  | .env _, _ => True

end Property

variable {cfg : ExecCoreConfig} {w : World} {s : Core} {pid : ℕ}

theorem Flow.Sat.unwinds {flow : Flow}
    (h : flow.Sat pid (fun _ => True) (UnwindBound cfg w pid)) : flow.Unwinds cfg w := by
  cases flow with
  | finished s => exact trivial
  | dispatching s p buf ctx =>
    obtain ⟨rfl, hbound⟩ := h
    exact hbound

/-- A dispatch whose split stays within a target that the position covers. -/
theorem unwindBound_of_target {buf : List ChildOrder} {ctx : RoutingContext} (target : ℤ)
    (hdemand : demandedLots (cfg.instruments.lotSize (s.pool.parents pid).instrId) buf ≤
      ((max target 0 : ℤ) : ℚ))
    (hspec : (s.pool.parents pid).instrId < kMaxInstruments →
      (s.pos.instruments (s.pool.parents pid).instrId).unwindOnly = true →
      reducesSomething (s.pool.parents pid).dir
        (s.pos.instruments (s.pool.parents pid).instrId).netQtyLots = true ∧
      target ≤ |(s.pos.instruments (s.pool.parents pid).instrId).netQtyLots|) :
    UnwindBound cfg w pid s buf ctx := by
  intro hinstr hswitch
  obtain ⟨hreduces, hle⟩ := hspec hinstr hswitch
  refine ⟨hreduces, ((handed_le_demanded 0 buf s).trans hdemand).trans ?_⟩
  exact_mod_cast max_le hle (abs_nonneg _)

@[simp] theorem releaseOpen_unwindOnly (dir : OrderDir) (lots : ℤ) (p : InstrumentPosition) :
    (p.releaseOpen dir lots).unwindOnly = p.unwindOnly := by
  cases dir <;> rfl

@[simp] theorem reserveOpen_unwindOnly (dir : OrderDir) (lots : ℤ) (p : InstrumentPosition) :
    (p.reserveOpen dir lots).unwindOnly = p.unwindOnly := by
  cases dir <;> rfl

/-- Under the switch the clamp lets through no more than the position, unless the counter is
negative. -/
theorem clamp_le_abs {pos : PositionTable} {instr : ℕ} {dir : OrderDir} {qty : ℤ} {flag : Bool}
    (hinstr : instr < kMaxInstruments) (hforce : flag = true ∨ (pos.instruments instr).unwindOnly = true)
    (hne : clampReduceOnly pos instr dir qty flag ≠ 0)
    (hroom : 0 ≤ (pos.instruments instr).openLots dir ∨ qty ≤ |(pos.instruments instr).netQtyLots|) :
    reducesSomething dir (pos.instruments instr).netQtyLots = true ∧
    clampReduceOnly pos instr dir qty flag ≤ |(pos.instruments instr).netQtyLots| := by
  obtain ⟨hreduces, hle⟩ := clampReduceOnly_spec hinstr hforce hne
  refine ⟨hreduces, ?_⟩
  rw [abs_of_reduces hreduces] at hle
  rcases hroom with hopen | hqty
  · omega
  · exact (clampReduceOnly_le hne).trans hqty

theorem signalSplit_demanded (sig : StrategyOrderSignal) {eng : RoutingEngine} (hreal : w.router = eng.router)
    {ctx : RoutingContext} (hr : 0 < resolveReferenceLotSize ctx) :
    demandedLots (resolveReferenceLotSize ctx) (signalSplit w sig ctx) ≤ max ctx.targetLots 0 := by
  unfold signalSplit
  rw [hreal]
  split
  · exact makerPlacement_demanded eng hr
  · exact optimalSplit_demanded eng hr

theorem signalFlow_unwinds {sig : StrategyOrderSignal} {eng : RoutingEngine} (hreal : w.router = eng.router)
    (hsafe : SignalUnwinds sig s) : (signalFlow cfg w sig s).Unwinds cfg w := by
  rcases signal_cases cfg w sig s with ⟨s', hflow, _⟩ | ⟨pid, free, _, hin, hqty, _, hflow⟩
  · rw [hflow]
    exact trivial
  · have hrec := reserved_record w s sig pid free
    have hpos : (reserved w sig pid free s).pos.instruments sig.instrId =
        (s.pos.instruments sig.instrId).reserveOpen sig.dir (effectiveQty sig s.pos) :=
      Function.update_self _ _ _
    have hinstr : ((reserved w sig pid free s).pool.parents pid).instrId = sig.instrId := by rw [hrec]; rfl
    have href : resolveReferenceLotSize (admittedContext cfg w sig pid free s) =
        cfg.instruments.lotSize sig.instrId := by
      rw [(admittedContext_routeFor free).resolve]
      simp [admitted, openParent, ParentOrder.setQuantity, ParentOrder.copySignal]
    have hdemand := signalSplit_demanded sig hreal (href ▸ cfg.instruments.lotSize_pos _)
    rw [hflow]
    refine unwindBound_of_target (effectiveQty sig s.pos) ?_ ?_
    · rw [hinstr, ← href]
      exact_mod_cast hdemand
    · rw [hrec]
      simp only [ParentOrder.setQuantity, ParentOrder.copySignal, hpos, reserveOpen_unwindOnly,
        reserveOpen_net]
      intro _ hswitch
      exact clamp_le_abs hin (Or.inr hswitch) hqty (hsafe hswitch)

theorem trimmed_leaves_le {target : ℤ} (hinstr : (s.pool.parents pid).instrId < kMaxInstruments)
    (hswitch : (s.pos.instruments (s.pool.parents pid).instrId).unwindOnly = true)
    (htarget : target = (s.pool.parents pid).leavesQtyLots - excessLots pid s) (hpos : 1 ≤ target)
    (hsafe : RerouteUnwinds pid s) :
    reducesSomething (s.pool.parents pid).dir
      (s.pos.instruments (s.pool.parents pid).instrId).netQtyLots = true ∧
    target ≤ |(s.pos.instruments (s.pool.parents pid).instrId).netQtyLots| := by
  obtain ⟨hdir, hroom⟩ := hsafe hswitch
  cases hflag : (s.pool.parents pid).reduceOnly with
  | true =>
    simp only [excessLots, hflag, if_true, sub_sub_cancel] at htarget
    have hle : target ≤ clampReduceOnly s.pos (s.pool.parents pid).instrId (s.pool.parents pid).dir
        (s.pool.parents pid).leavesQtyLots true := htarget ▸ min_le_right _ _
    obtain ⟨hreduces, hclamp⟩ := clamp_le_abs hinstr (Or.inl rfl)
      (by omega) (hroom.imp And.right id)
    exact ⟨hreduces, hle.trans hclamp⟩
  | false =>
    simp only [excessLots, hflag, Bool.false_eq_true, if_false, sub_zero, false_or, false_and]
      at htarget hdir hroom
    exact ⟨hdir, htarget ▸ hroom⟩

theorem rerouteLeaves_unwinds {eng : RoutingEngine} (hreal : w.router = eng.router)
    (hsafe : RerouteUnwinds pid s) : (rerouteLeaves cfg w pid s).Unwinds cfg w := by
  refine Flow.Sat.unwinds (rerouteLeaves_sat (fun _ _ => trivial) (fun _ => trivial) fun _ hsplit => ?_)
  have hroute : RouteFor cfg w pid (trimmedContext cfg w pid s) (trimmed pid s) := trimmedContext_routeFor s
  have hrec := trimmed_record pid s
  have hinstr : ((trimmed pid s).pool.parents pid).instrId = (s.pool.parents pid).instrId := by rw [hrec]; rfl
  have hr : 0 < resolveReferenceLotSize (trimmedContext cfg w pid s) :=
    hroute.resolve ▸ cfg.instruments.lotSize_pos _
  have htarget : (trimmedContext cfg w pid s).targetLots =
      (s.pool.parents pid).leavesQtyLots - excessLots pid s := by
    rw [hroute.target, hrec]
    rfl
  rw [hreal] at hsplit ⊢
  have hone := optimalSplit_target eng hr hsplit
  have hdemand := optimalSplit_demanded eng hr
  have hpos : (trimmed pid s).pos.instruments (s.pool.parents pid).instrId =
      (s.pos.instruments (s.pool.parents pid).instrId).releaseOpen (s.pool.parents pid).dir
        (excessLots pid s) := by
    rw [trimmed_eq]
    exact Function.update_self _ _ _
  refine unwindBound_of_target (trimmedContext cfg w pid s).targetLots ?_ ?_
  · simp only [Core.setParentState, modifyParent_parents, Function.update_self]
    rw [← hroute.resolve]
    exact_mod_cast hdemand
  · simp only [Core.setParentState, modifyParent_parents, Function.update_self, hrec,
      ParentOrder.giveUp, hpos,
      releaseOpen_unwindOnly, releaseOpen_net]
    intro hin hswitch
    exact trimmed_leaves_le hin hswitch htarget hone hsafe

/-- Marking the parent changes nothing the switch looks at. -/
theorem RerouteUnwinds.mark {st : OrderState} (h : RerouteUnwinds pid s) :
    RerouteUnwinds pid (s.setParentState pid st) := by
  simpa [RerouteUnwinds, Core.setParentState] using h

theorem Flow.Reroutes.unwinds {b : Core} {flow : Flow} {eng : RoutingEngine} (hreal : w.router = eng.router)
    (h : flow.Reroutes cfg w pid b) (hsafe : RerouteUnwinds pid b) : flow.Unwinds cfg w := by
  rcases h.leaves with rfl | rfl
  · exact rerouteLeaves_unwinds hreal hsafe
  · exact rerouteLeaves_unwinds hreal hsafe.mark

theorem Call.OnReroute.unwinds {c : Call} {eng : RoutingEngine} (hreal : w.router = eng.router)
    (hc : ∀ sig, c ≠ .signal sig) (hsafe : c.OnReroute cfg w RerouteUnwinds s) :
    (c.flow cfg w s).Unwinds cfg w := by
  cases hflow : c.flow cfg w s with
  | finished s' => exact trivial
  | dispatching s1 p buf ctx =>
    obtain ⟨pid, b, -, hentry, hreroutes⟩ := Call.flow_reroutes hc hflow
    exact hreroutes.unwinds hreal (hsafe.of_entry hentry hreroutes.starts)

theorem event_unwinds {e : Event} (h : e.UnwindSafe cfg s) : e.Unwinds cfg s := by
  cases e with
  | env e => exact trivial
  | call w c =>
    obtain ⟨⟨eng, hreal⟩, hsafe⟩ := h
    cases c with
    | signal sig => exact signalFlow_unwinds hreal hsafe
    | report rep => exact Call.OnReroute.unwinds hreal (fun _ => Call.noConfusion) hsafe
    | visit slot idx => exact Call.OnReroute.unwinds hreal (fun _ => Call.noConfusion) hsafe

section Samples

instance (flow : Flow) : Decidable (flow.Unwinds cfg w) :=
  match flow with
  | .finished _ => inferInstanceAs (Decidable True)
  | .dispatching _ _ _ _ => inferInstanceAs (Decidable (_ → _ → _ ∧ _))

instance (p : ℕ) (s : Core) : Decidable (RerouteUnwinds p s) :=
  inferInstanceAs (Decidable (_ → (_ ∨ _) ∧ (_ ∧ _ ∨ _)))

/-- The switch is thrown while a buy is in the market, and the buy is canceled. -/
def Sample.unwindRun : List Event :=
  [.call (world 9) (.signal (signal .buy 4 false)),
   .env (.setUnwindMode 0 true),
   .call (world 9) (.report (report 0 .canceled 0))]

end Samples

end OmsFormal.Oms
