import OmsFormal.UnwindMode
import OmsFormal.RouteOrigins

/-!
# What a call dispatches

A call that reaches `dispatch_child_orders` is either a fresh signal with the
split of its own request or a reroute with a split of the leaves. Both read the
terms of the parent, which no handler changes after the parent is opened.
-/

namespace OmsFormal.Oms
open Sor Rounding OMSOrderPool
set_option autoImplicit false

/-- What a parent was opened for. -/
structure OrderTerms where
  instrId : ℕ
  dir : OrderDir
  limitPrice : ℤ
  deriving DecidableEq

def ParentOrder.terms (p : ParentOrder) : OrderTerms := ⟨p.instrId, p.dir, p.limitPrice⟩

def SameTerms (s s' : Core) : Prop := ∀ q, (s'.pool.parents q).terms = (s.pool.parents q).terms

section Terms
variable {s s' s'' : Core} {pid : ℕ}

theorem SameTerms.refl (s : Core) : SameTerms s s := fun _ => rfl

theorem SameTerms.trans (h : SameTerms s s') (h' : SameTerms s' s'') : SameTerms s s'' :=
  fun q => (h' q).trans (h q)

theorem SameTerms.of_parents (h : s'.pool.parents = s.pool.parents) : SameTerms s s' := by
  intro q
  rw [h]

theorem SameTerms.of_update (pid : ℕ) (f : ParentOrder → ParentOrder) (hf : ∀ p, (f p).terms = p.terms)
    (h : s'.pool.parents = Function.update s.pool.parents pid (f (s.pool.parents pid))) : SameTerms s s' := by
  intro q
  rw [h]
  by_cases hq : q = pid
  · rw [hq, Function.update_self, hf]
  · rw [Function.update_of_ne hq]

theorem setParentState_terms (pid : ℕ) (st : OrderState) : SameTerms s (s.setParentState pid st) :=
  SameTerms.of_update pid (fun p => { p with state := st }) (fun _ => rfl) rfl

theorem bookFill_terms (cfg : ExecCoreConfig) (w : World) (cid : ℕ) (rep : ExecutionReport) :
    SameTerms s (bookFill cfg w cid pid rep s) := by
  refine SameTerms.of_update pid (ParentOrder.fill (toCanonicalLots cfg w (s.pool.children cid)
    (s.pool.parents pid).instrId rep.fillQtyLots) (rep.fillPriceTicks *
    (w.states (s.pool.children cid).exchangeId).book.tickSize)
    (cfg.instruments.lotSize (s.pool.parents pid).instrId) rep.recvNs) (fun _ => rfl) rfl

theorem bookCancel_terms (cfg : ExecCoreConfig) (w : World) (cid : ℕ) (rep : ExecutionReport) :
    SameTerms s (bookCancel cfg w cid pid rep s) :=
  SameTerms.of_update pid (fun p => { p with lastUpdateNs := rep.recvNs }) (fun _ => rfl) rfl

theorem trimmed_terms : ((trimmed pid s).pool.parents pid).terms = (s.pool.parents pid).terms := by
  rw [trimmed_record]
  rfl

end Terms

section Calls
variable {cfg : ExecCoreConfig} {w : World}

theorem micro_terms {a b : Phase × Core} (h : Micro cfg w a b) : SameTerms a.2 b.2 := by
  cases h with
  | mark => exact setParentState_terms _ _
  | @close pid s _ =>
    refine SameTerms.of_update pid (fun p => { p with state := .filled }) (fun _ => rfl) ?_
    simp only [closeFilled, freeParent_parents, freeSlots_parents]
    rfl
  | keep => exact SameTerms.refl _
  | @trim pid s _ _ =>
    refine SameTerms.of_update pid
      (fun p => ParentOrder.giveUp (excessLots pid s) { p with childCount := 0, childMask := 0 })
      (fun _ => rfl) ?_
    simp only [trimmed_eq, releaseChildren, modifyParent_parents, freeSlots_parents, Function.update_idem,
      Function.update_self]
  | @reduced pid ctx s _ _ => exact SameTerms.trans (setParentState_terms _ _) (SameTerms.of_parents rfl)
  | @noLiquidity pid ctx s _ => exact SameTerms.trans (setParentState_terms _ _) (SameTerms.of_parents rfl)
  | route => exact setParentState_terms _ _
  | @send pid cid ctx co rest free s _ _ =>
    exact SameTerms.of_update pid (ParentOrder.addChild (s.pool.parents pid).childCount cid)
      (fun _ => rfl) rfl
  | allocFailed hfree =>
    refine SameTerms.of_parents ?_
    simp only [allocChild, hfree]
  | sent => exact SameTerms.of_parents (by simp only [releaseGap_pool])
  | @noneSent pid ctx rest s _ =>
    refine SameTerms.trans (SameTerms.of_parents (by simp only [releaseGap_pool]))
      (SameTerms.trans (setParentState_terms pid _) (SameTerms.of_parents rfl))

theorem steps_terms {a b : Phase × Core} (h : Steps cfg w a b) : SameTerms a.2 b.2 :=
  h.invariant (J := fun b => SameTerms a.2 b.2) (fun _ _ hmicro hb => hb.trans (micro_terms hmicro))
    (SameTerms.refl _)

theorem reportEntry_terms (rep : ExecutionReport) (s : Core) : SameTerms s (reportEntry cfg w rep s).2 := by
  simp only [reportEntry]
  split
  · exact SameTerms.refl s
  · cases rep.execType with
    | new => exact SameTerms.of_parents rfl
    | partialFill => exact bookFill_terms cfg w rep.childId rep
    | fill => exact bookFill_terms cfg w rep.childId rep
    | canceled => exact bookCancel_terms cfg w rep.childId rep
    | rejected => exact bookCancel_terms cfg w rep.childId rep
    | replaced => exact SameTerms.refl s

theorem Call.entry_terms {c : Call} (hc : ∀ sig, c ≠ .signal sig) (s : Core) :
    SameTerms s (c.entry cfg w s).2 := by
  cases c with
  | signal sig => exact absurd rfl (hc sig)
  | report rep => exact reportEntry_terms rep s
  | visit slot idx =>
    simp only [Call.entry]
    cases s.timerWheel.entryAt slot idx with
    | none => exact SameTerms.refl s
    | some e =>
      simp only [timeoutEntry]
      split
      · exact SameTerms.trans (SameTerms.of_parents rfl) (reportEntry_terms _ _)
      · exact SameTerms.of_parents rfl

theorem Call.apply_terms {c : Call} (hc : ∀ sig, c ≠ .signal sig) (s : Core) :
    SameTerms s (c.apply cfg w s) := by
  have hsteps : SameTerms (c.entry cfg w s).2 (c.apply cfg w s) := steps_terms (call_steps c)
  exact SameTerms.trans (c.entry_terms hc s) hsteps

/-- A signal that is dispatched opens its parent with its own terms and changes no other. -/
theorem onStrategyOrder_terms {sig : StrategyOrderSignal} {s s1 : Core} {pid : ℕ} {buf : List ChildOrder}
    {ctx : RoutingContext} (h : signalFlow cfg w sig s = .dispatching s1 pid buf ctx) :
    SameTerms s1 (onStrategyOrder cfg w sig s) := by
  have hsteps : Steps cfg w (signalFlow cfg w sig s).entry (.idle, onStrategyOrder cfg w sig s) :=
    signal_steps sig
  rw [h] at hsteps
  exact steps_terms hsteps

end Calls

section Orders
variable {cfg : ExecCoreConfig} {w : World} {pid : ℕ} {ctx : RoutingContext}

theorem mem_dispatchedOrders {o : OutboundOrder} (i : ℕ) (buf : List ChildOrder) (s : Core)
    (h : o ∈ dispatchedOrders cfg w pid ctx i buf s) :
    ∃ co ∈ buf, ∃ p cid, o = outboundOrder (newChild w p ctx cid co) (s.pool.parents pid).instrId := by
  induction buf generalizing i s with
  | nil => cases h
  | cons co rest ih =>
    simp only [dispatchedOrders] at h
    split at h
    · cases h
    · cases hfree : s.pool.childFree with
      | nil =>
        simp only [allocChild, hfree] at h
        cases h
      | cons cid free =>
        simp only [allocChild, hfree] at h
        rcases List.mem_cons.mp h with rfl | h
        · exact ⟨co, List.mem_cons_self, _, cid, rfl⟩
        · obtain ⟨co', hmem, p, cid', heq⟩ := ih _ _ h
          refine ⟨co', List.mem_cons_of_mem co hmem, p, cid', ?_⟩
          simpa [dispatchOne, ParentOrder.addChild] using heq

end Orders

section Flow
variable (cfg : ExecCoreConfig) (w : World)

/-- The dispatch of a fresh signal. -/
structure FirstSend (sig : StrategyOrderSignal) (s s1 : Core) (pid : ℕ) (buf : List ChildOrder)
    (ctx : RoutingContext) : Prop where
  opened : ∃ free, s.pool.parentFree = pid :: free ∧ s1 = reserved w sig pid free s ∧
    ctx = admittedContext cfg w sig pid free s
  split : buf = signalSplit w sig ctx
  instr : sig.instrId < kMaxInstruments

/-- The dispatch of a reroute. -/
structure Resend (s s1 : Core) (pid : ℕ) (buf : List ChildOrder) (ctx : RoutingContext) : Prop where
  booked : ∃ s0, SameTerms s s0 ∧ s1 = (trimmed pid s0).setParentState pid .pendingNew ∧
    ctx = trimmedContext cfg w pid s0
  split : buf = w.router.optimalSplit ctx

variable {cfg w} {s s1 : Core} {pid : ℕ} {buf : List ChildOrder} {ctx : RoutingContext}

theorem FirstSend.terms {sig : StrategyOrderSignal} (h : FirstSend cfg w sig s s1 pid buf ctx) :
    (s1.pool.parents pid).terms = ⟨sig.instrId, sig.dir,
      if sig.limitPriceUsd > 0 then toTicks sig.limitPriceUsd (w.states 0).book.tickSize else 0⟩ := by
  obtain ⟨free, -, rfl, -⟩ := h.opened
  rw [reserved_record]
  rfl

theorem Resend.terms (h : Resend cfg w s s1 pid buf ctx) :
    (s1.pool.parents pid).terms = (s.pool.parents pid).terms := by
  obtain ⟨s0, hsame, rfl, -⟩ := h.booked
  rw [setParentState_terms, trimmed_terms, hsame]

theorem Resend.of_terms {s' : Core} (h : Resend cfg w s' s1 pid buf ctx) (hsame : SameTerms s s') :
    Resend cfg w s s1 pid buf ctx := by
  obtain ⟨s0, hbooked, hs1, hctx⟩ := h.booked
  exact ⟨⟨s0, hsame.trans hbooked, hs1, hctx⟩, h.split⟩

/-- The request of a dispatch, in the terms of its parent. -/
structure Requested (cfg : ExecCoreConfig) (w : World) (terms : OrderTerms) (ctx : RoutingContext) :
    Prop where
  states : ctx.states = w.states
  active : ctx.activeExchanges = cfg.activeExchanges
  dir : ctx.dir = terms.dir
  limit : ctx.limitPrice = if terms.limitPrice > 0 then terms.limitPrice * (w.states 0).book.tickSize else 0
  unit : resolveReferenceLotSize ctx = cfg.instruments.lotSize terms.instrId

theorem FirstSend.requested {sig : StrategyOrderSignal} (h : FirstSend cfg w sig s s1 pid buf ctx) :
    Requested cfg w (s1.pool.parents pid).terms ctx := by
  have hterms := h.terms
  obtain ⟨free, -, -, rfl⟩ := h.opened
  rw [hterms]
  refine ⟨rfl, rfl, ?_, ?_, ?_⟩
  · simp [admittedContext, signalContext, buildRoutingContext, admitted, openParent,
      ParentOrder.setQuantity, ParentOrder.copySignal]
  · simp [admittedContext, signalContext, buildRoutingContext, admitted, openParent,
      ParentOrder.setQuantity, ParentOrder.copySignal]
  · rw [(admittedContext_routeFor free).resolve]
    simp [admitted, openParent, ParentOrder.setQuantity, ParentOrder.copySignal]

theorem Resend.requested (h : Resend cfg w s s1 pid buf ctx) :
    Requested cfg w (s1.pool.parents pid).terms ctx := by
  obtain ⟨s0, -, rfl, rfl⟩ := h.booked
  rw [setParentState_terms, trimmed_terms]
  refine ⟨rfl, rfl, rfl, rfl, ?_⟩
  rw [(trimmedContext_routeFor s0).resolve]
  exact congrArg (fun t : OrderTerms => cfg.instruments.lotSize t.instrId) (trimmed_terms (s := s0))

theorem signalFlow_dispatching {sig : StrategyOrderSignal}
    (h : signalFlow cfg w sig s = .dispatching s1 pid buf ctx) : FirstSend cfg w sig s s1 pid buf ctx := by
  rcases signal_cases cfg w sig s with ⟨s', hflow, -⟩ | ⟨p, free, hfree, hinstr, -, -, hflow⟩
  · rw [hflow] at h
    cases h
  · rw [hflow] at h
    cases h
    exact ⟨⟨free, hfree, rfl, rfl⟩, rfl, hinstr⟩

theorem rerouteLeaves_dispatching {p : ℕ} (h : rerouteLeaves cfg w p s = .dispatching s1 pid buf ctx) :
    p = pid ∧ Resend cfg w s s1 pid buf ctx := by
  have hsat : (rerouteLeaves cfg w p s).Sat p (fun _ => True) fun s1 buf ctx => Resend cfg w s s1 p buf ctx :=
    rerouteLeaves_sat (fun _ _ => trivial) (fun _ => trivial) fun _ _ =>
      ⟨⟨s, SameTerms.refl s, rfl, rfl⟩, rfl⟩
  rw [h] at hsat
  obtain ⟨rfl, hresend⟩ := hsat
  exact ⟨rfl, hresend⟩

theorem Flow.Reroutes.resend {p : ℕ} {b : Core} (h : (Flow.dispatching s1 pid buf ctx).Reroutes cfg w p b) :
    p = pid ∧ Resend cfg w b s1 pid buf ctx := by
  rcases h.leaves with h | h
  · exact rerouteLeaves_dispatching h
  · obtain ⟨hpid, hresend⟩ := rerouteLeaves_dispatching h
    exact ⟨hpid, hresend.of_terms (setParentState_terms _ _)⟩

theorem Call.dispatch_cases {c : Call} (h : c.flow cfg w s = .dispatching s1 pid buf ctx) :
    (∃ sig, c = .signal sig ∧ FirstSend cfg w sig s s1 pid buf ctx) ∨
    (c.subject s = some pid ∧ Resend cfg w s s1 pid buf ctx) := by
  by_cases hc : ∃ sig, c = .signal sig
  · obtain ⟨sig, rfl⟩ := hc
    exact Or.inl ⟨sig, rfl, signalFlow_dispatching h⟩
  · have hnot : ∀ sig, c ≠ .signal sig := fun sig heq => hc ⟨sig, heq⟩
    obtain ⟨p, b, hsubject, hentry, hreroutes⟩ := Call.flow_reroutes hnot h
    obtain ⟨rfl, hresend⟩ := hreroutes.resend
    have hterms : SameTerms s (c.entry cfg w s).2 := c.entry_terms hnot s
    rw [hentry] at hterms
    exact Or.inr ⟨hsubject, hresend.of_terms hterms⟩

end Flow

end OmsFormal.Oms
