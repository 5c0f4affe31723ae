import OmsFormal.DispatchCases

/-!
# Quantities on the gateways

Every order a gateway receives should be for at least one native lot. The split
of a taker order never contains an empty or a negative child, but a maker order
is posted in whatever quantity was asked for, and the conversion from canonical
to native lots truncates, so a child that is worth less than one native lot of its
venue goes out with quantity zero.
-/

namespace OmsFormal.Oms
open Sor Rounding OMSOrderPool GuardedRun
set_option autoImplicit false

section Property
variable (cfg : ExecCoreConfig)

def Flow.orders (w : World) : Flow → List OutboundOrder
  | .finished _ => []
  | .dispatching s pid buf ctx => dispatchedOrders cfg w pid ctx 0 buf s

def Event.orders : Event → Core → List OutboundOrder
  | .call w c, s => (c.flow cfg w s).orders cfg w
  | .env _, _ => []

def Event.SendsPositive (e : Event) (s : Core) : Prop := ∀ o ∈ e.orders cfg s, 1 ≤ o.qtyLots

/-- The native lot size an order to venue `ex` of the router is converted with. -/
def World.nativeLot (w : World) (ex : ℕ) : ℚ := (w.states (w.states ex).exchangeId).book.lotSize

/-- Venue `ex` can get an order. -/
def World.Live (w : World) (ex : ℕ) : Prop :=
  ex < cfg.activeExchanges ∧ (w.states ex).enabled = true ∧ (w.states ex).book.isValid = true

/-- A call of the real router over venues with positive lots, in which the smallest child order
the call can make is worth a native lot of every live venue: the whole quantity of a maker
signal, one canonical lot of anything else. -/
structure Call.Sized (w : World) (c : Call) (s : Core) : Prop where
  real : ∃ eng : RoutingEngine, w.router = eng.router
  native : ∀ ex, w.Live cfg ex → 0 < w.nativeLot ex
  signal : ∀ sig, c = .signal sig → ∀ ex, w.Live cfg ex → w.nativeLot ex ≤
    (match sig.orderType with
      | .maker => effectiveQty sig s.pos
      | .taker => 1) * cfg.instruments.lotSize sig.instrId
  reroute : ∀ pid, c.subject s = some pid → ∀ ex, w.Live cfg ex →
    w.nativeLot ex ≤ cfg.instruments.lotSize (s.pool.parents pid).instrId

def Event.Sized : Event → Core → Prop
  | .call w c, s => c.Sized cfg w s
  | .env _, _ => True

end Property

variable {cfg : ExecCoreConfig} {w : World} {s : Core}

theorem one_le_toLots {qty lot : ℚ} (hlot : 0 < lot) (h : lot ≤ qty) : 1 ≤ toLots qty lot := by
  have hone : 1 ≤ qty / lot := (one_le_div hlot).mpr h
  rw [toLots, truncate_of_nonneg (zero_le_one.trans hone)]
  exact Int.le_floor.mpr (by exact_mod_cast hone)

theorem dispatchedOrders_positive {pid : ℕ} {ctx : RoutingContext} {buf : List ChildOrder}
    (h : ∀ co ∈ buf, 0 < (w.states co.exchangeId).book.lotSize ∧
      (w.states co.exchangeId).book.lotSize ≤ co.qty) :
    ∀ o ∈ dispatchedOrders cfg w pid ctx 0 buf s, 1 ≤ o.qtyLots := by
  intro o ho
  obtain ⟨co, hco, p, cid, rfl⟩ := mem_dispatchedOrders 0 buf s ho
  obtain ⟨hpos, hle⟩ := h co hco
  exact one_le_toLots hpos hle

theorem Requested.live {terms : OrderTerms} {ctx : RoutingContext} (h : Requested cfg w terms ctx) {ex : ℕ}
    (hlive : ctx.Live ex) : w.Live cfg ex := by
  obtain ⟨hex, hon⟩ := hlive
  rw [h.active] at hex
  rw [h.states] at hon
  exact ⟨hex, hon⟩

/-- A child of the taker split is worth a native lot where a canonical lot is. -/
theorem taken_sized {terms : OrderTerms} {ctx : RoutingContext} (hreq : Requested cfg w terms ctx)
    (hpos : ∀ ex, w.Live cfg ex → 0 < w.nativeLot ex)
    (hle : ∀ ex, w.Live cfg ex → w.nativeLot ex ≤ cfg.instruments.lotSize terms.instrId) {co : ChildOrder}
    (hco : co.Taken ctx) :
    0 < (w.states co.exchangeId).book.lotSize ∧ (w.states co.exchangeId).book.lotSize ≤ co.qty := by
  obtain ⟨ex, hlive, hid, -⟩ := hco.origin
  obtain ⟨n, hn, hqty⟩ := hco.lots
  have hvenue : (w.states co.exchangeId).book.lotSize = w.nativeLot ex := by
    rw [hid, hreq.states]
    rfl
  have hunit := hle ex (hreq.live hlive)
  have hscale : cfg.instruments.lotSize terms.instrId ≤ n * cfg.instruments.lotSize terms.instrId := by
    refine le_mul_of_one_le_left (cfg.instruments.lotSize_pos _).le ?_
    exact_mod_cast hn
  rw [hvenue, hqty, hreq.unit]
  exact ⟨hpos ex (hreq.live hlive), hunit.trans hscale⟩

theorem posted_sized {terms : OrderTerms} {ctx : RoutingContext} (hreq : Requested cfg w terms ctx)
    (hpos : ∀ ex, w.Live cfg ex → 0 < w.nativeLot ex)
    (hle : ∀ ex, w.Live cfg ex → w.nativeLot ex ≤ ctx.targetLots * cfg.instruments.lotSize terms.instrId)
    {co : ChildOrder} (hco : co.Posted ctx) :
    0 < (w.states co.exchangeId).book.lotSize ∧ (w.states co.exchangeId).book.lotSize ≤ co.qty := by
  obtain ⟨ex, hlive, hid, -⟩ := hco.origin
  have hvenue : (w.states co.exchangeId).book.lotSize = w.nativeLot ex := by
    rw [hid, hreq.states]
    rfl
  rw [hvenue, hco.lots, hreq.unit]
  exact ⟨hpos ex (hreq.live hlive), hle ex (hreq.live hlive)⟩

theorem FirstSend.positive {sig : StrategyOrderSignal} {s1 : Core} {pid : ℕ} {buf : List ChildOrder}
    {ctx : RoutingContext} (h : FirstSend cfg w sig s s1 pid buf ctx)
    (hsized : (Call.signal sig).Sized cfg w s) :
    ∀ o ∈ dispatchedOrders cfg w pid ctx 0 buf s1, 1 ≤ o.qtyLots := by
  obtain ⟨eng, hreal⟩ := hsized.real
  have hreq := h.requested
  have hle := hsized.signal sig rfl
  rw [h.terms] at hreq
  apply dispatchedOrders_positive
  rw [h.split, signalSplit, hreal]
  intro co hco
  cases htype : sig.orderType with
  | maker =>
    rw [htype] at hco hle
    have htarget : ctx.targetLots = effectiveQty sig s.pos := by
      obtain ⟨free, -, -, rfl⟩ := h.opened
      rfl
    exact posted_sized hreq hsized.native (htarget ▸ hle) (makerPlacement_posted eng co hco)
  | taker =>
    rw [htype] at hco hle
    have hr : 0 < resolveReferenceLotSize ctx := hreq.unit ▸ cfg.instruments.lotSize_pos _
    refine taken_sized hreq hsized.native ?_ (optimalSplit_taken eng hr co hco)
    simpa using hle

theorem Resend.positive {c : Call} {s1 : Core} {pid : ℕ} {buf : List ChildOrder} {ctx : RoutingContext}
    (h : Resend cfg w s s1 pid buf ctx) (hsubject : c.subject s = some pid) (hsized : c.Sized cfg w s) :
    ∀ o ∈ dispatchedOrders cfg w pid ctx 0 buf s1, 1 ≤ o.qtyLots := by
  obtain ⟨eng, hreal⟩ := hsized.real
  have hreq := h.requested
  rw [h.terms] at hreq
  apply dispatchedOrders_positive
  rw [h.split, hreal]
  intro co hco
  have hr : 0 < resolveReferenceLotSize ctx := hreq.unit ▸ cfg.instruments.lotSize_pos _
  exact taken_sized hreq hsized.native (hsized.reroute pid hsubject) (optimalSplit_taken eng hr co hco)

theorem event_sendsPositive {e : Event} (h : e.Sized cfg s) : e.SendsPositive cfg s := by
  cases e with
  | env e => exact fun o ho => by cases ho
  | call w c =>
    change ∀ o ∈ (c.flow cfg w s).orders cfg w, 1 ≤ o.qtyLots
    cases hflow : c.flow cfg w s with
    | finished s' =>
      intro o ho
      cases ho
    | dispatching s1 pid buf ctx =>
      rcases Call.dispatch_cases hflow with ⟨sig, rfl, hfirst⟩ | ⟨hsubject, hresend⟩
      · exact hfirst.positive h
      · exact hresend.positive hsubject h

section Samples

instance (e : Event) (s : Core) : Decidable (e.SendsPositive cfg s) :=
  inferInstanceAs (Decidable (∀ o ∈ e.orders cfg s, 1 ≤ o.qtyLots))

/-- An order to rest at the touch. -/
def Sample.makerSignal (dir : OrderDir) (qty : ℤ) : StrategyOrderSignal :=
  { signal dir qty false with orderType := .maker }

theorem Sample.canonicalLot (i : ℕ) : config.instruments.lotSize i = 1 / 1000 := by
  simp [config, InstrumentTable.lotSize, InstrumentTable.kFallbackLotSize]

end Samples

end OmsFormal.Oms
