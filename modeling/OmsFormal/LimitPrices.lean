import OmsFormal.PositiveOrders

/-!
# Limit prices

A signal's limit is rounded to the ticks of venue 0, turned back into dollars
and rounded again to the ticks of each venue, both times to the nearest tick. The
orders respect the limit that comes out of this, which may lie on the wrong side
of the one that was asked for. The origin of a parent, the signal that opened it,
is ghost state: the core keeps only the rounded limit.
-/

namespace OmsFormal.Oms
open Sor Rounding OMSOrderPool GuardedRun
set_option autoImplicit false

/-- A core together with the signal each parent was opened for. -/
structure Tracked where
  core : Core
  origin : ℕ → Option StrategyOrderSignal

def Tracked.start (s : Core) : Tracked := ⟨s, fun _ => none⟩

def uncrossed (dir : OrderDir) (limit price : ℚ) : Prop :=
  match dir with
  | .buy => price ≤ limit
  | .sell => limit ≤ price

section Step
variable (cfg : ExecCoreConfig)

/-- A signal that is dispatched becomes the origin of its parent; one that dies may leave a record
behind that belongs to nobody. -/
def Tracked.step (e : Event) (x : Tracked) : Tracked :=
  match e with
  | .call w (.signal sig) =>
    match signalFlow cfg w sig x.core with
    | .dispatching _ pid _ _ =>
      ⟨onStrategyOrder cfg w sig x.core, Function.update x.origin pid (some sig)⟩
    | .finished s' =>
      ⟨s', fun q => if (s'.pool.parents q).terms = (x.core.pool.parents q).terms then x.origin q else none⟩
  | e => ⟨Oms.step cfg e x.core, x.origin⟩

/-- Every order a flow sends for a parent respects the limit of the parent's origin. -/
def Flow.KeepsLimit (w : World) (origin : ℕ → Option StrategyOrderSignal) : Flow → Prop
  | .finished _ => True
  | .dispatching s pid buf ctx =>
    ∀ sig ∈ origin pid, 0 < sig.limitPriceUsd → ∀ o ∈ dispatchedOrders cfg w pid ctx 0 buf s,
      uncrossed sig.dir sig.limitPriceUsd (o.price * (w.states o.exchangeId).book.tickSize)

def Event.KeepsLimit (e : Event) (x : Tracked) : Prop :=
  match e with
  | .env _ => True
  | .call w c => (c.flow cfg w x.core).KeepsLimit cfg w (Tracked.step cfg (.call w c) x).origin

/-- A limit of `limit` ticks of venue 0 in the ticks of venue `ex`. -/
def World.venueLimit (w : World) (limit : ℤ) (ex : ℕ) : ℤ :=
  toTicks (limit * (w.states 0).book.tickSize) (w.states ex).book.tickSize

/-- On every live venue the limit rounds to at least one tick, and to the right side. -/
def World.LimitFits (w : World) (dir : OrderDir) (limitUsd : ℚ) (limit : ℤ) : Prop :=
  ∀ ex, w.Live cfg ex → 1 ≤ w.venueLimit limit ex ∧
    uncrossed dir limitUsd (w.venueLimit limit ex * (w.states ex).book.tickSize)

/-- A call of the real router over positive ticks, with every limit it uses fitting the ticks. -/
structure Call.LimitFits (w : World) (c : Call) (x : Tracked) : Prop where
  real : ∃ eng : RoutingEngine, w.router = eng.router
  ticks : ∀ ex, 0 < (w.states ex).book.tickSize
  indexed : ∀ ex, w.Live cfg ex → (w.states ex).exchangeId = ex
  signal : ∀ sig, c = .signal sig → 0 < sig.limitPriceUsd →
    w.LimitFits cfg sig.dir sig.limitPriceUsd (toTicks sig.limitPriceUsd (w.states 0).book.tickSize)
  reroute : ∀ pid sig, c.subject x.core = some pid → x.origin pid = some sig → 0 < sig.limitPriceUsd →
    w.LimitFits cfg sig.dir sig.limitPriceUsd (x.core.pool.parents pid).limitPrice

def Event.LimitFits : Event → Tracked → Prop
  | .call w c, x => c.LimitFits cfg w x
  | .env _, _ => True

end Step

variable {cfg : ExecCoreConfig} {w : World} {x : Tracked}

section Invariant

/-- A tracked parent has the direction of its signal. -/
def Tracked.Faithful (x : Tracked) : Prop :=
  ∀ q sig, x.origin q = some sig → (x.core.pool.parents q).dir = sig.dir

theorem Tracked.Faithful.of_terms {s' : Core} (h : x.Faithful) (hsame : SameTerms x.core s') :
    Tracked.Faithful ⟨s', x.origin⟩ := by
  intro q sig horigin
  rw [← h q sig horigin]
  exact congrArg OrderTerms.dir (hsame q)

theorem step_faithful (e : Event) (h : x.Faithful) : (Tracked.step cfg e x).Faithful := by
  cases e with
  | env e =>
    refine h.of_terms (SameTerms.of_parents ?_)
    exact congrArg OMSOrderPool.parents (e.apply_sameBooks x.core).pool
  | call w c =>
    cases c with
    | report rep => exact h.of_terms (Call.apply_terms (fun _ => Call.noConfusion) x.core)
    | visit slot idx => exact h.of_terms (Call.apply_terms (fun _ => Call.noConfusion) x.core)
    | signal sig =>
      simp only [Tracked.step]
      cases hflow : signalFlow cfg w sig x.core with
      | finished s' =>
        intro q sig' horigin
        simp only at horigin ⊢
        split at horigin
        · rename_i hsame
          rw [← h q sig' horigin]
          exact congrArg OrderTerms.dir hsame
        · cases horigin
      | dispatching s1 pid buf ctx =>
        have hfirst := signalFlow_dispatching hflow
        have hafter := onStrategyOrder_terms hflow
        intro q sig' horigin
        simp only at horigin ⊢
        have hdir : ((onStrategyOrder cfg w sig x.core).pool.parents q).dir = (s1.pool.parents q).dir :=
          congrArg OrderTerms.dir (hafter q)
        rw [hdir]
        by_cases hq : q = pid
        · rw [hq, Function.update_self] at horigin
          cases horigin
          rw [hq]
          exact congrArg OrderTerms.dir hfirst.terms
        · rw [Function.update_of_ne hq] at horigin
          rw [← h q sig' horigin]
          obtain ⟨free, -, rfl, -⟩ := hfirst.opened
          rw [reserved_other w sig free hq]

end Invariant

section Price
variable {terms : OrderTerms} {ctx : RoutingContext} {limitUsd : ℚ} {ex : ℕ}

theorem Requested.limitTicks (h : Requested cfg w terms ctx) (hlimit : 0 < terms.limitPrice) :
    ctx.limitTicks (ctx.states ex) = w.venueLimit terms.limitPrice ex := by
  rw [RoutingContext.limitTicks, h.limit, if_pos hlimit, h.states]
  rfl

theorem limitPrice_pos {limit : ℤ} (hticks : ∀ ex, 0 < (w.states ex).book.tickSize)
    (h : 1 ≤ w.venueLimit limit ex) : 0 < limit := by
  by_contra hneg
  have hle : (limit : ℚ) ≤ 0 := by exact_mod_cast not_lt.mp hneg
  have hquot : limit * (w.states 0).book.tickSize / (w.states ex).book.tickSize ≤ 0 :=
    div_nonpos_of_nonpos_of_nonneg (mul_nonpos_of_nonpos_of_nonneg hle (hticks 0).le) (hticks ex).le
  have := roundHalfAway_nonpos hquot
  unfold World.venueLimit toTicks at h
  omega

theorem newChild_price (p cid : ℕ) (ctx : RoutingContext) {co : ChildOrder} {ticks : ℤ}
    (htick : 0 < (w.states ex).book.tickSize)
    (hid : co.exchangeId = ex) (hprice : co.price = ticks * (w.states ex).book.tickSize) :
    (newChild w p ctx cid co).price = max ticks 0 := by
  simp only [newChild, hid, hprice]
  split
  · rename_i hpos
    have hticks : 0 < ticks := by exact_mod_cast (mul_pos_iff_of_pos_right htick).mp hpos
    rw [toTicks, roundHalfAway_mul_div htick, max_eq_left hticks.le]
  · rename_i hneg
    have hticks : ¬ 0 < ticks := fun h => hneg (mul_pos (by exact_mod_cast h) htick)
    exact (max_eq_right (not_lt.mp hticks)).symm

/-- A price within a fitting limit in ticks is within the limit in dollars. -/
theorem uncrossed_of_respects {dir : OrderDir} {limit ticks : ℤ} (htick : 0 < (w.states ex).book.tickSize)
    (hone : 1 ≤ limit) (hfits : uncrossed dir limitUsd (limit * (w.states ex).book.tickSize))
    (h : respects dir limit ticks) :
    uncrossed dir limitUsd ((max ticks 0 : ℤ) * (w.states ex).book.tickSize) := by
  cases dir with
  | buy =>
    simp only [respects] at h
    have hle : ((max ticks 0 : ℤ) : ℚ) ≤ limit := by exact_mod_cast max_le h (by omega)
    exact (mul_le_mul_of_nonneg_right hle htick.le).trans hfits
  | sell =>
    simp only [respects] at h
    have hle : (limit : ℚ) ≤ ((max ticks 0 : ℤ) : ℚ) := by exact_mod_cast h.trans (le_max_left _ _)
    exact hfits.trans (mul_le_mul_of_nonneg_right hle htick.le)

/-- A child order for a live venue, at a price within the limit of that venue. -/
def Priced (cfg : ExecCoreConfig) (w : World) (terms : OrderTerms) (co : ChildOrder) : Prop :=
  ∃ (ex : ℕ) (ticks : ℤ), w.Live cfg ex ∧ co.exchangeId = ex ∧
    co.price = ticks * (w.states ex).book.tickSize ∧
    respects terms.dir (w.venueLimit terms.limitPrice ex) ticks

section Routed
variable (hreq : Requested cfg w terms ctx) (hticks : ∀ ex, 0 < (w.states ex).book.tickSize)
  (hone : ∀ ex, w.Live cfg ex → 1 ≤ w.venueLimit terms.limitPrice ex) {co : ChildOrder}
include hreq hticks hone

theorem limit_in_force (hlive : ctx.Live ex) : 0 < terms.limitPrice ∧ 0 < ctx.limitPrice := by
  have hlim := limitPrice_pos hticks (hone ex (hreq.live hlive))
  refine ⟨hlim, ?_⟩
  rw [hreq.limit, if_pos hlim]
  exact mul_pos (by exact_mod_cast hlim) (hticks 0)

variable (hids : ∀ ex, w.Live cfg ex → (w.states ex).exchangeId = ex)
include hids

theorem priced_of_taken (hco : co.Taken ctx) : Priced cfg w terms co := by
  obtain ⟨ex, hlive, hid, ticks, hprice, hok⟩ := hco.origin
  obtain ⟨hlim, hctx⟩ := limit_in_force hreq hticks hone hlive
  have hex : co.exchangeId = ex := by rw [hid, hreq.states, hids ex (hreq.live hlive)]
  have hvenue := hone ex (hreq.live hlive)
  unfold RoutingContext.TakerPrice at hok
  rw [hreq.limitTicks hlim, hreq.dir] at hok
  rw [hex, hreq.states] at hprice
  exact ⟨ex, ticks, hreq.live hlive, hex, hprice, hok hctx (by omega)⟩

theorem priced_of_posted (hco : co.Posted ctx) : Priced cfg w terms co := by
  obtain ⟨ex, hlive, hid, ticks, hprice, hok⟩ := hco.origin
  obtain ⟨hlim, hctx⟩ := limit_in_force hreq hticks hone hlive
  have hex : co.exchangeId = ex := by rw [hid, hreq.states, hids ex (hreq.live hlive)]
  unfold RoutingContext.MakerPrice at hok
  rw [hreq.limitTicks hlim, hreq.dir] at hok
  rw [hreq.states] at hprice
  exact ⟨ex, ticks, hreq.live hlive, hex, hprice, hok hctx⟩

end Routed

/-- The orders of a dispatch whose limit fits the ticks, whichever way it was routed. -/
theorem dispatch_keepsLimit (terms : OrderTerms) {s : Core} {pid : ℕ} {buf : List ChildOrder}
    (hticks : ∀ ex, 0 < (w.states ex).book.tickSize)
    (hfits : w.LimitFits cfg terms.dir limitUsd terms.limitPrice)
    (hbuf : ∀ co ∈ buf, Priced cfg w terms co) :
    ∀ o ∈ dispatchedOrders cfg w pid ctx 0 buf s,
      uncrossed terms.dir limitUsd (o.price * (w.states o.exchangeId).book.tickSize) := by
  intro o ho
  obtain ⟨co, hco, p, cid, rfl⟩ := mem_dispatchedOrders 0 buf s ho
  obtain ⟨ex, ticks, hlive, hex, hprice, hok⟩ := hbuf co hco
  obtain ⟨hone, hside⟩ := hfits ex hlive
  have hout : (outboundOrder (newChild w p ctx cid co) (s.pool.parents pid).instrId).exchangeId = ex := hex
  have hticket : (outboundOrder (newChild w p ctx cid co) (s.pool.parents pid).instrId).price = max ticks 0 :=
    newChild_price p cid ctx (hticks ex) hex hprice
  rw [hout, hticket]
  exact uncrossed_of_respects (hticks ex) hone hside hok

end Price

section Runs

theorem FirstSend.keepsLimit {sig : StrategyOrderSignal} {s s1 : Core} {pid : ℕ} {buf : List ChildOrder}
    {ctx : RoutingContext} (h : FirstSend cfg w sig s s1 pid buf ctx) {c : Call} (hc : c = .signal sig)
    (hcall : c.LimitFits cfg w x) (hlimit : 0 < sig.limitPriceUsd) :
    ∀ o ∈ dispatchedOrders cfg w pid ctx 0 buf s1,
      uncrossed sig.dir sig.limitPriceUsd (o.price * (w.states o.exchangeId).book.tickSize) := by
  obtain ⟨eng, hreal⟩ := hcall.real
  have hfits := hcall.signal sig hc hlimit
  have hreq := h.requested
  rw [h.terms, if_pos hlimit] at hreq
  have hone := fun ex hlive => (hfits ex hlive).1
  refine dispatch_keepsLimit ⟨sig.instrId, sig.dir, _⟩ hcall.ticks hfits fun co hco => ?_
  rw [h.split, signalSplit, hreal] at hco
  split at hco
  · exact priced_of_posted hreq hcall.ticks hone hcall.indexed (makerPlacement_posted eng co hco)
  · have hr : 0 < resolveReferenceLotSize ctx := hreq.unit ▸ cfg.instruments.lotSize_pos _
    exact priced_of_taken hreq hcall.ticks hone hcall.indexed (optimalSplit_taken eng hr co hco)

theorem Resend.keepsLimit {sig : StrategyOrderSignal} {s1 : Core} {pid : ℕ} {buf : List ChildOrder}
    {ctx : RoutingContext} (h : Resend cfg w x.core s1 pid buf ctx) {c : Call} (hcall : c.LimitFits cfg w x)
    (hfaithful : x.Faithful) (hsubject : c.subject x.core = some pid) (horigin : x.origin pid = some sig)
    (hlimit : 0 < sig.limitPriceUsd) :
    ∀ o ∈ dispatchedOrders cfg w pid ctx 0 buf s1,
      uncrossed sig.dir sig.limitPriceUsd (o.price * (w.states o.exchangeId).book.tickSize) := by
  obtain ⟨eng, hreal⟩ := hcall.real
  have hfits := hcall.reroute pid sig hsubject horigin hlimit
  have hreq := h.requested
  have hdir := hfaithful pid sig horigin
  rw [← hdir] at hfits ⊢
  rw [h.terms] at hreq
  have hone := fun ex hlive => (hfits ex hlive).1
  refine dispatch_keepsLimit (x.core.pool.parents pid).terms hcall.ticks hfits fun co hco => ?_
  rw [h.split, hreal] at hco
  have hr : 0 < resolveReferenceLotSize ctx := hreq.unit ▸ cfg.instruments.lotSize_pos _
  exact priced_of_taken hreq hcall.ticks hone hcall.indexed (optimalSplit_taken eng hr co hco)

theorem event_keepsLimit {e : Event} (hx : x.Faithful) (h : e.LimitFits cfg x) : e.KeepsLimit cfg x := by
  cases e with
  | env e => exact trivial
  | call w c =>
    simp only [Event.KeepsLimit]
    cases hflow : c.flow cfg w x.core with
    | finished s' => exact trivial
    | dispatching s1 pid buf ctx =>
      intro sig horigin hlimit
      rw [Option.mem_def] at horigin
      rcases Call.dispatch_cases hflow with ⟨sig', rfl, hfirst⟩ | ⟨hsubject, hresend⟩
      · have hstep : (Tracked.step cfg (.call w (.signal sig')) x).origin pid = some sig' := by
          have hsignal : signalFlow cfg w sig' x.core = .dispatching s1 pid buf ctx := hflow
          simp only [Tracked.step, hsignal, Function.update_self]
        rw [hstep] at horigin
        cases horigin
        exact hfirst.keepsLimit rfl h hlimit
      · have hkeep : (Tracked.step cfg (.call w c) x).origin = x.origin := by
          cases c with
          | signal sig' => cases hsubject
          | report rep => rfl
          | visit slot idx => rfl
        rw [hkeep] at horigin
        exact hresend.keepsLimit h hx hsubject horigin hlimit

/-- The origins are ghost state. -/
theorem Tracked.step_core (e : Event) (x : Tracked) :
    (Tracked.step cfg e x).core = Oms.step cfg e x.core := by
  cases e with
  | env e => rfl
  | call w c =>
    cases c with
    | report rep => rfl
    | visit slot idx => rfl
    | signal sig =>
      simp only [Tracked.step]
      cases hflow : signalFlow cfg w sig x.core with
      | finished s' =>
        simp only [Oms.step, Call.apply, onStrategyOrder, hflow]
        rfl
      | dispatching s1 pid buf ctx => rfl

end Runs

section Samples

instance (dir : OrderDir) (limit price : ℚ) : Decidable (uncrossed dir limit price) :=
  match dir with
  | .buy => inferInstanceAs (Decidable (price ≤ limit))
  | .sell => inferInstanceAs (Decidable (limit ≤ price))

instance (w : World) (origin : ℕ → Option StrategyOrderSignal) (flow : Flow) :
    Decidable (flow.KeepsLimit cfg w origin) :=
  match flow with
  | .finished _ => inferInstanceAs (Decidable True)
  | .dispatching s pid buf ctx => inferInstanceAs (Decidable (∀ sig ∈ origin pid, 0 < sig.limitPriceUsd →
      ∀ o ∈ dispatchedOrders cfg w pid ctx 0 buf s,
        uncrossed sig.dir sig.limitPriceUsd (o.price * (w.states o.exchangeId).book.tickSize)))

instance (e : Event) (x : Tracked) : Decidable (e.KeepsLimit cfg x) :=
  match e with
  | .env _ => inferInstanceAs (Decidable True)
  | .call w c => inferInstanceAs
      (Decidable ((c.flow cfg w x.core).KeepsLimit cfg w (Tracked.step cfg (.call w c) x).origin))

def Sample.limitSignal (qty : ℤ) (limitUsd : ℚ) : StrategyOrderSignal :=
  { signal .buy qty false with limitPriceUsd := limitUsd }

end Samples

end OmsFormal.Oms
