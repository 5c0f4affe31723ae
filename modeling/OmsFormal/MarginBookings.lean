import OmsFormal.Deals

/-!
# What calls book on the margin

A call touches the margin once, when it books its report: a fill charges its
notional, a cancel, reject or timeout releases that of the lots it gives up. A
signal books nothing, although its dispatch reserves open lots.
-/

namespace OmsFormal.Oms
open Sor Rounding OMSOrderPool GuardedRun
set_option autoImplicit false

/-- The margin a report charges or releases, in USD. -/
inductive Booking where
  | nothing
  | charge (usd : ℚ)
  | release (usd : ℚ)

def MarginMonitor.book (m : MarginMonitor) : Booking → MarginMonitor
  | .nothing => m
  | .charge usd => { m with lockedMargin := m.lockedMargin + usd }
  | .release usd =>
    { m with lockedMargin := if m.lockedMargin > usd then m.lockedMargin - usd else 0 }

section Bookings
variable (cfg : ExecCoreConfig) (w : World)

/-- The margin of `nativeLots` of a child's order at a price in ticks. -/
def childMargin (child : ChildOrderState) (instrId : ℕ) (nativeLots priceTicks : ℤ) : ℚ :=
  toCanonicalLots cfg w child instrId nativeLots * cfg.instruments.lotSize instrId *
    (priceTicks * (w.states child.exchangeId).book.tickSize) * cfg.margin.initialMarginRate

def reportBooking (rep : ExecutionReport) (s : Core) : Booking :=
  let child := s.pool.children rep.childId
  let instrId := (s.pool.parents child.parentId).instrId
  if rep.childId ≥ kMaxTotalChildren ∨ child.parentId ≥ kMaxParentOrders then .nothing
  else
    match rep.execType with
    | .partialFill => .charge (childMargin cfg w child instrId rep.fillQtyLots rep.fillPriceTicks)
    | .fill => .charge (childMargin cfg w child instrId rep.fillQtyLots rep.fillPriceTicks)
    | .canceled => .release (childMargin cfg w child instrId child.leavesQtyLots child.price)
    | .rejected => .release (childMargin cfg w child instrId child.leavesQtyLots child.price)
    | .new => .nothing
    | .replaced => .nothing

def timeoutBooking (cid : ℕ) (s : Core) : Booking :=
  if cid < kMaxTotalChildren ∧ (s.pool.children cid).state.working = true then
    reportBooking cfg w (timeoutReport cid (s.pool.children cid)) s
  else .nothing

def Call.booking : Call → Core → Booking
  | .signal _, _ => .nothing
  | .report rep, s => reportBooking cfg w rep s
  | .visit slot idx, s =>
    match s.timerWheel.entryAt slot idx with
    | none => .nothing
    | some e => timeoutBooking cfg w e.childId s

end Bookings

def Event.booking (cfg : ExecCoreConfig) : Event → Core → Booking
  | .call w c, s => c.booking cfg w s
  | .env _, _ => .nothing

def Event.isRest : Event → Bool
  | .env (.onRestMargin _ _ _) => true
  | _ => false

def Event.isMark : Event → Bool
  | .env (.onMarkPrice _ _ _) => true
  | _ => false

/-- The margin risk sees is what the monitor says. -/
def Core.MarginPublished (s : Core) : Prop := s.pos.margin = s.marginMonitor.recomputeAvailable

/-- The parts of the state that hold margin. -/
structure SameMargin (s s' : Core) : Prop where
  monitor : s'.marginMonitor = s.marginMonitor
  published : s'.pos.margin = s.pos.margin

/-- The monitor takes the booking in, and publishes it if there is one. -/
structure Books (b : Booking) (s s' : Core) : Prop where
  monitor : s'.marginMonitor = s.marginMonitor.book b
  published : s.MarginPublished → s'.MarginPublished

variable {cfg : ExecCoreConfig} {w : World} {s s' : Core} {e : Event}

/-- Bookings are estimates of the locked margin alone. -/
theorem book_equity (m : MarginMonitor) (b : Booking) :
    (m.book b).localEquity = m.localEquity ∧ (m.book b).upnl = m.upnl := by
  cases b <;> exact ⟨rfl, rfl⟩

theorem SameMargin.books (h : SameMargin s s') : Books .nothing s s' := by
  refine ⟨h.monitor, fun hpub => ?_⟩
  rw [Core.MarginPublished, h.published, h.monitor]
  exact hpub

theorem Books.of_recomputed {b : Booking} (hmonitor : s'.marginMonitor = s.marginMonitor.book b)
    (hmargin : s'.pos.margin = s'.marginMonitor.recomputeAvailable) : Books b s s' :=
  ⟨hmonitor, fun _ => hmargin⟩

section Calls

/-- No small step touches the margin. -/
theorem micro_margin {a b : Phase × Core} (h : Micro cfg w a b) : SameMargin a.2 b.2 := by
  have hgap (pid : ℕ) (ctx : RoutingContext) (rest : List ChildOrder) (s : Core) :
      SameMargin s (releaseGap pid ctx rest s) := by
    unfold releaseGap
    split
    · exact ⟨rfl, rfl⟩
    · exact ⟨rfl, rfl⟩
  cases h with
  | trim =>
    rw [trimmed_eq]
    exact ⟨rfl, rfl⟩
  | @sent pid ctx rest s => exact hgap pid ctx rest s
  | @noneSent pid ctx rest s => exact ⟨(hgap pid ctx rest s).monitor, (hgap pid ctx rest s).published⟩
  | mark => exact ⟨rfl, rfl⟩
  | close => exact ⟨rfl, rfl⟩
  | keep => exact ⟨rfl, rfl⟩
  | reduced => exact ⟨rfl, rfl⟩
  | noLiquidity => exact ⟨rfl, rfl⟩
  | route => exact ⟨rfl, rfl⟩
  | send => exact ⟨rfl, rfl⟩
  | allocFailed => exact ⟨rfl, rfl⟩

theorem call_margin (c : Call) (s : Core) : SameMargin (c.entry cfg w s).2 (c.apply cfg w s) := by
  apply call_invariant (fun a => SameMargin (c.entry cfg w s).2 a.2) c
  · intro a b hm ha
    have hone := micro_margin hm
    exact ⟨hone.monitor.trans ha.monitor, hone.published.trans ha.published⟩
  · exact ⟨rfl, rfl⟩

theorem signalFlow_margin (sig : StrategyOrderSignal) (s : Core) :
    SameMargin s (signalFlow cfg w sig s).entry.2 := by
  rcases signal_cases cfg w sig s with ⟨s', hflow, href⟩ | ⟨pid, free, _, _, _, _, hflow⟩
  · obtain ⟨reason, heq⟩ := href.rest
    rw [hflow, heq]
    exact ⟨rfl, rfl⟩
  · rw [hflow]
    exact ⟨rfl, rfl⟩

theorem reportEntry_books (rep : ExecutionReport) (s : Core) :
    Books (reportBooking cfg w rep s) s (reportEntry cfg w rep s).2 := by
  unfold reportEntry reportBooking
  by_cases hrange : rep.childId ≥ kMaxTotalChildren ∨
      (s.pool.children rep.childId).parentId ≥ kMaxParentOrders
  · simp only [if_pos hrange]
    exact SameMargin.books ⟨rfl, rfl⟩
  · simp only [if_neg hrange]
    cases rep.execType with
    | new => exact SameMargin.books ⟨rfl, rfl⟩
    | partialFill => exact Books.of_recomputed rfl rfl
    | fill => exact Books.of_recomputed rfl rfl
    | canceled => exact Books.of_recomputed rfl rfl
    | rejected => exact Books.of_recomputed rfl rfl
    | replaced => exact SameMargin.books ⟨rfl, rfl⟩

theorem timeoutEntry_books (cid : ℕ) (s : Core) :
    Books (timeoutBooking cfg w cid s) s (timeoutEntry cfg w cid s).2 := by
  unfold timeoutEntry timeoutBooking
  split
  · exact reportEntry_books _ s
  · exact SameMargin.books ⟨rfl, rfl⟩

theorem entry_books (c : Call) (s : Core) : Books (c.booking cfg w s) s (c.entry cfg w s).2 := by
  cases c with
  | signal sig => exact (signalFlow_margin sig s).books
  | report rep => exact reportEntry_books rep s
  | visit slot idx =>
    simp only [Call.booking, Call.entry]
    cases s.timerWheel.entryAt slot idx with
    | none => exact SameMargin.books ⟨rfl, rfl⟩
    | some e =>
      have htimeout : Books (timeoutBooking cfg w e.childId (s.setWheel (s.timerWheel.deactivate e)))
          (s.setWheel (s.timerWheel.deactivate e)) _ := timeoutEntry_books e.childId _
      exact ⟨htimeout.monitor, htimeout.published⟩

/-- A call does to the margin what it books. -/
theorem call_books (c : Call) (s : Core) : Books (c.booking cfg w s) s (c.apply cfg w s) := by
  have hentry : Books (c.booking cfg w s) s (c.entry cfg w s).2 := entry_books c s
  have hrest : SameMargin (c.entry cfg w s).2 (c.apply cfg w s) := call_margin c s
  refine ⟨hrest.monitor.trans hentry.monitor, fun hpub => ?_⟩
  rw [Core.MarginPublished, hrest.published, hrest.monitor]
  exact hentry.published hpub

/-- Outside of REST and mark prices an event books on the monitor, and nothing else. -/
theorem event_books (hrest : e.isRest = false) (hmark : e.isMark = false) :
    Books (e.booking cfg s) s (step cfg e s) := by
  cases e with
  | call w c => exact call_books c s
  | env e =>
    apply SameMargin.books
    cases e with
    | advance => exact ⟨rfl, rfl⟩
    | setUnwindMode instrId enabled =>
      simp only [step, Env.apply, Core.setUnwindMode]
      split
      · exact ⟨rfl, rfl⟩
      · exact ⟨rfl, rfl⟩
    | onMarkPrice => exact Bool.noConfusion hmark
    | onRestMargin => exact Bool.noConfusion hrest
    | onBookSnapshot exchangeId snapshot =>
      simp only [step, Env.apply, Core.onBookSnapshot]
      split
      · exact ⟨rfl, rfl⟩
      · exact ⟨rfl, rfl⟩
    | gatewayPop => exact ⟨rfl, rfl⟩
    | rejectPop => exact ⟨rfl, rfl⟩

/-- A mark price does not touch what is locked. -/
theorem event_lockedMargin (hrest : e.isRest = false) :
    (step cfg e s).marginMonitor.lockedMargin = (s.marginMonitor.book (e.booking cfg s)).lockedMargin := by
  cases hmark : e.isMark with
  | false => rw [(event_books hrest hmark).monitor]
  | true =>
    cases e with
    | call w c => exact Bool.noConfusion hmark
    | env e =>
      cases e with
      | onMarkPrice mark lot i =>
        simp only [step, Env.apply, Core.onMarkPrice, MarginMonitor.onMarkPrice]
        split
        · rfl
        · rename_i hpriced
          split at hpriced
          · cases hpriced
          · cases hpriced
            rfl
      | _ => exact Bool.noConfusion hmark

end Calls

end OmsFormal.Oms
