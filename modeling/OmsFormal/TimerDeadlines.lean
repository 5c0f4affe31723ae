import OmsFormal.TimerCoverage
import OmsFormal.Lifecycle
import OmsFormal.Ticks

/-!
# Deadlines and the wheel clock

A slot of the ring is a deadline modulo one turn, so a scan finds the timers that
are due only while no deadline is a turn or more ahead of the wheel clock. `Timed`
states that, together with what ties a timer to its child: the deadline is the
one in the child's record. A dispatch keeps it if it arms within the turn and
hands out ids that no timer names.
-/

namespace OmsFormal.Oms
open Sor Rounding OMSOrderPool GuardedRun
set_option autoImplicit false

/-- When a child is due to time out. -/
def ChildOrderState.dueNs (cfg : ExecCoreConfig) (c : ChildOrderState) : ℕ :=
  c.sentNs + timeoutNs cfg c.orderType

/-- The tick of the wheel that a time falls into. -/
def TimerWheel.tickOf (wheel : TimerWheel) (ts : ℕ) : ℕ := ts / wheel.tickNs

/-- Every armed timer has its child's deadline, and that is not behind the wheel clock and less
than `span` ticks ahead of it. In the slot the clock stands at, positions below `idx` are done. -/
structure Timed (cfg : ExecCoreConfig) (span idx : ℕ) (s : Core) : Prop where
  placed : s.timerWheel.Placed
  slot : ∀ e ∈ s.timerWheel.active, e.slot = s.timerWheel.slotFor e.deadlineNs
  due : ∀ e ∈ s.timerWheel.active, e.deadlineNs = (s.pool.children e.childId).dueNs cfg
  behind : ∀ e ∈ s.timerWheel.active,
    s.timerWheel.tickOf s.timerWheel.nowNs ≤ s.timerWheel.tickOf e.deadlineNs
  ahead : ∀ e ∈ s.timerWheel.active,
    s.timerWheel.tickOf e.deadlineNs < s.timerWheel.tickOf s.timerWheel.nowNs + span
  scanned : ∀ e ∈ s.timerWheel.active,
    s.timerWheel.tickOf e.deadlineNs = s.timerWheel.tickOf s.timerWheel.nowNs → idx ≤ e.idx

/-- What a dispatch of `rest` must find: distinct ids to hand out, none of them named by a timer,
and deadlines less than `span` ticks ahead of the wheel clock. -/
structure InReach (cfg : ExecCoreConfig) (w : World) (span : ℕ) (rest : List ChildOrder) (s : Core) :
    Prop where
  ids : s.pool.childFree.Nodup
  unarmed : ∀ e ∈ s.timerWheel.active, e.childId ∉ s.pool.childFree
  reach : ∀ co ∈ rest, s.timerWheel.tickOf (w.dispatchNs + timeoutNs cfg co.type) <
    s.timerWheel.tickOf s.timerWheel.nowNs + span

/-- A dispatch that has something to send must be in reach. -/
def SendsInReach (cfg : ExecCoreConfig) (w : World) (span : ℕ) (_pid : ℕ) (rest : List ChildOrder)
    (s : Core) : Prop :=
  rest ≠ [] → InReach cfg w span rest s

/-- The clock of a call has not fallen behind the wheel, and no timeout is shorter than a tick. -/
structure Punctual (cfg : ExecCoreConfig) (w : World) (wheel : TimerWheel) : Prop where
  tick : 0 < wheel.tickNs
  now : wheel.nowNs ≤ w.dispatchNs
  taker : wheel.tickNs ≤ cfg.childTimeoutNs
  maker : wheel.tickNs ≤ cfg.makerTimeoutNs

variable {cfg : ExecCoreConfig} {w : World} {s s' : Core} {span idx : ℕ}

section Wheel
variable {wheel : TimerWheel}

theorem TimerWheel.slotFor_eq (wheel : TimerWheel) (ts : ℕ) :
    wheel.slotFor ts = wheel.tickOf ts % kFineSlots := rfl

theorem TimerWheel.insert_result (wheel : TimerWheel) (c now timeout : ℕ) :
    (wheel.insert c now timeout).2 = wheel ∨
    ∃ i, (wheel.insert c now timeout).2 = { wheel with
      active := ⟨wheel.slotFor (now + timeout), i, c, now + timeout⟩ :: wheel.active } := by
  simp only [TimerWheel.insert]
  split
  · exact Or.inl rfl
  · exact Or.inr ⟨_, rfl⟩

theorem TimerWheel.cancel_sublist (wheel : TimerWheel) (c : ℕ) :
    (wheel.cancel c).active.Sublist wheel.active := by
  rcases TimerWheel.cancel_cases c wheel with ⟨hsame, _⟩ | ⟨e, _, _, hcancel⟩
  · rw [hsame]
  · rw [hcancel]
    exact List.erase_sublist

theorem Punctual.clock {wheel' : TimerWheel} (h : Punctual cfg w wheel)
    (hc : TimerWheel.SameClock wheel wheel') : Punctual cfg w wheel' := by
  refine ⟨?_, ?_, ?_, ?_⟩
  · rw [hc.tickNs]
    exact h.tick
  · rw [hc.nowNs]
    exact h.now
  · rw [hc.tickNs]
    exact h.taker
  · rw [hc.tickNs]
    exact h.maker

/-- A new deadline is at least one tick away. -/
theorem Punctual.later (h : Punctual cfg w wheel) (type : Sor.OrderType) :
    wheel.tickOf wheel.nowNs < wheel.tickOf (w.dispatchNs + timeoutNs cfg type) := by
  have htimeout : wheel.tickNs ≤ timeoutNs cfg type := by
    cases type with
    | maker => exact h.maker
    | taker => exact h.taker
  calc wheel.nowNs / wheel.tickNs < (wheel.nowNs + wheel.tickNs) / wheel.tickNs := by
        rw [Nat.add_div_right _ h.tick]
        exact Nat.lt_succ_self _
    _ ≤ (w.dispatchNs + timeoutNs cfg type) / wheel.tickNs :=
        Nat.div_le_div_right (Nat.add_le_add h.now htimeout)

end Wheel

section Fewer

/-- No timer was added, the wheel clock stands, and no child's deadline moved. -/
structure FewerTimers (cfg : ExecCoreConfig) (s s' : Core) : Prop where
  active : s'.timerWheel.active.Sublist s.timerWheel.active
  clock : TimerWheel.SameClock s.timerWheel s'.timerWheel
  due : ∀ c, (s'.pool.children c).dueNs cfg = (s.pool.children c).dueNs cfg

theorem FewerTimers.of_same (hwheel : s'.timerWheel = s.timerWheel)
    (hchildren : s'.pool.children = s.pool.children) : FewerTimers cfg s s' := by
  refine ⟨by rw [hwheel], by rw [hwheel]; exact ⟨rfl, rfl⟩, fun c => by rw [hchildren]⟩

theorem FewerTimers.timed (h : FewerTimers cfg s s') (hs : Timed cfg span idx s) :
    Timed cfg span idx s' := by
  have hsub := h.active.subset
  refine ⟨hs.placed.of_sublist h.active, fun e he => ?_, fun e he => ?_, fun e he => ?_, fun e he => ?_,
    fun e he => ?_⟩
  · rw [TimerWheel.slotFor, h.clock.tickNs]
    exact hs.slot e (hsub he)
  · rw [h.due]
    exact hs.due e (hsub he)
  · rw [TimerWheel.tickOf, TimerWheel.tickOf, h.clock.tickNs, h.clock.nowNs]
    exact hs.behind e (hsub he)
  · rw [TimerWheel.tickOf, TimerWheel.tickOf, h.clock.tickNs, h.clock.nowNs]
    exact hs.ahead e (hsub he)
  · rw [TimerWheel.tickOf, TimerWheel.tickOf, h.clock.tickNs, h.clock.nowNs]
    exact hs.scanned e (hsub he)

theorem Timed.of_same (h : Timed cfg span idx s) (hwheel : s'.timerWheel = s.timerWheel)
    (hchildren : s'.pool.children = s.pool.children) : Timed cfg span idx s' :=
  (FewerTimers.of_same hwheel hchildren).timed h

theorem modifyChild_due {pool : OMSOrderPool} {cid : ℕ} {f : ChildOrderState → ChildOrderState}
    (h : (f (pool.children cid)).dueNs cfg = (pool.children cid).dueNs cfg) (c : ℕ) :
    ((pool.modifyChild cid f).children c).dueNs cfg = (pool.children c).dueNs cfg := by
  by_cases hc : c = cid
  · rw [hc, modifyChild_children, Function.update_self, h]
  · rw [modifyChild_children, Function.update_of_ne hc]

theorem bookFill_fewer (cid pid : ℕ) (rep : ExecutionReport) :
    FewerTimers cfg s (bookFill cfg w cid pid rep s) :=
  ⟨s.timerWheel.cancel_sublist _, TimerWheel.cancel_clock _ _, modifyChild_due rfl⟩

theorem bookCancel_fewer (cid pid : ℕ) (rep : ExecutionReport) :
    FewerTimers cfg s (bookCancel cfg w cid pid rep s) :=
  ⟨s.timerWheel.cancel_sublist _, TimerWheel.cancel_clock _ _, modifyChild_due rfl⟩

theorem reportEntry_fewer (rep : ExecutionReport) (s : Core) :
    FewerTimers cfg s (reportEntry cfg w rep s).2 := by
  simp only [reportEntry]
  split
  · exact .of_same rfl rfl
  · cases rep.execType with
    | new =>
      refine ⟨List.Sublist.refl _, ⟨rfl, rfl⟩, fun c => ?_⟩
      exact @modifyChild_due cfg s.pool _ (fun x => { x with state := .pendingNew }) rfl c
    | partialFill => exact bookFill_fewer _ _ rep
    | fill => exact bookFill_fewer _ _ rep
    | canceled => exact bookCancel_fewer _ _ rep
    | rejected => exact bookCancel_fewer _ _ rep
    | replaced => exact .of_same rfl rfl

theorem signalFlow_fewer (cfg : ExecCoreConfig) (w : World) (sig : StrategyOrderSignal) (s : Core) :
    FewerTimers cfg s (signalFlow cfg w sig s).entry.2 := by
  have hsat : (signalFlow cfg w sig s).Sat (s.pool.parentFree.headD 0) (FewerTimers cfg s)
      fun s' _ _ => FewerTimers cfg s s' := by
    apply signalFlow_sat
    · exact fun _ => .of_same rfl rfl
    · intro hnil
      exact .of_same rfl (by simp [notifyReject, allocParent, hnil])
    · exact fun _ _ _ _ _ _ => .of_same rfl rfl
    · exact fun _ _ _ _ _ _ => .of_same rfl rfl
    · intro p free hfree
      rw [hfree]
      rfl
  cases hflow : signalFlow cfg w sig s with
  | finished s' =>
    rw [hflow] at hsat
    exact hsat
  | dispatching s' pid buf ctx =>
    rw [hflow] at hsat
    exact hsat.2

end Fewer

section Calls

theorem InReach.of_same {rest : List ChildOrder} (h : InReach cfg w span rest s)
    (hwheel : s'.timerWheel = s.timerWheel) (hfree : s'.pool.childFree = s.pool.childFree) :
    InReach cfg w span rest s' :=
  ⟨by rw [hfree]; exact h.ids, by rw [hwheel, hfree]; exact h.unarmed, by rw [hwheel]; exact h.reach⟩

theorem InReach.send {pid cid : ℕ} {ctx : RoutingContext} {co : ChildOrder} {rest : List ChildOrder}
    {free : List ℕ} (h : InReach cfg w span (co :: rest) s) (hfree : s.pool.childFree = cid :: free) :
    InReach cfg w span rest (sendChild cfg w pid ctx cid free co s) := by
  have hclock := TimerWheel.insert_clock cid w.dispatchNs (timeoutNs cfg co.type) s.timerWheel
  have hids := h.ids
  rw [hfree] at hids
  obtain ⟨hcid, hnodup⟩ := List.nodup_cons.mp hids
  have hold (e : TimerEntry) (he : e ∈ s.timerWheel.active) : e.childId ∉ free := fun hmem =>
    h.unarmed e he (by rw [hfree]; exact List.mem_cons_of_mem cid hmem)
  refine ⟨hnodup, fun e he => ?_, fun x hx => ?_⟩
  · simp only [sendChild] at he
    rcases s.timerWheel.insert_result cid w.dispatchNs (timeoutNs cfg co.type) with hins | ⟨i, hins⟩
    · rw [hins] at he
      exact hold e he
    · rw [hins] at he
      rcases List.mem_cons.mp he with rfl | he
      · exact hcid
      · exact hold e he
  · simp only [sendChild, TimerWheel.tickOf, hclock.tickNs, hclock.nowNs]
    exact h.reach x (List.mem_cons_of_mem co hx)

theorem sendChild_timed {pid cid : ℕ} {ctx : RoutingContext} {co : ChildOrder} {rest : List ChildOrder}
    {free : List ℕ} (hs : Timed cfg span idx s) (h : InReach cfg w span (co :: rest) s)
    (hp : Punctual cfg w s.timerWheel) (hfree : s.pool.childFree = cid :: free) :
    Timed cfg span idx (sendChild cfg w pid ctx cid free co s) := by
  have hlater := hp.later co.type
  have hreach := h.reach co List.mem_cons_self
  have hold (e : TimerEntry) (he : e ∈ s.timerWheel.active) :
      (sendChild cfg w pid ctx cid free co s).pool.children e.childId = s.pool.children e.childId := by
    refine Function.update_of_ne (fun heq => h.unarmed e he ?_) _ _
    rw [hfree, heq]
    exact List.mem_cons_self
  have hnew : ((sendChild cfg w pid ctx cid free co s).pool.children cid).dueNs cfg =
      w.dispatchNs + timeoutNs cfg co.type := by
    simp [sendChild, attachChild, newChild, ChildOrderState.dueNs]
  have hplaced := hs.placed.insert cid w.dispatchNs (timeoutNs cfg co.type)
  have hwheel : (sendChild cfg w pid ctx cid free co s).timerWheel =
      (s.timerWheel.insert cid w.dispatchNs (timeoutNs cfg co.type)).2 := rfl
  rcases s.timerWheel.insert_result cid w.dispatchNs (timeoutNs cfg co.type) with hins | ⟨i, hins⟩
  · rw [hins] at hwheel
    refine ⟨by rw [hwheel]; exact hs.placed, by rw [hwheel]; exact hs.slot, fun e he => ?_,
      by rw [hwheel]; exact hs.behind, by rw [hwheel]; exact hs.ahead, by rw [hwheel]; exact hs.scanned⟩
    rw [hwheel] at he
    rw [hold e he]
    exact hs.due e he
  · rw [hins] at hwheel hplaced
    refine ⟨by rw [hwheel]; exact hplaced, ?_, ?_, ?_, ?_, ?_⟩ <;> rw [hwheel] <;> intro e he <;>
      rcases List.mem_cons.mp he with rfl | he
    · rfl
    · exact hs.slot e he
    · exact hnew.symm
    · rw [hold e he]
      exact hs.due e he
    · exact hlater.le
    · exact hs.behind e he
    · exact hreach
    · exact hs.ahead e he
    · exact fun heq => absurd heq (Nat.ne_of_gt hlater)
    · exact hs.scanned e he

theorem micro_timed {a b : Phase × Core} (h : Micro cfg w a b) (hp : Punctual cfg w a.2.timerWheel)
    (ha : Timed cfg span idx a.2)
    (hd : OnDispatch cfg w (SendsInReach cfg w span) a) : Timed cfg span idx b.2 := by
  cases h with
  | mark => exact ha.of_same rfl rfl
  | close =>
    refine ha.of_same rfl ?_
    simp [closeFilled, Core.setParentState, freeSlots_eq, freeParent]
  | keep => exact ha
  | trim =>
    refine ha.of_same ?_ ?_
    · rw [trimmed_eq]
    · simp [trimmed_eq, releaseChildren]
  | reduced => exact ha.of_same rfl rfl
  | noLiquidity => exact ha.of_same rfl rfl
  | route => exact ha.of_same rfl rfl
  | send hroom hfree => exact sendChild_timed ha (hd (List.cons_ne_nil _ _)) hp hfree
  | allocFailed hfree =>
    refine ha.of_same rfl ?_
    simp [allocChild, hfree]
  | @sent pid ctx rest s => exact ha.of_same (releaseGap_timerWheel ctx rest) (by rw [releaseGap_pool])
  | @noneSent pid ctx rest s =>
    have hwheel : (closeUnfilled w pid .childPoolExhausted (releaseGap pid ctx rest s)).timerWheel =
      (releaseGap pid ctx rest s).timerWheel := rfl
    refine ha.of_same (hwheel.trans (releaseGap_timerWheel ctx rest)) ?_
    simp [closeUnfilled, notifyReject, Core.setParentState, freeParent]

/-- A call whose entry is timed and whose dispatch is in reach ends timed. -/
theorem call_timed {c : Call} (hp : Punctual cfg w s.timerWheel)
    (hclock : TimerWheel.SameClock s.timerWheel (c.entry cfg w s).2.timerWheel)
    (hentry : Timed cfg span idx (c.entry cfg w s).2)
    (hd : OnDispatch cfg w (SendsInReach cfg w span) (c.entry cfg w s)) :
    Timed cfg span idx (c.apply cfg w s) := by
  have hend := call_invariant (fun a => Punctual cfg w a.2.timerWheel ∧ Timed cfg span idx a.2 ∧
      OnDispatch cfg w (SendsInReach cfg w span) a) c
    (fun a b hm ha => ⟨ha.1.clock (micro_clock hm), micro_timed hm ha.1 ha.2.1 ha.2.2,
      micro_onDispatch (fun _ _ _ _ hr hw _ hf hne => (hr hne).of_same hw hf)
        (fun _ _ _ _ _ _ _ hr _ hf _ => (hr (List.cons_ne_nil _ _)).send hf) hm ha.2.2⟩)
    ⟨hp.clock hclock, hentry, hd⟩
  exact hend.2.1

end Calls

end OmsFormal.Oms
