import OmsFormal.TimerSlots
import OmsFormal.SlackPhases

/-!
# Which children a timer watches

Every working child is armed when it is sent, unless its slot is full, and it is
disarmed by its first fill, even a partial one. So a run keeps every working
child armed as long as fills are whole, slots have room, and no parent closes
over a child that still works. No lot sizes or router answers matter here.
-/

namespace OmsFormal.Oms
open Sor Rounding OMSOrderPool GuardedRun
set_option autoImplicit false

/-- Every working child is armed. -/
def Covered (s : Core) : Prop :=
  ∀ c, s.pool.ChildInUse c → (s.pool.children c).state.working = true →
    ∃ e ∈ s.timerWheel.active, e.childId = c

/-- The dispatch that a call is still going to make, if any, starts with `P` of its parent, its
child orders and its state. -/
def OnDispatch (cfg : ExecCoreConfig) (w : World) (P : ℕ → List ChildOrder → Core → Prop) :
    Phase × Core → Prop
  | (.idle, _) => True
  | (.booked pid, s) => reroutes pid s = true →
      P pid (asked w pid (trimmedContext cfg w pid s) (trimmed pid s)) (trimmed pid s)
  | (.trimmed pid ctx, s) => P pid (asked w pid ctx s) s
  | (.sending pid _ rest, s) => P pid rest s

instance (cfg : ExecCoreConfig) (w : World) (P : ℕ → List ChildOrder → Core → Prop)
    [∀ pid rest s, Decidable (P pid rest s)] (a : Phase × Core) : Decidable (OnDispatch cfg w P a) :=
  match a with
  | (.idle, _) => inferInstanceAs (Decidable True)
  | (.booked pid, s) => inferInstanceAs (Decidable (reroutes pid s = true → P pid _ _))
  | (.trimmed pid ctx, s) => inferInstanceAs (Decidable (P pid (asked w pid ctx s) s))
  | (.sending pid _ rest, s) => inferInstanceAs (Decidable (P pid rest s))

/-- The timers of the dispatch that a call is still going to make fit into their slots. -/
def ArmsAll (cfg : ExecCoreConfig) (w : World) : Phase × Core → Prop
  | (.idle, _) => True
  | (.booked pid, s) => reroutes pid s = true →
      TimersFit cfg w pid (asked w pid (trimmedContext cfg w pid s) (trimmed pid s)) (trimmed pid s)
  | (.trimmed pid ctx, s) => TimersFit cfg w pid (asked w pid ctx s) s
  | (.sending pid _ rest, s) => TimersFit cfg w pid rest s

instance (cfg : ExecCoreConfig) (w : World) (a : Phase × Core) : Decidable (ArmsAll cfg w a) :=
  match a with
  | (.idle, _) => inferInstanceAs (Decidable True)
  | (.booked pid, s) => inferInstanceAs (Decidable (reroutes pid s = true → _))
  | (.trimmed pid ctx, s) => inferInstanceAs (Decidable (TimersFit cfg w pid (asked w pid ctx s) s))
  | (.sending pid _ rest, s) => inferInstanceAs (Decidable (TimersFit cfg w pid rest s))

/-- The timer invariant inside a call. -/
structure WatchedAt (cfg : ExecCoreConfig) (w : World) (a : Phase × Core) : Prop where
  store : StoreAt a
  timers : TimersOk a.2
  placed : a.2.timerWheel.Placed
  covered : Covered a.2
  safe : CloseSafe a
  arms : ArmsAll cfg w a

/-- The timer invariant between two calls. -/
structure Watched (s : Core) : Prop where
  store : StoreInv Quiet s.pool
  timers : TimersOk s
  placed : s.timerWheel.Placed
  covered : Covered s

variable {cfg : ExecCoreConfig} {w : World} {s : Core} {pid : ℕ}

section Micro

theorem trimmed_timerWheel (pid : ℕ) (s : Core) : (trimmed pid s).timerWheel = s.timerWheel := by
  rw [trimmed_eq]

theorem trimmed_childFree_setParentState (st : OrderState) :
    (trimmed pid (s.setParentState pid st)).pool.childFree = (trimmed pid s).pool.childFree := by
  simp [trimmed_eq, releaseChildren, setParentState_childIds]
  rfl

/-- What depends on the wheel, the free children and the slots of the parent alone, and is kept
by sending one child, is kept by every small step. -/
theorem micro_onDispatch {P : ℕ → List ChildOrder → Core → Prop}
    (hsame : ∀ pid rest s s', P pid rest s → s'.timerWheel = s.timerWheel →
      (s'.pool.parents pid).childCount = (s.pool.parents pid).childCount →
      s'.pool.childFree = s.pool.childFree → P pid rest s')
    (hsend : ∀ pid ctx co rest s cid free, P pid (co :: rest) s →
      (s.pool.parents pid).childCount < ParentOrder.kMaxChildrenPerParent →
      s.pool.childFree = cid :: free → P pid rest (sendChild cfg w pid ctx cid free co s))
    {a b : Phase × Core} (h : Micro cfg w a b) (ha : OnDispatch cfg w P a) : OnDispatch cfg w P b := by
  cases h with
  | mark =>
    intro hr
    rw [reroutes_setParentState] at hr
    rw [trimmedContext_setParentState, asked_setParentState]
    refine hsame _ _ _ _ (ha hr) ?_ ?_ (trimmed_childFree_setParentState _)
    · rw [trimmed_timerWheel, trimmed_timerWheel]
      rfl
    · rw [trimmed_childCount, trimmed_childCount]
  | close => exact trivial
  | keep => exact trivial
  | trim hleft hterm => exact ha (by simp [reroutes, hleft, hterm])
  | reduced => exact trivial
  | noLiquidity => exact trivial
  | @route pid ctx s hleft hsplit =>
    have hasked : asked w pid ctx s = w.router.optimalSplit ctx := if_neg fun hc => hleft hc.1 hc.2
    simp only [OnDispatch, hasked] at ha ⊢
    exact hsame _ _ _ _ ha rfl (by simp [setParentState_pool]) rfl
  | send hroom hfree => exact hsend _ _ _ _ _ _ _ ha hroom hfree
  | @allocFailed pid ctx rest s hfree =>
    refine hsame _ _ _ _ ha rfl ?_ ?_
    · simp [allocChild, hfree]
    · simp [allocChild, hfree]
  | sent => exact trivial
  | noneSent => exact trivial

theorem armsAll_iff (a : Phase × Core) : ArmsAll cfg w a ↔ OnDispatch cfg w (TimersFit cfg w) a := by
  obtain ⟨phase, s⟩ := a
  cases phase <;> exact Iff.rfl

theorem micro_arms {a b : Phase × Core} (h : Micro cfg w a b) (ha : ArmsAll cfg w a) : ArmsAll cfg w b := by
  rw [armsAll_iff] at ha ⊢
  exact micro_onDispatch (fun _ _ _ _ hfit => hfit.of_same)
    (fun _ ctx _ _ _ _ _ hfit hroom hfree => (hfit.send ctx hroom hfree).2) h ha

theorem micro_closeSafe {a b : Phase × Core} (h : Micro cfg w a b) (ha : CloseSafe a) : CloseSafe b := by
  cases h with
  | @mark pid s =>
    intro hl c hc
    rw [setParentState_childIds] at hc
    exact ha (by simpa [setParentState_pool] using hl) c hc
  | close => exact trivial
  | keep => exact trivial
  | trim => exact trivial
  | reduced => exact trivial
  | noLiquidity => exact trivial
  | route => exact trivial
  | send => exact trivial
  | allocFailed => exact trivial
  | sent => exact trivial
  | noneSent => exact trivial

theorem micro_placed {a b : Phase × Core} (h : Micro cfg w a b) (ha : WatchedAt cfg w a) :
    b.2.timerWheel.Placed := by
  rcases micro_live h ha.store ha.safe with ⟨_, hwheel⟩ | ⟨pid, ctx, cid, free, co, rest, _, _, _, rfl⟩
  · rw [hwheel]
    exact ha.placed
  · exact ha.placed.insert _ _ _

theorem sendChild_covered {ctx : RoutingContext} {cid : ℕ} {free : List ℕ} {co : ChildOrder}
    {rest : List ChildOrder} (ha : WatchedAt cfg w (.sending pid ctx (co :: rest), s))
    (hroom : (s.pool.parents pid).childCount < ParentOrder.kMaxChildrenPerParent)
    (hfree : s.pool.childFree = cid :: free) : Covered (sendChild cfg w pid ctx cid free co s) := by
  obtain ⟨⟨e, hec, hactive⟩, _⟩ := ha.arms.send ctx hroom hfree
  intro c hc hw
  rw [hactive]
  by_cases hcid : c = cid
  · exact ⟨e, List.mem_cons_self, by rw [hec, hcid]⟩
  · have hc' := (attach_childInUse pid (newChild w (s.pool.parents pid).parentId ctx cid co)
      ha.store.2 hfree c).mp hc
    have hw' : (s.pool.children c).state.working = true := by
      simpa [sendChild, attachChild, Function.update_of_ne hcid] using hw
    obtain ⟨x, hx, hxc⟩ := ha.covered c (hc'.resolve_left hcid) hw'
    exact ⟨x, List.mem_cons_of_mem e hx, hxc⟩

theorem micro_covered {a b : Phase × Core} (h : Micro cfg w a b) (ha : WatchedAt cfg w a) : Covered b.2 := by
  obtain ⟨phase, s⟩ := a
  rcases micro_live h ha.store ha.safe with
    ⟨hlive, hwheel⟩ | ⟨pid, ctx, cid, free, co, rest, hphase, hroom, hfree, rfl⟩
  · intro c hc hw
    obtain ⟨hc', hrec⟩ := hlive.back c hc
    rw [hrec] at hw
    rw [hwheel]
    exact ha.covered c hc' hw
  · obtain rfl := hphase
    exact sendChild_covered ha hroom hfree

theorem micro_watched {a b : Phase × Core} (h : Micro cfg w a b) (ha : WatchedAt cfg w a) :
    WatchedAt cfg w b :=
  ⟨micro_store h ha.store, micro_timers h ha.store ha.safe ha.timers, micro_placed h ha, micro_covered h ha,
    micro_closeSafe h ha.safe, micro_arms h ha.arms⟩

end Micro

section Entry
variable {c : Call}

/-- A fill report fills what its child has left. -/
def Call.FillsWhole : Call → Core → Prop
  | .report rep, s => rep.execType.isFill = true →
      (s.pool.children rep.childId).cumQtyLots + rep.fillQtyLots = (s.pool.children rep.childId).qtyLots
  | _, _ => True

/-- What keeps the timers complete over a call: fills are whole, the parent does not close over a
child that still works, and the slots of new timers have room. -/
structure Call.KeepsTimers (cfg : ExecCoreConfig) (w : World) (c : Call) (s : Core) : Prop where
  whole : c.FillsWhole s
  safe : CloseSafe (c.entry cfg w s)
  arms : ArmsAll cfg w (c.entry cfg w s)

/-- A report that ends its child may take that child's timer away, and nobody else's. -/
theorem booked_covered {s' : Core} (cid : ℕ) (hc : Covered s)
    (hkeep : ∀ e ∈ s.timerWheel.active, e.childId ≠ cid → e ∈ s'.timerWheel.active)
    (hfree : s'.pool.childFree = s.pool.childFree)
    (hother : ∀ x, x ≠ cid → s'.pool.children x = s.pool.children x)
    (hdone : (s'.pool.children cid).state.working = false) : Covered s' := by
  intro x hx hw
  by_cases hxc : x = cid
  · rw [hxc, hdone] at hw
    cases hw
  · rw [hother x hxc] at hw
    obtain ⟨e, he, hec⟩ := hc x ((childInUse_of_childFree hfree x).mp hx) hw
    exact ⟨e, hkeep e he (by rw [hec]; exact hxc), hec⟩

theorem bookFill_keeps {rep : ExecutionReport} (hinv : StoreInv Quiet s.pool) (ht : TimersOk s)
    (hc : s.pool.ChildInUse rep.childId) {e : TimerEntry} (he : e ∈ s.timerWheel.active)
    (hne : e.childId ≠ rep.childId) :
    e ∈ (bookFill cfg w rep.childId (s.parentOf rep.childId) rep s).timerWheel.active := by
  simp only [bookFill, (hinv.ok _).childId rep.childId hc rfl]
  exact (TimerWheel.mem_cancel ht.distinct).mpr ⟨he, hne⟩

theorem bookCancel_keeps {cid : ℕ} {rep : ExecutionReport} (hinv : StoreInv Quiet s.pool) (ht : TimersOk s)
    (hc : s.pool.ChildInUse cid) {e : TimerEntry} (he : e ∈ s.timerWheel.active) (hne : e.childId ≠ cid) :
    e ∈ (bookCancel cfg w cid (s.parentOf cid) rep s).timerWheel.active := by
  simp only [bookCancel, (hinv.ok _).childId cid hc rfl]
  exact (TimerWheel.mem_cancel ht.distinct).mpr ⟨he, hne⟩

/-- The callback of a timer has lost its own entry before it cancels its child. -/
theorem expired_keeps {x : TimerEntry} {rep : ExecutionReport} (hinv : StoreInv Quiet s.pool)
    (ht : TimersOk s)
    (hx : x ∈ s.timerWheel.active) {e : TimerEntry} (he : e ∈ s.timerWheel.active)
    (hne : e.childId ≠ x.childId) :
    e ∈ (bookCancel cfg w x.childId (s.parentOf x.childId) rep
      (s.setWheel (s.timerWheel.deactivate x))).timerWheel.active :=
  bookCancel_keeps (s := s.setWheel (s.timerWheel.deactivate x)) hinv (setWheel_timers ht x)
    (ht.live x hx).1 ((TimerWheel.mem_deactivate ht.distinct hx).mpr ⟨he, hne⟩) hne

theorem cancel_working (execType : ExecType) (c : ChildOrderState) :
    (c.cancel execType).state.working = false := by
  simp only [ChildOrderState.cancel]
  split <;> rfl

theorem bookCancel_working (cfg : ExecCoreConfig) (w : World) (cid pid : ℕ) (rep : ExecutionReport)
    (s : Core) :
    ((bookCancel cfg w cid pid rep s).pool.children cid).state.working = false := by
  simp only [bookCancel_pool, modifyParent_children, modifyChild_children, Function.update_self]
  exact cancel_working _ _

theorem entered_covered {a : Phase × Core} (h : Entered cfg w s c a) (hs : Watched s)
    (hwhole : c.FillsWhole s) : Covered a.2 := by
  cases h with
  | refused href =>
    have huse (x : ℕ) := childInUse_of_childFree href.records.childFree x
    intro x hx hw
    rw [href.records.children x ((huse x).mp hx)] at hw
    rw [href.timerWheel]
    exact hs.covered x ((huse x).mp hx) hw
  | admitted => exact hs.covered
  | @filled rep hlive hkind =>
    refine booked_covered rep.childId hs.covered (fun e he hne =>
      bookFill_keeps hs.store hs.timers hlive.1 he hne)
      rfl (fun x hx => Function.update_of_ne hx _ _) ?_
    simp [bookFill_pool, ChildOrderState.fill, hwhole hkind, OrderState.working]
  | @ended rep hlive =>
    exact booked_covered rep.childId hs.covered
      (fun e he hne => bookCancel_keeps hs.store hs.timers hlive.1 he hne) rfl
      (fun x hx => Function.update_of_ne hx _ _) (bookCancel_working _ _ _ _ _ _)
  | @acknowledged rep hlive =>
    intro x hx hw
    by_cases hxc : x = rep.childId
    · rw [hxc]
      exact hs.covered _ hlive.1 (hs.store.working_of_live hlive)
    · simp only [acknowledge_pool, modifyChild_children, Function.update_of_ne hxc] at hw
      exact hs.covered x hx hw
  | ignored => exact hs.covered
  | @expired slot idx x hx hlive =>
    exact booked_covered x.childId hs.covered
      (fun e he hne => expired_keeps hs.store hs.timers (TimerWheel.entryAt_mem hx) he hne) rfl
      (fun y hy => Function.update_of_ne hy _ _) (bookCancel_working _ _ _ _ _ _)
  | unarmed => exact hs.covered

theorem entered_placed {a : Phase × Core} (h : Entered cfg w s c a) (hs : Watched s) :
    a.2.timerWheel.Placed := by
  cases h with
  | refused href =>
    rw [href.timerWheel]
    exact hs.placed
  | admitted => exact hs.placed
  | filled => exact hs.placed.cancel _
  | ended => exact hs.placed.cancel _
  | acknowledged => exact hs.placed
  | ignored => exact hs.placed
  | expired => exact (hs.placed.of_sublist List.erase_sublist).cancel _
  | unarmed => exact hs.placed

theorem call_watched (hwf : c.WellFormed s) (hok : c.KeepsTimers cfg w s) (hs : Watched s) :
    Watched (c.apply cfg w s) := by
  have hentered : Entered cfg w s c (c.entry cfg w s) := entered_of_wellFormed hs.store hs.timers hwf
  have hend := call_invariant (WatchedAt cfg w) c (fun a b hm ha => micro_watched hm ha)
    ⟨entered_store hentered hs.store, entered_timers hentered hs.store hs.timers, entered_placed hentered hs,
      entered_covered hentered hs hok.whole, hok.safe, hok.arms⟩
  exact ⟨hend.store, hend.timers, hend.placed, hend.covered⟩

end Entry

end OmsFormal.Oms
