import OmsFormal.Settlement

/-!
# Settlement over whole runs

A `Tab` remembers, for every parent, the quantity its signal was accepted with
and the rejects that calls on its behalf have pushed since. While it is open no
reject has been pushed for it; when it closes, tab and fills agree.
-/

namespace OmsFormal.Oms
open Sor Rounding OMSOrderPool GuardedRun
set_option autoImplicit false

structure Tab where
  accepted : ℕ → ℤ
  rejects : ℕ → List OrderReject

/-- The rejects that a call which went from `s` to `s'` has pushed. -/
def pushedRejects (s s' : Core) : List OrderReject := s'.rejectQueue.drop s.rejectQueue.length

namespace Tab

def empty : Tab := ⟨fun _ => 0, fun _ => []⟩

/-- A signal of `qty` lots opens parent `pid`, and its first dispatch pushes `rejects`. -/
def openParent (pid : ℕ) (qty : ℤ) (rejects : List OrderReject) (T : Tab) : Tab :=
  ⟨Function.update T.accepted pid qty, Function.update T.rejects pid rejects⟩

def addRejects (pid : ℕ) (rejects : List OrderReject) (T : Tab) : Tab :=
  { T with rejects := Function.update T.rejects pid (T.rejects pid ++ rejects) }

def record (cfg : ExecCoreConfig) : Event → Core → Tab → Tab
  | .call w (.signal sig), s, T =>
    match signalFlow cfg w sig s with
    | .finished _ => T
    | .dispatching _ pid _ _ =>
      T.openParent pid (effectiveQty sig s.pos) (pushedRejects s (onStrategyOrder cfg w sig s))
  | .call w c, s, T =>
    match c.entry cfg w s with
    | (.booked pid, _) => T.addRejects pid (pushedRejects s (c.apply cfg w s))
    | _ => T
  | .env _, _, T => T

end Tab

def tabStep (cfg : ExecCoreConfig) (e : Event) (x : Core × Tab) : Core × Tab :=
  (step cfg e x.1, x.2.record cfg e x.1)

/-- The event is a signal that is accepted under parent id `p`. -/
def Event.Opens (cfg : ExecCoreConfig) (p : ℕ) : Event → Core → Prop
  | .call w (.signal sig), s => ∃ s' buf ctx, signalFlow cfg w sig s = .dispatching s' p buf ctx
  | _, _ => False

/-- A reroute does not cut its parent down. -/
def Call.KeepsQuantity (cfg : ExecCoreConfig) (w : World) (c : Call) (s : Core) : Prop :=
  match c.entry cfg w s with
  | (.booked pid, s') => reroutes pid s' = true → excessLots pid s' = 0
  | _ => True

/-- Admissible, with room for one more reject, and no cut. -/
def Event.Settling (cfg : ExecCoreConfig) : Event → Core → Prop
  | .call w c, s => c.Admissible cfg canonical w s ∧ s.rejectQueue.length + 1 < kOutboundQueueSize ∧
      c.KeepsQuantity cfg w s
  | .env _, _ => True

/-- The open parents carry what was accepted, and nothing has been rejected for them. -/
def TabOk (T : Tab) (s : Core) : Prop :=
  ∀ p, s.pool.ParentInUse p → (s.pool.parents p).totalQtyLots = T.accepted p ∧ T.rejects p = []

variable {cfg : ExecCoreConfig} {w : World} {s : Core} {pid : ℕ} {total : ℤ} {T : Tab}

theorem Call.KeepsQuantity.of_not_startsReroute {c : Call} (h : c.startsReroute cfg w s = false) :
    c.KeepsQuantity cfg w s :=
  Call.OnReroute.of_not_startsReroute (P := fun pid s' => excessLots pid s' = 0) h

section Call

theorem Accounted.pid_eq {a : Phase × Core} {queue : List OrderReject} (h : Accounted pid total queue a)
    (hne : a.1 ≠ .idle) : a.1.pid = pid := by
  obtain ⟨phase, s⟩ := a
  cases phase with
  | idle => exact absurd rfl hne
  | booked => exact h.1
  | trimmed => exact h.1
  | sending => exact h.1

/-- A call that works on parent `pid` touches no other parent and settles this one if it closes it. -/
theorem call_accounted {c : Call} {r : ℕ → ℕ → ℕ} (h : c.Admissible cfg r w s) (hs : Healthy r s)
    (hroom : s.rejectQueue.length + 1 < kOutboundQueueSize)
    (hloc : Local pid s.pool (c.entry cfg w s).2.pool)
    (hacc : Accounted pid total s.rejectQueue (c.entry cfg w s)) :
    Local pid s.pool (c.apply cfg w s).pool ∧
    Accounted pid total s.rejectQueue (.idle, c.apply cfg w s) := by
  have hend := call_invariant
    (fun a => HealthyAt cfg w r a ∧ Local pid s.pool a.2.pool ∧ Accounted pid total s.rejectQueue a) c
    (fun a b hm ⟨ha, hl, hac⟩ => ⟨micro_healthy h.sound hm ha,
      hl.trans (Accounted.pid_eq hac hm.not_idle ▸ micro_local hm ha.store), micro_accounted hm ha hroom hac⟩)
    ⟨entered_healthy h.sound (h.entered hs) h.scaled hs, hloc, hacc⟩
  exact hend.2

/-- What a tab that follows such a call says. -/
theorem tab_of_accounted {s' : Core} (T' : Tab) (hloc : Local pid s.pool s'.pool)
    (hacc : Accounted pid total s.rejectQueue (.idle, s')) (hT : ∀ p, p ≠ pid → s.pool.ParentInUse p →
      (s.pool.parents p).totalQtyLots = T.accepted p ∧ T.rejects p = [])
    (haccepted : T'.accepted pid = total) (hrejects : T'.rejects pid = pushedRejects s s')
    (hother : ∀ p, p ≠ pid → T'.accepted p = T.accepted p ∧ T'.rejects p = T.rejects p) :
    TabOk T' s' ∧ ∀ p, s.pool.ParentInUse p ∨ p = pid → ¬ s'.pool.ParentInUse p →
      Settles (T'.accepted p) (s'.pool.parents p) (T'.rejects p) := by
  refine ⟨fun p hu => ?_, fun p hopen hgone => ?_⟩
  · by_cases hp : p = pid
    · subst hp
      obtain ⟨_, htotal, hqueue⟩ := hacc.resolve_right fun hclosed => hclosed.1 hu
      refine ⟨htotal.trans haccepted.symm, ?_⟩
      rw [hrejects, pushedRejects, hqueue]
      exact List.drop_length
    · have hu' := (hloc.inUse p hp).mp hu
      rw [hloc.record p hp hu', (hother p hp).1, (hother p hp).2]
      exact hT p hp hu'
  · by_cases hp : p = pid
    · subst hp
      obtain ⟨_, new, hqueue, hsettles⟩ := hacc.resolve_left fun hstays => hgone hstays.1
      rw [haccepted, hrejects, pushedRejects, hqueue, List.drop_left]
      exact hsettles
    · exact absurd ((hloc.inUse p hp).mpr (hopen.resolve_right hp)) hgone

end Call

section Step

/-- A call that closes or opens nothing leaves a tab as it is. -/
theorem tab_of_sameParents {s' : Core} (hT : TabOk T s)
    (huse : ∀ p, s'.pool.ParentInUse p ↔ s.pool.ParentInUse p)
    (htotal : ∀ p, s.pool.ParentInUse p →
      (s'.pool.parents p).totalQtyLots = (s.pool.parents p).totalQtyLots) :
    TabOk T s' ∧ ∀ p, s.pool.ParentInUse p → ¬ s'.pool.ParentInUse p →
      Settles (T.accepted p) (s'.pool.parents p) (T.rejects p) := by
  refine ⟨fun p hu => ?_, fun p hu hgone => absurd ((huse p).mpr hu) hgone⟩
  rw [htotal p ((huse p).mp hu)]
  exact hT p ((huse p).mp hu)

theorem signal_tab {sig : StrategyOrderSignal} (hs : Healthy canonical s) (hT : TabOk T s)
    (h : (Call.signal sig).Admissible cfg canonical w s)
    (hroom : s.rejectQueue.length + 1 < kOutboundQueueSize) :
    TabOk (T.record cfg (.call w (.signal sig)) s) (onStrategyOrder cfg w sig s) ∧
    ∀ p, s.pool.ParentInUse p ∨ (Event.call w (.signal sig)).Opens cfg p s →
      ¬ (onStrategyOrder cfg w sig s).pool.ParentInUse p →
      Settles ((T.record cfg (.call w (.signal sig)) s).accepted p)
        ((onStrategyOrder cfg w sig s).pool.parents p)
        ((T.record cfg (.call w (.signal sig)) s).rejects p) := by
  rcases signal_cases cfg w sig s with ⟨s', hflow, href⟩ | ⟨pid, free, hfree, hinstr, hqty, hsplit, hflow⟩
  · have hrun : onStrategyOrder cfg w sig s = s' := by rw [onStrategyOrder, hflow]; rfl
    obtain ⟨htab, hclosed⟩ := tab_of_sameParents hT (fun p => inUse_of_parentFree href.records.parentFree p)
      fun p hu => by rw [href.records.parents p hu]
    simp only [Tab.record, hflow, hrun, Event.Opens]
    refine ⟨htab, fun p hopen hgone => hclosed p (hopen.resolve_right ?_) hgone⟩
    rintro ⟨_, _, _, hcontra⟩
    cases hcontra
  · have hentry : (Call.signal sig).entry cfg w s =
        (.sending pid (admittedContext cfg w sig pid free s)
          (signalSplit w sig (admittedContext cfg w sig pid free s)), reserved w sig pid free s) := by
      rw [Call.entry, hflow]
      rfl
    have hloc : Local pid s.pool (reserved w sig pid free s).pool :=
      (open_local hs.store hfree).trans (setParentState_local (s := admitted w sig pid free s) _)
    have htotal : ((reserved w sig pid free s).pool.parents pid).totalQtyLots = effectiveQty sig s.pos := by
      rw [reserved_record]
      rfl
    obtain ⟨hlocal, hacc⟩ := call_accounted h hs hroom (by rw [hentry]; exact hloc)
      (by rw [hentry]; exact ⟨rfl, htotal, rfl⟩)
    obtain ⟨htab, hclosed⟩ := tab_of_accounted (T.record cfg (.call w (.signal sig)) s) hlocal hacc
      (fun p _ hu => hT p hu) (by simp [Tab.record, hflow, Tab.openParent])
      (by simp only [Tab.record, hflow, Tab.openParent, Function.update_self]; rfl)
      (fun p hp => by simp [Tab.record, hflow, Tab.openParent, hp])
    refine ⟨htab, fun p hopen hgone => hclosed p (hopen.imp_right ?_) hgone⟩
    rintro ⟨s', buf, ctx, hopens⟩
    rw [hflow] at hopens
    cases hopens
    rfl

theorem booked_tab {c : Call} {s' : Core} (hs : Healthy canonical s) (hT : TabOk T s)
    (h : c.Admissible cfg canonical w s) (hroom : s.rejectQueue.length + 1 < kOutboundQueueSize)
    (hentry : c.entry cfg w s = (.booked pid, s')) (hloc : Local pid s.pool s'.pool)
    (hu : s.pool.ParentInUse pid)
    (htotal : (s'.pool.parents pid).totalQtyLots = (s.pool.parents pid).totalQtyLots)
    (hqueue : s'.rejectQueue = s.rejectQueue) (hkeep : reroutes pid s' = true → excessLots pid s' = 0) :
    TabOk (T.addRejects pid (pushedRejects s (c.apply cfg w s))) (c.apply cfg w s) ∧
    ∀ p, s.pool.ParentInUse p → ¬ (c.apply cfg w s).pool.ParentInUse p →
      Settles ((T.addRejects pid (pushedRejects s (c.apply cfg w s))).accepted p)
        ((c.apply cfg w s).pool.parents p)
        ((T.addRejects pid (pushedRejects s (c.apply cfg w s))).rejects p) := by
  obtain ⟨haccepted, hrejects⟩ := hT pid hu
  obtain ⟨hlocal, hacc⟩ := call_accounted h hs hroom (by rw [hentry]; exact hloc)
    (by rw [hentry]; exact ⟨rfl, htotal, hqueue, hkeep⟩)
  obtain ⟨htab, hclosed⟩ := tab_of_accounted (T.addRejects pid (pushedRejects s (c.apply cfg w s))) hlocal
    hacc (fun p _ hu => hT p hu) haccepted.symm (by simp [Tab.addRejects, hrejects])
    (fun p hp => by simp [Tab.addRejects, hp])
  exact ⟨htab, fun p hp hgone => hclosed p (Or.inl hp) hgone⟩

theorem report_tab {c : Call} (hs : Healthy canonical s) (hT : TabOk T s)
    (h : c.Admissible cfg canonical w s) (hroom : s.rejectQueue.length + 1 < kOutboundQueueSize)
    (hkeep : c.KeepsQuantity cfg w s) (hc : ∀ sig, c ≠ .signal sig) :
    TabOk (T.record cfg (.call w c) s) (c.apply cfg w s) ∧
    ∀ p, s.pool.ParentInUse p → ¬ (c.apply cfg w s).pool.ParentInUse p →
      Settles ((T.record cfg (.call w c) s).accepted p) ((c.apply cfg w s).pool.parents p)
        ((T.record cfg (.call w c) s).rejects p) := by
  have hentered := h.entered hs
  have hrecord : T.record cfg (.call w c) s = match c.entry cfg w s with
      | (.booked pid, _) => T.addRejects pid (pushedRejects s (c.apply cfg w s))
      | _ => T := by
    cases c with
    | signal sig => exact absurd rfl (hc sig)
    | report rep => rfl
    | visit slot idx => rfl
  unfold Call.KeepsQuantity at hkeep
  rw [hrecord]
  generalize hentry : c.entry cfg w s = a at hentered hkeep
  cases hentered with
  | refused => exact absurd rfl (hc _)
  | admitted => exact absurd rfl (hc _)
  | filled hlive =>
    exact booked_tab hs hT h hroom hentry (bookFill_local _) (hs.store.parentOf_inUse hlive.1)
      (by simp [bookFill_pool, ParentOrder.fill]) rfl hkeep
  | ended hlive =>
    exact booked_tab hs hT h hroom hentry (bookCancel_local _ _ _ _ _) (hs.store.parentOf_inUse hlive.1)
      (by simp [bookCancel_pool]) rfl hkeep
  | acknowledged =>
    rw [call_of_idle hentry]
    exact tab_of_sameParents hT (fun _ => Iff.rfl) fun _ _ => rfl
  | ignored =>
    rw [call_of_idle hentry]
    exact tab_of_sameParents hT (fun _ => Iff.rfl) fun _ _ => rfl
  | @expired slot idx e he hlive =>
    refine booked_tab hs hT h hroom hentry
      (bookCancel_local cfg w (s.setWheel (s.timerWheel.deactivate e)) e.childId _)
      (hs.store.parentOf_inUse hlive.1) ?_ rfl hkeep
    simp only [bookCancel_pool, modifyParent_parents, Function.update_self]
    rfl
  | unarmed =>
    rw [call_of_idle hentry]
    exact tab_of_sameParents hT (fun _ => Iff.rfl) fun _ _ => rfl

theorem step_tab {e : Event} (hs : Healthy canonical s) (hT : TabOk T s) (h : e.Settling cfg s) :
    TabOk (T.record cfg e s) (step cfg e s) ∧
    ∀ p, s.pool.ParentInUse p ∨ e.Opens cfg p s → ¬ (step cfg e s).pool.ParentInUse p →
      Settles ((T.record cfg e s).accepted p) ((step cfg e s).pool.parents p)
        ((T.record cfg e s).rejects p) := by
  cases e with
  | call w c =>
    obtain ⟨hadm, hroom, hkeep⟩ := h
    cases c with
    | signal sig => exact signal_tab hs hT hadm hroom
    | report rep =>
      obtain ⟨htab, hclosed⟩ := report_tab hs hT hadm hroom hkeep fun _ => Call.noConfusion
      exact ⟨htab, fun p hopen hgone => hclosed p (hopen.resolve_right False.elim) hgone⟩
    | visit slot idx =>
      obtain ⟨htab, hclosed⟩ := report_tab hs hT hadm hroom hkeep fun _ => Call.noConfusion
      exact ⟨htab, fun p hopen hgone => hclosed p (hopen.resolve_right False.elim) hgone⟩
  | env e =>
    have hsame := e.apply_sameBooks s
    have huse : ∀ p, (e.apply s).pool.ParentInUse p ↔ s.pool.ParentInUse p := fun p => by rw [hsame.pool]
    obtain ⟨htab, hclosed⟩ := tab_of_sameParents hT huse fun p _ => by rw [hsame.pool]
    exact ⟨htab, fun p hopen hgone => hclosed p (hopen.resolve_right False.elim) hgone⟩

end Step

theorem Event.Settling.admissible {e : Event} (h : e.Settling cfg s) : e.Admissible cfg canonical s := by
  cases e with
  | call w c => exact h.1
  | env e => exact trivial

theorem Settles.adds_up {parent : ParentOrder} {rejects : List OrderReject}
    (h : Settles total parent rejects) :
    parent.cumQtyLots + (rejects.map OrderReject.qtyLots).sum = total ∧
    (parent.cumQtyLots < total → ∃ rej, rejects = [rej] ∧ rej.qtyLots = total - parent.cumQtyLots) := by
  rcases h with ⟨rfl, hcum⟩ | ⟨rej, rfl, hsum, _⟩
  · refine ⟨by simpa using hcum, fun hlt => ?_⟩
    omega
  · refine ⟨by simpa using hsum, fun _ => ⟨rej, rfl, ?_⟩⟩
    omega

/-- No lot disappears: when the parent of an accepted signal is freed, its fills and the rejects
pushed for it add up to the accepted quantity, with exactly one reject if it was not filled. -/
theorem run_settles (evs : List Event) (e : Event) (h0 : Fresh s)
    (h : Along (step cfg) (Event.Settling cfg) s (evs ++ [e])) :
    let x := run (tabStep cfg) (s, Tab.empty) evs
    let y := tabStep cfg e x
    ∀ p, x.1.pool.ParentInUse p ∨ e.Opens cfg p x.1 → ¬ y.1.pool.ParentInUse p →
      (y.1.pool.parents p).cumQtyLots + ((y.2.rejects p).map OrderReject.qtyLots).sum = y.2.accepted p ∧
      ((y.1.pool.parents p).cumQtyLots < y.2.accepted p →
        ∃ rej, y.2.rejects p = [rej] ∧
          rej.qtyLots = y.2.accepted p - (y.1.pool.parents p).cumQtyLots) := by
  intro x y p hopen hgone
  have hghost := Along.lift (tabStep cfg) Prod.fst (s, Tab.empty) (fun _ _ => rfl) h
  obtain ⟨hfirst, hlast⟩ := along_append.mp hghost
  have hx : Healthy canonical x.1 ∧ TabOk x.2 x.1 := by
    refine hfirst.invariant (fun x : Core × Tab => Healthy canonical x.1 ∧ TabOk x.2 x.1)
      (fun e x hx he => ⟨step_healthy hx.1 (Event.Settling.admissible he), (step_tab hx.1 hx.2 he).1⟩) ?_
    exact ⟨h0.healthy, fun p hu => absurd hu (h0.parentInUse p)⟩
  exact ((step_tab hx.1 hx.2 hlast.1).2 p hopen hgone).adds_up

section Samples

/-- A reduce-only buy waits while another buy closes the position, and is then canceled. -/
def Sample.cutRun : List Event :=
  [.call (world 9) (.signal (signal .buy 4 true)),
   .call (world 9) (.signal (signal .buy 4 false)),
   .call (world 9) (.report (report 1 .fill 4))]

def Sample.cutEvent : Event := .call (world 9) (.report (report 0 .canceled 0))

theorem Sample.cut_admissible :
    Along (step config) (fun e s => e.Admissible config canonical s ∧
      s.rejectQueue.length + 1 < kOutboundQueueSize) (start (-4)) (cutRun ++ [cutEvent]) := by
  refine ⟨⟨⟨by decide, fun _ => scaled 9 _, sound 9⟩, by decide⟩,
    ⟨⟨by decide, fun _ => scaled 9 _, sound 9⟩, by decide +kernel⟩,
    ⟨⟨⟨?_, ?_⟩, fun _ _ => scaled 9 _, sound 9⟩, by decide +kernel⟩,
    ⟨⟨⟨?_, ?_⟩, fun _ _ => scaled 9 _, sound 9⟩, by decide +kernel⟩, trivial⟩
  · refine childLive [] 2 32766 ?_ (by decide) (by decide) (by decide) ?_ <;> with_unfolding_all rfl
  · intro _
    decide +kernel
  · refine childLive [1] 2 32766 ?_ (by decide) (by decide) (by decide) ?_ <;> with_unfolding_all rfl
  · intro hfill
    cases hfill

/-- The canceled order is freed with nothing filled of its four lots, and no reject. -/
theorem reduceOnly_cut_unsettled :
    let x := run (tabStep Sample.config) (Sample.start (-4), Tab.empty) Sample.cutRun
    let y := tabStep Sample.config Sample.cutEvent x
    Along (step Sample.config) (fun e s => e.Admissible Sample.config canonical s ∧
      s.rejectQueue.length + 1 < kOutboundQueueSize)
      (Sample.start (-4)) (Sample.cutRun ++ [Sample.cutEvent]) ∧
    x.1.pool.ParentInUse 0 ∧ ¬ y.1.pool.ParentInUse 0 ∧ y.2.accepted 0 = 4 ∧
    (y.1.pool.parents 0).cumQtyLots + ((y.2.rejects 0).map OrderReject.qtyLots).sum = 0 :=
  ⟨Sample.cut_admissible, by decide +kernel, by decide +kernel, by decide +kernel, by decide +kernel⟩

theorem run_settles_fill :
    let x := run (tabStep Sample.config) (Sample.start 0, Tab.empty)
      [.call (Sample.world 9) (.signal (Sample.signal .buy 4 false))]
    let y := tabStep Sample.config (.call (Sample.world 9) (.report (Sample.report 0 .fill 4))) x
    y.2.accepted 0 = 4 ∧
    (y.1.pool.parents 0).cumQtyLots + ((y.2.rejects 0).map OrderReject.qtyLots).sum = y.2.accepted 0 := by
  refine ⟨by decide +kernel, (run_settles [.call (Sample.world 9) (.signal (Sample.signal .buy 4 false))]
    (.call (Sample.world 9) (.report (Sample.report 0 .fill 4))) (Sample.fresh 0)
    ⟨⟨?_, by decide, ?_⟩, ⟨?_, by decide +kernel, ?_⟩, trivial⟩ 0 (Or.inl (by decide +kernel))
    (by decide +kernel)).1⟩
  · exact ⟨by decide, fun _ => Sample.scaled 9 _, Sample.sound 9⟩
  · exact Call.KeepsQuantity.of_not_startsReroute (by decide +kernel)
  · refine ⟨⟨?_, fun _ => by decide +kernel⟩, fun _ _ => Sample.scaled 9 _, Sample.sound 9⟩
    refine Sample.firstChildLive ?_ ?_ <;> with_unfolding_all rfl
  · exact Call.KeepsQuantity.of_not_startsReroute (by decide +kernel)

end Samples

end OmsFormal.Oms
