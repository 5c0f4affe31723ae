import OmsFormal.TimerCoverage
import OmsFormal.Lifecycle
import OmsFormal.Ticks

/-!
# Timers over whole runs

As long as every call keeps the timers complete, a child that works has exactly
one timer, and if nothing more is heard of the child the scan of the ring gets
to that timer. A partial fill is enough to lose it.
-/

namespace OmsFormal.Oms
open Sor Rounding OMSOrderPool GuardedRun
set_option autoImplicit false

def Event.WellFormed : Event → Core → Prop
  | .call _ c, s => c.WellFormed s
  | .env _, _ => True

def Event.KeepsTimers (cfg : ExecCoreConfig) : Event → Core → Prop
  | .call w c, s => c.KeepsTimers cfg w s
  | .env _, _ => True

def Event.Silent (c : ℕ) : Event → Prop
  | .call _ (.report rep) => rep.childId ≠ c
  | _ => True

/-- The event is a position of the scan that holds the timer of child `c`, and the child works, so
the callback cancels it. -/
def Event.TimesOut (c : ℕ) (e : Event) (s : Core) : Prop :=
  ∃ w slot idx x, e = .call w (.visit slot idx) ∧ s.timerWheel.entryAt slot idx = some x ∧ x.childId = c ∧
    s.pool.ChildInUse c ∧ (s.pool.children c).state.working = true

variable {cfg : ExecCoreConfig} {w : World} {s : Core} {e : TimerEntry}

theorem SameBooks.watched {s' : Core} (h : SameBooks s s') (hs : Watched s) : Watched s' := by
  refine ⟨by rw [h.pool]; exact hs.store, h.timers hs.timers, ⟨?_, ?_⟩, ?_⟩
  · rw [h.active]
    exact hs.placed.bound
  · rw [h.active]
    exact hs.placed.position
  · intro c hc hw
    rw [h.pool] at hc hw
    rw [h.active]
    exact hs.covered c hc hw

theorem step_watched {ev : Event} (hs : Watched s) (hwf : ev.WellFormed s) (hok : ev.KeepsTimers cfg s) :
    Watched (step cfg ev s) := by
  cases ev with
  | call w c => exact call_watched hwf hok hs
  | env ev => exact (ev.apply_sameBooks s).watched hs

theorem Fresh.watched (h : Fresh s) : Watched s := by
  refine ⟨(h.healthy (r := fun _ _ => 1)).store, (h.healthy (r := fun _ _ => 1)).timers, ⟨?_, ?_⟩, ?_⟩
  · rw [h.timers]
    simp
  · rw [h.timers]
    exact List.nodup_nil
  · intro c hc
    rw [h.pool] at hc
    exact absurd hc (FreeStack.not_inUse_init _ c)

section Watching

/-- Entry `e` is armed and its child works. -/
structure Watching (e : TimerEntry) (s : Core) : Prop where
  armed : e ∈ s.timerWheel.active
  inUse : s.pool.ChildInUse e.childId
  working : (s.pool.children e.childId).state.working = true

theorem micro_watching {a b : Phase × Core} (h : Micro cfg w a b) (ha : WatchedAt cfg w a)
    (he : Watching e a.2) : Watching e b.2 := by
  obtain ⟨phase, s⟩ := a
  rcases micro_live h ha.store ha.safe with
    ⟨hlive, hwheel⟩ | ⟨pid, ctx, cid, free, co, rest, hphase, hroom, hfree, rfl⟩
  · have hu := hlive.keep _ he.inUse he.working
    exact ⟨by rw [hwheel]; exact he.armed, hu, by rw [(hlive.back _ hu).2]; exact he.working⟩
  · obtain rfl := hphase
    obtain ⟨⟨x, _, hactive⟩, _⟩ := ha.arms.send ctx hroom hfree
    have hne : e.childId ≠ cid := fun hc => attach_fresh hfree (hc ▸ he.inUse)
    refine ⟨by rw [hactive]; exact List.mem_cons_of_mem x he.armed, ?_, ?_⟩
    · exact (attach_childInUse pid _ ha.store.2 hfree _).mpr (Or.inr he.inUse)
    · simpa [sendChild, attachChild, Function.update_of_ne hne] using he.working

/-- A call that is not about the child of `e` and does not scan `e` leaves both alone. -/
theorem entered_watching {c : Call} {a : Phase × Core} (h : Entered cfg w s c a) (hs : Watched s)
    (he : Watching e s) (hsilent : (Event.call w c).Silent e.childId)
    (hnot : ¬ (Event.call w c).TimesOut e.childId s) : Watching e a.2 := by
  cases h with
  | refused href =>
    have hu := (childInUse_of_childFree href.records.childFree e.childId).mpr he.inUse
    exact ⟨by rw [href.timerWheel]; exact he.armed, hu,
      by rw [href.records.children _ he.inUse]; exact he.working⟩
  | admitted => exact ⟨he.armed, he.inUse, he.working⟩
  | filled hlive =>
    refine ⟨bookFill_keeps hs.store hs.timers hlive.1 he.armed hsilent.symm, he.inUse, ?_⟩
    simpa [bookFill_pool, Function.update_of_ne hsilent.symm] using he.working
  | ended hlive =>
    refine ⟨bookCancel_keeps hs.store hs.timers hlive.1 he.armed hsilent.symm, he.inUse, ?_⟩
    simpa [bookCancel_pool, Function.update_of_ne hsilent.symm] using he.working
  | acknowledged =>
    refine ⟨he.armed, he.inUse, ?_⟩
    simpa [acknowledge_pool, Function.update_of_ne hsilent.symm] using he.working
  | ignored => exact he
  | @expired slot idx x hx hlive =>
    have hne : e.childId ≠ x.childId := by
      intro hc
      exact hnot ⟨w, slot, idx, x, rfl, hx, hc.symm, he.inUse, he.working⟩
    refine ⟨expired_keeps hs.store hs.timers (TimerWheel.entryAt_mem hx) he.armed hne, he.inUse, ?_⟩
    simp only [bookCancel_pool, modifyParent_children, modifyChild_children, Function.update_of_ne hne]
    exact he.working
  | unarmed => exact he

theorem step_watching {ev : Event} (hs : Watched s) (hwf : ev.WellFormed s) (hok : ev.KeepsTimers cfg s)
    (he : Watching e s) (hsilent : ev.Silent e.childId) (hnot : ¬ ev.TimesOut e.childId s) :
    Watching e (step cfg ev s) := by
  cases ev with
  | call w c =>
    have hentered : Entered cfg w s c (c.entry cfg w s) := entered_of_wellFormed hs.store hs.timers hwf
    have hend := call_invariant (fun a => WatchedAt cfg w a ∧ Watching e a.2) c
      (fun a b hm ha => ⟨micro_watched hm ha.1, micro_watching hm ha.1 ha.2⟩)
      ⟨⟨entered_store hentered hs.store, entered_timers hentered hs.store hs.timers,
        entered_placed hentered hs, entered_covered hentered hs hok.whole, hok.safe, hok.arms⟩,
        entered_watching hentered hs he hsilent hnot⟩
    exact hend.2
  | env ev =>
    have hsame := ev.apply_sameBooks s
    exact ⟨by rw [step, hsame.active]; exact he.armed, by rw [step, hsame.pool]; exact he.inUse,
      by rw [step, hsame.pool]; exact he.working⟩

/-- If a run says nothing about the child of `e` and scans the position of `e`, the scan times the
child out. -/
theorem run_times_out {evs : List Event} (hs : Watched s)
    (h : Along (step cfg) (fun ev s => ev.WellFormed s ∧ ev.KeepsTimers cfg s) s evs) (he : Watching e s)
    (hsilent : ∀ ev ∈ evs, ev.Silent e.childId)
    (hscan : Scans e.slot e.idx evs) :
    ∃ pre ev post, evs = pre ++ ev :: post ∧ ev.TimesOut e.childId (run (step cfg) s pre) := by
  induction evs generalizing s with
  | nil =>
    obtain ⟨w, hmem⟩ := hscan
    cases hmem
  | cons ev evs ih =>
    by_cases hout : ev.TimesOut e.childId s
    · exact ⟨[], ev, evs, rfl, hout⟩
    · have hnext := step_watching hs h.1.1 h.1.2 he (hsilent ev List.mem_cons_self) hout
      have hscan' : Scans e.slot e.idx evs := by
        obtain ⟨w, hmem⟩ := hscan
        rcases List.mem_cons.mp hmem with hev | hmem
        · exact absurd ⟨w, e.slot, e.idx, e, hev.symm, hs.placed.entryAt he.armed, rfl, he.inUse, he.working⟩
            hout
        · exact ⟨w, hmem⟩
      obtain ⟨pre, x, post, hsplit, hfound⟩ := ih (step_watched hs h.1.1 h.1.2) h.2 hnext
        (fun x hx => hsilent x (List.mem_cons_of_mem ev hx)) hscan'
      exact ⟨ev :: pre, x, post, by rw [hsplit]; rfl, hfound⟩

end Watching

/-- While every call keeps the timers complete, each working child has exactly one timer, and if
nothing more is heard of it, a scan of the whole ring times it out. -/
theorem run_children_watched (evs more : List Event) (h0 : Fresh s)
    (h : Along (step cfg) (fun ev s => ev.WellFormed s ∧ ev.KeepsTimers cfg s) s (evs ++ more)) :
    ∀ c, (run (step cfg) s evs).pool.ChildInUse c →
      ((run (step cfg) s evs).pool.children c).state.working = true →
      ((run (step cfg) s evs).timerWheel.active.map TimerEntry.childId).count c = 1 ∧
      ((∀ ev ∈ more, ev.Silent c) →
        (∀ slot idx, slot < kFineSlots → idx < kSlotDepth → Scans slot idx more) →
        ∃ pre ev post, more = pre ++ ev :: post ∧
          ev.TimesOut c (run (step cfg) (run (step cfg) s evs) pre)) := by
  obtain ⟨hfirst, hmore⟩ := along_append.mp h
  have hs := hfirst.invariant Watched (fun ev s hs hok => step_watched hs hok.1 hok.2) h0.watched
  intro c hc hw
  obtain ⟨e, he, rfl⟩ := hs.covered c hc hw
  refine ⟨List.count_eq_one_of_mem hs.timers.distinct (List.mem_map_of_mem he), ?_⟩
  intro hsilent hscan
  obtain ⟨hslot, hidx⟩ := hs.placed.bound e he
  exact run_times_out hs hmore ⟨he, hc, hw⟩ hsilent (hscan _ _ hslot hidx)

theorem Sample.afterSignal_live :
    (run (step config) (start 0) [.call (world 9) (.signal (signal .buy 4 false))]).pool.ChildLive 0 := by
  refine firstChildLive ?_ ?_ <;> with_unfolding_all rfl

theorem run_children_watched_sent :
    ((run (step Sample.config) (Sample.start 0)
      [.call (Sample.world 9) (.signal (Sample.signal .buy 4 false))]).timerWheel.active.map
        TimerEntry.childId).count 0 = 1 := by
  refine (run_children_watched [.call (Sample.world 9) (.signal (Sample.signal .buy 4 false))] []
    (Sample.fresh 0)
    ⟨⟨(by decide : (1 : ℤ) ≤ 4), trivial, ?_, ?_⟩, trivial⟩ 0 Sample.afterSignal_live.1 (by decide +kernel)).1
  · decide +kernel
  · decide +kernel

/-- One lot of four is filled: the child goes on working, without a timer. -/
theorem partialFill_unwatched :
    Along (step Sample.config) Event.WellFormed (Sample.start 0) Sample.partialFillRun ∧
    (run (step Sample.config) (Sample.start 0) Sample.partialFillRun).pool.ChildInUse 0 ∧
    ((run (step Sample.config) (Sample.start 0) Sample.partialFillRun).pool.children 0).state =
      .partiallyFilled ∧
    ((run (step Sample.config) (Sample.start 0) Sample.partialFillRun).timerWheel.active.map
      TimerEntry.childId).count 0 = 0 := by
  have hlive : (run (step Sample.config) (Sample.start 0) Sample.partialFillRun).pool.ChildLive 0 := by
    refine Sample.firstChildLive ?_ ?_ <;> with_unfolding_all rfl
  refine ⟨Sample.partialFill_admissible.mono fun ev s h => ?_, hlive.1, by decide +kernel, by decide +kernel⟩
  cases ev with
  | call w c => exact h.wellFormed
  | env ev => exact trivial

end OmsFormal.Oms
