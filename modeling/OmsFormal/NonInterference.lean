import OmsFormal.Frames
import OmsFormal.Lifecycle

/-!
# Orders do not interfere

In a partitioned store every child in use belongs to one parent in use. What a
call may use is then disjoint from what the other parents own, although they all
share one store, one wheel and one table of positions. The states of a run are
partitioned.
-/

namespace OmsFormal.Oms
open Sor Rounding OMSOrderPool GuardedRun
set_option autoImplicit false

/-- Parent `p` lists child `c`, and the child's record names it. -/
structure OMSOrderPool.Owns (pool : OMSOrderPool) (p c : ℕ) : Prop where
  listed : c ∈ (pool.parents p).childIds
  parentId : (pool.children c).parentId = p

/-- No id is free twice, records in use carry their own ids, and every child in use is owned by
exactly one parent in use. -/
structure OMSOrderPool.Partitioned (pool : OMSOrderPool) : Prop where
  parentFree : pool.parentFree.Nodup
  childFree : pool.childFree.Nodup
  parentId : ∀ p, pool.ParentInUse p → (pool.parents p).parentId = p
  childId : ∀ c, pool.ChildInUse c → (pool.children c).childId = c
  owned : ∀ c, pool.ChildInUse c → ∃ p, pool.ParentInUse p ∧ pool.Owns p c ∧
    ∀ q, pool.ParentInUse q → c ∈ (pool.parents q).childIds → q = p

/-- Parent `q` keeps its record, its children theirs, and they their timers. -/
structure Undisturbed (s s' : Core) (q : ℕ) : Prop where
  inUse : s'.pool.ParentInUse q
  record : s'.pool.parents q = s.pool.parents q
  children : ∀ c, s.pool.ChildInUse c → s.pool.Owns q c →
    s'.pool.ChildInUse c ∧ s'.pool.children c = s.pool.children c ∧
      s'.timerWheel.entriesOf c = s.timerWheel.entriesOf c

/-- A report or an expiring timer names a child in use. -/
def Call.NamesChild (c : Call) (s : Core) : Prop :=
  match c with
  | .signal _ => True
  | .report rep => s.pool.ChildInUse rep.childId
  | .visit slot idx => ∀ e, s.timerWheel.entryAt slot idx = some e → s.pool.ChildInUse e.childId

def Call.instrument (c : Call) (s : Core) : Option ℕ :=
  match c with
  | .signal sig => some sig.instrId
  | .report rep => some (s.pool.parents (s.parentOf rep.childId)).instrId
  | .visit slot idx => (s.timerWheel.entryAt slot idx).map fun e =>
      (s.pool.parents (s.parentOf e.childId)).instrId

variable {cfg : ExecCoreConfig} {w : World} {s s' : Core} {pid q : ℕ}

section Partition
variable {pool : OMSOrderPool}

/-- The store of a run is partitioned between any two calls. -/
theorem OMSOrderPool.StoreInv.partitioned {idle : ℕ → Prop} (h : StoreInv idle pool) : pool.Partitioned := by
  refine ⟨h.parentFree.nodup, h.childFree.nodup, fun p hp => (h.ok p).parentId hp,
    fun c hc => (h.ok _).childId c hc rfl, fun c hc => ?_⟩
  obtain ⟨huse, hmem⟩ := (h.ok (pool.children c).parentId).owner c hc rfl
  exact ⟨_, huse, ⟨hmem, rfl⟩, fun q hq hlist => ((h.ok q).owned hq c hlist).2.symm⟩

theorem OMSOrderPool.Partitioned.parent (h : pool.Partitioned) {c : ℕ} (hc : pool.ChildInUse c) :
    pool.ParentInUse (pool.children c).parentId ∧ pool.Owns (pool.children c).parentId c := by
  obtain ⟨p, huse, hown, -⟩ := h.owned c hc
  rw [hown.parentId]
  exact ⟨huse, hown⟩

/-- A parent in use has no use of another's children. -/
theorem OMSOrderPool.Partitioned.not_usable (h : pool.Partitioned) {c : ℕ} (hpid : pool.ParentInUse pid)
    (hq : pool.ParentInUse q) (hne : q ≠ pid) (hc : pool.ChildInUse c) (hown : pool.Owns q c) :
    ¬ pool.Usable pid c := by
  rintro (hfree | hlist)
  · exact hc.2 hfree
  · obtain ⟨p, -, -, honly⟩ := h.owned c hc
    exact hne ((honly q hq hown.listed).trans (honly pid hpid hlist).symm)

end Partition

section Share

theorem Undisturbed.refl (hq : s.pool.ParentInUse q) : Undisturbed s s q :=
  ⟨hq, rfl, fun _ hc _ => ⟨hc, rfl, rfl⟩⟩

theorem Undisturbed.trans {s'' : Core} (h : Undisturbed s s' q) (h' : Undisturbed s' s'' q) :
    Undisturbed s s'' q := by
  refine ⟨h'.inUse, h'.record.trans h.record, fun c hc hown => ?_⟩
  obtain ⟨huse, hrec, htimers⟩ := h.children c hc hown
  obtain ⟨huse', hrec', htimers'⟩ := h'.children c huse
    ⟨by rw [h.record]; exact hown.listed, by rw [hrec]; exact hown.parentId⟩
  exact ⟨huse', hrec'.trans hrec, htimers'.trans htimers⟩

/-- What works for another parent leaves `q` alone, as long as the two share no child. -/
theorem Touches.undisturbed (h : Touches pid s s') (hq : s.pool.ParentInUse q) (hne : q ≠ pid)
    (hid : (s.pool.parents pid).parentId = pid)
    (hshare : ∀ c, s.pool.ChildInUse c → s.pool.Owns q c → ¬ s.pool.Usable pid c) :
    Undisturbed s s' q := by
  refine ⟨⟨hq.1, fun hfree => ?_⟩, h.parents q hne, fun c hc hown => ?_⟩
  · rcases h.parentFree q hfree with heq | hold
    · exact hne (heq.trans hid)
    · exact hq.2 hold
  · have hout := hshare c hc hown
    exact ⟨⟨hc.1, fun hfree => hout (h.usable c (Or.inl hfree))⟩, h.children c hout, h.timers c hout⟩

theorem Refused.undisturbed {sig : StrategyOrderSignal} (h : Refused w sig s s')
    (hq : s.pool.ParentInUse q) : Undisturbed s s' q := by
  have huse (c : ℕ) : s'.pool.ChildInUse c ↔ s.pool.ChildInUse c :=
    childInUse_of_childFree h.records.childFree c
  refine ⟨(inUse_of_parentFree h.records.parentFree q).mpr hq, h.records.parents q hq, fun c hc _ => ?_⟩
  exact ⟨(huse c).mpr hc, h.records.children c hc, by rw [h.timerWheel]⟩

end Share

section Signals
variable {sig : StrategyOrderSignal} {free : List ℕ}

theorem reserved_undisturbed (hfree : s.pool.parentFree = pid :: free) (hq : s.pool.ParentInUse q) :
    Undisturbed s (reserved w sig pid free s) q := by
  obtain ⟨huse, hne⟩ := reserved_inUse w sig hfree hq
  exact ⟨huse, reserved_other w sig free hne, fun c hc _ => ⟨hc, rfl, rfl⟩⟩

/-- The entry of a dispatched signal lists no child, so all it may use is free. -/
theorem reserved_usable {c : ℕ} (h : (reserved w sig pid free s).pool.Usable pid c) :
    c ∈ (reserved w sig pid free s).pool.childFree := by
  refine h.elim id fun hmem => ?_
  rw [reserved_record, childIds_of_noMask rfl] at hmem
  cases hmem

theorem onStrategyOrder_undisturbed (hq : s.pool.ParentInUse q) :
    Undisturbed s (onStrategyOrder cfg w sig s) q := by
  have hsteps : Steps cfg w (signalFlow cfg w sig s).entry (.idle, onStrategyOrder cfg w sig s) :=
    signal_steps sig
  rcases signal_cases cfg w sig s with ⟨s', hflow, href⟩ | ⟨pid, free, hfree, -, -, -, hflow⟩
  · rw [hflow] at hsteps
    have heq : onStrategyOrder cfg w sig s = s' := congrArg Prod.snd hsteps.of_idle
    rw [heq]
    exact href.undisturbed hq
  · rw [hflow] at hsteps
    have hopen : Undisturbed s (reserved w sig pid free s) q := reserved_undisturbed hfree hq
    have htouch : Touches pid (reserved w sig pid free s) (onStrategyOrder cfg w sig s) :=
      steps_touches hsteps
    refine hopen.trans (htouch.undisturbed hopen.inUse ?_ ?_ fun c hc _ hu => hc.2 (reserved_usable hu))
    · rintro rfl
      exact hq.2 (by rw [hfree]; exact List.mem_cons_self)
    · rw [reserved_record]
      rfl

theorem onStrategyOrder_positions {i : ℕ} (hi : sig.instrId ≠ i) :
    (onStrategyOrder cfg w sig s).pos.instruments i = s.pos.instruments i := by
  have hsteps : Steps cfg w (signalFlow cfg w sig s).entry (.idle, onStrategyOrder cfg w sig s) :=
    signal_steps sig
  rcases signal_cases cfg w sig s with ⟨s', hflow, href⟩ | ⟨pid, free, hfree, -, -, -, hflow⟩
  · rw [hflow] at hsteps
    have heq : onStrategyOrder cfg w sig s = s' := congrArg Prod.snd hsteps.of_idle
    rw [heq, href.pos]
  · rw [hflow] at hsteps
    have htouch : Touches pid (reserved w sig pid free s) (onStrategyOrder cfg w sig s) :=
      steps_touches hsteps
    rw [htouch.positions i]
    · exact modify_other s.pos _ hi.symm
    · rw [reserved_record]
      exact hi.symm

end Signals

section Calls
variable {c : Call}

theorem call_touches (cfg : ExecCoreConfig) (w : World) (hs : s.pool.Partitioned) (hc : c.NamesChild s)
    (hsub : c.subject s = some pid) :
    s.pool.ParentInUse pid ∧ Touches pid s (c.apply cfg w s) ∧
      c.instrument s = some (s.pool.parents pid).instrId := by
  cases c with
  | signal sig => cases hsub
  | report rep =>
    cases hsub
    obtain ⟨huse, hown⟩ := hs.parent hc
    exact ⟨huse, (reportEntry_touches rep (Or.inr hown.listed) (hs.childId _ hc)).call, rfl⟩
  | visit slot idx =>
    simp only [Call.subject, Option.map_eq_some_iff] at hsub
    obtain ⟨e, he, rfl⟩ := hsub
    have hchild := hc e he
    obtain ⟨huse, hown⟩ := hs.parent hchild
    refine ⟨huse, EntryTouches.call ?_, by rw [Call.instrument, he]; rfl⟩
    simp only [Call.entry, he]
    exact timeoutEntry_touches (Or.inr hown.listed) (hs.childId _ hchild)

/-- A call disturbs no parent in use but its subject and no instrument but its own. -/
theorem call_undisturbed (hs : s.pool.Partitioned) (hc : c.NamesChild s) :
    (∀ q, s.pool.ParentInUse q → c.subject s ≠ some q → Undisturbed s (c.apply cfg w s) q) ∧
    ∀ i, c.instrument s ≠ some i → (c.apply cfg w s).pos.instruments i = s.pos.instruments i := by
  cases hsub : c.subject s with
  | some pid =>
    obtain ⟨huse, htouch, hinstr⟩ := call_touches cfg w hs hc hsub
    refine ⟨fun q hq hne => ?_, fun i hi => htouch.positions i fun h => hi (by rw [hinstr, h])⟩
    have hqp : q ≠ pid := fun h => hne (congrArg some h.symm)
    exact htouch.undisturbed hq hqp (hs.parentId pid huse) fun c hch hown =>
      hs.not_usable huse hq hqp hch hown
  | none =>
    cases c with
    | signal sig =>
      exact ⟨fun q hq _ => onStrategyOrder_undisturbed hq,
        fun i hi => onStrategyOrder_positions fun h => hi (congrArg some h)⟩
    | report rep => cases hsub
    | visit slot idx =>
      simp only [Call.subject, Option.map_eq_none_iff] at hsub
      have hsame : (Call.visit slot idx).apply cfg w s = s := call_of_idle (by simp only [Call.entry, hsub])
      rw [hsame]
      exact ⟨fun q hq _ => .refl hq, fun _ _ => rfl⟩

def Sample.twoOrders : Core :=
  run (step config) (start 0)
    [.call (world 9) (.signal (signal .buy 4 false)), .call (world 9) (.signal (signal .buy 4 false))]

theorem Sample.twoOrders_partitioned : twoOrders.pool.Partitioned := by
  have hs : Healthy (fun _ _ => 1) twoOrders := run_healthy (fresh 0).healthy
    ⟨⟨by decide, fun _ => scaled 9 _, sound 9⟩, ⟨by decide, fun _ => scaled 9 _, sound 9⟩, trivial⟩
  exact hs.store.partitioned

/-- The first order loses its child and reroutes; the second order and instrument 1 stay as they are. -/
theorem call_undisturbed_reroute :
    Undisturbed Sample.twoOrders
      ((Call.report (Sample.report 0 .canceled 0)).apply Sample.config (Sample.world 9) Sample.twoOrders) 1 ∧
    ((Call.report (Sample.report 0 .canceled 0)).apply Sample.config (Sample.world 9)
      Sample.twoOrders).pos.instruments 1 = Sample.twoOrders.pos.instruments 1 := by
  have hchild : Sample.twoOrders.pool.ChildLive 0 := by
    refine Sample.childLive [] 2 32766 ?_ (by decide) (by decide) (by decide) ?_ <;> with_unfolding_all rfl
  obtain ⟨hothers, hpos⟩ := call_undisturbed (c := .report (Sample.report 0 .canceled 0))
    Sample.twoOrders_partitioned hchild.1
  refine ⟨hothers 1 ?_ (by decide +kernel), hpos 1 (by decide +kernel)⟩
  decide +kernel

end Calls

end OmsFormal.Oms
