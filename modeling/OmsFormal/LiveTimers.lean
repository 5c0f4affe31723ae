import OmsFormal.StorePhases

/-!
# Timers and the children they watch

What the wheel operations do to the set of armed children, and the invariant
that every armed child is allocated and working and armed once. The one step
that could break it is closing a parent while a sibling still works, so that
step carries a guard.
-/

namespace OmsFormal.Oms
open Sor Rounding OMSOrderPool
set_option autoImplicit false

namespace TimerWheel
variable {wheel : TimerWheel} {c : ℕ} {x e : TimerEntry}

/-- No child is armed twice. -/
def Distinct (wheel : TimerWheel) : Prop := (wheel.active.map TimerEntry.childId).Nodup

theorem Distinct.eq (h : wheel.Distinct) (hx : x ∈ wheel.active) (he : e ∈ wheel.active)
    (hc : x.childId = e.childId) : x = e :=
  List.inj_on_of_nodup_map h hx he hc

theorem scanFirst_eq_none {l : List TimerEntry} (h : scanFirst l = none) : l = [] := by
  cases l with
  | nil => rfl
  | cons a l =>
    simp only [scanFirst] at h
    split at h
    · cases h
    · split at h <;> cases h

theorem scanFirst_mem {l : List TimerEntry} (h : scanFirst l = some e) : e ∈ l := by
  induction l generalizing e with
  | nil => cases h
  | cons a l ih =>
    simp only [scanFirst] at h
    cases hl : scanFirst l with
    | none =>
      rw [hl] at h
      cases h
      exact List.mem_cons_self
    | some f =>
      rw [hl] at h
      simp only at h
      split at h
      · cases h
        exact List.mem_cons_of_mem a (ih hl)
      · cases h
        exact List.mem_cons_self

theorem entryAt_mem {slot idx : ℕ} (h : wheel.entryAt slot idx = some e) : e ∈ wheel.active :=
  List.mem_of_find?_eq_some h

theorem mem_deactivate (h : wheel.Distinct) (he : e ∈ wheel.active) :
    x ∈ (wheel.deactivate e).active ↔ x ∈ wheel.active ∧ x.childId ≠ e.childId := by
  have hn : wheel.active.Nodup := List.Nodup.of_map _ h
  rw [deactivate, hn.mem_erase_iff]
  constructor
  · rintro ⟨hne, hx⟩
    exact ⟨hx, fun hc => hne (h.eq hx he hc)⟩
  · rintro ⟨hx, hc⟩
    exact ⟨fun heq => hc (by rw [heq]), hx⟩

theorem deactivate_distinct (h : wheel.Distinct) (e : TimerEntry) : (wheel.deactivate e).Distinct :=
  (List.erase_sublist.map _).nodup h

theorem cancel_cases (c : ℕ) (wheel : TimerWheel) :
    (wheel.cancel c = wheel ∧ ∀ x ∈ wheel.active, x.childId ≠ c) ∨
    (∃ e ∈ wheel.active, e.childId = c ∧ wheel.cancel c = wheel.deactivate e) := by
  unfold cancel
  cases hscan : scanFirst (wheel.active.filter fun e => decide (e.childId = c)) with
  | none =>
    refine Or.inl ⟨rfl, ?_⟩
    intro x hx hc
    have hmem : x ∈ wheel.active.filter fun e => decide (e.childId = c) :=
      List.mem_filter.mpr ⟨hx, by simpa using hc⟩
    rw [scanFirst_eq_none hscan] at hmem
    cases hmem
  | some e =>
    obtain ⟨he, hc⟩ := List.mem_filter.mp (scanFirst_mem hscan)
    exact Or.inr ⟨e, he, by simpa using hc, rfl⟩

theorem mem_cancel (h : wheel.Distinct) :
    x ∈ (wheel.cancel c).active ↔ x ∈ wheel.active ∧ x.childId ≠ c := by
  rcases cancel_cases c wheel with ⟨hsame, hnone⟩ | ⟨e, he, rfl, hcancel⟩
  · rw [hsame]
    exact ⟨fun hx => ⟨hx, hnone x hx⟩, fun hx => hx.1⟩
  · rw [hcancel, mem_deactivate h he]

theorem cancel_distinct (h : wheel.Distinct) (c : ℕ) : (wheel.cancel c).Distinct := by
  rcases cancel_cases c wheel with ⟨hsame, _⟩ | ⟨e, _, _, hcancel⟩
  · rw [hsame]
    exact h
  · rw [hcancel]
    exact deactivate_distinct h e

theorem insert_cases (c now timeout : ℕ) (wheel : TimerWheel) :
    (wheel.insert c now timeout).2.active = wheel.active ∨
    (∃ e, e.childId = c ∧ (wheel.insert c now timeout).2.active = e :: wheel.active) := by
  simp only [insert]
  split
  · exact Or.inl rfl
  · exact Or.inr ⟨_, rfl, rfl⟩

end TimerWheel

/-- Every armed child is allocated and working, and armed once. -/
structure TimersOk (s : Core) : Prop where
  live : ∀ e ∈ s.timerWheel.active, s.pool.ChildInUse e.childId ∧
    (s.pool.children e.childId).state.working = true
  distinct : s.timerWheel.Distinct

/-- The children that matter to the timers are the same: none appears, and no working one is
lost or changed. -/
structure SameLive (pool pool' : OMSOrderPool) : Prop where
  back : ∀ c, pool'.ChildInUse c → pool.ChildInUse c ∧ pool'.children c = pool.children c
  keep : ∀ c, pool.ChildInUse c → (pool.children c).state.working = true → pool'.ChildInUse c

theorem SameLive.of_childFree {pool pool' : OMSOrderPool} (hfree : pool'.childFree = pool.childFree)
    (hchildren : pool'.children = pool.children) : SameLive pool pool' :=
  ⟨fun c hc => ⟨(childInUse_of_childFree hfree c).mp hc, by rw [hchildren]⟩,
    fun c hc _ => (childInUse_of_childFree hfree c).mpr hc⟩

theorem TimersOk.of_sameLive {s s' : Core} (h : TimersOk s) (hlive : SameLive s.pool s'.pool)
    (hwheel : s'.timerWheel = s.timerWheel) : TimersOk s' := by
  refine ⟨?_, by rw [hwheel]; exact h.distinct⟩
  intro e he
  rw [hwheel] at he
  obtain ⟨hu, hw⟩ := h.live e he
  have hu' := hlive.keep _ hu hw
  exact ⟨hu', by rw [(hlive.back _ hu').2]; exact hw⟩

/-- Freeing the children of a parent none of whose children works. -/
theorem SameLive.released {pool pool' : OMSOrderPool} {idle : ℕ → Prop} {pid : ℕ}
    (hinv : StoreInv idle pool) (hu : pool.ParentInUse pid)
    (hidle : ∀ c ∈ (pool.parents pid).childIds, (pool.children c).state.working = false)
    (hfree : pool'.childFree = (pool.parents pid).childIds.reverse ++ pool.childFree)
    (hchildren : pool'.children = pool.children) : SameLive pool pool' := by
  have huse (c : ℕ) : pool'.ChildInUse c ↔ _ := released_iff hinv hu hfree c
  refine ⟨fun c hc => ⟨((huse c).mp hc).1, by rw [hchildren]⟩, ?_⟩
  intro c hc hw
  refine (huse c).mpr ⟨hc, fun hcp => ?_⟩
  rw [hidle c ((hinv.ok pid).owner c hc hcp).2] at hw
  cases hw

section Micro
variable {cfg : ExecCoreConfig} {w : World}

/-- A parent that is about to be closed has no child at work. -/
def CloseSafe : Phase × Core → Prop
  | (.booked pid, s) => (s.pool.parents pid).leavesQtyLots ≤ 0 →
      ∀ c ∈ (s.pool.parents pid).childIds, (s.pool.children c).state.working = false
  | _ => True

instance (a : Phase × Core) : Decidable (CloseSafe a) :=
  match a with
  | (.booked pid, s) => inferInstanceAs (Decidable ((s.pool.parents pid).leavesQtyLots ≤ 0 → ∀ c ∈ _, _))
  | (.idle, _) => inferInstanceAs (Decidable True)
  | (.trimmed _ _, _) => inferInstanceAs (Decidable True)
  | (.sending _ _ _, _) => inferInstanceAs (Decidable True)

/-- What a small step does to children and timers: it sends one child, or leaves all that live. -/
theorem micro_live {a b : Phase × Core} (h : Micro cfg w a b) (ha : StoreAt a) (hsafe : CloseSafe a) :
    (SameLive a.2.pool b.2.pool ∧ b.2.timerWheel = a.2.timerWheel) ∨
    (∃ pid ctx cid free co rest, a.1 = .sending pid ctx (co :: rest) ∧
      (a.2.pool.parents pid).childCount < ParentOrder.kMaxChildrenPerParent ∧
      a.2.pool.childFree = cid :: free ∧
        b = (.sending pid ctx rest, sendChild cfg w pid ctx cid free co a.2)) := by
  cases h with
  | mark => exact Or.inl ⟨.of_childFree rfl rfl, rfl⟩
  | close hl =>
    obtain ⟨st, hpool⟩ := closeFilled_retire ha.2 ha.1
    refine Or.inl ⟨?_, rfl⟩
    simp only [hpool]
    exact .released ha.2 ha.1 (hsafe hl) rfl rfl
  | keep => exact Or.inl ⟨.of_childFree rfl rfl, rfl⟩
  | @trim pid s hleft hall =>
    have hterm := terminal_of_allChildrenTerminal ha.2 ha.1 hall
    refine Or.inl ⟨?_, by rw [trimmed_eq]⟩
    simp only [trimmed_pool hterm]
    exact .released ha.2 ha.1 ((allChildrenTerminal_iff _ _).mp hall) rfl rfl
  | reduced =>
    exact Or.inl ⟨.of_childFree rfl rfl, rfl⟩
  | noLiquidity =>
    exact Or.inl ⟨.of_childFree rfl rfl, rfl⟩
  | route => exact Or.inl ⟨.of_childFree rfl rfl, rfl⟩
  | send hroom hfree => exact Or.inr ⟨_, _, _, _, _, _, rfl, hroom, hfree, rfl⟩
  | allocFailed hfree =>
    refine Or.inl ⟨?_, rfl⟩
    simp only [allocChild, hfree]
    exact .of_childFree hfree.symm rfl
  | sent =>
    refine Or.inl ⟨?_, releaseGap_timerWheel _ _⟩
    simp only [releaseGap_pool]
    exact .of_childFree rfl rfl
  | @noneSent pid ctx rest s =>
    refine Or.inl ⟨?_, releaseGap_timerWheel _ _⟩
    exact .of_childFree (by simp [closeUnfilled, notifyReject, Core.setParentState])
      (by simp [closeUnfilled, notifyReject, Core.setParentState])

/-- The child that a dispatch arms was not in use before. -/
theorem sendChild_timers {pid cid : ℕ} {ctx : RoutingContext} {free : List ℕ} {co : ChildOrder}
    {s : Core} {idle : ℕ → Prop} (hinv : StoreInv idle s.pool) (h : TimersOk s)
    (hfree : s.pool.childFree = cid :: free) : TimersOk (sendChild cfg w pid ctx cid free co s) := by
  have hfresh : ¬ s.pool.ChildInUse cid := attach_fresh hfree
  have huse := attach_childInUse pid (newChild w (s.pool.parents pid).parentId ctx cid co)
    hinv hfree
  have hold (e : TimerEntry) (he : e ∈ s.timerWheel.active) : e.childId ≠ cid :=
    fun hc => hfresh (hc ▸ (h.live e he).1)
  have hkeep (e : TimerEntry) (he : e ∈ s.timerWheel.active) :
      (sendChild cfg w pid ctx cid free co s).pool.ChildInUse e.childId ∧
      ((sendChild cfg w pid ctx cid free co s).pool.children e.childId).state.working = true := by
    refine ⟨(huse _).mpr (Or.inr (h.live e he).1), ?_⟩
    simp only [sendChild, attachChild]
    rw [Function.update_of_ne (hold e he)]
    exact (h.live e he).2
  have hwheel : (sendChild cfg w pid ctx cid free co s).timerWheel =
    (s.timerWheel.insert cid w.dispatchNs (timeoutNs cfg co.type)).2 := rfl
  rcases TimerWheel.insert_cases cid w.dispatchNs (timeoutNs cfg co.type) s.timerWheel with
    hsame | ⟨e, hec, hcons⟩
  · refine ⟨?_, ?_⟩
    · rw [hwheel, hsame]
      exact hkeep
    · rw [hwheel, TimerWheel.Distinct, hsame]
      exact h.distinct
  · refine ⟨?_, ?_⟩
    · rw [hwheel, hcons]
      intro x hx
      rcases List.mem_cons.mp hx with rfl | hx
      · refine ⟨(huse _).mpr (Or.inl hec), ?_⟩
        simp [sendChild, attachChild, hec, newChild, OrderState.working]
      · exact hkeep x hx
    · rw [hwheel, TimerWheel.Distinct, hcons, List.map_cons]
      refine List.nodup_cons.mpr ⟨?_, h.distinct⟩
      intro hmem
      obtain ⟨x, hx, hxc⟩ := List.mem_map.mp hmem
      exact hold x hx (hxc.trans hec)

theorem StoreAt.of_sending {pid : ℕ} {ctx : RoutingContext} {rest : List ChildOrder} {a : Phase × Core}
    (ha : StoreAt a) (hphase : a.1 = .sending pid ctx rest) :
    StoreInv (fun q => q = pid ∧ (a.2.pool.parents pid).childCount = 0) a.2.pool := by
  obtain ⟨phase, s⟩ := a
  obtain rfl := hphase
  exact ha.2

theorem micro_timers {a b : Phase × Core} (h : Micro cfg w a b) (ha : StoreAt a) (hsafe : CloseSafe a)
    (ht : TimersOk a.2) : TimersOk b.2 := by
  rcases micro_live h ha hsafe with ⟨hlive, hwheel⟩ | ⟨pid, ctx, cid, free, co, rest, hphase, _, hfree, rfl⟩
  · exact ht.of_sameLive hlive hwheel
  · exact sendChild_timers (ha.of_sending hphase) ht hfree

end Micro

end OmsFormal.Oms
