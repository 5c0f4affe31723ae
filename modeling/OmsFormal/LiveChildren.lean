import OmsFormal.Exposure

/-!
# Live children and their orders

A live child changes through its own reports only: after the entry of a call no
small step frees or rewrites one. So what a call adds to the gateway queues are
orders of children that were not live before and are when the call returns, one
order a child, and the queues still hold what they held.
-/

namespace OmsFormal.Oms
open Sor Rounding OMSOrderPool
set_option autoImplicit false

/-- Every live child stays live with the record it has. -/
def KeepsLive (s s' : Core) : Prop :=
  ∀ c, s.pool.ChildLive c → s'.pool.ChildLive c ∧ s'.pool.children c = s.pool.children c

/-- Order `o` to venue `ex` was sent between `s` and `s'` for a new child of parent `pid`. -/
structure Launched (pid ex : ℕ) (s s' : Core) (o : OutboundOrder) : Prop where
  fresh : ¬ s.pool.ChildLive o.childId
  live : s'.pool.ChildLive o.childId
  leaves : (s'.pool.children o.childId).leavesQtyLots = o.qtyLots
  venue : (s'.pool.children o.childId).exchangeId = ex
  parent : s'.parentOf o.childId = pid

/-- All that happens to live children and to the queues is that orders of new children of `pid`
join the queues. -/
structure Sends (pid : ℕ) (s s' : Core) : Prop where
  kept : KeepsLive s s'
  queued : ∀ ex, ∃ new : List OutboundOrder, s'.gateways ex = s.gateways ex ++ new ∧
    (new.map OutboundOrder.childId).Nodup ∧ ∀ o ∈ new, Launched pid ex s s' o

variable {cfg : ExecCoreConfig} {w : World} {r : ℕ → ℕ → ℕ} {pid : ℕ} {s s' s'' : Core}

section Sends

theorem KeepsLive.of_same (hfree : s'.pool.childFree = s.pool.childFree)
    (hchildren : s'.pool.children = s.pool.children) : KeepsLive s s' := by
  rintro c ⟨huse, hstate⟩
  refine ⟨⟨(childInUse_of_childFree hfree c).mpr huse, ?_⟩, by rw [hchildren]⟩
  rw [hchildren]
  exact hstate

theorem KeepsLive.trans (h : KeepsLive s s') (h' : KeepsLive s' s'') : KeepsLive s s'' := by
  intro c hc
  obtain ⟨hlive, hrec⟩ := h c hc
  obtain ⟨hlive', hrec'⟩ := h' c hlive
  exact ⟨hlive', hrec'.trans hrec⟩

theorem Sends.of_kept (h : KeepsLive s s') (hqueues : s'.gateways = s.gateways) : Sends pid s s' := by
  refine ⟨h, fun ex => ⟨[], by rw [hqueues, List.append_nil], List.nodup_nil, ?_⟩⟩
  intro o ho
  cases ho

theorem Launched.later {ex : ℕ} {o : OutboundOrder} (h : Launched pid ex s s' o) (hkept : KeepsLive s' s'') :
    Launched pid ex s s'' o := by
  obtain ⟨hlive, hrec⟩ := hkept _ h.live
  refine ⟨h.fresh, hlive, ?_, ?_, ?_⟩
  · rw [hrec, h.leaves]
  · rw [hrec, h.venue]
  · rw [Core.parentOf, hrec]
    exact h.parent

theorem Launched.earlier {ex : ℕ} {o : OutboundOrder} (h : Launched pid ex s' s'' o)
    (hkept : KeepsLive s s') :
    Launched pid ex s s'' o :=
  ⟨fun hlive => h.fresh (hkept _ hlive).1, h.live, h.leaves, h.venue, h.parent⟩

theorem Sends.trans (h : Sends pid s s') (h' : Sends pid s' s'') : Sends pid s s'' := by
  refine ⟨h.kept.trans h'.kept, fun ex => ?_⟩
  obtain ⟨new, hqueue, hnodup, hnew⟩ := h.queued ex
  obtain ⟨new', hqueue', hnodup', hnew'⟩ := h'.queued ex
  refine ⟨new ++ new', by rw [hqueue', hqueue, List.append_assoc], ?_, ?_⟩
  · rw [List.map_append]
    refine List.nodup_append.mpr ⟨hnodup, hnodup', ?_⟩
    rintro c hc _ hc' rfl
    obtain ⟨o, ho, rfl⟩ := List.mem_map.mp hc
    obtain ⟨o', ho', heq⟩ := List.mem_map.mp hc'
    -- the first orders are for children that the second ones found live
    refine (hnew' o' ho').fresh ?_
    rw [heq]
    exact (hnew o ho).live
  · intro o ho
    rcases List.mem_append.mp ho with ho | ho
    · exact (hnew o ho).later h'.kept
    · exact (hnew' o ho).earlier h.kept

end Sends

section Micro

/-- A closing or rerouting parent has no live child left. -/
theorem micro_keepsLive {a b : Phase × Core} (h : Micro cfg w a b) (ha : HealthyAt cfg w r a) :
    KeepsLive a.2 b.2 := by
  cases h with
  | mark => exact .of_same rfl rfl
  | @close pid s hleft =>
    intro c hc
    have hclose : Micro cfg w (.booked pid, s) _ := .close hleft
    have hne : (s.pool.children c).parentId ≠ pid := by
      rintro rfl
      have hidle := (ha.qty.1 _ ha.store.1).idle_of_leaves hleft c (ha.store.2.mem_childIds hc.1)
      rw [ha.store.2.working_of_live hc] at hidle
      cases hidle
    obtain ⟨huse, hrec⟩ := (micro_local hclose ha.store).keep c hc.1 hne
    exact ⟨⟨huse, by rw [hrec]; exact hc.2⟩, hrec⟩
  | keep => exact .of_same rfl rfl
  | @trim pid s hleft hall =>
    intro c hc
    have htrim : Micro cfg w (.booked pid, s) _ := .trim hleft hall
    have hne : (s.pool.children c).parentId ≠ pid := by
      rintro rfl
      have hterm := terminal_of_allChildrenTerminal ha.store.2 ha.store.1 hall c
        (ha.store.2.mem_childIds hc.1)
      rw [hc.2] at hterm
      cases hterm
    obtain ⟨huse, hrec⟩ := (micro_local htrim ha.store).keep c hc.1 hne
    exact ⟨⟨huse, by rw [hrec]; exact hc.2⟩, hrec⟩
  | reduced => exact .of_same rfl rfl
  | noLiquidity => exact .of_same rfl rfl
  | route => exact .of_same rfl rfl
  | @send pid cid ctx co rest free s hroom hfree =>
    intro c hc
    have hne : c ≠ cid := by
      rintro rfl
      exact hc.1.2 (by rw [hfree]; exact List.mem_cons_self)
    have hrec : (sendChild cfg w pid ctx cid free co s).pool.children c = s.pool.children c :=
      Function.update_of_ne hne _ _
    refine ⟨⟨⟨hc.1.1, fun hmem => hc.1.2 ?_⟩, by rw [hrec]; exact hc.2⟩, hrec⟩
    rw [hfree]
    exact List.mem_cons_of_mem cid hmem
  | allocFailed hfree =>
    refine .of_same ?_ ?_ <;> simp only [allocChild, hfree]
  | sent => exact .of_same (by rw [releaseGap_pool]) (by rw [releaseGap_pool])
  | @noneSent pid ctx rest s =>
    refine .of_same ?_ ?_ <;> simp [closeUnfilled, notifyReject, Core.setParentState]

/-- A full or missing queue loses the order, and no other queue is touched. -/
theorem pushOutbound_cases (cfg : ExecCoreConfig) (o : OutboundOrder)
    (gateways : ℕ → List OutboundOrder) (ex : ℕ) :
    pushOutbound cfg o gateways ex = gateways ex ∨
      o.exchangeId = ex ∧ pushOutbound cfg o gateways ex = gateways ex ++ [o] := by
  unfold pushOutbound
  split
  · by_cases hex : ex = o.exchangeId
    · subst hex
      rw [Function.update_self, spscPush]
      split
      · exact Or.inr ⟨rfl, rfl⟩
      · exact Or.inl rfl
    · exact Or.inl (Function.update_of_ne hex _ _)
  · exact Or.inl rfl

theorem sendChild_sends {ctx : RoutingContext} {cid : ℕ} {free : List ℕ} {co : ChildOrder}
    {rest : List ChildOrder} (hroom : (s.pool.parents pid).childCount < ParentOrder.kMaxChildrenPerParent)
    (hfree : s.pool.childFree = cid :: free) (ha : HealthyAt cfg w r (.sending pid ctx (co :: rest), s)) :
    Sends pid s (sendChild cfg w pid ctx cid free co s) := by
  refine ⟨micro_keepsLive (.send hroom hfree) ha, fun ex => ?_⟩
  have hvalid := ha.store.2.childFree
  rw [hfree] at hvalid
  have hchild : (sendChild cfg w pid ctx cid free co s).pool.children cid =
      newChild w (s.pool.parents pid).parentId ctx cid co := Function.update_self _ _ _
  rcases pushOutbound_cases cfg
    (outboundOrder (newChild w (s.pool.parents pid).parentId ctx cid co) (s.pool.parents pid).instrId)
    s.gateways ex with hlost | ⟨hex, hpush⟩
  · exact ⟨[], by rw [List.append_nil]; exact hlost, List.nodup_nil, fun o ho => by cases ho⟩
  · refine ⟨[_], hpush, List.nodup_singleton _, fun o ho => ?_⟩
    obtain rfl := List.mem_singleton.mp ho
    refine ⟨fun hlive => hlive.1.2 ?_, ⟨hvalid.head_inUse, ?_⟩, ?_, ?_, ?_⟩
    · rw [hfree]
      exact List.mem_cons_self
    · exact congrArg (fun c => c.state.terminal) hchild
    · exact congrArg ChildOrderState.leavesQtyLots hchild
    · exact (congrArg ChildOrderState.exchangeId hchild).trans hex
    · exact (congrArg ChildOrderState.parentId hchild).trans ((ha.store.2.ok pid).parentId ha.store.1)

theorem micro_sends {a b : Phase × Core} (h : Micro cfg w a b) (ha : HealthyAt cfg w r a) :
    Sends a.1.pid a.2 b.2 := by
  have hkept := micro_keepsLive h ha
  cases h with
  | send hroom hfree => exact sendChild_sends hroom hfree ha
  | sent => exact .of_kept hkept (releaseGap_gateways _ _)
  | noneSent => exact .of_kept hkept (releaseGap_gateways _ _)
  | trim => exact .of_kept hkept (by rw [trimmed_eq])
  | _ => exact .of_kept hkept rfl

/-- What a call sends after its entry. -/
theorem steps_sends (hsound : w.router.Sound) {a b : Phase × Core} (h : Steps cfg w a b)
    (ha : HealthyAt cfg w r a) : Sends a.1.pid a.2 b.2 := by
  have hend := h.invariant (J := fun b => HealthyAt cfg w r b ∧ Sends a.1.pid a.2 b.2 ∧
    (b.1 ≠ .idle → b.1.pid = a.1.pid)) (fun b c hmicro hb => ?_)
    ⟨ha, .of_kept (.of_same rfl rfl) rfl, fun _ => rfl⟩
  · exact hend.2.1
  · obtain ⟨hb, hsends, hpid⟩ := hb
    have hnext := micro_sends hmicro hb
    rw [hpid hmicro.not_idle] at hnext
    refine ⟨micro_healthy hsound hmicro hb, hsends.trans hnext, fun hidle => ?_⟩
    rw [← hpid hmicro.not_idle]
    exact hmicro.pid_eq hidle

end Micro

end OmsFormal.Oms
