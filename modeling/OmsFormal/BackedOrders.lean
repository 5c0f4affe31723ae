import OmsFormal.ExchangeParties
import OmsFormal.LiveChildren

/-!
# Orders backed by live children

As long as no child whose order is out is cancelled locally, every order that
waits for its gateway or is at its exchange has a live child to itself, and the
core knows of everything but the executions whose reports are under way. What an
exchange can still execute or report is therefore covered by the leaves of the
parent.
-/

namespace OmsFormal.Oms
open Sor Rounding OMSOrderPool
set_option autoImplicit false

/-- The child of an order is live, belongs to the parent the order was sent for, and has left what
the exchange has not reported. -/
structure ExchangeOrder.Backed (owner : ℕ → ℕ) (s : Core) (x : ExchangeOrder) : Prop where
  live : s.pool.ChildLive x.order.childId
  owned : owner (s.parentOf x.order.childId) = x.owner
  leaves : (s.pool.children x.order.childId).leavesQtyLots =
    x.order.qtyLots - x.executed + x.unreported
  executed : x.executed ≤ x.order.qtyLots
  reports : ∀ rep ∈ x.reports, rep.childId = x.order.childId ∧ rep.execType.isFill = true ∧
    1 ≤ rep.fillQtyLots
  ended : ∀ rep, x.ended = some rep → rep.childId = x.order.childId ∧ rep.execType.isEnd = true

/-- The children of the orders that wait for gateway `ex` and of those at an exchange. -/
def outIds (s : Core) (orders : List ExchangeOrder) (ex : ℕ) : List ℕ :=
  (s.gateways ex).map OutboundOrder.childId ++ orders.map fun x => x.order.childId

/-- Every order that is out is backed, and no two by the same child. -/
structure Backing (owner : ℕ → ℕ) (s : Core) (tags : ℕ → List ℕ) (orders : List ExchangeOrder) : Prop where
  tagged : ∀ ex, (tags ex).length = (s.gateways ex).length
  queued : ∀ ex, ∀ p ∈ (s.gateways ex).zip (tags ex),
    (ExchangeOrder.received p.1 p.2).Backed owner s ∧ (s.pool.children p.1.childId).exchangeId = ex
  resting : ∀ x ∈ orders, x.Backed owner s
  distinct : ∀ ex, (outIds s orders ex).Nodup

/-- What exchanges executed for parent number `n` and have not reported yet. -/
def unreportedFor (n : ℕ) (orders : List ExchangeOrder) : ℤ :=
  (orders.map fun x => if x.owner = n then x.unreported else 0).sum

variable {owner owner' : ℕ → ℕ} {s s' : Core} {tags : ℕ → List ℕ} {orders orders' : List ExchangeOrder}
variable {x : ExchangeOrder}

section Backed

theorem ExchangeOrder.Backed.of_child (h : x.Backed owner s) (hlive : s'.pool.ChildLive x.order.childId)
    (hrec : s'.pool.children x.order.childId = s.pool.children x.order.childId)
    (howner : owner' (s.parentOf x.order.childId) = owner (s.parentOf x.order.childId)) :
    x.Backed owner' s' := by
  refine ⟨hlive, ?_, by rw [hrec]; exact h.leaves, h.executed, h.reports, h.ended⟩
  rw [Core.parentOf, hrec]
  exact howner.trans h.owned

theorem ExchangeOrder.unreported_nonneg (h : ∀ rep ∈ x.reports, 1 ≤ rep.fillQtyLots) : 0 ≤ x.unreported := by
  apply List.sum_nonneg
  intro y hy
  obtain ⟨rep, hrep, rfl⟩ := List.mem_map.mp hy
  exact zero_le_one.trans (h rep hrep)

theorem ExchangeOrder.unreported_pos (h : ∀ rep ∈ x.reports, 1 ≤ rep.fillQtyLots) (hne : x.reports ≠ []) :
    1 ≤ x.unreported := by
  obtain ⟨rep, hrep⟩ := List.exists_mem_of_ne_nil _ hne
  refine (h rep hrep).trans (List.single_le_sum (fun y hy => ?_) _ (List.mem_map_of_mem hrep))
  obtain ⟨r, hr, rfl⟩ := List.mem_map.mp hy
  exact zero_le_one.trans (h r hr)

theorem ExchangeOrder.Backed.unreported_le (h : x.Backed owner s) :
    x.unreported ≤ (s.pool.children x.order.childId).leavesQtyLots := by
  have hexec := h.executed
  rw [h.leaves]
  omega

/-- A fill that is reported: the child loses the lots the exchange has not reported before. -/
theorem ExchangeOrder.unreported_deliver {j : ℕ} {rep : ExecutionReport} (h : x.reports[j]? = some rep) :
    x.unreported = (x.deliver j).unreported + rep.fillQtyLots := by
  obtain ⟨l₁, l₂, hsplit, -, herase⟩ := SingleChange.split_at_index h
  simp only [unreported, deliver, herase]
  simp only [hsplit, List.map_append, List.map_cons, List.sum_append, List.sum_cons]
  omega

end Backed

section Backing

theorem Backing.waiting (h : Backing owner s tags orders) {ex : ℕ} {o : OutboundOrder}
    (ho : o ∈ s.gateways ex) :
    s.pool.ChildLive o.childId ∧ (s.pool.children o.childId).exchangeId = ex := by
  obtain ⟨k, hk, rfl⟩ := List.mem_iff_getElem.mp ho
  have htag : k < (tags ex).length := by rw [h.tagged]; exact hk
  have hmem : ((s.gateways ex)[k], (tags ex)[k]) ∈ (s.gateways ex).zip (tags ex) :=
    List.mem_iff_getElem.mpr ⟨k, by simp [hk, htag], by simp⟩
  obtain ⟨hb, hvenue⟩ := h.queued ex _ hmem
  exact ⟨hb.live, hvenue⟩

theorem Backing.live (h : Backing owner s tags orders) {ex c : ℕ} (hc : c ∈ outIds s orders ex) :
    s.pool.ChildLive c := by
  rcases List.mem_append.mp hc with hq | hr
  · obtain ⟨o, ho, rfl⟩ := List.mem_map.mp hq
    exact (h.waiting ho).1
  · obtain ⟨x, hx, rfl⟩ := List.mem_map.mp hr
    exact (h.resting x hx).live

/-- An order changes hands, from its gateway to its exchange. -/
theorem Backing.take (h : Backing owner s tags orders) {ex n : ℕ} {o : OutboundOrder}
    {os : List OutboundOrder} {ns : List ℕ} (hqueue : s.gateways ex = o :: os) (htags : tags ex = n :: ns) :
    Backing owner ((Env.gatewayPop ex).apply s) (Function.update tags ex ns)
      (.received o n :: orders) := by
  have hsame {x : ExchangeOrder} (hx : x.Backed owner s) : x.Backed owner ((Env.gatewayPop ex).apply s) :=
    hx.of_child hx.live rfl rfl
  obtain ⟨hhead, hvenue⟩ := h.queued ex (o, n) (by rw [hqueue, htags]; exact List.mem_cons_self)
  have hgate : ((Env.gatewayPop ex).apply s).gateways ex = os := by simp [Env.apply, hqueue]
  have hother {ex' : ℕ} (hex : ex' ≠ ex) :
      ((Env.gatewayPop ex).apply s).gateways ex' = s.gateways ex' := Function.update_of_ne hex _ _
  have hdistinct := h.distinct ex
  rw [outIds, hqueue, List.map_cons, List.cons_append, List.nodup_cons, List.mem_append] at hdistinct
  refine ⟨fun ex' => ?_, fun ex' p hp => ?_, fun x hx => ?_, fun ex' => ?_⟩
  · by_cases hex : ex' = ex
    · subst hex
      have hlen := h.tagged ex'
      rw [hqueue, htags] at hlen
      rw [hgate, Function.update_self]
      simpa using hlen
    · rw [hother hex, Function.update_of_ne hex]
      exact h.tagged ex'
  · by_cases hex : ex' = ex
    · subst hex
      rw [hgate, Function.update_self] at hp
      obtain ⟨hb, hv⟩ := h.queued ex' p (by rw [hqueue, htags]; exact List.mem_cons_of_mem _ hp)
      exact ⟨hsame hb, hv⟩
    · rw [hother hex, Function.update_of_ne hex] at hp
      obtain ⟨hb, hv⟩ := h.queued ex' p hp
      exact ⟨hsame hb, hv⟩
  · rcases List.mem_cons.mp hx with rfl | hx
    · exact hsame hhead
    · exact hsame (h.resting x hx)
  · rw [outIds, List.map_cons, List.perm_middle.nodup_iff]
    by_cases hex : ex' = ex
    · subst hex
      rw [hgate]
      exact List.nodup_cons.mpr ⟨by rw [List.mem_append]; exact hdistinct.1, hdistinct.2⟩
    · rw [hother hex]
      refine List.nodup_cons.mpr ⟨fun hmem => ?_, h.distinct ex'⟩
      rcases List.mem_append.mp hmem with hmem | hmem
      · -- a child has one venue, so its order waits for one gateway only
        obtain ⟨o', ho', heq⟩ := List.mem_map.mp hmem
        refine hex ((h.waiting ho').2.symm.trans ?_)
        rw [heq]
        exact hvenue
      · exact hdistinct.1 (Or.inr hmem)

theorem Backing.of_same (h : Backing owner s tags orders) (hpool : s'.pool = s.pool)
    (hqueues : s'.gateways = s.gateways) : Backing owner s' tags orders := by
  have hbacked (x : ExchangeOrder) (hx : x.Backed owner s) : x.Backed owner s' :=
    hx.of_child (by rw [hpool]; exact hx.live) (by rw [hpool]) rfl
  refine ⟨by rw [hqueues]; exact h.tagged, fun ex p hp => ?_, fun x hx => hbacked x (h.resting x hx), ?_⟩
  · rw [hqueues] at hp
    obtain ⟨hb, hvenue⟩ := h.queued ex p hp
    exact ⟨hbacked _ hb, by rw [hpool]; exact hvenue⟩
  · intro ex
    rw [outIds, hqueues]
    exact h.distinct ex

/-- The queues and their children are the same, and the orders at the exchanges are seen to. -/
theorem Backing.replace (h : Backing owner s tags orders) (hqueues : s'.gateways = s.gateways)
    (hkept : ∀ ex, ∀ o ∈ s.gateways ex, s.pool.ChildLive o.childId →
      s'.pool.ChildLive o.childId ∧ s'.pool.children o.childId = s.pool.children o.childId)
    (howner : ∀ p, s.pool.ParentInUse p → owner' p = owner p) (hstore : StoreInv Quiet s.pool)
    (hids : (orders'.map fun x => x.order.childId).Sublist (orders.map fun x => x.order.childId))
    (hresting : ∀ x ∈ orders', x.Backed owner' s') : Backing owner' s' tags orders' := by
  refine ⟨by rw [hqueues]; exact h.tagged, fun ex p hp => ?_, hresting, fun ex => ?_⟩
  · rw [hqueues] at hp
    obtain ⟨hb, hvenue⟩ := h.queued ex p hp
    obtain ⟨hlive, hrec⟩ := hkept ex p.1 (List.of_mem_zip hp).1 hb.live
    refine ⟨hb.of_child hlive hrec (howner _ ?_), by rw [hrec]; exact hvenue⟩
    exact hstore.parentOf_inUse hb.live.1
  · refine (h.distinct ex).sublist ?_
    rw [outIds, outIds, hqueues]
    exact List.Sublist.append_left hids _

theorem Backing.set (h : Backing owner s tags orders) {i : ℕ} {x' : ExchangeOrder}
    (hx : orders[i]? = some x) (hx' : x'.Backed owner s) (horder : x'.order = x.order) :
    Backing owner s tags (orders.set i x') := by
  have hids : ((orders.set i x').map fun x => x.order.childId) = orders.map fun x => x.order.childId := by
    obtain ⟨l₁, l₂, hsplit, hset, -⟩ := SingleChange.split_at_index hx
    rw [hset, hsplit]
    simp [horder]
  refine ⟨h.tagged, h.queued, fun y hy => ?_, fun ex => ?_⟩
  · rcases List.mem_or_eq_of_mem_set hy with hy | rfl
    · exact h.resting y hy
    · exact hx'
  · rw [outIds, hids]
    exact h.distinct ex

def sentTags (owner : ℕ → ℕ) (s s' : Core) (ex : ℕ) : List ℕ :=
  ((s'.gateways ex).drop (s.gateways ex).length).map fun o => owner (s'.parentOf o.childId)

/-- What a call sends is backed when the call returns. -/
theorem Backing.sends {pid : ℕ} (h : Backing owner s tags orders) (hsends : Sends pid s s')
    (hleaves : ∀ c, s'.pool.ChildLive c → 0 ≤ (s'.pool.children c).leavesQtyLots) :
    Backing owner s' (fun ex => tags ex ++ sentTags owner s s' ex) orders := by
  have hold {x : ExchangeOrder} (hx : x.Backed owner s) : x.Backed owner s' := by
    obtain ⟨hlive, hrec⟩ := hsends.kept _ hx.live
    exact hx.of_child hlive hrec rfl
  have hnew (ex : ℕ) : ∃ new, s'.gateways ex = s.gateways ex ++ new ∧
      (new.map OutboundOrder.childId).Nodup ∧ (∀ o ∈ new, Launched pid ex s s' o) ∧
      sentTags owner s s' ex = new.map fun o => owner (s'.parentOf o.childId) := by
    obtain ⟨new, hqueue, hnodup, hlaunched⟩ := hsends.queued ex
    refine ⟨new, hqueue, hnodup, hlaunched, ?_⟩
    rw [sentTags, hqueue, List.drop_left]
  refine ⟨fun ex => ?_, fun ex p hp => ?_, fun x hx => hold (h.resting x hx), fun ex => ?_⟩
  · obtain ⟨new, hqueue, -, -, htags⟩ := hnew ex
    simp [htags, hqueue, h.tagged ex]
  · obtain ⟨new, hqueue, -, hlaunched, htags⟩ := hnew ex
    simp only [hqueue, htags, List.zip_append (h.tagged ex).symm, List.mem_append] at hp
    rcases hp with hp | hp
    · obtain ⟨hb, hvenue⟩ := h.queued ex p hp
      exact ⟨hold hb, (congrArg ChildOrderState.exchangeId (hsends.kept _ hb.live).2).trans hvenue⟩
    · have hpairs : new.zip (new.map fun o => owner (s'.parentOf o.childId)) =
          new.map fun o => (o, owner (s'.parentOf o.childId)) := by
        simpa using @List.zip_map' _ _ _ id (fun o => owner (s'.parentOf o.childId)) new
      rw [hpairs] at hp
      obtain ⟨o, ho, rfl⟩ := List.mem_map.mp hp
      have hl := hlaunched o ho
      refine ⟨⟨hl.live, rfl, ?_, ?_, ?_, ?_⟩, hl.venue⟩
      · simp [ExchangeOrder.received, ExchangeOrder.unreported, hl.leaves]
      · rw [ExchangeOrder.received, ← hl.leaves]
        exact hleaves _ hl.live
      · simp [ExchangeOrder.received]
      · simp [ExchangeOrder.received]
  · obtain ⟨new, hqueue, hnodup, hlaunched, -⟩ := hnew ex
    rw [outIds, hqueue, List.map_append, List.append_assoc, (List.perm_append_comm_assoc _ _ _).nodup_iff]
    refine List.nodup_append.mpr ⟨hnodup, h.distinct ex, ?_⟩
    rintro c hc _ hold rfl
    obtain ⟨o, ho, rfl⟩ := List.mem_map.mp hc
    exact (hlaunched o ho).fresh (h.live hold)

end Backing

section Unreported

theorem unreportedFor_split (n : ℕ) (l₁ l₂ : List ExchangeOrder) :
    unreportedFor n (l₁ ++ x :: l₂) =
      unreportedFor n (l₁ ++ l₂) + if x.owner = n then x.unreported else 0 := by
  simp only [unreportedFor, List.map_append, List.map_cons, List.sum_append, List.sum_cons]
  omega

theorem unreportedFor_erase {i : ℕ} (hx : orders[i]? = some x) (n : ℕ) :
    unreportedFor n (orders.eraseIdx i) =
      unreportedFor n orders - if x.owner = n then x.unreported else 0 := by
  obtain ⟨l₁, l₂, hsplit, -, herase⟩ := SingleChange.split_at_index hx
  rw [herase, hsplit, unreportedFor_split, add_sub_cancel_right]

theorem unreportedFor_set {i : ℕ} (hx : orders[i]? = some x) (x' : ExchangeOrder)
    (howner : x'.owner = x.owner) (n : ℕ) :
    unreportedFor n (orders.set i x') =
      unreportedFor n orders - if x.owner = n then x.unreported - x'.unreported else 0 := by
  obtain ⟨l₁, l₂, hsplit, hset, -⟩ := SingleChange.split_at_index hx
  rw [hset, hsplit, unreportedFor_split, unreportedFor_split, howner]
  split <;> omega

theorem unreportedFor_eq_zero {n : ℕ} (h : ∀ x ∈ orders, x.owner ≠ n) : unreportedFor n orders = 0 := by
  apply List.sum_eq_zero
  intro y hy
  obtain ⟨x, hx, rfl⟩ := List.mem_map.mp hy
  exact if_neg (h x hx)

/-- What was executed for a parent and not reported is part of what it has left. -/
theorem Backing.covered (h : Backing owner s tags orders) (hs : Healthy canonical s) {p : ℕ}
    (hp : s.pool.ParentInUse p) (honly : ∀ q, s.pool.ParentInUse q → owner q = owner p → q = p) :
    unreportedFor (owner p) orders ≤ (s.pool.parents p).leavesQtyLots := by
  have hnodup : (orders.map fun x => x.order.childId).Nodup := (List.nodup_append.mp (h.distinct 0)).2.1
  refine le_trans ?_ (hs.qty p hp).covered
  refine SingleChange.list_sum_le_of_keys (s.pool.parents p).childIds hnodup
    (fun c _ => ChildOrderState.weight_nonneg _ _) fun x hx => ?_
  by_cases howner : x.owner = owner p
  · have hb := h.resting x hx
    have hparent : s.parentOf x.order.childId = p :=
      honly _ (hs.store.parentOf_inUse hb.live.1) (hb.owned.trans howner)
    have hmem := hs.store.mem_childIds hb.live.1
    rw [hparent] at hmem
    refine Or.inr ⟨hmem, ?_⟩
    rw [if_pos howner, ChildOrderState.weight_of_working (hs.store.working_of_live hb.live)]
    have hle := hb.unreported_le
    simp only [canonical, Nat.cast_one, one_mul]
    exact hle.trans (le_max_right _ _)
  · exact Or.inl (if_neg howner).le

end Unreported

/-- The orders that are out are backed, parents in use have numbers of their own, and the accounts
say what the core and the reports under way say together. -/
structure Market.Sound (M : Market) : Prop where
  backing : Backing M.owner M.core M.tags M.orders
  opened : ∀ p, M.core.pool.ParentInUse p → M.owner p < M.opened
  only : ∀ p, M.core.pool.ParentInUse p → ∀ q, M.core.pool.ParentInUse q → M.owner q = M.owner p → q = p
  unopened : ∀ n, M.opened ≤ n → M.executed n = 0
  filled : ∀ p, M.core.pool.ParentInUse p →
    M.executed (M.owner p) = (M.core.pool.parents p).cumQtyLots + unreportedFor (M.owner p) M.orders
  total : ∀ p, M.core.pool.ParentInUse p → (M.core.pool.parents p).totalQtyLots ≤ M.accepted (M.owner p)
  bound : ∀ n, M.executed n ≤ M.accepted n

/-- A parent in use never had more executed for it than it was accepted for. -/
theorem Market.executed_le_accepted {M : Market} (hs : Healthy canonical M.core)
    (hb : Backing M.owner M.core M.tags M.orders) {p : ℕ} (hp : M.core.pool.ParentInUse p)
    (honly : ∀ q, M.core.pool.ParentInUse q → M.owner q = M.owner p → q = p)
    (hfilled : M.executed (M.owner p) =
      (M.core.pool.parents p).cumQtyLots + unreportedFor (M.owner p) M.orders)
    (htotal : (M.core.pool.parents p).totalQtyLots ≤ M.accepted (M.owner p)) :
    M.executed (M.owner p) ≤ M.accepted (M.owner p) := by
  calc M.executed (M.owner p)
      = (M.core.pool.parents p).cumQtyLots + unreportedFor (M.owner p) M.orders := hfilled
    _ ≤ (M.core.pool.parents p).cumQtyLots + (M.core.pool.parents p).leavesQtyLots :=
        add_le_add_right (hb.covered hs hp honly) _
    _ = (M.core.pool.parents p).totalQtyLots := (hs.qty p hp).total.symm
    _ ≤ M.accepted (M.owner p) := htotal

section Calls
variable {cfg : ExecCoreConfig} {w : World}

theorem Healthy.leaves_nonneg {r : ℕ → ℕ → ℕ} (hs : Healthy r s) {c : ℕ} (hc : s.pool.ChildLive c) :
    0 ≤ (s.pool.children c).leavesQtyLots :=
  ((hs.qty _ (hs.store.parentOf_inUse hc.1)).child c (hs.store.mem_childIds hc.1)
    (hs.store.working_of_live hc)).2

/-- After its entry a call opens no parent, books no fill and adds to no total. -/
theorem micro_total {a b : Phase × Core} (h : Micro cfg w a b) (ha : HealthyAt cfg w canonical a)
    (hb : HealthyAt cfg w canonical b) {p : ℕ} (hu : b.2.pool.ParentInUse p) :
    a.2.pool.ParentInUse p ∧ (b.2.pool.parents p).cumQtyLots = (a.2.pool.parents p).cumQtyLots ∧
      (b.2.pool.parents p).totalQtyLots ≤ (a.2.pool.parents p).totalQtyLots := by
  by_cases hp : p = a.1.pid
  · subst hp
    obtain ⟨hu', hshrunk⟩ := micro_shrunk h ha.store hu
    have htotal := (ha.qty.1 _ hu').total
    have htotal' := (hb.qty.1 _ hu).total
    have hcum := hshrunk.deal.cumQtyLots
    have hleaves := hshrunk.leaves
    exact ⟨hu', hcum, by omega⟩
  · have hloc := micro_local h ha.store
    have hu' := (hloc.inUse p hp).mp hu
    rw [hloc.record p hp hu']
    exact ⟨hu', rfl, le_rfl⟩

theorem steps_total (hsound : w.router.Sound) {a b : Phase × Core} (h : Steps cfg w a b)
    (ha : HealthyAt cfg w canonical a) {p : ℕ} (hu : b.2.pool.ParentInUse p) :
    a.2.pool.ParentInUse p ∧ (b.2.pool.parents p).cumQtyLots = (a.2.pool.parents p).cumQtyLots ∧
      (b.2.pool.parents p).totalQtyLots ≤ (a.2.pool.parents p).totalQtyLots := by
  have hend := h.invariant (J := fun b => HealthyAt cfg w canonical b ∧ ∀ p, b.2.pool.ParentInUse p →
    a.2.pool.ParentInUse p ∧ (b.2.pool.parents p).cumQtyLots = (a.2.pool.parents p).cumQtyLots ∧
      (b.2.pool.parents p).totalQtyLots ≤ (a.2.pool.parents p).totalQtyLots)
    (fun b c hmicro hb => ?_) ⟨ha, fun p hp => ⟨hp, rfl, le_rfl⟩⟩
  · exact hend.2 p hu
  · have hc := micro_healthy hsound hmicro hb.1
    refine ⟨hc, fun p hp => ?_⟩
    obtain ⟨hu, hcum, htotal⟩ := micro_total hmicro hb.1 hc hp
    obtain ⟨hu', hcum', htotal'⟩ := hb.2 p hu
    exact ⟨hu', hcum.trans hcum', htotal.trans htotal'⟩

theorem Market.Sound.finish {E : Market} (h : E.Sound) (hsound : w.router.Sound) {phase : Phase}
    (hsteps : Steps cfg w (phase, E.core) (.idle, s')) (ha : HealthyAt cfg w canonical (phase, E.core)) :
    ({ E with core := s', tags := fun ex => E.tags ex ++ sentTags E.owner E.core s' ex } : Market).Sound := by
  have hsends : Sends phase.pid E.core s' := steps_sends hsound hsteps ha
  have hlater {p : ℕ} (hp : s'.pool.ParentInUse p) := steps_total hsound hsteps ha hp
  have hs' : Healthy canonical s' := HealthyAt.idle (hsteps.invariant (J := HealthyAt cfg w canonical)
    (fun _ _ hm hb => micro_healthy hsound hm hb) ha) rfl
  refine ⟨h.backing.sends hsends fun c hc => hs'.leaves_nonneg hc, fun p hp => h.opened p (hlater hp).1,
    fun p hp q hq => h.only p (hlater hp).1 q (hlater hq).1, h.unopened, fun p hp => ?_, fun p hp => ?_,
    h.bound⟩
  · rw [(hlater hp).2.1]
    exact h.filled p (hlater hp).1
  · exact (hlater hp).2.2.trans (h.total p (hlater hp).1)

end Calls

end OmsFormal.Oms
