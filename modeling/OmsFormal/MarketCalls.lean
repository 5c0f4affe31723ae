import OmsFormal.MarketSteps

/-!
# Calls keep the orders backed

A call is checked at its entry, where the signal, the report or the timeout is
booked; `Market.Sound.finish` carries the invariant on to its return.
-/

namespace OmsFormal.Oms
open Sor Rounding OMSOrderPool
set_option autoImplicit false

variable {cfg : ExecCoreConfig} {w : World} {M : Market} {x : ExchangeOrder}

section Finish

theorem Market.before_tags (w : World) (c : Call) (M : Market) : (M.before cfg w c).tags = M.tags := by
  cases c with
  | signal sig =>
    simp only [Market.before, Market.register]
    split <;> rfl
  | report rep => rfl
  | visit slot idx => rfl

theorem Market.Sound.call {c : Call} (hadm : c.Admissible cfg canonical w M.core)
    (hs : Healthy canonical M.core) (orders' : List ExchangeOrder)
    (hgate : (c.entry cfg w M.core).2.gateways = M.core.gateways)
    (hE : ({ M.before cfg w c with
      core := (c.entry cfg w M.core).2, orders := orders' } : Market).Sound) :
    ({ M.call cfg w c with orders := orders' } : Market).Sound := by
  have hentry := entered_healthy hadm.sound (hadm.entered hs) hadm.scaled hs
  have hsteps : Steps cfg w (c.entry cfg w M.core) (.idle, c.apply cfg w M.core) := call_steps c
  have hend := hE.finish hadm.sound hsteps hentry
  simp only [Market.before_tags, sentTags, hgate] at hend
  exact hend

end Finish

section Booked
variable {cid : ℕ} {e : Core} {f : ChildOrderState → ChildOrderState} {g : ParentOrder → ParentOrder}

/-- Booking a report for one child leaves the backing of every other order alone. -/
theorem ExchangeOrder.Backed.booked {owner : ℕ → ℕ} {s : Core} (h : x.Backed owner s)
    (hpool : e.pool = (s.pool.modifyChild cid f).modifyParent (s.parentOf cid) g)
    (hne : x.order.childId ≠ cid) : x.Backed owner e := by
  have hrec : e.pool.children x.order.childId = s.pool.children x.order.childId := by
    rw [hpool]
    exact Function.update_of_ne hne _ _
  refine h.of_child ⟨?_, by rw [hrec]; exact h.live.2⟩ hrec rfl
  rw [hpool]
  exact h.live.1

/-- A report for child `cid` that books `lots` to its parent, as the orders in `orders'` know. -/
theorem Market.Sound.booked (h : M.Sound) (hs : Healthy canonical M.core) (lots : ℤ)
    {orders' : List ExchangeOrder} (hlive : M.core.pool.ChildLive cid)
    (hpool : e.pool = (M.core.pool.modifyChild cid f).modifyParent (M.core.parentOf cid) g)
    (hgate : e.gateways = M.core.gateways)
    (hcum : ∀ p, (g p).cumQtyLots = p.cumQtyLots + lots) (htotal : ∀ p, (g p).totalQtyLots = p.totalQtyLots)
    (hwait : ∀ ex, ∀ o ∈ M.core.gateways ex, o.childId ≠ cid)
    (hids : (orders'.map fun x => x.order.childId).Sublist (M.orders.map fun x => x.order.childId))
    (hresting : ∀ y ∈ orders', y.Backed M.owner e)
    (hunreported : ∀ n, unreportedFor n orders' =
      unreportedFor n M.orders - if M.owner (M.core.parentOf cid) = n then lots else 0) :
    ({ M with core := e, orders := orders' } : Market).Sound := by
  have hpid := hs.store.parentOf_inUse hlive.1
  have huse (p : ℕ) : e.pool.ParentInUse p ↔ M.core.pool.ParentInUse p := by
    rw [hpool]
    exact Iff.rfl
  have hself : e.pool.parents (M.core.parentOf cid) = g (M.core.pool.parents (M.core.parentOf cid)) := by
    rw [hpool, modifyParent_parents, Function.update_self, modifyChild_parents]
  have hother {p : ℕ} (hp : p ≠ M.core.parentOf cid) : e.pool.parents p = M.core.pool.parents p := by
    rw [hpool]
    exact Function.update_of_ne hp _ _
  refine ⟨h.backing.replace hgate (fun ex o ho hl => ?_) (fun _ _ => rfl) hs.store hids hresting,
    fun p hp => h.opened p ((huse p).mp hp),
    fun p hp q hq => h.only p ((huse p).mp hp) q ((huse q).mp hq), h.unopened, fun p hp => ?_,
    fun p hp => ?_, h.bound⟩
  · have hrec : e.pool.children o.childId = M.core.pool.children o.childId := by
      rw [hpool]
      exact Function.update_of_ne (hwait ex o ho) _ _
    refine ⟨⟨?_, by rw [hrec]; exact hl.2⟩, hrec⟩
    rw [hpool]
    exact hl.1
  · have hold := h.filled p ((huse p).mp hp)
    have hnew := hunreported (M.owner p)
    by_cases hpp : p = M.core.parentOf cid
    · rw [hpp] at hold hnew ⊢
      rw [if_pos rfl] at hnew
      simp only [hself, hcum, hnew, hold]
      omega
    · have hnum : M.owner (M.core.parentOf cid) ≠ M.owner p :=
        fun heq => hpp (h.only _ hpid p ((huse p).mp hp) heq.symm)
      rw [if_neg hnum, sub_zero] at hnew
      simp only [hother hpp, hnew, hold]
  · have hold := h.total p ((huse p).mp hp)
    by_cases hpp : p = M.core.parentOf cid
    · rw [hpp] at hold ⊢
      simp only [hself, htotal]
      exact hold
    · simp only [hother hpp]
      exact hold

end Booked

section Reports

/-- No other order is out for the child of an order at its exchange. -/
theorem Backing.alone {owner : ℕ → ℕ} {s : Core} {tags : ℕ → List ℕ} {orders : List ExchangeOrder}
    (h : Backing owner s tags orders) {i : ℕ} (hx : orders[i]? = some x) :
    (∀ ex, ∀ o ∈ s.gateways ex, o.childId ≠ x.order.childId) ∧
      ∀ y ∈ orders.eraseIdx i, y.order.childId ≠ x.order.childId := by
  constructor
  · intro ex o ho heq
    have hdisjoint := (List.nodup_append.mp (h.distinct ex)).2.2
    exact hdisjoint _ (List.mem_map_of_mem ho) _ (List.mem_map_of_mem (List.mem_of_getElem? hx)) heq
  · intro y hy heq
    have hnodup : (orders.map fun x => x.order.childId).Nodup := (List.nodup_append.mp (h.distinct 0)).2.1
    obtain ⟨l₁, l₂, hsplit, -, herase⟩ := SingleChange.split_at_index hx
    rw [herase] at hy
    rw [hsplit, List.map_append, List.map_cons, List.perm_middle.nodup_iff, List.nodup_cons,
      ← List.map_append] at hnodup
    exact hnodup.1 (heq ▸ List.mem_map_of_mem hy)

variable {rep : ExecutionReport}

theorem Call.Admissible.fill_entry {s : Core} (hadm : (Call.report rep).Admissible cfg canonical w s)
    (hs : Healthy canonical s) (hkind : rep.execType.isFill = true) :
    (Call.report rep).entry cfg w s =
      (.booked (s.parentOf rep.childId), bookFill cfg w rep.childId (s.parentOf rep.childId) rep s) := by
  have hentered := hadm.entered hs
  generalize (Call.report rep).entry cfg w s = a at hentered
  cases hentered with
  | filled => rfl
  | ended _ hend => cases hr : rep.execType <;> rw [hr] at hkind hend <;> cases hkind <;> cases hend
  | acknowledged _ hnew => rw [hnew] at hkind; cases hkind
  | ignored hrep => rw [hrep] at hkind; cases hkind

theorem Call.Admissible.end_entry {s : Core} (hadm : (Call.report rep).Admissible cfg canonical w s)
    (hs : Healthy canonical s) (hkind : rep.execType.isEnd = true) :
    (Call.report rep).entry cfg w s =
      (.booked (s.parentOf rep.childId), bookCancel cfg w rep.childId (s.parentOf rep.childId) rep s) := by
  have hentered := hadm.entered hs
  generalize (Call.report rep).entry cfg w s = a at hentered
  cases hentered with
  | filled _ hfill => cases hr : rep.execType <;> rw [hr] at hkind hfill <;> cases hkind <;> cases hfill
  | ended => rfl
  | acknowledged _ hnew => rw [hnew] at hkind; cases hkind
  | ignored hrep => rw [hrep] at hkind; cases hkind

theorem ExchangeOrder.Backed.rest_reports {owner : ℕ → ℕ} {s : Core} (h : x.Backed owner s) (j : ℕ) :
    ∀ r ∈ (x.deliver j).reports, r.childId = x.order.childId ∧ r.execType.isFill = true ∧
      1 ≤ r.fillQtyLots :=
  fun r hr => h.reports r (List.mem_of_mem_eraseIdx hr)

/-- An exchange that is not done has something left to execute or to report. -/
theorem ExchangeOrder.Backed.open_of_not_done {owner : ℕ → ℕ} {s : Core} {j : ℕ} (h : x.Backed owner s)
    (hmore : ¬ (x.deliver j).Done) : x.order.qtyLots - x.executed + (x.deliver j).unreported ≠ 0 := by
  intro hzero
  have hexec := h.executed
  have hmin := fun r hr => (h.rest_reports j r hr).2.2
  have hnn := ExchangeOrder.unreported_nonneg hmin
  refine hmore ⟨by simp only [ExchangeOrder.deliver]; omega, ?_⟩
  by_contra hne
  have hpos := ExchangeOrder.unreported_pos hmin hne
  omega

theorem ExchangeOrder.Backed.deliver {owner : ℕ → ℕ} {s : Core} {j : ℕ} (h : x.Backed owner s)
    (hs : Healthy canonical s) (hrep : x.reports[j]? = some rep) (hmore : ¬ (x.deliver j).Done) :
    (x.deliver j).Backed owner (bookFill cfg w rep.childId (s.parentOf rep.childId) rep s) := by
  obtain ⟨hchild, -, -⟩ := h.reports rep (List.mem_of_getElem? hrep)
  have hsum := ExchangeOrder.unreported_deliver hrep
  have hrec : (bookFill cfg w rep.childId (s.parentOf rep.childId) rep s).pool.children x.order.childId =
      (s.pool.children x.order.childId).fill rep.fillQtyLots := by
    rw [hchild, bookFill_pool, modifyParent_children, modifyChild_children, Function.update_self]
  have hleaves : ((s.pool.children x.order.childId).fill rep.fillQtyLots).leavesQtyLots =
      x.order.qtyLots - x.executed + (x.deliver j).unreported := by
    have hbefore := h.leaves
    have hold := ((hs.qty _ (hs.store.parentOf_inUse h.live.1)).child _ (hs.store.mem_childIds h.live.1)
      (hs.store.working_of_live h.live)).1
    simp only [ChildOrderState.fill]
    omega
  have hopen := h.open_of_not_done hmore
  rw [← hleaves] at hopen
  refine ⟨⟨h.live.1, ?_⟩, ?_, ?_, h.executed, h.rest_reports j, h.ended⟩
  · simp only [ExchangeOrder.deliver, hrec]
    simp only [ChildOrderState.fill] at hopen ⊢
    rw [if_neg hopen]
    rfl
  · have hsame : (bookFill cfg w rep.childId (s.parentOf rep.childId) rep s).parentOf x.order.childId =
        s.parentOf x.order.childId := by
      rw [Core.parentOf, hrec]
      rfl
    simp only [ExchangeOrder.deliver, hsame]
    exact h.owned
  · simp only [ExchangeOrder.deliver] at hleaves ⊢
    rw [hrec]
    exact hleaves

/-- What an exchange reports is well-formed, because the order is backed. -/
theorem Move.Legal.admissible {m : Move} (hlegal : m.Legal cfg M) (h : M.Sound) {c : Call}
    (hcall : m.call M = some (w, c)) : c.Admissible cfg canonical w M.core := by
  refine ⟨?_, hlegal.scaled _ _ hcall, hlegal.sound _ _ hcall⟩
  cases m with
  | signal w sig =>
    cases hcall
    exact hlegal.asks _ _ rfl
  | visit w slot idx =>
    cases hcall
    exact trivial
  | acknowledge w i rep =>
    obtain ⟨x, hx, hchild, hkind⟩ := hlegal.possible
    cases hcall
    refine ⟨by rw [hchild]; exact (h.backing.resting x (List.mem_of_getElem? hx)).live, fun hfill => ?_⟩
    rw [hkind] at hfill
    cases hfill
  | deliver w i j =>
    simp only [Move.call, Option.map_eq_some_iff, Option.bind_eq_some_iff] at hcall
    obtain ⟨rep, ⟨x, hx, hrep⟩, hcall⟩ := hcall
    cases hcall
    have hxb := h.backing.resting x (List.mem_of_getElem? hx)
    obtain ⟨hchild, -, hmin⟩ := hxb.reports rep (List.mem_of_getElem? hrep)
    have hsum := ExchangeOrder.unreported_deliver hrep
    have hrest := ExchangeOrder.unreported_nonneg fun r hr => (hxb.rest_reports j r hr).2.2
    have hle := hxb.unreported_le
    refine ⟨by rw [hchild]; exact hxb.live, fun _ => ⟨hmin, ?_⟩⟩
    rw [hchild]
    omega
  | deliverEnd w i =>
    simp only [Move.call, Option.map_eq_some_iff, Option.bind_eq_some_iff] at hcall
    obtain ⟨rep, ⟨x, hx, hrep⟩, hcall⟩ := hcall
    cases hcall
    have hxb := h.backing.resting x (List.mem_of_getElem? hx)
    obtain ⟨hchild, hkind⟩ := hxb.ended rep hrep
    refine ⟨by rw [hchild]; exact hxb.live, fun hfill => ?_⟩
    cases hr : rep.execType <;> rw [hr] at hkind hfill <;> cases hkind <;> cases hfill
  | env e => cases hcall
  | take ex => cases hcall
  | execute i rep => cases hcall
  | close i rep => cases hcall

/-- A reported fill: what the exchange had not reported before is what the parent gains. -/
theorem Market.Sound.deliver {i j : ℕ} (h : M.Sound) (hs : Healthy canonical M.core)
    (hlegal : (Move.deliver w i j).Legal cfg M) : (M.deliver cfg w i j).Sound := by
  obtain ⟨x, hx, hj⟩ := hlegal.possible
  obtain ⟨rep, hrep⟩ : ∃ rep, x.reports[j]? = some rep := ⟨_, List.getElem?_eq_getElem hj⟩
  have hmove : (Move.deliver w i j).call M = some (w, .report rep) := by
    simp only [Move.call, hx, Option.bind_some, hrep, Option.map_some]
  have hxb := h.backing.resting x (List.mem_of_getElem? hx)
  obtain ⟨hchild, hfill, -⟩ := hxb.reports rep (List.mem_of_getElem? hrep)
  have hsum := ExchangeOrder.unreported_deliver hrep
  obtain ⟨hwait, hothers⟩ := h.backing.alone hx
  have hadm := hlegal.admissible h hmove
  have hlive := hadm.wellFormed.1
  have hentry := hadm.fill_entry hs hfill
  have hlots : toCanonicalLots cfg w (M.core.pool.children rep.childId)
      (M.core.pool.parents (M.core.parentOf rep.childId)).instrId rep.fillQtyLots = rep.fillQtyLots := by
    rw [(hadm.scaled _ (hs.store.parentOf_inUse hlive.1)).toCanonicalLots]
    simp [canonical]
  have hkept {y : ExchangeOrder} (hy : y ∈ M.orders.eraseIdx i) :
      y.Backed M.owner (bookFill cfg w rep.childId (M.core.parentOf rep.childId) rep M.core) :=
    (h.backing.resting y (List.mem_of_mem_eraseIdx hy)).booked (bookFill_pool _ _ _)
      (by rw [hchild]; exact hothers y hy)
  simp only [Market.deliver, hx, hrep]
  refine Market.Sound.call hadm hs _ (by rw [hentry]; rfl) ?_
  rw [hentry]
  refine h.booked hs rep.fillQtyLots hlive (bookFill_pool _ _ _) rfl (fun p => ?_) (fun p => rfl)
    (by rw [hchild]; exact hwait) ?_ (fun y hy => ?_) (fun n => ?_)
  · exact congrArg (fun lots => p.cumQtyLots + lots) hlots
  · split
    · exact (List.eraseIdx_sublist _ _).map _
    · obtain ⟨l₁, l₂, hsplit, hset, -⟩ := SingleChange.split_at_index hx
      rw [hset, hsplit]
      simp [ExchangeOrder.deliver]
  · split at hy
    · exact hkept hy
    · rename_i hmore
      rcases SingleChange.mem_set_cases hx hy with rfl | hy
      · exact hxb.deliver hs hrep hmore
      · exact hkept hy
  · have howner : M.owner (M.core.parentOf rep.childId) = x.owner := by rw [hchild]; exact hxb.owned
    rw [howner]
    split
    · rename_i hdone
      have hzero : (x.deliver j).unreported = 0 := by
        rw [ExchangeOrder.unreported, hdone.2]
        rfl
      rw [unreportedFor_erase hx, hsum, hzero, zero_add]
    · rw [unreportedFor_set hx (x.deliver j) rfl, hsum, add_sub_cancel_left]

/-- The end of an order: nothing of it is under way any more. -/
theorem Market.Sound.deliverEnd {i : ℕ} (h : M.Sound) (hs : Healthy canonical M.core)
    (hlegal : (Move.deliverEnd w i).Legal cfg M) : (M.deliverEnd cfg w i).Sound := by
  obtain ⟨x, hx, hsome, hnone⟩ := hlegal.possible
  obtain ⟨rep, hrep⟩ := Option.isSome_iff_exists.mp hsome
  have hmove : (Move.deliverEnd w i).call M = some (w, .report rep) := by
    simp only [Move.call, hx, Option.bind_some, hrep, Option.map_some]
  have hxb := h.backing.resting x (List.mem_of_getElem? hx)
  obtain ⟨hchild, hkind⟩ := hxb.ended rep hrep
  obtain ⟨hwait, hothers⟩ := h.backing.alone hx
  have hadm := hlegal.admissible h hmove
  have hentry := hadm.end_entry hs hkind
  simp only [Market.deliverEnd, hx, hrep]
  refine Market.Sound.call hadm hs _ (by rw [hentry]; rfl) ?_
  rw [hentry]
  refine h.booked hs 0 hadm.wellFormed.1 (bookCancel_pool _ _ _) rfl (fun p => (add_zero _).symm)
    (fun p => rfl) (by rw [hchild]; exact hwait) ((List.eraseIdx_sublist _ _).map _) (fun y hy => ?_)
    (fun n => ?_)
  · exact (h.backing.resting y (List.mem_of_mem_eraseIdx hy)).booked (bookCancel_pool _ _ _)
      (by rw [hchild]; exact hothers y hy)
  · have hzero : x.unreported = 0 := by
      rw [ExchangeOrder.unreported, hnone]
      rfl
    rw [unreportedFor_erase hx, hzero, ite_self, ite_self]

theorem Market.Sound.acknowledged {i : ℕ} (h : M.Sound) (hs : Healthy canonical M.core)
    (hlegal : (Move.acknowledge w i rep).Legal cfg M) : (M.call cfg w (.report rep)).Sound := by
  obtain ⟨x, hx, hchild, hkind⟩ := hlegal.possible
  have hxb := h.backing.resting x (List.mem_of_getElem? hx)
  obtain ⟨hwait, hothers⟩ := h.backing.alone hx
  have hadm : (Call.report rep).Admissible cfg canonical w M.core := hlegal.admissible h rfl
  have hlive := hadm.wellFormed.1
  have hentry : (Call.report rep).entry cfg w M.core = (.idle, acknowledge rep.childId M.core) := by
    simp only [Call.entry, reportEntry_eq cfg w rep hs.store hlive.1, hkind]
  have hpool : (acknowledge rep.childId M.core).pool = (M.core.pool.modifyChild rep.childId
      fun c => { c with state := .pendingNew }).modifyParent (M.core.parentOf rep.childId) id := by
    rw [acknowledge_pool, modifyParent, id, Function.update_eq_self]
  refine Market.Sound.call hadm hs M.orders (by rw [hentry]; rfl) ?_
  rw [hentry]
  refine h.booked hs 0 hlive hpool rfl (fun p => (add_zero _).symm) (fun p => rfl)
    (by rw [hchild]; exact hwait) (List.Sublist.refl _) (fun y hy => ?_) (fun n => by rw [ite_self, sub_zero])
  rcases SingleChange.mem_cases hx hy with rfl | hy'
  · have hrec : (acknowledge rep.childId M.core).pool.children y.order.childId =
        { M.core.pool.children y.order.childId with state := .pendingNew } := by
      rw [hchild]
      exact Function.update_self _ _ _
    refine ⟨⟨hxb.live.1, by rw [hrec]; rfl⟩, ?_, by rw [hrec]; exact hxb.leaves, hxb.executed, hxb.reports,
      hxb.ended⟩
    rw [Core.parentOf, hrec]
    exact hxb.owned
  · exact (h.backing.resting y hy).booked hpool (by rw [hchild]; exact hothers y hy')

end Reports

end OmsFormal.Oms
