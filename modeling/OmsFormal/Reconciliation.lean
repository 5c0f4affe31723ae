import OmsFormal.OverExecution
import OmsFormal.DispatchCases

/-!
# The position and the exchanges' books

An order carries the instrument and the direction of its parent, and no handler
changes either while the order is out. So what the exchanges traded on the
account, less what they have not reported yet, is what the core's position moved
by.
-/

namespace OmsFormal.Oms
open Sor Rounding OMSOrderPool GuardedRun
set_option autoImplicit false

/-- Lots of a trade, with the sign they have in a position. -/
def signedLots (dir : OrderDir) (lots : ℤ) : ℤ :=
  match dir with
  | .buy => lots
  | .sell => -lots

/-- The order asks for what the parent of its child was opened for. -/
structure OutboundOrder.OnTerms (s : Core) (o : OutboundOrder) : Prop where
  instrId : o.instrId = (s.pool.parents (s.parentOf o.childId)).instrId
  dir : o.dir = (s.pool.parents (s.parentOf o.childId)).dir

/-- The order stands for a live child, on the terms of its parent. -/
structure OutboundOrder.Standing (s : Core) (o : OutboundOrder) : Prop where
  live : s.pool.ChildLive o.childId
  terms : o.OnTerms s

/-- What the exchanges executed on an instrument and have not reported, signed. -/
def unreportedNet (i : ℕ) (orders : List ExchangeOrder) : ℤ :=
  (orders.map fun x => if x.order.instrId = i then signedLots x.order.dir x.unreported else 0).sum

variable {cfg : ExecCoreConfig} {w : World} {s s' : Core} {o : OutboundOrder}

section Terms

theorem OutboundOrder.OnTerms.of_child (h : o.OnTerms s)
    (hparent : s'.parentOf o.childId = s.parentOf o.childId)
    (hterms : (s'.pool.parents (s.parentOf o.childId)).terms =
      (s.pool.parents (s.parentOf o.childId)).terms) : o.OnTerms s' := by
  refine ⟨?_, ?_⟩
  · rw [hparent, h.instrId]
    exact (congrArg OrderTerms.instrId hterms).symm
  · rw [hparent, h.dir]
    exact (congrArg OrderTerms.dir hterms).symm

/-- A live child that keeps its record keeps its order standing. -/
theorem OutboundOrder.Standing.kept (h : o.Standing s) (hkept : KeepsLive s s') (hsame : SameTerms s s') :
    o.Standing s' := by
  obtain ⟨hlive, hrec⟩ := hkept _ h.live
  exact ⟨hlive, h.terms.of_child (by rw [Core.parentOf, hrec]; rfl) (hsame _)⟩

theorem Env.apply_standing (e : Env) (h : o.Standing s) : o.Standing (e.apply s) := by
  have hpool := (e.apply_sameBooks s).pool
  exact h.kept (.of_same (by rw [hpool]) (by rw [hpool])) (.of_parents (by rw [hpool]))

/-- The requests of a call have the direction of its parent. -/
def Directed : Phase × Core → Prop
  | (.trimmed pid ctx, s) => ctx.dir = (s.pool.parents pid).dir
  | (.sending pid ctx _, s) => ctx.dir = (s.pool.parents pid).dir
  | _ => True

theorem micro_directed {a b : Phase × Core} (h : Micro cfg w a b) (ha : Directed a) : Directed b := by
  have hterms := micro_terms h
  cases h with
  | @trim pid s hleft hall =>
    have htrimmed := @trimmed_terms s pid
    exact (congrArg OrderTerms.dir htrimmed).symm
  | @route pid ctx s hleft hsplit => exact ha.trans (congrArg OrderTerms.dir (hterms pid)).symm
  | @send pid cid ctx co rest free s hroom hfree =>
    exact ha.trans (congrArg OrderTerms.dir (hterms pid)).symm
  | @allocFailed pid ctx rest s hfree => exact ha.trans (congrArg OrderTerms.dir (hterms pid)).symm
  | _ => exact trivial

/-- An order that was just sent asks for what its parent was opened for. -/
theorem sendChild_standing {r : ℕ → ℕ → ℕ} {pid cid ex : ℕ} {ctx : RoutingContext} {free : List ℕ}
    {co : ChildOrder} {rest : List ChildOrder}
    (hroom : (s.pool.parents pid).childCount < ParentOrder.kMaxChildrenPerParent)
    (hfree : s.pool.childFree = cid :: free) (ha : HealthyAt cfg w r (.sending pid ctx (co :: rest), s))
    (hdir : ctx.dir = (s.pool.parents pid).dir) (hq : ∀ o ∈ s.gateways ex, o.Standing s) :
    ∀ o ∈ (sendChild cfg w pid ctx cid free co s).gateways ex,
      o.Standing (sendChild cfg w pid ctx cid free co s) := by
  have hmicro : Micro cfg w (.sending pid ctx (co :: rest), s) _ := .send hroom hfree
  have hkept := micro_keepsLive hmicro ha
  have hterms := micro_terms hmicro
  have hvalid := ha.store.2.childFree
  rw [hfree] at hvalid
  have hchild : (sendChild cfg w pid ctx cid free co s).pool.children cid =
      newChild w (s.pool.parents pid).parentId ctx cid co := Function.update_self _ _ _
  intro o ho
  have hgate : (sendChild cfg w pid ctx cid free co s).gateways = pushOutbound cfg
    (outboundOrder (newChild w (s.pool.parents pid).parentId ctx cid co) (s.pool.parents pid).instrId)
    s.gateways := rfl
  rw [hgate] at ho
  rcases pushOutbound_cases cfg
    (outboundOrder (newChild w (s.pool.parents pid).parentId ctx cid co) (s.pool.parents pid).instrId)
    s.gateways ex with hlost | ⟨-, hpush⟩
  · rw [hlost] at ho
    exact (hq o ho).kept hkept hterms
  · rw [hpush] at ho
    rcases List.mem_append.mp ho with ho | ho
    · exact (hq o ho).kept hkept hterms
    · obtain rfl := List.mem_singleton.mp ho
      have hparent : (sendChild cfg w pid ctx cid free co s).parentOf cid = pid :=
        (congrArg ChildOrderState.parentId hchild).trans ((ha.store.2.ok pid).parentId ha.store.1)
      refine ⟨⟨hvalid.head_inUse, congrArg (fun c => c.state.terminal) hchild⟩, ?_, ?_⟩
      · simp only [outboundOrder, newChild, hparent]
        exact (congrArg OrderTerms.instrId (hterms pid)).symm
      · simp only [outboundOrder, newChild, hparent]
        exact hdir.trans (congrArg OrderTerms.dir (hterms pid)).symm

theorem micro_standing {r : ℕ → ℕ → ℕ} {a b : Phase × Core} (h : Micro cfg w a b)
    (ha : HealthyAt cfg w r a) (hd : Directed a) (hq : ∀ ex, ∀ o ∈ a.2.gateways ex, o.Standing a.2) :
    ∀ ex, ∀ o ∈ b.2.gateways ex, o.Standing b.2 := by
  have hkept := micro_keepsLive h ha
  have hterms := micro_terms h
  have hsame (hgate : b.2.gateways = a.2.gateways) : ∀ ex, ∀ o ∈ b.2.gateways ex, o.Standing b.2 :=
    fun ex o ho => (hq ex o (hgate ▸ ho)).kept hkept hterms
  cases h with
  | send hroom hfree => exact fun ex => sendChild_standing hroom hfree ha hd (hq ex)
  | sent => exact hsame (releaseGap_gateways _ _)
  | noneSent => exact hsame (releaseGap_gateways _ _)
  | trim => exact hsame (by rw [trimmed_eq])
  | _ => exact hsame rfl

/-- What stands when a call has booked its own effect still stands when it returns, and so do the
orders it sends. -/
theorem steps_standing {r : ℕ → ℕ → ℕ} (hsound : w.router.Sound) {a b : Phase × Core} (h : Steps cfg w a b)
    (ha : HealthyAt cfg w r a) (hd : Directed a) (hq : ∀ ex, ∀ o ∈ a.2.gateways ex, o.Standing a.2) :
    (∀ ex, ∀ o ∈ b.2.gateways ex, o.Standing b.2) ∧ ∀ o : OutboundOrder, o.Standing a.2 → o.Standing b.2 := by
  have hend := h.invariant (J := fun b => HealthyAt cfg w r b ∧ Directed b ∧
    (∀ ex, ∀ o ∈ b.2.gateways ex, o.Standing b.2) ∧ ∀ o : OutboundOrder, o.Standing a.2 → o.Standing b.2)
    (fun b c hmicro hb => ?_) ⟨ha, hd, hq, fun _ ho => ho⟩
  · exact hend.2.2
  · obtain ⟨hb, hdb, hqb, hold⟩ := hb
    exact ⟨micro_healthy hsound hmicro hb, micro_directed hmicro hdb, micro_standing hmicro hb hdb hqb,
      fun o ho => (hold o ho).kept (micro_keepsLive hmicro hb) (micro_terms hmicro)⟩

end Terms

section Entries
variable {c : Call} {a : Phase × Core}

/-- The child that a call may end. -/
def Call.touched : Call → Core → Option ℕ
  | .signal _, _ => none
  | .report rep, _ =>
    if rep.execType.isFill = true ∨ rep.execType.isEnd = true then some rep.childId else none
  | .visit slot idx, s => (s.timerWheel.entryAt slot idx).map TimerEntry.childId

theorem entered_directed (h : Entered cfg w s c a) : Directed a := by
  cases h with
  | admitted hpos hfree hinstr hqty hsplit hflow =>
    exact (signalFlow_dispatching hflow).requested.dir
  | _ => exact trivial

theorem entered_gateways (h : Entered cfg w s c a) : a.2.gateways = s.gateways := by
  cases h with
  | refused href hflow =>
    obtain ⟨reason, heq⟩ := href.rest
    rw [heq]
    rfl
  | _ => rfl

theorem entered_live (h : Entered cfg w s c a) {cid : ℕ} (hlive : s.pool.ChildLive cid)
    (hother : c.touched s ≠ some cid) : a.2.pool.ChildLive cid := by
  -- a booking rewrites the record of the child it is about and no other
  have hbooked {f : ChildOrderState → ChildOrderState} {g : ParentOrder → ParentOrder} {k pid : ℕ}
      (hne : cid ≠ k) :
      ((s.pool.modifyChild k f).modifyParent pid g).ChildLive cid := by
    refine ⟨hlive.1, ?_⟩
    rw [modifyParent_children, modifyChild_children, Function.update_of_ne hne]
    exact hlive.2
  cases h with
  | refused href hflow =>
    refine ⟨(childInUse_of_childFree href.records.childFree cid).mpr hlive.1, ?_⟩
    rw [href.records.children cid hlive.1]
    exact hlive.2
  | admitted => exact hlive
  | filled hl hkind =>
    refine hbooked fun heq => hother ?_
    simp only [Call.touched, hkind, true_or, if_true, heq]
  | ended hl hkind =>
    refine hbooked fun heq => hother ?_
    simp only [Call.touched, hkind, or_true, if_true, heq]
  | @acknowledged rep hl hkind =>
    refine ⟨hlive.1, ?_⟩
    simp only [acknowledge_pool, modifyChild_children]
    by_cases hc : cid = rep.childId
    · rw [hc, Function.update_self]
      rfl
    · rw [Function.update_of_ne hc]
      exact hlive.2
  | ignored => exact hlive
  | @expired slot idx e he hl =>
    refine hbooked fun heq => hother ?_
    simp only [Call.touched, he, Option.map_some, heq]
  | unarmed => exact hlive

/-- A call that is booked leaves every order that still has a live child on its terms. -/
theorem entered_standing (h : Entered cfg w s c a) (hs : Healthy canonical s) (ho : o.Standing s)
    (hlive : a.2.pool.ChildLive o.childId) : o.Standing a.2 := by
  have huse := hs.store.parentOf_inUse ho.live.1
  have hbooked {s' : Core} {k : ℕ} (f : ChildOrderState → ChildOrderState)
      (hf : ∀ x, (f x).parentId = x.parentId)
      (hchildren : s'.pool.children = Function.update s.pool.children k (f (s.pool.children k))) :
      s'.parentOf o.childId = s.parentOf o.childId := by
    rw [Core.parentOf, hchildren]
    by_cases hc : o.childId = k
    · rw [hc, Function.update_self, hf]
      rfl
    · rw [Function.update_of_ne hc]
      rfl
  refine ⟨hlive, ?_⟩
  cases h with
  | refused href hflow =>
    refine ho.terms.of_child ?_ (congrArg ParentOrder.terms (href.records.parents _ huse))
    rw [Core.parentOf, href.records.children _ ho.live.1]
    rfl
  | @admitted sig pid free hpos hfree hinstr hqty hsplit hflow =>
    refine ho.terms.of_child rfl (congrArg ParentOrder.terms (reserved_other w sig free ?_))
    rintro heq
    exact open_fresh hfree (heq ▸ huse)
  | @filled rep =>
    exact ho.terms.of_child (hbooked (ChildOrderState.fill rep.fillQtyLots) (fun _ => rfl) rfl)
      (bookFill_terms cfg w rep.childId rep _)
  | @ended rep =>
    exact ho.terms.of_child (hbooked (ChildOrderState.cancel rep.execType) (fun _ => rfl) rfl)
      (bookCancel_terms cfg w rep.childId rep _)
  | @acknowledged rep =>
    exact ho.terms.of_child (hbooked (fun x => { x with state := .pendingNew }) (fun _ => rfl) rfl) rfl
  | ignored => exact ho.terms
  | @expired slot idx e he hl =>
    exact ho.terms.of_child (hbooked (ChildOrderState.cancel .canceled) (fun _ => rfl) rfl)
      (bookCancel_terms cfg w e.childId _ _)
  | unarmed => exact ho.terms

theorem entered_net (h : Entered cfg w s c a) (hc : ∀ rep, c = .report rep → rep.execType.isFill = false)
    (i : ℕ) : (a.2.pos.instruments i).netQtyLots = (s.pos.instruments i).netQtyLots := by
  cases h with
  | refused href hflow => rw [href.pos]
  | admitted => exact reserved_net _ _ _ _ _ i
  | filled hl hkind =>
    rw [hc _ rfl] at hkind
    cases hkind
  | ended => exact bookCancel_net _ _ _ _ i
  | acknowledged => rfl
  | ignored => rfl
  | expired => exact bookCancel_net _ _ _ _ i
  | unarmed => rfl

end Entries

/-- The orders that are out stand, and the position has moved by what was traded and reported. -/
structure Reconciled (net0 traded : ℕ → ℤ) (s : Core) (orders : List ExchangeOrder) : Prop where
  queued : ∀ ex, ∀ o ∈ s.gateways ex, o.Standing s
  resting : ∀ x ∈ orders, x.order.Standing s
  net : ∀ i, (s.pos.instruments i).netQtyLots + unreportedNet i orders = net0 i + traded i

variable {net0 traded : ℕ → ℤ} {orders orders' : List ExchangeOrder} {x : ExchangeOrder}

section Orders

theorem signedLots_add (dir : OrderDir) (a b : ℤ) :
    signedLots dir (a + b) = signedLots dir a + signedLots dir b := by
  cases dir with
  | buy => rfl
  | sell => exact neg_add a b

theorem signedLots_zero (dir : OrderDir) : signedLots dir 0 = 0 := by cases dir <;> rfl

theorem unreportedNet_set {i : ℕ} (hx : orders[i]? = some x) (x' : ExchangeOrder)
    (horder : x'.order = x.order) (j : ℕ) : unreportedNet j (orders.set i x') = unreportedNet j orders -
      if x.order.instrId = j then signedLots x.order.dir x.unreported - signedLots x.order.dir x'.unreported
      else 0 := by
  rw [unreportedNet, SingleChange.list_sum_set hx x', horder, ← unreportedNet]
  split <;> omega

theorem unreportedNet_erase {i : ℕ} (hx : orders[i]? = some x) (j : ℕ) :
    unreportedNet j (orders.eraseIdx i) = unreportedNet j orders -
      if x.order.instrId = j then signedLots x.order.dir x.unreported else 0 := by
  rw [unreportedNet, SingleChange.list_sum_eraseIdx hx, ← unreportedNet]

/-- Another list of orders, each of which was there, with nothing else reported. -/
theorem Reconciled.replace (h : Reconciled net0 traded s orders)
    (hmem : ∀ y ∈ orders', ∃ x ∈ orders, y.order = x.order)
    (hnet : ∀ i, unreportedNet i orders' = unreportedNet i orders) : Reconciled net0 traded s orders' := by
  refine ⟨h.queued, fun y hy => ?_, fun i => by rw [hnet]; exact h.net i⟩
  obtain ⟨x, hx, heq⟩ := hmem y hy
  rw [heq]
  exact h.resting x hx

theorem mem_set_order {i : ℕ} (hx : orders[i]? = some x) {x' : ExchangeOrder} (horder : x'.order = x.order) :
    ∀ y ∈ orders.set i x', ∃ z ∈ orders, y.order = z.order := by
  intro y hy
  rcases List.mem_or_eq_of_mem_set hy with hy | rfl
  · exact ⟨y, hy, rfl⟩
  · exact ⟨x, List.mem_of_getElem? hx, horder⟩

/-- An execution is traded at once, and reported later. -/
theorem Reconciled.execute {i : ℕ} {rep : ExecutionReport} (h : Reconciled net0 traded s orders)
    (hx : orders[i]? = some x) :
    Reconciled net0 (Function.update traded x.order.instrId
      (traded x.order.instrId + signedLots x.order.dir rep.fillQtyLots)) s
      (orders.set i (x.execute rep)) := by
  have hunreported : (x.execute rep).unreported = rep.fillQtyLots + x.unreported := rfl
  refine ⟨h.queued, fun y hy => ?_, fun j => ?_⟩
  · have horder : (x.execute rep).order = x.order := rfl
    obtain ⟨z, hz, heq⟩ := mem_set_order hx horder y hy
    rw [heq]
    exact h.resting z hz
  · have hold := h.net j
    rw [unreportedNet_set hx (x.execute rep) rfl, hunreported, signedLots_add]
    by_cases hj : x.order.instrId = j
    · rw [if_pos hj, hj, Function.update_self]
      omega
    · rw [if_neg hj, Function.update_of_ne (Ne.symm hj)]
      omega

end Orders

section Calls
variable {c : Call}

/-- The books agree when a call returns if they agree when it has booked its own effect. -/
theorem Reconciled.call (hadm : c.Admissible cfg canonical w s) (hs : Healthy canonical s)
    (h : Reconciled net0 traded (c.entry cfg w s).2 orders) :
    Reconciled net0 traded (c.apply cfg w s) orders := by
  have hentered := hadm.entered hs
  have hat := entered_healthy hadm.sound hentered hadm.scaled hs
  have hstand := steps_standing hadm.sound (call_steps c) hat (entered_directed hentered) h.queued
  refine ⟨hstand.1, fun x hx => hstand.2 _ (h.resting x hx), fun i => ?_⟩
  rw [call_net]
  exact h.net i

/-- A call that books no fill, and ends no child whose order is out. -/
theorem Reconciled.quietCall (hadm : c.Admissible cfg canonical w s) (hs : Healthy canonical s)
    (h : Reconciled net0 traded s orders)
    (hfill : ∀ rep, c = .report rep → rep.execType.isFill = false)
    (hqueued : ∀ ex, ∀ o ∈ s.gateways ex, c.touched s ≠ some o.childId)
    (hresting : ∀ x ∈ orders, c.touched s ≠ some x.order.childId) :
    Reconciled net0 traded (c.apply cfg w s) orders := by
  have hentered := hadm.entered hs
  have hkeep (o : OutboundOrder) (ho : o.Standing s) (hother : c.touched s ≠ some o.childId) :=
    entered_standing hentered hs ho (entered_live hentered ho.live hother)
  refine Reconciled.call hadm hs ⟨fun ex o ho => ?_, fun x hx => ?_, fun i => ?_⟩
  · rw [entered_gateways hentered] at ho
    exact hkeep o (h.queued ex o ho) (hqueued ex o ho)
  · exact hkeep x.order (h.resting x hx) (hresting x hx)
  · rw [entered_net hentered hfill]
    exact h.net i

theorem Reconciled.strangerCall (hadm : c.Admissible cfg canonical w s) (hs : Healthy canonical s)
    (h : Reconciled net0 traded s orders)
    (hfill : ∀ rep, c = .report rep → rep.execType.isFill = false) (hnone : c.touched s = none) :
    Reconciled net0 traded (c.apply cfg w s) orders := by
  have hother (child : ℕ) : c.touched s ≠ some child := by
    rw [hnone]
    exact (Option.some_ne_none child).symm
  exact h.quietCall hadm hs hfill (fun _ o _ => hother o.childId) fun x _ => hother x.order.childId

end Calls

section Moves
variable {M : Market}

/-- The position moves by the fill, as the order's instrument and direction say. -/
theorem bookFill_signed {rep : ExecutionReport} (hx : x.order.Standing s)
    (hchild : rep.childId = x.order.childId)
    (hscaled : w.Scaled cfg canonical (s.pool.parents (s.parentOf rep.childId)).instrId) (i : ℕ) :
    ((bookFill cfg w rep.childId (s.parentOf rep.childId) rep s).pos.instruments i).netQtyLots =
      (s.pos.instruments i).netQtyLots +
        if x.order.instrId = i then signedLots x.order.dir rep.fillQtyLots else 0 := by
  have hcanonical := hscaled.toCanonicalLots (s.pool.children rep.childId) rep.fillQtyLots
  rw [bookFill_net, hcanonical, hx.terms.instrId, hx.terms.dir, ← hchild]
  by_cases hi : i = (s.pool.parents (s.parentOf rep.childId)).instrId
  · rw [if_pos hi, if_pos hi.symm]
    cases (s.pool.parents (s.parentOf rep.childId)).dir <;> simp [signedLots, canonical]
    rfl
  · rw [if_neg hi, if_neg (Ne.symm hi), add_zero]

theorem Reconciled.deliver {i j : ℕ} (h : Reconciled net0 traded M.core M.orders) (hM : M.Sound)
    (hs : Healthy canonical M.core) (hlegal : (Move.deliver w i j).Legal cfg M) :
    Reconciled net0 traded (M.deliver cfg w i j).core (M.deliver cfg w i j).orders := by
  obtain ⟨x, hx, hj⟩ := hlegal.possible
  obtain ⟨rep, hrep⟩ : ∃ rep, x.reports[j]? = some rep := ⟨_, List.getElem?_eq_getElem hj⟩
  have hmove : (Move.deliver w i j).call M = some (w, .report rep) := by
    simp only [Move.call, hx, Option.bind_some, hrep, Option.map_some]
  have hxb := hM.backing.resting x (List.mem_of_getElem? hx)
  have hxs := h.resting x (List.mem_of_getElem? hx)
  obtain ⟨hchild, hfill, -⟩ := hxb.reports rep (List.mem_of_getElem? hrep)
  obtain ⟨hwait, hothers⟩ := hM.backing.alone hx
  have hadm := hlegal.admissible hM hmove
  have hentry := hadm.fill_entry hs hfill
  have hentered := hadm.entered hs
  have hsum := ExchangeOrder.unreported_deliver hrep
  rw [hentry] at hentered
  have htouched : (Call.report rep).touched M.core = some x.order.childId := by
    simp only [Call.touched, hfill, true_or, if_true, hchild]
  have hkeep (o : OutboundOrder) (ho : o.Standing M.core) (hne : o.childId ≠ x.order.childId) :=
    entered_standing hentered hs ho (entered_live hentered ho.live
      (by rw [htouched]; exact fun heq => hne (Option.some.inj heq).symm))
  have hscaled := hadm.scaled _ (hs.store.parentOf_inUse hadm.wellFormed.1.1)
  have hbooked (orders' : List ExchangeOrder) (hresting : ∀ y ∈ orders', y.order.Standing
        (bookFill cfg w rep.childId (M.core.parentOf rep.childId) rep M.core))
      (hnet : ∀ k, unreportedNet k orders' = unreportedNet k M.orders -
        if x.order.instrId = k then signedLots x.order.dir rep.fillQtyLots else 0) :
      Reconciled net0 traded ((Call.report rep).apply cfg w M.core) orders' := by
    apply Reconciled.call hadm hs
    rw [hentry]
    refine ⟨fun ex o ho => hkeep o (h.queued ex o ho) (hwait ex o ho), hresting, fun k => ?_⟩
    have hold := h.net k
    rw [bookFill_signed hxs hchild hscaled, hnet]
    omega
  simp only [Market.deliver, hx, hrep]
  split
  · rename_i hdone
    refine hbooked _ (fun y hy => hkeep y.order (h.resting y (List.mem_of_mem_eraseIdx hy)) (hothers y hy))
      fun k => ?_
    have hzero : (x.deliver j).unreported = 0 := by
      rw [ExchangeOrder.unreported, hdone.2]
      rfl
    rw [unreportedNet_erase hx, hsum, hzero, zero_add]
  · rename_i hmore
    refine hbooked _ (fun y hy => ?_) fun k => ?_
    · rcases SingleChange.mem_set_cases hx hy with rfl | hy
      · exact entered_standing hentered hs hxs (hxb.deliver hs hrep hmore).live
      · exact hkeep y.order (h.resting y (List.mem_of_mem_eraseIdx hy)) (hothers y hy)
    · rw [unreportedNet_set hx (x.deliver j) rfl, hsum, signedLots_add, add_sub_cancel_left]

theorem Reconciled.deliverEnd {i : ℕ} (h : Reconciled net0 traded M.core M.orders) (hM : M.Sound)
    (hs : Healthy canonical M.core) (hlegal : (Move.deliverEnd w i).Legal cfg M) :
    Reconciled net0 traded (M.deliverEnd cfg w i).core (M.deliverEnd cfg w i).orders := by
  obtain ⟨x, hx, hsome, hnone⟩ := hlegal.possible
  obtain ⟨rep, hrep⟩ := Option.isSome_iff_exists.mp hsome
  have hmove : (Move.deliverEnd w i).call M = some (w, .report rep) := by
    simp only [Move.call, hx, Option.bind_some, hrep, Option.map_some]
  have hxb := hM.backing.resting x (List.mem_of_getElem? hx)
  obtain ⟨hchild, hkind⟩ := hxb.ended rep hrep
  obtain ⟨hwait, hothers⟩ := hM.backing.alone hx
  have htouched : (Call.report rep).touched M.core = some x.order.childId := by
    simp only [Call.touched, hkind, or_true, if_true, hchild]
  have hne {o : OutboundOrder} (ho : o.childId ≠ x.order.childId) :
      (Call.report rep).touched M.core ≠ some o.childId := by
    rw [htouched]
    exact fun heq => ho (Option.some.inj heq).symm
  have hzero : x.unreported = 0 := by
    rw [ExchangeOrder.unreported, hnone]
    rfl
  simp only [Market.deliverEnd, hx, hrep]
  refine Reconciled.quietCall (hlegal.admissible hM hmove) hs
    (h.replace (fun y hy => ⟨y, List.mem_of_mem_eraseIdx hy, rfl⟩) fun k => ?_) (fun r hr => ?_)
    (fun ex o ho => hne (hwait ex o ho)) (fun y hy => hne (hothers y hy))
  · rw [unreportedNet_erase hx, hzero, signedLots_zero, ite_self, sub_zero]
  · cases hr
    cases hr : rep.execType <;> rw [hr] at hkind <;> first | rfl | cases hkind

/-- What a move trades on the account. -/
def Market.recordTrade (M : Market) (m : Move) (traded : ℕ → ℤ) : ℕ → ℤ :=
  match m with
  | .execute i rep =>
    match M.orders[i]? with
    | none => traded
    | some x => Function.update traded x.order.instrId
        (traded x.order.instrId + signedLots x.order.dir rep.fillQtyLots)
  | _ => traded

/-- The market with the exchanges' own account of what was traded. -/
def tradeStep (cfg : ExecCoreConfig) (m : Move) (x : Market × (ℕ → ℤ)) : Market × (ℕ → ℤ) :=
  (x.1.step cfg m, x.1.recordTrade m x.2)

theorem step_reconciled {m : Move} (h : Reconciled net0 traded M.core M.orders) (hM : M.Sound)
    (hs : Healthy canonical M.core) (hsafe : m.Safe cfg M) :
    Reconciled net0 (M.recordTrade m traded) (M.step cfg m).core (M.step cfg m).orders := by
  have hlegal := hsafe.legal
  cases m with
  | signal w sig =>
    have hbefore : (M.before cfg w (.signal sig)).orders = M.orders := by
      simp only [Market.before, Market.register]
      split <;> rfl
    simp only [Market.step, Market.call, hbefore]
    exact h.strangerCall (hlegal.admissible hM rfl) hs (fun rep hr => Call.noConfusion hr) rfl
  | visit w slot idx =>
    have htouched {c : ℕ} (hc : M.Out c) : (Call.visit slot idx).touched M.core ≠ some c := by
      intro heq
      obtain ⟨e, he, rfl⟩ := Option.map_eq_some_iff.mp heq
      exact hsafe.patient e he hc
    exact h.quietCall (hlegal.admissible hM rfl) hs (fun rep hr => Call.noConfusion hr)
      (fun ex o ho => htouched (Or.inl ⟨ex, o, ho, rfl⟩)) fun x hx => htouched (Or.inr ⟨x, hx, rfl⟩)
  | env e =>
    have hsame := e.apply_sameBooks M.core
    refine ⟨fun ex o ho => e.apply_standing (h.queued ex o ?_),
      fun x hx => e.apply_standing (h.resting x hx), fun i => ?_⟩
    · rw [← e.apply_gateways hlegal.possible M.core]
      exact ho
    · simp only [Market.step, hsame.net]
      exact h.net i
  | take ex =>
    simp only [Market.step, Market.take, Market.recordTrade]
    split
    · rename_i o os n tags hqueue htags
      have hhead := h.queued ex o (by rw [hqueue]; exact List.mem_cons_self)
      refine ⟨fun ex' o' ho' => Env.apply_standing (.gatewayPop ex) (h.queued ex' o' ?_),
        fun x hx => ?_, fun i => ?_⟩
      · by_cases hex : ex' = ex
        · subst hex
          simp only [Env.apply, Function.update_self] at ho'
          exact List.mem_of_mem_tail ho'
        · simp only [Env.apply, Function.update_of_ne hex] at ho'
          exact ho'
      · rcases List.mem_cons.mp hx with rfl | hx
        · exact Env.apply_standing (.gatewayPop ex) hhead
        · exact Env.apply_standing (.gatewayPop ex) (h.resting x hx)
      · have hfresh : unreportedNet i (ExchangeOrder.received o n :: M.orders) =
            unreportedNet i M.orders := by
          simp [unreportedNet, ExchangeOrder.received, ExchangeOrder.unreported, signedLots_zero]
        rw [hfresh]
        exact h.net i
    · exact h
  | execute i rep =>
    obtain ⟨x, hx, -⟩ := hlegal.possible
    simp only [Market.step, Market.execute, Market.recordTrade, hx]
    exact h.execute hx
  | close i rep =>
    obtain ⟨x, hx, -⟩ := hlegal.possible
    simp only [Market.step, Market.close, hx]
    refine h.replace (mem_set_order hx rfl) fun j => ?_
    have hsame : ({ x with ended := some rep } : ExchangeOrder).unreported = x.unreported := rfl
    rw [unreportedNet_set hx { x with ended := some rep } rfl, hsame, sub_self, ite_self, sub_zero]
  | acknowledge w i rep =>
    obtain ⟨x, hx, hchild, hkind⟩ := hlegal.possible
    have htouched : (Call.report rep).touched M.core = none := by
      simp [Call.touched, hkind, ExecType.isFill, ExecType.isEnd]
    refine h.strangerCall (hlegal.admissible hM rfl) hs (fun r hr => ?_) htouched
    cases hr
    rw [hkind]
    rfl
  | deliver w i j => exact h.deliver hM hs hlegal
  | deliverEnd w i => exact h.deliverEnd hM hs hlegal

end Moves

end OmsFormal.Oms
