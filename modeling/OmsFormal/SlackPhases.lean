import OmsFormal.Exposure

/-!
# The slack through the phases of a call

Whatever a call still has to give up or send is owed from its entry on, so the
slack it will end with is known there and no small step changes it.
-/

namespace OmsFormal.Oms
open Sor Rounding OMSOrderPool GuardedRun
set_option autoImplicit false

variable {cfg : ExecCoreConfig} {w : World} {s : Core} {pid i : ℕ} {d : OrderDir}

section Gap

theorem sum_qty {ctx : RoutingContext} {rest : List ChildOrder}
    (h : ∀ co ∈ rest, co.qty = co.lots (resolveReferenceLotSize ctx) * resolveReferenceLotSize ctx) :
    (rest.map ChildOrder.qty).sum = pendingLots ctx rest * resolveReferenceLotSize ctx := by
  induction rest with
  | nil => simp [pendingLots]
  | cons co rest ih =>
    have hrest := ih fun x hx => h x (List.mem_cons_of_mem co hx)
    have hco := h co List.mem_cons_self
    simp only [pendingLots, List.map_cons, List.sum_cons] at hrest ⊢
    rw [hrest, hco]
    push_cast
    ring

theorem pendingLots_nonneg {ctx : RoutingContext} {rest : List ChildOrder}
    (h : ∀ co ∈ rest, 1 ≤ co.lots (resolveReferenceLotSize ctx)) : 0 ≤ pendingLots ctx rest := by
  apply List.sum_nonneg
  intro x hx
  obtain ⟨co, hco, rfl⟩ := List.mem_map.mp hx
  exact zero_le_one.trans (h co hco)

/-- The gap of a dispatch is what is still pending. -/
theorem gapLots_eq {r : ℕ → ℕ → ℕ} {ctx : RoutingContext} {rest : List ChildOrder}
    (h : Sendable cfg w r pid ctx rest s) : gapLots ctx rest = pendingLots ctx rest := by
  rw [gapLots, sum_qty h.whole, roundHalfAway_mul_div]
  rw [h.reference]
  exact cfg.instruments.lotSize_pos _

theorem releaseGap_openLots {r : ℕ → ℕ → ℕ} {ctx : RoutingContext} {rest : List ChildOrder}
    (h : Sendable cfg w r pid ctx rest s) :
    ((releaseGap pid ctx rest s).pos.instruments i).openLots d = (s.pos.instruments i).openLots d -
      onSide (s.pool.parents pid).instrId (s.pool.parents pid).dir i d (pendingLots ctx rest) := by
  have hnn := pendingLots_nonneg h.pos
  unfold releaseGap
  rw [gapLots_eq h]
  split
  · exact release_openLots _ _ _ _
  · have hzero : pendingLots ctx rest = 0 := by omega
    simp [hzero]

end Gap

section Mark

theorem excessLots_setParentState (st : OrderState) :
    excessLots pid (s.setParentState pid st) = excessLots pid s := by
  simp [excessLots, Core.setParentState]

theorem trimmed_setParentState (pid : ℕ) (s : Core) (st : OrderState) :
    ((trimmed pid (s.setParentState pid st)).pool.parents pid).leavesQtyLots =
        ((trimmed pid s).pool.parents pid).leavesQtyLots ∧
    ((trimmed pid (s.setParentState pid st)).pool.parents pid).reduceOnly =
        ((trimmed pid s).pool.parents pid).reduceOnly := by
  rw [trimmed_record, trimmed_record, excessLots_setParentState]
  simp [Core.setParentState, ParentOrder.giveUp]

/-- The label of a parent plays no part in its reroute. -/
theorem trimmedContext_setParentState (st : OrderState) :
    trimmedContext cfg w pid (s.setParentState pid st) = trimmedContext cfg w pid s := by
  simp only [trimmedContext, (trimmed_setParentState pid s st).1]
  simp [rerouteContext, buildRoutingContext, Core.setParentState]

theorem asked_setParentState (ctx : RoutingContext) (st : OrderState) :
    asked w pid ctx (trimmed pid (s.setParentState pid st)) = asked w pid ctx (trimmed pid s) := by
  obtain ⟨hleaves, hflag⟩ := trimmed_setParentState pid s st
  simp only [asked, hleaves, hflag]

theorem rerouteDemand_setParentState (st : OrderState) :
    rerouteDemand cfg w pid (s.setParentState pid st) = rerouteDemand cfg w pid s := by
  simp only [rerouteDemand, excessLots_setParentState, trimmedContext_setParentState, asked_setParentState]

theorem reroutes_setParentState (st : OrderState) :
    reroutes pid (s.setParentState pid st) = reroutes pid s := by
  simp [reroutes, allChildrenTerminal, Core.setParentState, ParentOrder.hasChild]

end Mark

section Micro

theorem retire_exposure {pool pool' : OMSOrderPool} {idle : ℕ → Prop} {rec : ParentOrder}
    (hinv : StoreInv idle pool) (hu : pool.ParentInUse pid) (hopen : pool.openLeaves pid = 0)
    (hpool : pool' = pool.retire pid rec) : pool'.exposure i d = pool.exposure i d := by
  subst hpool
  refine exposure_of_share (retire_local hinv hu rec) hinv hu.1 ?_
  rw [share_of_openLeaves hopen, share_of_not_inUse]
  exact retire_gone pool pid rec

theorem setParentState_exposure {idle : ℕ → Prop} (st : OrderState) (hinv : StoreInv idle s.pool)
    (hu : s.pool.ParentInUse pid) :
    (s.setParentState pid st).pool.exposure i d = s.pool.exposure i d := by
  refine exposure_of_share (setParentState_local st) hinv hu.1 (share_congr Iff.rfl ?_ ?_ ?_)
  · simp [setParentState_pool]
  · simp [setParentState_pool]
  · simp only [openLeaves, setParentState_childIds]
    rfl

theorem openLeaves_of_idle {idle : ℕ → Prop} (hinv : StoreInv idle s.pool) (hu : s.pool.ParentInUse pid)
    (h : ∀ c ∈ (s.pool.parents pid).childIds, (s.pool.children c).state.working = false) :
    s.pool.openLeaves pid = 0 :=
  openLeaves_of_terminal
    (terminal_of_allChildrenTerminal hinv hu ((allChildrenTerminal_iff _ _).mpr h))

theorem trimmed_exposure (hinv : StoreInv (fun q => q = pid) s.pool) (hu : s.pool.ParentInUse pid)
    (hall : allChildrenTerminal s.pool (s.pool.parents pid) = true) :
    (trimmed pid s).pool.exposure i d = s.pool.exposure i d := by
  have hterm := terminal_of_allChildrenTerminal hinv hu hall
  have hids : ((trimmed pid s).pool.parents pid).childIds = [] := by
    rw [trimmed_pool hterm, modifyParent_parents, Function.update_self, (giveUp_sameSlots _ _).childIds,
      clear_childIds]
  have hloc : Local pid s.pool (trimmed pid s).pool := by
    rw [trimmed_pool hterm]
    exact (clear_local hinv hu).trans (modifyParent_local _ _ _)
  refine exposure_of_share hloc hinv hu.1 ?_
  rw [share_of_openLeaves (openLeaves_of_childIds_nil hids),
    share_of_openLeaves (openLeaves_of_terminal hterm)]

theorem trimmed_openLots (pid : ℕ) (s : Core) :
    ((trimmed pid s).pos.instruments i).openLots d = (s.pos.instruments i).openLots d -
      onSide (s.pool.parents pid).instrId (s.pool.parents pid).dir i d (excessLots pid s) := by
  rw [trimmed_eq]
  exact release_openLots _ _ _ _

theorem sendChild_exposure {ctx : RoutingContext} {cid : ℕ} {free : List ℕ} {co : ChildOrder}
    {rest : List ChildOrder} {idle : ℕ → Prop} (hinv : StoreInv idle s.pool)
    (hu : s.pool.ParentInUse pid)
    (hroom : (s.pool.parents pid).childCount < ParentOrder.kMaxChildrenPerParent)
    (hfree : s.pool.childFree = cid :: free) (h : Sendable cfg w canonical pid ctx (co :: rest) s) :
    (sendChild cfg w pid ctx cid free co s).pool.exposure i d = s.pool.exposure i d +
      onSide (s.pool.parents pid).instrId (s.pool.parents pid).dir i d
        (co.lots (resolveReferenceLotSize ctx)) := by
  have hrec : (sendChild cfg w pid ctx cid free co s).pool.parents pid =
      (s.pool.parents pid).addChild (s.pool.parents pid).childCount cid := by
    simp [sendChild, attachChild]
  have hids := attach_childIds cid free (newChild w (s.pool.parents pid).parentId ctx cid co)
    (hinv.ok pid) hu hroom
  have hwhole := h.whole co List.mem_cons_self
  have hpos := h.pos co List.mem_cons_self
  rw [h.reference] at hwhole hpos
  have hqty := (newChild_weight ctx cid (s.pool.parents pid).parentId h.scaled hwhole hpos).1
  have hopen : (sendChild cfg w pid ctx cid free co s).pool.openLeaves pid =
      s.pool.openLeaves pid + co.lots (resolveReferenceLotSize ctx) := by
    simp only [openLeaves]
    rw [sendChild, hids, List.map_append, List.sum_append]
    congr 1
    · apply SingleChange.list_sum_of_agree
      intro c hc
      have hne : c ≠ cid := fun he => attach_fresh hfree (he ▸ ((hinv.ok pid).owned hu c hc).1)
      simp [attachChild, Function.update_of_ne hne]
    · have hleaves : (newChild w (s.pool.parents pid).parentId ctx cid co).openLots =
          (newChild w (s.pool.parents pid).parentId ctx cid co).qtyLots := rfl
      simp only [attachChild, List.map_cons, List.map_nil, List.sum_cons, List.sum_nil, add_zero,
        Function.update_self]
      rw [hleaves, hqty, h.reference]
      simp [canonical]
  have hu' : (sendChild cfg w pid ctx cid free co s).pool.ParentInUse pid := hu
  have hloc : Local pid s.pool (sendChild cfg w pid ctx cid free co s).pool :=
    attach_local _ hinv hfree ((hinv.ok pid).parentId hu)
  rw [exposure_local hloc hinv hu.1]
  simp only [share, onSide, hu, hu', true_and, hopen, hrec, ParentOrder.addChild]
  split <;> omega

@[simp] theorem finalSlack_idle (s : Core) : finalSlack cfg w (.idle, s) i d = s.slack i d := by
  simp [finalSlack, owedLots]

/-- No small step changes the slack its call will end with. -/
theorem micro_finalSlack {a b : Phase × Core} (h : Micro cfg w a b) (ha : HealthyAt cfg w canonical a) :
    finalSlack cfg w b i d = finalSlack cfg w a i d := by
  obtain ⟨hstore, _, hall, hphase⟩ := ha
  cases h with
  | @mark pid s =>
    have hrec : (s.setParentState pid .partiallyFilled).pool.parents pid =
        { s.pool.parents pid with state := .partiallyFilled } := by simp [setParentState_pool]
    simp only [finalSlack, Phase.pid, owedLots, Core.slack, hrec, reroutes_setParentState,
      rerouteDemand_setParentState, setParentState_exposure _ hstore.2 hstore.1]
    rfl
  | @close pid s hl =>
    obtain ⟨st, hpool⟩ := closeFilled_retire hstore.2 hstore.1
    have hnn := (hall pid hstore.1).leaves_nonneg
    have hzero : (s.pool.parents pid).leavesQtyLots = 0 := le_antisymm hl hnn
    have hopen := openLeaves_of_idle hstore.2 hstore.1 ((hall pid hstore.1).idle_of_leaves hl)
    have hpos : (closeFilled pid s).pos = s.pos := rfl
    rw [finalSlack_idle]
    simp [finalSlack, Phase.pid, owedLots, Core.slack, reroutes, hzero, hpos,
      retire_exposure hstore.2 hstore.1 hopen hpool]
  | keep hkeep => simp [finalSlack, owedLots, reroutes, hkeep]
  | @trim pid s hleft hterm =>
    have hreroutes : reroutes pid s = true := reroutes_iff.mpr ⟨hleft, hterm⟩
    simp only [finalSlack, Phase.pid, owedLots, Core.slack, trimmed_openLots,
      trimmed_exposure hstore.2 hstore.1 hterm, trimmed_record, ParentOrder.giveUp, hreroutes, if_true,
      rerouteDemand, onSide_add]
    omega
  | @reduced pid ctx s hflag hl =>
    obtain ⟨st, hpool⟩ := closeReduceOnlyDone_retire hstore.2.1 hstore.1 hstore.2.2
    have hopen := openLeaves_of_childIds_nil (childIds_nil hstore.2.1 hstore.1 hstore.2.2)
    have hpos : (closeReduceOnlyDone pid s).pos = s.pos := rfl
    rw [finalSlack_idle]
    simp [finalSlack, Phase.pid, owedLots, Core.slack, asked, hflag, hl, hpos, pendingLots,
      retire_exposure hstore.2.1 hstore.1 hopen hpool]
  | @noLiquidity pid ctx s hnone =>
    obtain ⟨st, hpool⟩ := closeUnfilled_retire w .noLiquidity hstore.2.1 hstore.1 hstore.2.2
    have hopen := openLeaves_of_childIds_nil (childIds_nil hstore.2.1 hstore.1 hstore.2.2)
    have hpos : (closeUnfilled w pid .noLiquidity s).pos = s.pos := rfl
    rw [finalSlack_idle]
    simp [finalSlack, Phase.pid, owedLots, Core.slack, asked, hnone, hpos, pendingLots,
      retire_exposure hstore.2.1 hstore.1 hopen hpool]
  | @route pid ctx s hleft hsplit =>
    have hasked : asked w pid ctx s = w.router.optimalSplit ctx := if_neg fun hc => hleft hc.1 hc.2
    have hrec : (s.setParentState pid .pendingNew).pool.parents pid =
        { s.pool.parents pid with state := .pendingNew } := by simp [setParentState_pool]
    simp only [finalSlack, Phase.pid, owedLots, Core.slack, hrec, hasked,
      setParentState_exposure _ hstore.2.1 hstore.1]
    rfl
  | @send pid cid ctx co rest free s hroom hfree =>
    have hpos : (sendChild cfg w pid ctx cid free co s).pos = s.pos := rfl
    have hrec : (sendChild cfg w pid ctx cid free co s).pool.parents pid =
        (s.pool.parents pid).addChild (s.pool.parents pid).childCount cid := by
      simp [sendChild, attachChild]
    simp only [finalSlack, Phase.pid, owedLots, Core.slack, hpos, hrec, ParentOrder.addChild,
      sendChild_exposure hstore.2 hstore.1 hroom hfree hphase, pendingLots, List.map_cons,
        List.sum_cons, onSide_add]
    omega
  | @allocFailed pid ctx rest s hfree =>
    have hsame := allocFailed_sameRecords hfree
    have hrec := hsame.parents pid hstore.1
    simp only [finalSlack, Phase.pid, owedLots, Core.slack, exposure_of_sameRecords hsame hstore.2]
    rw [hrec]
  | @sent pid ctx rest s hcount =>
    rw [finalSlack_idle]
    simp only [finalSlack, Phase.pid, owedLots, Core.slack, releaseGap_pool, releaseGap_openLots hphase]
    omega
  | @noneSent pid ctx rest s hcount =>
    obtain ⟨st, hpool⟩ := noneSent_retire (w := w) ctx rest hstore.2 hstore.1 hcount
    have hopen := openLeaves_of_childIds_nil (childIds_nil hstore.2 hstore.1 hcount)
    have hpos : (closeUnfilled w pid .childPoolExhausted (releaseGap pid ctx rest s)).pos =
      (releaseGap pid ctx rest s).pos := rfl
    rw [finalSlack_idle]
    simp only [finalSlack, Phase.pid, owedLots, Core.slack, hpos, releaseGap_openLots hphase,
      retire_exposure hstore.2 hstore.1 hopen hpool]
    omega

end Micro

end OmsFormal.Oms
