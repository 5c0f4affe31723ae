import OmsFormal.QuantityPhases

/-!
# Quantities at the entry of a call

A fill takes the same canonical lots from its child, from its parent's leaves
and from the commitment; a cancel takes its child's share away; an accepted
signal starts with its whole effective quantity uncommitted.
-/

namespace OmsFormal.Oms
open Sor Rounding OMSOrderPool
set_option autoImplicit false

variable {cfg : ExecCoreConfig} {w : World} {r : ℕ → ℕ → ℕ}

section Entry
variable {s : Core} {cid : ℕ}

/-- A report rewrites one child and its parent's numbers, so a sum over the parent's children
moves by the difference that child makes. -/
theorem report_childSum (v : ChildOrderState → ℤ) {pool : OMSOrderPool} {p : ℕ}
    {f : ChildOrderState → ChildOrderState} {g : ParentOrder → ParentOrder}
    (hslots : ParentOrder.SameSlots (pool.parents p) (g (pool.parents p)))
    (hn : (pool.parents p).childIds.Nodup) (hc : cid ∈ (pool.parents p).childIds) :
    ((((pool.modifyChild cid f).modifyParent p g).parents p).childIds.map fun c =>
        v (((pool.modifyChild cid f).modifyParent p g).children c)).sum =
      ((pool.parents p).childIds.map fun c => v (pool.children c)).sum -
        v (pool.children cid) + v (f (pool.children cid)) := by
  simp only [modifyParent_parents, modifyChild_parents, Function.update_self, hslots.childIds,
    modifyParent_children, modifyChild_children]
  have hchange := SingleChange.list_sum_change (c := cid) (f := fun c => v (pool.children c))
    (g := fun c => v (Function.update pool.children cid (f (pool.children cid)) c)) hn hc
    fun x _ hne => by rw [Function.update_of_ne hne]
  rw [hchange, Function.update_self]

theorem report_committed {pool : OMSOrderPool} {p : ℕ} {f : ChildOrderState → ChildOrderState}
    {g : ParentOrder → ParentOrder} (hslots : ParentOrder.SameSlots (pool.parents p) (g (pool.parents p)))
    (hn : (pool.parents p).childIds.Nodup) (hc : cid ∈ (pool.parents p).childIds) :
    ((pool.modifyChild cid f).modifyParent p g).committed r p = pool.committed r p -
      (pool.children cid).weight r (pool.parents p).instrId +
      (f (pool.children cid)).weight r (pool.parents p).instrId := by
  have hinstr : (((pool.modifyChild cid f).modifyParent p g).parents p).instrId =
      (pool.parents p).instrId := by simp [hslots.instrId]
  simp only [committed, hinstr]
  exact report_childSum (ChildOrderState.weight r (pool.parents p).instrId) hslots hn hc

theorem report_child {pool : OMSOrderPool} {p : ℕ} {f : ChildOrderState → ChildOrderState}
    {g : ParentOrder → ParentOrder} (hslots : ParentOrder.SameSlots (pool.parents p) (g (pool.parents p)))
    (hq : QtyOk r pool p)
    (hf : (f (pool.children cid)).state.working = true →
      (f (pool.children cid)).leavesQtyLots =
        (f (pool.children cid)).qtyLots - (f (pool.children cid)).cumQtyLots ∧
      0 ≤ (f (pool.children cid)).leavesQtyLots) :
    ∀ c ∈ (((pool.modifyChild cid f).modifyParent p g).parents p).childIds,
      (((pool.modifyChild cid f).modifyParent p g).children c).state.working = true →
      (((pool.modifyChild cid f).modifyParent p g).children c).leavesQtyLots =
        (((pool.modifyChild cid f).modifyParent p g).children c).qtyLots -
        (((pool.modifyChild cid f).modifyParent p g).children c).cumQtyLots ∧
      0 ≤ (((pool.modifyChild cid f).modifyParent p g).children c).leavesQtyLots := by
  simp only [modifyParent_parents, modifyChild_parents, Function.update_self, hslots.childIds,
    modifyParent_children, modifyChild_children]
  intro c hc hw
  by_cases hcc : c = cid
  · subst hcc
    rw [Function.update_self] at hw ⊢
    exact hf hw
  · rw [Function.update_of_ne hcc] at hw ⊢
    exact hq.child c hc hw

theorem ChildOrderState.fill_weight {instr : ℕ} {c : ChildOrderState} {n : ℤ}
    (hr : 1 ≤ r c.exchangeId instr) (hw : c.state.working = true)
    (hleaves : c.leavesQtyLots = c.qtyLots - c.cumQtyLots) (hmin : 1 ≤ n) (hmax : n ≤ c.leavesQtyLots) :
    (c.fill n).weight r instr = c.weight r instr - r c.exchangeId instr * n := by
  have hscale {m : ℤ} (hm : 1 ≤ m) : 1 ≤ (r c.exchangeId instr : ℤ) * m := by
    have : (1 : ℤ) ≤ r c.exchangeId instr := by exact_mod_cast hr
    nlinarith
  have hbefore : c.weight r instr = r c.exchangeId instr * c.leavesQtyLots := by
    rw [weight_of_working hw, max_eq_right (hscale (by omega))]
  have hleft : c.qtyLots - (c.cumQtyLots + n) = c.leavesQtyLots - n := by omega
  rw [hbefore]
  by_cases hdone : c.leavesQtyLots - n = 0
  · have hidle : (c.fill n).state.working = false := by simp [fill, hleft, hdone, OrderState.working]
    have hall : c.leavesQtyLots = n := by omega
    rw [weight_of_idle hidle, hall, sub_self]
  · have hworking : (c.fill n).state.working = true := by simp [fill, hleft, hdone, OrderState.working]
    have hafter : (c.fill n).leavesQtyLots = c.leavesQtyLots - n := hleft
    have hex : (c.fill n).exchangeId = c.exchangeId := rfl
    rw [weight_of_working hworking, hafter, hex, max_eq_right (hscale (by omega))]
    ring

theorem bookFill_qty {rep : ExecutionReport} (hinv : StoreInv Quiet s.pool)
    (hc : s.pool.ChildInUse rep.childId) (hw : (s.pool.children rep.childId).state.working = true)
    (hmin : 1 ≤ rep.fillQtyLots)
    (hmax : rep.fillQtyLots ≤ (s.pool.children rep.childId).leavesQtyLots)
    (hscaled : w.Scaled cfg r (s.pool.parents (s.parentOf rep.childId)).instrId)
    (hq : QtyOk r s.pool (s.parentOf rep.childId)) :
    QtyOk r (bookFill cfg w rep.childId (s.parentOf rep.childId) rep s).pool
      (s.parentOf rep.childId) := by
  have hu := hinv.parentOf_inUse hc
  have hmem := hinv.mem_childIds hc
  obtain ⟨hleaves, _⟩ := hq.child _ hmem hw
  have hcanonical := hscaled.toCanonicalLots (s.pool.children rep.childId) rep.fillQtyLots
  have hpos := hscaled.pos (s.pool.children rep.childId).exchangeId
  have hweight := ChildOrderState.fill_weight hpos hw hleaves hmin hmax
  have htotal := hq.total
  have hcum := hq.cum
  have hcovered := hq.covered
  rw [bookFill_pool]
  refine ⟨?_, ?_, report_child ⟨rfl, rfl, rfl, rfl, rfl⟩ hq ?_, ?_⟩
  · simp only [modifyParent_parents, Function.update_self, ParentOrder.fill]
    omega
  · simp only [modifyParent_parents, modifyChild_parents, Function.update_self, ParentOrder.fill, hcanonical]
    have : 0 ≤ (r (s.pool.children rep.childId).exchangeId
        (s.pool.parents (s.parentOf rep.childId)).instrId : ℤ) * rep.fillQtyLots :=
      mul_nonneg (Int.natCast_nonneg _) (by omega)
    omega
  · intro _
    refine ⟨rfl, ?_⟩
    change 0 ≤ (s.pool.children rep.childId).qtyLots -
      ((s.pool.children rep.childId).cumQtyLots + rep.fillQtyLots)
    omega
  · rw [report_committed ⟨rfl, rfl, rfl, rfl, rfl⟩ ((hinv.ok _).nodup hu) hmem, hweight]
    simp only [modifyParent_parents, modifyChild_parents, Function.update_self, ParentOrder.fill, hcanonical]
    omega

theorem bookCancel_qty {rep : ExecutionReport} (hinv : StoreInv Quiet s.pool)
    (hc : s.pool.ChildInUse cid) (hq : QtyOk r s.pool (s.parentOf cid)) :
    QtyOk r (bookCancel cfg w cid (s.parentOf cid) rep s).pool (s.parentOf cid) := by
  have hidle : ((s.pool.children cid).cancel rep.execType).state.working = false := by
    simp only [ChildOrderState.cancel]
    split <;> rfl
  rw [bookCancel_pool]
  refine ⟨?_, ?_, report_child ⟨rfl, rfl, rfl, rfl, rfl⟩ hq fun hw => ?_, ?_⟩
  · simpa using hq.total
  · simpa using hq.cum
  · rw [hidle] at hw
    cases hw
  · rw [report_committed ⟨rfl, rfl, rfl, rfl, rfl⟩ ((hinv.ok _).nodup (hinv.parentOf_inUse hc))
      (hinv.mem_childIds hc), ChildOrderState.weight_of_idle hidle]
    have hcovered := hq.covered
    have hnn := ChildOrderState.weight_nonneg (r := r) (s.pool.parents (s.parentOf cid)).instrId
      (s.pool.children cid)
    simp only [modifyParent_parents, modifyChild_parents, Function.update_self]
    omega

theorem acknowledge_qty (hinv : StoreInv Quiet s.pool) (hc : s.pool.ChildInUse cid)
    (hw : (s.pool.children cid).state.working = true) (hq : QtyOk r s.pool (s.parentOf cid)) :
    QtyOk r (acknowledge cid s).pool (s.parentOf cid) := by
  have hpool : (acknowledge cid s).pool =
      (s.pool.modifyChild cid fun c => { c with state := .pendingNew }).modifyParent (s.parentOf cid) id := by
    simp [acknowledge, modifyParent, modifyChild]
  have hmem := hinv.mem_childIds hc
  have hweight : ({ s.pool.children cid with state := .pendingNew } : ChildOrderState).weight r
      (s.pool.parents (s.parentOf cid)).instrId =
      (s.pool.children cid).weight r (s.pool.parents (s.parentOf cid)).instrId := by
    rw [ChildOrderState.weight_of_working hw, ChildOrderState.weight_of_working rfl]
  rw [hpool]
  refine ⟨?_, ?_, report_child ⟨rfl, rfl, rfl, rfl, rfl⟩ hq fun _ => hq.child cid hmem hw, ?_⟩
  · simpa using hq.total
  · simpa using hq.cum
  · rw [report_committed ⟨rfl, rfl, rfl, rfl, rfl⟩ ((hinv.ok _).nodup (hinv.parentOf_inUse hc)) hmem,
      hweight, sub_add_cancel]
    simpa using hq.covered

theorem bookFill_local (rep : ExecutionReport) :
    Local (s.parentOf rep.childId) s.pool
      (bookFill cfg w rep.childId (s.parentOf rep.childId) rep s).pool := by
  rw [bookFill_pool]
  exact (modifyChild_local rfl rfl).trans (modifyParent_local _ _ _)

theorem bookCancel_local (cfg : ExecCoreConfig) (w : World) (s : Core) (cid : ℕ) (rep : ExecutionReport) :
    Local (s.parentOf cid) s.pool (bookCancel cfg w cid (s.parentOf cid) rep s).pool := by
  rw [bookCancel_pool]
  exact (modifyChild_local rfl rfl).trans (modifyParent_local _ _ _)

theorem acknowledge_local (cid : ℕ) : Local (s.parentOf cid) s.pool (acknowledge cid s).pool := by
  rw [acknowledge_pool]
  exact modifyChild_local rfl rfl

/-- The venues' lots are multiples of the canonical lot of every instrument the call may touch. -/
def Call.Scaled (cfg : ExecCoreConfig) (r : ℕ → ℕ → ℕ) (w : World) : Call → Core → Prop
  | .signal sig, _ => sig.instrId < kMaxInstruments → w.Scaled cfg r sig.instrId
  | .report _, s => ∀ p, s.pool.ParentInUse p → w.Scaled cfg r (s.pool.parents p).instrId
  | .visit _ _, s => ∀ p, s.pool.ParentInUse p → w.Scaled cfg r (s.pool.parents p).instrId

theorem effectiveQty_pos {sig : StrategyOrderSignal} (hpos : 1 ≤ sig.qtyLots)
    (hqty : effectiveQty sig s.pos ≠ 0) : 1 ≤ effectiveQty sig s.pos := by
  have hnn : 0 ≤ sig.qtyLots := by omega
  have := clampReduceOnly_nonneg s.pos sig.instrId sig.dir hnn sig.reduceOnly
  unfold effectiveQty at hqty ⊢
  omega

theorem signalSplit_allocation (hsound : w.router.Sound) (sig : StrategyOrderSignal)
    {ctx : RoutingContext} (htarget : 1 ≤ ctx.targetLots) (href : 0 < ctx.referenceLotSize) :
    Allocation ctx (signalSplit w sig ctx) := by
  unfold signalSplit
  cases sig.orderType with
  | maker => exact hsound.maker ctx htarget href
  | taker => exact hsound.split ctx htarget href

theorem reserved_record (w : World) (s : Core) (sig : StrategyOrderSignal) (pid : ℕ) (free : List ℕ) :
    (reserved w sig pid free s).pool.parents pid =
      { ParentOrder.setQuantity w sig (effectiveQty sig s.pos)
          (ParentOrder.copySignal w sig (reduceOnlyInForce sig s.pos)
            { ParentOrder.reset with parentId := pid }) with state := .pendingNew } := by
  simp [reserved, Core.setParentState, admitted, openParent]

theorem reserved_other (w : World) (sig : StrategyOrderSignal) {pid q : ℕ} (free : List ℕ) (hq : q ≠ pid) :
    (reserved w sig pid free s).pool.parents q = s.pool.parents q := by
  simp [reserved, Core.setParentState, admitted, openParent, hq]

/-- A new parent takes no id that is in use. -/
theorem reserved_inUse (w : World) (sig : StrategyOrderSignal) {pid q : ℕ} {free : List ℕ}
    (hfree : s.pool.parentFree = pid :: free) (hq : s.pool.ParentInUse q) :
    (reserved w sig pid free s).pool.ParentInUse q ∧ q ≠ pid := by
  refine ⟨⟨hq.1, fun hmem => hq.2 ?_⟩, fun heq => hq.2 ?_⟩
  · rw [hfree]
    exact List.mem_cons_of_mem pid hmem
  · rw [hfree, heq]
    exact List.mem_cons_self

theorem reserved_sendable (hsound : w.router.Sound) {sig : StrategyOrderSignal} {pid : ℕ}
    {free : List ℕ} (hpos : 1 ≤ sig.qtyLots) (hqty : effectiveQty sig s.pos ≠ 0)
    (hscaled : w.Scaled cfg r sig.instrId)
    (hids : ((reserved w sig pid free s).pool.parents pid).childIds = []) :
    Sendable cfg w r pid (admittedContext cfg w sig pid free s)
      (signalSplit w sig (admittedContext cfg w sig pid free s)) (reserved w sig pid free s) := by
  have hdir : (admittedContext cfg w sig pid free s).dir = sig.dir := by
    simp [admittedContext, signalContext, buildRoutingContext, admitted, openParent,
      ParentOrder.setQuantity, ParentOrder.copySignal]
  have htarget : (admittedContext cfg w sig pid free s).targetLots = effectiveQty sig s.pos := rfl
  have href : (admittedContext cfg w sig pid free s).referenceLotSize =
      cfg.instruments.lotSize sig.instrId := by
    simp [admittedContext, signalContext, buildRoutingContext, admitted, openParent,
      ParentOrder.setQuantity, ParentOrder.copySignal]
  have halloc : Allocation (admittedContext cfg w sig pid free s) (signalSplit w sig _) :=
    signalSplit_allocation hsound sig (by rw [htarget]; exact effectiveQty_pos hpos hqty)
      (by rw [href]; exact cfg.instruments.lotSize_pos _)
  have hrec := reserved_record w s sig pid free
  apply Allocation.sendable halloc _ (by rw [hrec]; exact hscaled) hids
  exact ⟨rfl, by rw [hrec, hdir]; rfl, by rw [hrec]; rfl, by rw [hrec, href]; rfl⟩

theorem entered_qty (hsound : w.router.Sound) {c : Call} {a : Phase × Core} (h : Entered cfg w s c a)
    (hscaled : c.Scaled cfg r w s) (hinv : StoreInv Quiet s.pool) (hall : AllQty r s.pool) :
    QtyAt cfg w r a := by
  cases h with
  | refused href => exact ⟨hall.of_sameRecords hinv href.records, trivial⟩
  | @admitted sig pid free hpos hfree hinstr hqty hsplit =>
    obtain ⟨hu, hstore⟩ := reserved_storeInv (w := w) hinv hfree hinstr
    have hids := childIds_nil hstore hu reserved_childCount
    have hrec := reserved_record w s sig pid free
    have hloc : Local pid s.pool (reserved w sig pid free s).pool :=
      (open_local hinv hfree).trans (setParentState_local (s := admitted w sig pid free s) _)
    refine ⟨hall.of_local hinv hloc fun _ => ?_, reserved_sendable hsound hpos hqty (hscaled hinstr) hids⟩
    have hq := effectiveQty_pos hpos hqty
    refine ⟨?_, ?_, by rw [hids]; simp, ?_⟩
    · rw [hrec]
      simp [ParentOrder.setQuantity, ParentOrder.copySignal, ParentOrder.reset, ParentOrder.zero]
    · rw [hrec]
      simp [ParentOrder.setQuantity, ParentOrder.copySignal, ParentOrder.reset, ParentOrder.zero]
    · rw [committed_of_childIds_nil hids, hrec]
      simp only [ParentOrder.setQuantity]
      omega
  | @filled rep hlive hkind hmin hmax =>
    have hu := hinv.parentOf_inUse hlive.1
    have hparent := hscaled _ hu
    refine ⟨hall.of_local hinv (bookFill_local _) fun _ =>
      bookFill_qty hinv hlive.1 (hinv.working_of_live hlive) hmin hmax hparent (hall _ hu), ?_⟩
    simpa [QtyPhase, bookFill_pool, ParentOrder.fill] using hparent
  | @ended rep hlive hkind =>
    have hu := hinv.parentOf_inUse hlive.1
    refine ⟨hall.of_local hinv (bookCancel_local _ _ _ _ _) fun _ =>
      bookCancel_qty hinv hlive.1 (hall _ hu), ?_⟩
    simpa [QtyPhase, bookCancel_pool] using hscaled _ hu
  | @acknowledged rep hlive hkind =>
    have hu := hinv.parentOf_inUse hlive.1
    refine ⟨hall.of_local hinv (acknowledge_local _) fun _ => ?_, trivial⟩
    exact acknowledge_qty hinv hlive.1 (hinv.working_of_live hlive) (hall _ hu)
  | ignored => exact ⟨hall, trivial⟩
  | @expired slot idx e he hlive =>
    have hu := hinv.parentOf_inUse hlive.1
    have hloc := bookCancel_local cfg w (s.setWheel (s.timerWheel.deactivate e)) e.childId
       (timeoutReport e.childId (s.pool.children e.childId))
    refine ⟨hall.of_local hinv hloc fun _ =>
      bookCancel_qty (s := s.setWheel (s.timerWheel.deactivate e)) hinv hlive.1 (hall _ hu), ?_⟩
    simp only [QtyPhase, bookCancel_pool, modifyParent_parents, Function.update_self]
    exact hscaled _ hu
  | unarmed => exact ⟨hall, trivial⟩

end Entry

end OmsFormal.Oms
