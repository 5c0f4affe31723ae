import OmsFormal.Quantities

/-!
# Quantities through the phases of a call

While a call is sending, what is committed and what is still to be sent together
stay within the parent's leaves. Every small step keeps that, whatever sound
router answers.
-/

namespace OmsFormal.Oms
open Sor Rounding OMSOrderPool
set_option autoImplicit false

variable {cfg : ExecCoreConfig} {w : World} {r : ℕ → ℕ → ℕ}

section Phases

/-- Lots of the child orders still to be sent. -/
def pendingLots (ctx : RoutingContext) (rest : List ChildOrder) : ℤ :=
  (rest.map fun co => co.lots (resolveReferenceLotSize ctx)).sum

/-- What `rest` must satisfy so that sending it cannot overcommit the parent. -/
structure Sendable (cfg : ExecCoreConfig) (w : World) (r : ℕ → ℕ → ℕ) (pid : ℕ)
    (ctx : RoutingContext) (rest : List ChildOrder) (s : Core) : Prop where
  scaled : w.Scaled cfg r (s.pool.parents pid).instrId
  reference : resolveReferenceLotSize ctx = cfg.instruments.lotSize (s.pool.parents pid).instrId
  whole : ∀ co ∈ rest, co.qty = co.lots (resolveReferenceLotSize ctx) * resolveReferenceLotSize ctx
  pos : ∀ co ∈ rest, 1 ≤ co.lots (resolveReferenceLotSize ctx)
  room : s.pool.committed r pid + pendingLots ctx rest ≤ (s.pool.parents pid).leavesQtyLots

def QtyPhase (cfg : ExecCoreConfig) (w : World) (r : ℕ → ℕ → ℕ) : Phase × Core → Prop
  | (.idle, _) => True
  | (.booked pid, s) => w.Scaled cfg r (s.pool.parents pid).instrId
  | (.trimmed pid ctx, s) => w.Scaled cfg r (s.pool.parents pid).instrId ∧ RouteFor cfg w pid ctx s ∧
      ((s.pool.parents pid).reduceOnly = false → (s.pool.parents pid).leavesQtyLots ≠ 0)
  | (.sending pid ctx rest, s) => Sendable cfg w r pid ctx rest s

/-- The quantity invariant, phase by phase. -/
def QtyAt (cfg : ExecCoreConfig) (w : World) (r : ℕ → ℕ → ℕ) (a : Phase × Core) : Prop :=
  AllQty r a.2.pool ∧ QtyPhase cfg w r a

variable {pid : ℕ} {s : Core}

theorem QtyAt.closeSafe {a : Phase × Core} (ha : StoreAt a) (hq : QtyAt cfg w r a) : CloseSafe a := by
  obtain ⟨phase, s⟩ := a
  cases phase with
  | booked pid => exact (hq.1 pid ha.1).idle_of_leaves
  | _ => exact trivial

theorem committed_of_childIds_nil {pool : OMSOrderPool} {p : ℕ} (h : (pool.parents p).childIds = []) :
    pool.committed r p = 0 := by
  simp [committed, h]

/-- An allocation for the parent's leaves may be sent from a state without children. -/
theorem Allocation.sendable {ctx : RoutingContext} {buf : List ChildOrder} (h : Allocation ctx buf)
    (hroute : RouteFor cfg w pid ctx s) (hscaled : w.Scaled cfg r (s.pool.parents pid).instrId)
    (hids : (s.pool.parents pid).childIds = []) : Sendable cfg w r pid ctx buf s := by
  refine ⟨hscaled, hroute.resolve, h.whole, h.pos, ?_⟩
  rw [committed_of_childIds_nil hids, zero_add, ← hroute.target]
  exact h.total

theorem giveUp_qty (h : QtyOk r s.pool pid) :
    QtyOk r ((s.pool.clearChildren pid).modifyParent pid (ParentOrder.giveUp (excessLots pid s))) pid := by
  have hids : (((s.pool.clearChildren pid).modifyParent pid
      (ParentOrder.giveUp (excessLots pid s))).parents pid).childIds = [] := by
    rw [modifyParent_parents, Function.update_self, (giveUp_sameSlots _ _).childIds, clear_childIds]
  have hleaves := h.leaves_nonneg
  have hexcess := excessLots_le hleaves
  have htotal := h.total
  refine ⟨?_, ?_, ?_, ?_⟩
  · simp only [modifyParent_parents, Function.update_self, clearChildren, ParentOrder.giveUp]
    omega
  · simpa [clearChildren, ParentOrder.giveUp] using h.cum
  · rw [hids]
    simp
  · rw [committed_of_childIds_nil hids]
    simp only [modifyParent_parents, Function.update_self, clearChildren, ParentOrder.giveUp]
    omega

theorem newChild_weight (ctx : RoutingContext) (cid parentId : ℕ) {instr : ℕ} {co : ChildOrder}
    (hscaled : w.Scaled cfg r instr)
    (hwhole : co.qty = co.lots (cfg.instruments.lotSize instr) * cfg.instruments.lotSize instr)
    (hpos : 1 ≤ co.lots (cfg.instruments.lotSize instr)) :
    (newChild w parentId ctx cid co).qtyLots =
      co.lots (cfg.instruments.lotSize instr) / r co.exchangeId instr ∧
    (newChild w parentId ctx cid co).weight r instr ≤ co.lots (cfg.instruments.lotSize instr) := by
  generalize hn : co.lots (cfg.instruments.lotSize instr) = n at hwhole hpos
  have hqty : (newChild w parentId ctx cid co).qtyLots = n / r co.exchangeId instr := by
    simp only [newChild, hwhole]
    exact hscaled.toLots co.exchangeId (by omega)
  have hleaves : (newChild w parentId ctx cid co).leavesQtyLots = n / r co.exchangeId instr := hqty
  refine ⟨hqty, ?_⟩
  have hworking : (newChild w parentId ctx cid co).state.working = true := rfl
  rw [ChildOrderState.weight_of_working hworking, hleaves]
  have hr : (r co.exchangeId instr : ℤ) ≠ 0 := by
    have := hscaled.pos co.exchangeId
    omega
  exact max_le hpos (Int.mul_ediv_self_le hr)

theorem sendChild_committed {ctx : RoutingContext} {cid : ℕ} {free : List ℕ} {co : ChildOrder}
    {idle : ℕ → Prop} (hinv : StoreInv idle s.pool) (hu : s.pool.ParentInUse pid)
    (hroom : (s.pool.parents pid).childCount < ParentOrder.kMaxChildrenPerParent)
    (hfree : s.pool.childFree = cid :: free) :
    (sendChild cfg w pid ctx cid free co s).pool.committed r pid = s.pool.committed r pid +
      (newChild w (s.pool.parents pid).parentId ctx cid co).weight r (s.pool.parents pid).instrId := by
  have hids := attach_childIds cid free (newChild w (s.pool.parents pid).parentId ctx cid co)
    (hinv.ok pid) hu hroom
  have hinstr : ((sendChild cfg w pid ctx cid free co s).pool.parents pid).instrId =
      (s.pool.parents pid).instrId := by
    simp [sendChild, attachChild, ParentOrder.addChild]
  simp only [committed, hinstr]
  rw [sendChild, hids, List.map_append, List.sum_append]
  congr 1
  · apply SingleChange.list_sum_of_agree
    intro c hc
    have hne : c ≠ cid := fun he => attach_fresh hfree (he ▸ ((hinv.ok pid).owned hu c hc).1)
    simp [attachChild, Function.update_of_ne hne]
  · simp [attachChild]

theorem sendChild_sendable {ctx : RoutingContext} {cid : ℕ} {free : List ℕ} {co : ChildOrder}
    {rest : List ChildOrder} {idle : ℕ → Prop} (hinv : StoreInv idle s.pool)
    (hu : s.pool.ParentInUse pid)
    (hroom : (s.pool.parents pid).childCount < ParentOrder.kMaxChildrenPerParent)
    (hfree : s.pool.childFree = cid :: free) (h : Sendable cfg w r pid ctx (co :: rest) s) :
    Sendable cfg w r pid ctx rest (sendChild cfg w pid ctx cid free co s) := by
  have hrec : (sendChild cfg w pid ctx cid free co s).pool.parents pid =
      (s.pool.parents pid).addChild (s.pool.parents pid).childCount cid := by
    simp [sendChild, attachChild]
  have hwhole := h.whole co List.mem_cons_self
  have hpos := h.pos co List.mem_cons_self
  rw [h.reference] at hwhole hpos
  have hweight := (newChild_weight ctx cid (s.pool.parents pid).parentId h.scaled hwhole hpos).2
  have hold := h.room
  refine ⟨?_, ?_, fun x hx => h.whole x (List.mem_cons_of_mem co hx),
    fun x hx => h.pos x (List.mem_cons_of_mem co hx), ?_⟩
  · rw [hrec]
    exact h.scaled
  · rw [hrec]
    exact h.reference
  · rw [sendChild_committed hinv hu hroom hfree, hrec]
    simp only [pendingLots, List.map_cons, List.sum_cons, h.reference, ParentOrder.addChild] at hold ⊢
    omega

theorem sendChild_qty {ctx : RoutingContext} {cid : ℕ} {free : List ℕ} {co : ChildOrder}
    {rest : List ChildOrder} {idle : ℕ → Prop} (hinv : StoreInv idle s.pool)
    (hu : s.pool.ParentInUse pid)
    (hroom : (s.pool.parents pid).childCount < ParentOrder.kMaxChildrenPerParent)
    (hfree : s.pool.childFree = cid :: free) (h : Sendable cfg w r pid ctx (co :: rest) s)
    (hq : QtyOk r s.pool pid) :
    QtyOk r (sendChild cfg w pid ctx cid free co s).pool pid := by
  have hrec : (sendChild cfg w pid ctx cid free co s).pool.parents pid =
      (s.pool.parents pid).addChild (s.pool.parents pid).childCount cid := by
    simp [sendChild, attachChild]
  have hids := attach_childIds cid free (newChild w (s.pool.parents pid).parentId ctx cid co)
    (hinv.ok pid) hu hroom
  have hnext := sendChild_sendable hinv hu hroom hfree h
  have hpos := h.pos co List.mem_cons_self
  have hwhole := h.whole co List.mem_cons_self
  rw [h.reference] at hwhole hpos
  refine ⟨by rw [hrec]; exact hq.total, by rw [hrec]; exact hq.cum, ?_, ?_⟩
  · intro c hc hw
    rw [sendChild, hids] at hc
    rcases List.mem_append.mp hc with hc | hc
    · have hne : c ≠ cid := fun he => attach_fresh hfree (he ▸ ((hinv.ok pid).owned hu c hc).1)
      have hold : (sendChild cfg w pid ctx cid free co s).pool.children c = s.pool.children c := by
        simp [sendChild, attachChild, Function.update_of_ne hne]
      rw [hold] at hw ⊢
      exact hq.child c hc hw
    · have hnew : (sendChild cfg w pid ctx cid free co s).pool.children c =
          newChild w (s.pool.parents pid).parentId ctx cid co := by
        rw [List.mem_singleton.mp hc]
        simp [sendChild, attachChild]
      rw [hnew]
      have hqty := (newChild_weight ctx cid (s.pool.parents pid).parentId h.scaled hwhole hpos).1
      refine ⟨by simp [newChild], ?_⟩
      change 0 ≤ (newChild w (s.pool.parents pid).parentId ctx cid co).qtyLots
      rw [hqty]
      exact Int.ediv_nonneg (by omega) (Int.natCast_nonneg _)
  · have hpending : 0 ≤ pendingLots ctx rest := by
      apply List.sum_nonneg
      intro x hx
      obtain ⟨co', hco, rfl⟩ := List.mem_map.mp hx
      exact zero_le_one.trans (h.pos co' (List.mem_cons_of_mem co hco))
    have hroom' := hnext.room
    omega

end Phases

section Micro

theorem AllQty.retire {pid : ℕ} {pool pool' : OMSOrderPool} {idle : ℕ → Prop} {rec : ParentOrder}
    (h : AllQty r pool) (hinv : StoreInv idle pool) (hu : pool.ParentInUse pid)
    (hpool : pool' = pool.retire pid rec) : AllQty r pool' := by
  subst hpool
  exact h.of_local hinv (retire_local hinv hu rec) fun hu' => absurd hu' (retire_gone pool pid rec)

theorem setParentState_childIds {pid : ℕ} {s : Core} (st : OrderState) :
    ((s.setParentState pid st).pool.parents pid).childIds = (s.pool.parents pid).childIds := by
  rw [setParentState_pool, modifyParent_parents, Function.update_self]
  exact ParentOrder.SameSlots.childIds ⟨rfl, rfl, rfl, rfl, rfl⟩

theorem setParentState_qty {pid : ℕ} {s : Core} (st : OrderState) (h : QtyOk r s.pool pid) :
    QtyOk r (s.setParentState pid st).pool pid :=
  h.of_same (setParentState_childIds st) (by simp [setParentState_pool]) (by simp [setParentState_pool])
    (by simp [setParentState_pool]) (by simp [setParentState_pool]) fun _ _ => rfl

theorem setParentState_sendable {pid : ℕ} {s : Core} {ctx : RoutingContext} {buf : List ChildOrder}
    (st : OrderState) (h : Sendable cfg w r pid ctx buf s) :
    Sendable cfg w r pid ctx buf (s.setParentState pid st) := by
  have hrec : (s.setParentState pid st).pool.parents pid = { s.pool.parents pid with state := st } := by
    simp [setParentState_pool]
  have hcommitted : (s.setParentState pid st).pool.committed r pid = s.pool.committed r pid := by
    simp only [committed, hrec]
    rfl
  exact ⟨by rw [hrec]; exact h.scaled, by rw [hrec]; exact h.reference, h.whole, h.pos,
    by rw [hcommitted, hrec]; exact h.room⟩

/-- A reroute that goes on asks the router for at least one lot. -/
theorem trimmed_target {pid : ℕ} {s : Core} {ctx : RoutingContext} (h : QtyOk r s.pool pid)
    (hroute : RouteFor cfg w pid ctx s)
    (hleft : (s.pool.parents pid).reduceOnly = true → (s.pool.parents pid).leavesQtyLots ≠ 0)
    (hflag : (s.pool.parents pid).reduceOnly = false → (s.pool.parents pid).leavesQtyLots ≠ 0) :
    1 ≤ ctx.targetLots := by
  have hnn := h.leaves_nonneg
  have hne : (s.pool.parents pid).leavesQtyLots ≠ 0 := by
    cases hr : (s.pool.parents pid).reduceOnly with
    | true => exact hleft hr
    | false => exact hflag hr
  rw [hroute.target]
  omega

theorem micro_qty (hsound : w.router.Sound) {a b : Phase × Core} (h : Micro cfg w a b)
    (ha : StoreAt a) (hq : QtyAt cfg w r a) : QtyAt cfg w r b := by
  obtain ⟨hall, hphase⟩ := hq
  cases h with
  | @mark pid s =>
    refine ⟨hall.of_local ha.2 (setParentState_local _) fun _ => setParentState_qty _ (hall pid ha.1), ?_⟩
    simpa [QtyPhase, setParentState_pool] using hphase
  | close =>
    obtain ⟨st, hpool⟩ := closeFilled_retire ha.2 ha.1
    exact ⟨hall.retire ha.2 ha.1 hpool, trivial⟩
  | keep => exact ⟨hall, trivial⟩
  | @trim pid s hleft hterm =>
    have hpool := trimmed_pool (terminal_of_allChildrenTerminal ha.2 ha.1 hterm)
    have hrec := trimmed_record pid s
    refine ⟨?_, ?_, trimmedContext_routeFor s, ?_⟩
    · have hmicro : Micro cfg w (.booked pid, s) _ := .trim hleft hterm
      refine hall.of_local ha.2 (micro_local hmicro ha) fun _ => ?_
      simp only [hpool]
      exact giveUp_qty (hall pid ha.1)
    · rw [hrec]
      exact hphase
    · intro hflag
      rw [trimmed_reduceOnly] at hflag
      have hexcess : excessLots pid s = 0 := by simp [excessLots, hflag]
      rw [hrec, hexcess]
      simpa [ParentOrder.giveUp] using hleft
  | reduced =>
    obtain ⟨st, hpool⟩ := closeReduceOnlyDone_retire ha.2.1 ha.1 ha.2.2
    exact ⟨hall.retire ha.2.1 ha.1 hpool, trivial⟩
  | noLiquidity =>
    obtain ⟨st, hpool⟩ := closeUnfilled_retire w .noLiquidity ha.2.1 ha.1 ha.2.2
    exact ⟨hall.retire ha.2.1 ha.1 hpool, trivial⟩
  | @route pid ctx s hleft hsplit =>
    obtain ⟨hscaled, hroute, hflag⟩ := hphase
    refine ⟨hall.of_local ha.2.1 (setParentState_local _) fun _ => setParentState_qty _ (hall pid ha.1), ?_⟩
    refine setParentState_sendable _ (Allocation.sendable ?_ hroute hscaled (childIds_nil ha.2.1 ha.1 ha.2.2))
    apply hsound.split
    · exact trimmed_target (hall pid ha.1) hroute hleft hflag
    · rw [hroute.reference]
      exact cfg.instruments.lotSize_pos _
  | @send pid cid ctx co rest free s hroom hfree =>
    have hloc := attach_local (newChild w (s.pool.parents pid).parentId ctx cid co) ha.2 hfree
      ((ha.2.ok pid).parentId ha.1)
    exact ⟨hall.of_local ha.2 hloc fun _ => sendChild_qty ha.2 ha.1 hroom hfree hphase (hall pid ha.1),
      sendChild_sendable ha.2 ha.1 hroom hfree hphase⟩
  | @allocFailed pid ctx rest s hfree =>
    have hsame := allocFailed_sameRecords hfree
    have hpool : s.pool.allocChild.2 =
        { s.pool with childAllocFailures := s.pool.childAllocFailures + 1 } := by
      simp only [allocChild, hfree]
    refine ⟨hall.of_sameRecords ha.2 hsame, ?_⟩
    simp only [hpool]
    exact ⟨hphase.scaled, hphase.reference, hphase.whole, hphase.pos, hphase.room⟩
  | sent =>
    refine ⟨?_, trivial⟩
    simp only [releaseGap_pool]
    exact hall
  | @noneSent pid ctx rest s hcount =>
    obtain ⟨st, hpool⟩ := noneSent_retire (w := w) ctx rest ha.2 ha.1 hcount
    exact ⟨hall.retire ha.2 ha.1 hpool, trivial⟩

end Micro

end OmsFormal.Oms
