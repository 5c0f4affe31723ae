import OmsFormal.PositiveOrders
import OmsFormal.LiveChildren

/-!
# Post, then sweep

A maker signal posts all of its quantity as one order at one venue. What that order leaves
unfilled comes back through a reroute, and a reroute only takes: the core keeps no other record
of a parent having been posted. So a maker child is all its parent has in the
market, and a parent that has lost its maker child never gets another one.
-/

namespace OmsFormal.Oms
open Sor Rounding OMSOrderPool GuardedRun
set_option autoImplicit false

/-- Child `c` is an order posted at the touch. -/
def OMSOrderPool.Posted (pool : OMSOrderPool) (c : ℕ) : Prop :=
  pool.ChildInUse c ∧ (pool.children c).orderType = .maker

/-- A posted child is the only one of a parent that was opened by a maker signal, and it asks for
the whole parent in the lots of its venue. -/
structure PostedAlone (r : ℕ → ℕ → ℕ) (pool : OMSOrderPool) (c : ℕ) : Prop where
  opened : (pool.parents (pool.children c).parentId).orderType = .maker
  sole : (pool.parents (pool.children c).parentId).childIds = [c]
  whole : (pool.children c).qtyLots = (pool.parents (pool.children c).parentId).totalQtyLots /
    r (pool.children c).exchangeId (pool.parents (pool.children c).parentId).instrId

/-- No parent of `s` has been given a posted order since. -/
def NoRepost (s s' : Core) : Prop :=
  ∀ c, s'.pool.Posted c → s.pool.ParentInUse (s'.parentOf c) →
    s.pool.Posted c ∧ s'.parentOf c = s.parentOf c

section Routed
variable {eng : RoutingEngine} {ctx : RoutingContext}

theorem greedyLoop_type (slices : List CostSlice) (g : GreedyState) (hg : ∀ co ∈ g.out, co.type = .taker) :
    ∀ co ∈ (greedyLoop ctx slices g).out, co.type = .taker := by
  induction slices generalizing g with
  | nil => exact hg
  | cons slice rest ih =>
    simp only [greedyLoop]
    split
    · exact hg
    · apply ih
      simp only [greedyStep]
      generalize (if g.remainingLots < slice.availableLots then g.remainingLots
        else slice.availableLots) = fillLots
      split
      · exact hg
      · intro co hco
        rcases List.mem_append.mp hco with hco | hco
        · exact hg co hco
        · rw [List.mem_singleton.mp hco]

theorem optimalSplit_type (eng : RoutingEngine) (ctx : RoutingContext) :
    ∀ co ∈ eng.router.optimalSplit ctx, co.type = .taker := by
  change ∀ co ∈ (greedyFill (eng.buildCostSlices ctx) ctx).2, co.type = .taker
  rw [greedyFill_out]
  split
  · simp
  · exact greedyLoop_type _ _ (by simp)

theorem makerPlacement_single (h : eng.router.makerPlacement ctx ≠ []) :
    ∃ co, eng.router.makerPlacement ctx = [co] ∧ co.type = .maker ∧
      co.qty = ctx.targetLots * resolveReferenceLotSize ctx := by
  change (eng.calculateMakerPlacement ctx).2 ≠ [] at h
  change ∃ co, (eng.calculateMakerPlacement ctx).2 = [co] ∧ _
  unfold RoutingEngine.calculateMakerPlacement at h ⊢
  split
  · rename_i hnone
    rw [hnone] at h
    exact absurd rfl h
  · exact ⟨_, rfl, rfl, rfl⟩

end Routed

section Same
variable {r : ℕ → ℕ → ℕ} {pool pool' : OMSOrderPool} {pid : ℕ}

/-- What posting depends on in the record of a child. -/
def ChildOrderState.ticket (c : ChildOrderState) : ℕ × Sor.OrderType × ℤ × ℕ :=
  (c.parentId, c.orderType, c.qtyLots, c.exchangeId)

/-- What posting depends on in the record of a parent. -/
def ParentOrder.posting (p : ParentOrder) : Sor.OrderType × List ℕ × ℤ × ℕ :=
  (p.orderType, p.childIds, p.totalQtyLots, p.instrId)

/-- No child was added, and the remaining ones kept their tickets and their parents' postings. -/
structure SamePosted (pool pool' : OMSOrderPool) : Prop where
  inUse : ∀ c, pool'.ChildInUse c → pool.ChildInUse c
  child : ∀ c, pool'.ChildInUse c → (pool'.children c).ticket = (pool.children c).ticket
  parent : ∀ c, pool'.ChildInUse c → (pool'.parents (pool.children c).parentId).posting =
    (pool.parents (pool.children c).parentId).posting

theorem SamePosted.posted (h : SamePosted pool pool') {c : ℕ} (hc : pool'.Posted c) : pool.Posted c := by
  refine ⟨h.inUse c hc.1, ?_⟩
  rw [← hc.2]
  exact (congrArg (fun t => t.2.1) (h.child c hc.1)).symm

theorem SamePosted.parentId (h : SamePosted pool pool') {c : ℕ} (hc : pool'.Posted c) :
    (pool'.children c).parentId = (pool.children c).parentId :=
  congrArg Prod.fst (h.child c hc.1)

theorem SamePosted.alone (h : SamePosted pool pool') {c : ℕ} (hc : pool'.Posted c)
    (halone : PostedAlone r pool c) : PostedAlone r pool' c := by
  have hchild := h.child c hc.1
  have hparent := h.parent c hc.1
  simp only [ChildOrderState.ticket, Prod.mk.injEq] at hchild
  simp only [ParentOrder.posting, Prod.mk.injEq] at hparent
  obtain ⟨hid, -, hqty, hvenue⟩ := hchild
  obtain ⟨htype, hids, htotal, hinstr⟩ := hparent
  refine ⟨?_, ?_, ?_⟩
  · rw [hid, htype]
    exact halone.opened
  · rw [hid, hids]
    exact halone.sole
  · rw [hid, hqty, hvenue, htotal, hinstr]
    exact halone.whole

theorem SamePosted.refl (pool : OMSOrderPool) : SamePosted pool pool :=
  ⟨fun _ => id, fun _ _ => rfl, fun _ _ => rfl⟩

/-- A step that leaves its parent without children is seen by the other parents' children only. -/
theorem OMSOrderPool.Local.samePosted {idle : ℕ → Prop} (hloc : Local pid pool pool')
    (hinv : StoreInv idle pool) (hgone : ∀ c, pool'.ChildInUse c → (pool'.children c).parentId ≠ pid) :
    SamePosted pool pool' := by
  have hback (c : ℕ) (hc : pool'.ChildInUse c) : pool.ChildInUse c ∧ (pool.children c).parentId ≠ pid :=
    hloc.origin c hc (hgone c hc)
  refine ⟨fun c hc => (hback c hc).1, fun c hc => ?_, fun c hc => ?_⟩
  · obtain ⟨huse, hne⟩ := hback c hc
    rw [(hloc.keep c huse hne).2]
  · obtain ⟨huse, hne⟩ := hback c hc
    rw [hloc.record _ hne ((hinv.ok _).owner c huse rfl).1]

theorem OMSOrderPool.SameRecords.samePosted {idle : ℕ → Prop} (h : SameRecords pool pool')
    (hinv : StoreInv idle pool) : SamePosted pool pool' := by
  have huse (c : ℕ) : pool'.ChildInUse c ↔ pool.ChildInUse c := childInUse_of_childFree h.childFree c
  refine ⟨fun c hc => (huse c).mp hc, fun c hc => ?_, fun c hc => ?_⟩
  · rw [h.children c ((huse c).mp hc)]
  · rw [h.parents _ ((hinv.ok _).owner c ((huse c).mp hc) rfl).1]

theorem modifyParent_samePosted (f : ParentOrder → ParentOrder)
    (hf : (f (pool.parents pid)).posting = (pool.parents pid).posting) :
    SamePosted pool (pool.modifyParent pid f) := by
  refine ⟨fun _ => id, fun _ _ => rfl, fun c _ => ?_⟩
  rw [modifyParent_parents]
  by_cases hq : (pool.children c).parentId = pid
  · rw [hq, Function.update_self, hf]
  · rw [Function.update_of_ne hq]

theorem modifyChild_samePosted {cid : ℕ} (f : ChildOrderState → ChildOrderState)
    (hf : (f (pool.children cid)).ticket = (pool.children cid).ticket) :
    SamePosted pool (pool.modifyChild cid f) := by
  refine ⟨fun _ => id, fun c _ => ?_, fun _ _ => rfl⟩
  rw [modifyChild_children]
  by_cases hc : c = cid
  · rw [hc, Function.update_self, hf]
  · rw [Function.update_of_ne hc]

theorem SamePosted.trans {pool'' : OMSOrderPool} (h : SamePosted pool pool') (h' : SamePosted pool' pool'') :
    SamePosted pool pool'' := by
  refine ⟨fun c hc => h.inUse c (h'.inUse c hc), fun c hc => ?_, fun c hc => ?_⟩
  · rw [h'.child c hc, h.child c (h'.inUse c hc)]
  · have hid : (pool'.children c).parentId = (pool.children c).parentId :=
      congrArg Prod.fst (h.child c (h'.inUse c hc))
    have hlast := h'.parent c hc
    rw [hid] at hlast
    rw [hlast, h.parent c (h'.inUse c hc)]

end Same

section Phases
variable {cfg : ExecCoreConfig} {w : World} {r : ℕ → ℕ → ℕ} {s0 s : Core} {pid : ℕ}

/-- Order `co` for all of the new parent `pid`, which has no child yet. -/
structure Posting (w : World) (r : ℕ → ℕ → ℕ) (s0 : Core) (pid : ℕ) (s : Core) (co : ChildOrder) : Prop where
  new : ¬ s0.pool.ParentInUse pid
  opened : (s.pool.parents pid).orderType = .maker
  empty : (s.pool.parents pid).childIds = []
  whole : toLots co.qty (w.states co.exchangeId).book.lotSize =
    (s.pool.parents pid).totalQtyLots / r co.exchangeId (s.pool.parents pid).instrId

/-- What is still to be sent for parent `pid`: nothing, or takers while nothing is posted, or one
order for all of it. -/
inductive Sending (w : World) (r : ℕ → ℕ → ℕ) (s0 : Core) (pid : ℕ) (s : Core) : List ChildOrder → Prop
  | done : Sending w r s0 pid s []
  | sweep {rest : List ChildOrder} (hnone : ∀ c, s.pool.Posted c → s.parentOf c ≠ pid)
      (htype : ∀ co ∈ rest, co.type = .taker) : Sending w r s0 pid s rest
  | post {co : ChildOrder} (h : Posting w r s0 pid s co) : Sending w r s0 pid s [co]

/-- Posting, phase by phase, in a call that began in `s0`. -/
structure PostingAt (w : World) (r : ℕ → ℕ → ℕ) (s0 : Core) (a : Phase × Core) : Prop where
  alone : ∀ c, a.2.pool.Posted c → PostedAlone r a.2.pool c
  kept : NoRepost s0 a.2
  sends : ∀ pid ctx rest, a.1 = .sending pid ctx rest → Sending w r s0 pid a.2 rest

theorem PostingAt.of_same {a : Phase × Core} {b : Phase × Core} (ha : PostingAt w r s0 a)
    (hsame : SamePosted a.2.pool b.2.pool)
    (hsends : ∀ pid ctx rest, b.1 = .sending pid ctx rest → Sending w r s0 pid b.2 rest) :
    PostingAt w r s0 b := by
  refine ⟨fun c hc => hsame.alone hc (ha.alone c (hsame.posted hc)), fun c hc huse => ?_, hsends⟩
  have hid : b.2.parentOf c = a.2.parentOf c := hsame.parentId hc
  rw [hid] at huse ⊢
  exact ha.kept c (hsame.posted hc) huse

theorem Sending.of_same {s' : Core} {rest : List ChildOrder} (h : Sending w r s0 pid s rest)
    (hsame : SamePosted s.pool s'.pool)
    (hrec : (s'.pool.parents pid).posting = (s.pool.parents pid).posting) : Sending w r s0 pid s' rest := by
  cases h with
  | done => exact .done
  | sweep hnone htype =>
    refine .sweep (fun c hc => ?_) htype
    have hid : s'.parentOf c = s.parentOf c := hsame.parentId hc
    rw [hid]
    exact hnone c (hsame.posted hc)
  | post h =>
    simp only [ParentOrder.posting, Prod.mk.injEq] at hrec
    obtain ⟨htype, hids, htotal, hinstr⟩ := hrec
    exact .post ⟨h.new, htype.trans h.opened, hids.trans h.empty, by rw [htotal, hinstr]; exact h.whole⟩

theorem not_owned_of_empty {idle : ℕ → Prop} (hinv : StoreInv idle s.pool)
    (h0 : (s.pool.parents pid).childIds = []) : ∀ c, s.pool.ChildInUse c → s.parentOf c ≠ pid := by
  rintro c hc rfl
  have hmem := hinv.mem_childIds hc
  rw [h0] at hmem
  cases hmem

section Send
variable {cid : ℕ} {ctx : RoutingContext} {co : ChildOrder} {rest : List ChildOrder} {free : List ℕ}

/-- Only a posting sends a maker order. -/
theorem Sending.posting (h : Sending w r s0 pid s (co :: rest)) (hmaker : co.type = .maker) :
    Posting w r s0 pid s co := by
  cases h with
  | sweep hnone htype =>
    have htaker := htype co List.mem_cons_self
    rw [hmaker] at htaker
    cases htaker
  | post h => exact h

theorem Sending.others {idle : ℕ → Prop} (h : Sending w r s0 pid s (co :: rest))
    (hinv : StoreInv idle s.pool) : ∀ c, s.pool.Posted c → s.parentOf c ≠ pid := by
  cases h with
  | sweep hnone htype => exact hnone
  | post h => exact fun c hc => not_owned_of_empty hinv h.empty c hc.1

theorem sendChild_self : (sendChild cfg w pid ctx cid free co s).pool.children cid =
    newChild w (s.pool.parents pid).parentId ctx cid co := Function.update_self _ _ _

theorem sendChild_type (hc : (sendChild cfg w pid ctx cid free co s).pool.Posted cid) : co.type = .maker := by
  rw [← hc.2, sendChild_self]
  rfl

theorem sendChild_old (hfree : s.pool.childFree = cid :: free) {c : ℕ} (hne : c ≠ cid)
    (hc : (sendChild cfg w pid ctx cid free co s).pool.Posted c) : s.pool.Posted c ∧
    (sendChild cfg w pid ctx cid free co s).pool.children c = s.pool.children c := by
  have hrec : (sendChild cfg w pid ctx cid free co s).pool.children c = s.pool.children c :=
    Function.update_of_ne hne _ _
  have huse : s.pool.ChildInUse c := by
    refine ⟨hc.1.1, fun hmem => ?_⟩
    rw [hfree] at hmem
    rcases List.mem_cons.mp hmem with h | h
    · exact hne h
    · exact hc.1.2 h
  exact ⟨⟨huse, by rw [← hrec]; exact hc.2⟩, hrec⟩

variable (hroom : (s.pool.parents pid).childCount < ParentOrder.kMaxChildrenPerParent)
  (hfree : s.pool.childFree = cid :: free) (hst : StoreAt (.sending pid ctx (co :: rest), s))
  (ha : PostingAt w r s0 (.sending pid ctx (co :: rest), s))
include hfree hst ha

theorem sendChild_noRepost : NoRepost s0 (sendChild cfg w pid ctx cid free co s) := by
  intro c hc huse
  by_cases hcid : c = cid
  · subst hcid
    have hown : (sendChild cfg w pid ctx c free co s).parentOf c = pid := by
      rw [Core.parentOf, sendChild_self]
      exact (hst.2.ok pid).parentId hst.1
    have hnew := ((ha.sends pid ctx (co :: rest) rfl).posting (sendChild_type hc)).new
    rw [hown] at huse
    exact absurd huse hnew
  · obtain ⟨hold, hrec⟩ := sendChild_old hfree hcid hc
    have hown : (sendChild cfg w pid ctx cid free co s).parentOf c = s.parentOf c := by
      rw [Core.parentOf, hrec]
      rfl
    rw [hown] at huse ⊢
    exact ha.kept c hold huse

theorem sendChild_sending : Sending w r s0 pid (sendChild cfg w pid ctx cid free co s) rest := by
  cases ha.sends pid ctx (co :: rest) rfl with
  | post => exact .done
  | sweep hnone htype =>
    refine .sweep (fun c hc => ?_) fun co' hco' => htype co' (List.mem_cons_of_mem co hco')
    have hcid : c ≠ cid := by
      rintro rfl
      have htaker := htype co List.mem_cons_self
      rw [sendChild_type hc] at htaker
      cases htaker
    obtain ⟨hold, hrec⟩ := sendChild_old hfree hcid hc
    rw [Core.parentOf, hrec]
    exact hnone c hold

include hroom

theorem sendChild_alone {c : ℕ} (hc : (sendChild cfg w pid ctx cid free co s).pool.Posted c) :
    PostedAlone r (sendChild cfg w pid ctx cid free co s).pool c := by
  have hsend := ha.sends pid ctx (co :: rest) rfl
  by_cases hcid : c = cid
  · subst hcid
    have hpost := hsend.posting (sendChild_type hc)
    have hown : (newChild w (s.pool.parents pid).parentId ctx c co).parentId = pid :=
      (hst.2.ok pid).parentId hst.1
    have hparent : (sendChild cfg w pid ctx c free co s).pool.parents pid =
        (s.pool.parents pid).addChild (s.pool.parents pid).childCount c := Function.update_self _ _ _
    refine ⟨?_, ?_, ?_⟩
    · rw [sendChild_self, hown, hparent]
      exact hpost.opened
    · rw [sendChild_self, hown, hparent,
        ParentOrder.addChild_childIds ((hst.2.ok pid).packed hst.1) hroom, hpost.empty]
      rfl
    · rw [sendChild_self, hown, hparent]
      exact hpost.whole
  · obtain ⟨hold, hrec⟩ := sendChild_old hfree hcid hc
    have halone := ha.alone c hold
    have hne : (s.pool.children c).parentId ≠ pid := hsend.others hst.2 c hold
    have hsame : (sendChild cfg w pid ctx cid free co s).pool.parents (s.pool.children c).parentId =
        s.pool.parents (s.pool.children c).parentId := Function.update_of_ne hne _ _
    refine ⟨?_, ?_, ?_⟩
    · rw [hrec, hsame]
      exact halone.opened
    · rw [hrec, hsame]
      exact halone.sole
    · rw [hrec, hsame]
      exact halone.whole

theorem sendChild_posting :
    PostingAt w r s0 (.sending pid ctx rest, sendChild cfg w pid ctx cid free co s) := by
  refine ⟨fun c hc => sendChild_alone hroom hfree hst ha hc, sendChild_noRepost hfree hst ha, ?_⟩
  rintro pid' ctx' rest' ⟨⟩
  exact sendChild_sending hfree hst ha

end Send

theorem setParentState_samePosted (st : OrderState) : SamePosted s.pool (s.setParentState pid st).pool :=
  modifyParent_samePosted (fun p => { p with state := st }) rfl

theorem retire_samePosted {idle : ℕ → Prop} (hinv : StoreInv idle s.pool) (hu : s.pool.ParentInUse pid)
    (rec : ParentOrder) : SamePosted s.pool (s.pool.retire pid rec) :=
  (retire_local hinv hu rec).samePosted hinv fun c hc => ((released_iff hinv hu rfl c).mp hc).2

/-- A reroute begins without children. -/
theorem trimmed_samePosted (hst : StoreAt (.booked pid, s))
    (h : Micro cfg w (.booked pid, s) (.trimmed pid (trimmedContext cfg w pid s), trimmed pid s)) :
    SamePosted s.pool (trimmed pid s).pool := by
  obtain ⟨huse, hinv, hcount⟩ := micro_store h hst
  have hlocal : Local pid s.pool (trimmed pid s).pool := micro_local h hst
  exact hlocal.samePosted hst.2 (not_owned_of_empty hinv (childIds_nil hinv huse hcount))

theorem micro_posting (hreal : ∃ eng : RoutingEngine, w.router = eng.router) {a b : Phase × Core}
    (h : Micro cfg w a b) (hst : StoreAt a) (ha : PostingAt w r s0 a) : PostingAt w r s0 b := by
  have hmicro := h
  cases h with
  | @mark pid s => exact ha.of_same (setParentState_samePosted _) nofun
  | @close pid s hleft =>
    obtain ⟨st, hpool⟩ := closeFilled_retire hst.2 hst.1
    refine ha.of_same ?_ nofun
    rw [hpool]
    exact retire_samePosted hst.2 hst.1 _
  | keep => exact ha.of_same (.refl _) nofun
  | trim => exact ha.of_same (trimmed_samePosted hst hmicro) nofun
  | @reduced pid ctx s hflag hleft =>
    obtain ⟨st, hpool⟩ := closeReduceOnlyDone_retire hst.2.1 hst.1 hst.2.2
    refine ha.of_same ?_ nofun
    rw [hpool]
    exact retire_samePosted hst.2.1 hst.1 _
  | @noLiquidity pid ctx s hnone =>
    obtain ⟨st, hpool⟩ := closeUnfilled_retire w .noLiquidity hst.2.1 hst.1 hst.2.2
    refine ha.of_same ?_ nofun
    rw [hpool]
    exact retire_samePosted hst.2.1 hst.1 _
  | @route pid ctx s hleft hsplit =>
    refine ha.of_same (setParentState_samePosted _) ?_
    rintro pid' ctx' rest' ⟨⟩
    -- the parent of a reroute has no child yet, and the real router only takes
    obtain ⟨eng, hreal⟩ := hreal
    refine .sweep (fun c hc => ?_) (hreal ▸ optimalSplit_type eng ctx)
    exact not_owned_of_empty hst.2.1 (childIds_nil hst.2.1 hst.1 hst.2.2) c hc.1
  | @send pid cid ctx co rest free s hroom hfree => exact sendChild_posting hroom hfree hst ha
  | @allocFailed pid ctx rest s hfree =>
    have hrecords := allocFailed_sameRecords hfree
    have hsame := hrecords.samePosted hst.2
    refine ha.of_same hsame ?_
    rintro pid' ctx' rest' ⟨⟩
    exact (ha.sends pid ctx rest rfl).of_same hsame (by rw [hrecords.parents _ hst.1])
  | @sent pid ctx rest s hcount =>
    refine ha.of_same ?_ nofun
    rw [releaseGap_pool]
    exact .refl _
  | @noneSent pid ctx rest s hcount =>
    obtain ⟨st, hpool⟩ := noneSent_retire (w := w) ctx rest hst.2 hst.1 hcount
    refine ha.of_same ?_ nofun
    rw [hpool]
    exact retire_samePosted hst.2 hst.1 _

end Phases

section Entries
variable {cfg : ExecCoreConfig} {w : World} {r : ℕ → ℕ → ℕ} {s : Core} {pid : ℕ}

theorem bookFill_samePosted (cid : ℕ) (rep : ExecutionReport) :
    SamePosted s.pool (bookFill cfg w cid pid rep s).pool := by
  rw [bookFill_pool]
  exact (modifyChild_samePosted _ rfl).trans (modifyParent_samePosted _ rfl)

theorem bookCancel_samePosted (cid : ℕ) (rep : ExecutionReport) :
    SamePosted s.pool (bookCancel cfg w cid pid rep s).pool := by
  rw [bookCancel_pool]
  exact (modifyChild_samePosted _ rfl).trans (modifyParent_samePosted _ rfl)

theorem acknowledge_samePosted (cid : ℕ) : SamePosted s.pool (acknowledge cid s).pool := by
  rw [acknowledge_pool]
  exact modifyChild_samePosted _ rfl

section Opened
variable {sig : StrategyOrderSignal} {free : List ℕ} (hfree : s.pool.parentFree = pid :: free)
include hfree

theorem not_inUse_of_head : ¬ s.pool.ParentInUse pid := by
  intro h
  apply h.2
  rw [hfree]
  exact List.mem_cons_self

theorem reserved_samePosted (hinv : StoreInv Quiet s.pool) :
    SamePosted s.pool (reserved w sig pid free s).pool := by
  refine ⟨fun _ => id, fun _ _ => rfl, fun c hc => ?_⟩
  have huse : s.pool.ParentInUse (s.parentOf c) := hinv.parentOf_inUse hc
  have hne : s.parentOf c ≠ pid := by
    intro heq
    rw [heq] at huse
    exact not_inUse_of_head hfree huse
  exact congrArg ParentOrder.posting (reserved_other w sig free hne)

/-- A maker signal posts all of its effective quantity. -/
theorem reserved_sending (hreal : ∃ eng : RoutingEngine, w.router = eng.router) (hinv : StoreInv Quiet s.pool)
    (hinstr : sig.instrId < kMaxInstruments) (hqty : 0 ≤ effectiveQty sig s.pos)
    (hscaled : w.Scaled cfg r sig.instrId)
    (hsplit : signalSplit w sig (admittedContext cfg w sig pid free s) ≠ []) :
    Sending w r s pid (reserved w sig pid free s)
      (signalSplit w sig (admittedContext cfg w sig pid free s)) := by
  obtain ⟨eng, hreal⟩ := hreal
  obtain ⟨huse, hstore⟩ := reserved_storeInv (w := w) hinv hfree hinstr
  have hempty := childIds_nil hstore huse reserved_childCount
  unfold signalSplit at hsplit ⊢
  cases htype : sig.orderType with
  | taker =>
    refine .sweep (fun c hc => ?_) ?_
    · exact not_owned_of_empty hstore hempty c hc.1
    · simp only [hreal]
      exact optimalSplit_type eng _
  | maker =>
    simp only [htype, hreal] at hsplit ⊢
    obtain ⟨co, hco, -, hwhole⟩ := makerPlacement_single hsplit
    rw [hco]
    have hroute : RouteFor cfg w pid (admittedContext cfg w sig pid free s) (admitted w sig pid free s) :=
      admittedContext_routeFor free
    have hrec := reserved_record w s sig pid free
    refine .post ⟨not_inUse_of_head hfree, by rw [hrec]; exact htype, hempty, ?_⟩
    have hunit : resolveReferenceLotSize (admittedContext cfg w sig pid free s) =
        cfg.instruments.lotSize sig.instrId := by
      rw [hroute.resolve]
      simp [admitted, openParent, ParentOrder.setQuantity, ParentOrder.copySignal]
    have htarget : (admittedContext cfg w sig pid free s).targetLots = effectiveQty sig s.pos := rfl
    rw [hwhole, hunit, htarget, hscaled.toLots co.exchangeId hqty, hrec]
    rfl

end Opened

theorem entered_posting (hreal : ∃ eng : RoutingEngine, w.router = eng.router) {c : Call} {a : Phase × Core}
    (h : Entered cfg w s c a) (hscaled : c.Scaled cfg r w s) (hinv : StoreInv Quiet s.pool)
    (halone : ∀ c, s.pool.Posted c → PostedAlone r s.pool c) : PostingAt w r s a := by
  have hstart : PostingAt w r s (.idle, s) := ⟨halone, fun c hc _ => ⟨hc, rfl⟩, nofun⟩
  cases h with
  | refused href => exact hstart.of_same (href.records.samePosted hinv) nofun
  | @admitted sig pid free hpos hfree hinstr hqty hsplit hflow =>
    refine hstart.of_same (reserved_samePosted hfree hinv) ?_
    rintro pid' ctx' rest' ⟨⟩
    have heff := effectiveQty_pos hpos hqty
    exact reserved_sending hfree hreal hinv hinstr (by omega) (hscaled hinstr) hsplit
  | filled => exact hstart.of_same (bookFill_samePosted _ _) nofun
  | ended => exact hstart.of_same (bookCancel_samePosted _ _) nofun
  | acknowledged => exact hstart.of_same (acknowledge_samePosted _) nofun
  | ignored => exact hstart
  | @expired slot idx e he hlive =>
    exact hstart.of_same (bookCancel_samePosted (s := s.setWheel (s.timerWheel.deactivate e)) _ _) nofun
  | unarmed => exact hstart

end Entries

section Runs
variable {cfg : ExecCoreConfig} {w : World} {r : ℕ → ℕ → ℕ} {s : Core}

/-- An admissible call answered by the real router. -/
def Event.Routed (cfg : ExecCoreConfig) (r : ℕ → ℕ → ℕ) : Event → Core → Prop
  | .call w c, s => c.Admissible cfg r w s ∧ ∃ eng : RoutingEngine, w.router = eng.router
  | .env _, _ => True

/-- What a call hands to the gateways: takers, or one order, and that for a maker signal. -/
def Flow.PostsOrSweeps (cfg : ExecCoreConfig) (w : World) (c : Call) : Flow → Prop
  | .finished _ => True
  | .dispatching s pid buf ctx =>
    (∀ o ∈ dispatchedOrders cfg w pid ctx 0 buf s, o.orderType = .taker) ∨
    (∃ sig, c = .signal sig ∧ sig.orderType = .maker) ∧
      (dispatchedOrders cfg w pid ctx 0 buf s).length ≤ 1

/-- A step that gives no parent a second posting, and posts for maker signals only. -/
def Event.PostsOnce (cfg : ExecCoreConfig) (e : Event) (s : Core) : Prop :=
  NoRepost s (step cfg e s) ∧
    match e with
    | .call w c => (c.flow cfg w s).PostsOrSweeps cfg w c
    | .env _ => True

theorem Event.Routed.admissible {e : Event} (h : e.Routed cfg r s) : e.Admissible cfg r s := by
  cases e with
  | call w c => exact h.1
  | env e => exact trivial

theorem dispatchedOrders_taker {pid : ℕ} {ctx : RoutingContext} {buf : List ChildOrder}
    (h : ∀ co ∈ buf, co.type = .taker) :
    ∀ o ∈ dispatchedOrders cfg w pid ctx 0 buf s, o.orderType = .taker := by
  intro o ho
  obtain ⟨co, hco, p, cid, rfl⟩ := mem_dispatchedOrders 0 buf s ho
  exact h co hco

theorem dispatchedOrders_length {pid : ℕ} {ctx : RoutingContext} (i : ℕ) (buf : List ChildOrder) (s : Core) :
    (dispatchedOrders cfg w pid ctx i buf s).length ≤ buf.length := by
  induction buf generalizing i s with
  | nil => exact le_rfl
  | cons co rest ih =>
    simp only [dispatchedOrders]
    split
    · exact Nat.zero_le _
    · split
      · exact Nat.zero_le _
      · exact Nat.succ_le_succ (ih _ _)

theorem flow_postsOrSweeps (hreal : ∃ eng : RoutingEngine, w.router = eng.router) (c : Call) :
    (c.flow cfg w s).PostsOrSweeps cfg w c := by
  obtain ⟨eng, hreal⟩ := hreal
  cases hflow : c.flow cfg w s with
  | finished s' => exact trivial
  | dispatching s1 pid buf ctx =>
    rcases Call.dispatch_cases hflow with ⟨sig, rfl, hfirst⟩ | ⟨-, hresend⟩
    · have hbuf := hfirst.split
      unfold signalSplit at hbuf
      cases htype : sig.orderType with
      | taker =>
        simp only [htype, hreal] at hbuf
        exact Or.inl (dispatchedOrders_taker (hbuf ▸ optimalSplit_type eng ctx))
      | maker =>
        simp only [htype, hreal] at hbuf
        refine Or.inr ⟨⟨sig, rfl, htype⟩, (dispatchedOrders_length 0 buf s1).trans ?_⟩
        by_cases hnone : eng.router.makerPlacement ctx = []
        · simp [hbuf, hnone]
        · obtain ⟨co, hco, -⟩ := makerPlacement_single hnone
          simp [hbuf, hco]
    · have hbuf := hresend.split
      rw [hreal] at hbuf
      exact Or.inl (dispatchedOrders_taker (hbuf ▸ optimalSplit_type eng ctx))

theorem call_posting {c : Call} (hadm : c.Admissible cfg r w s)
    (hreal : ∃ eng : RoutingEngine, w.router = eng.router) (hs : Healthy r s)
    (halone : ∀ c, s.pool.Posted c → PostedAlone r s.pool c) :
    PostingAt w r s (.idle, c.apply cfg w s) := by
  have hentry := hadm.entered hs
  have hend := call_invariant (fun a => StoreAt a ∧ PostingAt w r s a) c
    (fun a b hmicro ha => ⟨micro_store hmicro ha.1, micro_posting hreal hmicro ha.1 ha.2⟩)
    ⟨entered_store hentry hs.store, entered_posting hreal hentry hadm.scaled hs.store halone⟩
  exact hend.2

/-- The state between two calls: healthy, with every posted order alone. -/
def Posts (r : ℕ → ℕ → ℕ) (s : Core) : Prop :=
  Healthy r s ∧ ∀ c, s.pool.Posted c → PostedAlone r s.pool c

theorem step_posts {e : Event} (hs : Posts r s) (h : e.Routed cfg r s) : Posts r (step cfg e s) := by
  refine ⟨step_healthy hs.1 h.admissible, ?_⟩
  cases e with
  | call w c => exact (call_posting h.1 h.2 hs.1 hs.2).alone
  | env e =>
    have hpool : (e.apply s).pool = s.pool := (e.apply_sameBooks s).pool
    intro c hc
    simp only [step, hpool] at hc ⊢
    exact hs.2 c hc

theorem event_postsOnce {e : Event} (hs : Posts r s) (h : e.Routed cfg r s) : e.PostsOnce cfg s := by
  cases e with
  | call w c => exact ⟨(call_posting h.1 h.2 hs.1 hs.2).kept, flow_postsOrSweeps h.2 c⟩
  | env e =>
    have hpool : (e.apply s).pool = s.pool := (e.apply_sameBooks s).pool
    refine ⟨fun c hc _ => ?_, trivial⟩
    simp only [step, hpool] at hc
    exact ⟨hc, by simp only [Core.parentOf, step, hpool]⟩

theorem Fresh.posts (h : Fresh s) : Posts r s := by
  refine ⟨h.healthy, fun c hc => ?_⟩
  have huse := h.healthy (r := r).store.parentOf_inUse hc.1
  exact absurd huse (h.parentInUse _)

/-- Four lots are posted, canceled by their venue, and swept. -/
def Sample.sweptRun : List Event :=
  [.call (world 9) (.signal (makerSignal .buy 4)), .call (world 9) (.report (report 0 .canceled 0))]

end Runs

end OmsFormal.Oms
