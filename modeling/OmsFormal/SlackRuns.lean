import OmsFormal.SlackPhases

/-!
# The slack over whole runs

A report takes the same lots from the counter and from the market, so booking it
leaves the slack alone. What moves the slack is known when a call has booked its
own effect: lots that a first dispatch reserves and the router does not cover,
and lots that a reroute gives up or sends again without reserving them.
-/

namespace OmsFormal.Oms
open Sor Rounding OMSOrderPool GuardedRun
set_option autoImplicit false

variable {cfg : ExecCoreConfig} {w : World} {s : Core} {i : ℕ} {d : OrderDir}

section Entry

theorem report_exposure {idle : ℕ → Prop} {cid : ℕ} {f : ChildOrderState → ChildOrderState}
    {g : ParentOrder → ParentOrder} (hinv : StoreInv idle s.pool) (hc : s.pool.ChildInUse cid)
    (hparent : ∀ c, (f c).parentId = c.parentId) (hslots : ∀ p, ParentOrder.SameSlots p (g p))
    (hdir : ∀ p, (g p).dir = p.dir) :
    ((s.pool.modifyChild cid f).modifyParent (s.parentOf cid) g).exposure i d = s.pool.exposure i d -
      onSide (s.pool.parents (s.parentOf cid)).instrId (s.pool.parents (s.parentOf cid)).dir i d
        ((s.pool.children cid).openLots - (f (s.pool.children cid)).openLots) := by
  obtain ⟨hu, hmem⟩ := (hinv.ok (s.parentOf cid)).owner cid hc rfl
  have hu' : ((s.pool.modifyChild cid f).modifyParent (s.parentOf cid) g).ParentInUse (s.parentOf cid) := hu
  have hopen : ((s.pool.modifyChild cid f).modifyParent (s.parentOf cid) g).openLeaves (s.parentOf cid) =
      s.pool.openLeaves (s.parentOf cid) - (s.pool.children cid).openLots +
        (f (s.pool.children cid)).openLots :=
    report_childSum ChildOrderState.openLots (hslots _) ((hinv.ok _).nodup hu) hmem
  have hloc : Local (s.parentOf cid) s.pool ((s.pool.modifyChild cid f).modifyParent (s.parentOf cid) g) :=
    (modifyChild_local rfl (hparent _)).trans (modifyParent_local _ _ _)
  rw [exposure_local hloc hinv hu.1]
  simp only [share, onSide, hu, hu', true_and, hopen, modifyParent_parents, modifyChild_parents,
    Function.update_self, (hslots _).instrId, hdir]
  split <;> omega

/-- A fill takes its lots out of the market, whether the child is done with it or not. -/
theorem ChildOrderState.fill_openLots {c : ChildOrderState} {n : ℤ}
    (hleaves : c.leavesQtyLots = c.qtyLots - c.cumQtyLots) :
    (c.fill n).openLots = c.leavesQtyLots - n := by
  by_cases hdone : c.qtyLots - (c.cumQtyLots + n) = 0
  · rw [openLots_of_terminal]
    · omega
    · simp only [fill, hdone, if_true]
      rfl
  · rw [openLots_of_live]
    · change c.qtyLots - (c.cumQtyLots + n) = c.leavesQtyLots - n
      omega
    · simp only [fill, hdone, if_false]
      rfl

theorem bookFill_openLots {rep : ExecutionReport} {pid : ℕ}
    (hscaled : w.Scaled cfg canonical (s.pool.parents pid).instrId) :
    ((bookFill cfg w rep.childId pid rep s).pos.instruments i).openLots d =
      (s.pos.instruments i).openLots d -
        onSide (s.pool.parents pid).instrId (s.pool.parents pid).dir i d rep.fillQtyLots := by
  simp only [bookFill, hscaled.toCanonicalLots, canonical, Nat.cast_one, one_mul]
  refine take_openLots _ _ _ _ fun p => ?_
  rw [releaseOpen_openLots, applyFill_openLots]

theorem bookCancel_openLots {rep : ExecutionReport} {cid pid : ℕ}
    (hscaled : w.Scaled cfg canonical (s.pool.parents pid).instrId) :
    ((bookCancel cfg w cid pid rep s).pos.instruments i).openLots d =
      (s.pos.instruments i).openLots d - onSide (s.pool.parents pid).instrId (s.pool.parents pid).dir i d
        (s.pool.children cid).leavesQtyLots := by
  simp only [bookCancel, hscaled.toCanonicalLots, canonical, Nat.cast_one, one_mul]
  exact take_openLots _ _ _ _ (releaseOpen_openLots _ _)

theorem bookFill_slack {rep : ExecutionReport} (hs : Healthy canonical s)
    (hlive : s.pool.ChildLive rep.childId)
    (hscaled : w.Scaled cfg canonical (s.pool.parents (s.parentOf rep.childId)).instrId) :
    (bookFill cfg w rep.childId (s.parentOf rep.childId) rep s).slack i d = s.slack i d := by
  have hu := hs.store.parentOf_inUse hlive.1
  obtain ⟨hleaves, _⟩ := (hs.qty _ hu).child _ (hs.store.mem_childIds hlive.1)
    (hs.store.working_of_live hlive)
  have hexposure := report_exposure (i := i) (d := d) (f := ChildOrderState.fill rep.fillQtyLots)
    (g := ParentOrder.fill
      (toCanonicalLots cfg w (s.pool.children rep.childId)
        (s.pool.parents (s.parentOf rep.childId)).instrId rep.fillQtyLots)
      (rep.fillPriceTicks * (w.states (s.pool.children rep.childId).exchangeId).book.tickSize)
      (cfg.instruments.lotSize (s.pool.parents (s.parentOf rep.childId)).instrId) rep.recvNs)
    hs.store hlive.1 (fun _ => rfl) (fun _ => ⟨rfl, rfl, rfl, rfl, rfl⟩) fun _ => rfl
  rw [ChildOrderState.openLots_of_live hlive.2, ChildOrderState.fill_openLots hleaves,
    sub_sub_cancel] at hexposure
  rw [Core.slack, Core.slack, bookFill_openLots hscaled, bookFill_pool, hexposure]
  omega

theorem bookCancel_slack {cid : ℕ} (rep : ExecutionReport) (hinv : StoreInv Quiet s.pool)
    (hlive : s.pool.ChildLive cid)
    (hscaled : w.Scaled cfg canonical (s.pool.parents (s.parentOf cid)).instrId) :
    (bookCancel cfg w cid (s.parentOf cid) rep s).slack i d = s.slack i d := by
  have hafter : ((s.pool.children cid).cancel rep.execType).openLots = 0 := by
    apply ChildOrderState.openLots_of_terminal
    simp only [ChildOrderState.cancel]
    split <;> rfl
  have hexposure := report_exposure (i := i) (d := d) (f := ChildOrderState.cancel rep.execType)
    (g := fun p => { p with lastUpdateNs := rep.recvNs }) hinv hlive.1 (fun _ => rfl)
    (fun _ => ⟨rfl, rfl, rfl, rfl, rfl⟩) fun _ => rfl
  rw [ChildOrderState.openLots_of_live hlive.2, hafter, sub_zero] at hexposure
  rw [Core.slack, Core.slack, bookCancel_openLots hscaled, bookCancel_pool, hexposure]
  omega

theorem acknowledge_slack {cid : ℕ} (hinv : StoreInv Quiet s.pool) (hlive : s.pool.ChildLive cid) :
    (acknowledge cid s).slack i d = s.slack i d := by
  have hpool : (acknowledge cid s).pool =
      (s.pool.modifyChild cid fun c => { c with state := .pendingNew }).modifyParent (s.parentOf cid) id := by
    simp [acknowledge, modifyParent, modifyChild]
  have hsame : ({ s.pool.children cid with state := .pendingNew } : ChildOrderState).openLots =
      (s.pool.children cid).openLots := by
    rw [ChildOrderState.openLots_of_live hlive.2, ChildOrderState.openLots_of_live rfl]
  have hexposure := report_exposure (i := i) (d := d) (f := fun c => { c with state := .pendingNew })
    (g := id) hinv hlive.1 (fun _ => rfl) (fun _ => ⟨rfl, rfl, rfl, rfl, rfl⟩) fun _ => rfl
  rw [hsame, sub_self, onSide_zero, sub_zero] at hexposure
  rw [Core.slack, Core.slack, hpool, hexposure]
  rfl

/-- An accepted signal starts with its whole quantity reserved and nothing in the market. -/
theorem reserved_slack {sig : StrategyOrderSignal} {pid : ℕ} {free : List ℕ} (hinv : StoreInv Quiet s.pool)
    (hfree : s.pool.parentFree = pid :: free) (hinstr : sig.instrId < kMaxInstruments) :
    (reserved w sig pid free s).slack i d =
      s.slack i d + onSide sig.instrId sig.dir i d (effectiveQty sig s.pos) := by
  obtain ⟨hu, hstore⟩ := reserved_storeInv (w := w) hinv hfree hinstr
  have hids := childIds_nil hstore hu reserved_childCount
  have hloc : Local pid s.pool (reserved w sig pid free s).pool :=
    (open_local hinv hfree).trans (setParentState_local (s := admitted w sig pid free s) _)
  have hexposure : (reserved w sig pid free s).pool.exposure i d = s.pool.exposure i d := by
    refine exposure_of_share hloc hinv hu.1 ?_
    rw [share_of_openLeaves (openLeaves_of_childIds_nil hids), share_of_not_inUse (open_fresh hfree)]
  have hopen : ((reserved w sig pid free s).pos.instruments i).openLots d =
      (s.pos.instruments i).openLots d + onSide sig.instrId sig.dir i d (effectiveQty sig s.pos) :=
    reserve_openLots _ _ _ _
  rw [Core.slack, Core.slack, hexposure, hopen]
  omega

end Entry

section Call

/-- Lots by which a call moves the slack of its parent's side, read off where it has booked its
own effect: reserved and not covered by the router, or owed by a reroute. -/
def driftLots (cfg : ExecCoreConfig) (w : World) : Phase × Core → ℤ
  | (.sending pid ctx buf, s) => (s.pool.parents pid).leavesQtyLots - pendingLots ctx buf
  | a => -owedLots cfg w a

def drift (cfg : ExecCoreConfig) (w : World) (a : Phase × Core) (i : ℕ) (d : OrderDir) : ℤ :=
  onSide (a.2.pool.parents a.1.pid).instrId (a.2.pool.parents a.1.pid).dir i d (driftLots cfg w a)

theorem finalSlack_of_booked {pid : ℕ} {s' : Core} (h : s'.slack i d = s.slack i d) :
    finalSlack cfg w (.booked pid, s') i d = s.slack i d + drift cfg w (.booked pid, s') i d := by
  simp only [finalSlack, drift, driftLots, onSide_neg, h]
  omega

theorem finalSlack_of_idle {s' : Core} (h : s'.slack i d = s.slack i d) :
    finalSlack cfg w (.idle, s') i d = s.slack i d + drift cfg w (.idle, s') i d := by
  simp [drift, driftLots, owedLots, h]

theorem entered_finalSlack {c : Call} {a : Phase × Core} (h : Entered cfg w s c a)
    (hscaled : c.Scaled cfg canonical w s) (hs : Healthy canonical s) :
    finalSlack cfg w a i d = s.slack i d + drift cfg w a i d := by
  cases h with
  | refused href =>
    apply finalSlack_of_idle
    rw [Core.slack, exposure_of_sameRecords href.records hs.store, href.pos]
    rfl
  | @admitted sig pid free hpos hfree hinstr =>
    have hrec := reserved_record w s sig pid free
    simp only [finalSlack, drift, driftLots, owedLots, Phase.pid, reserved_slack hs.store hfree hinstr, hrec]
    simp only [ParentOrder.setQuantity, ParentOrder.copySignal, sub_eq_add_neg, onSide_add, onSide_neg]
    omega
  | filled hlive =>
    exact finalSlack_of_booked (bookFill_slack hs hlive (hscaled _ (hs.store.parentOf_inUse hlive.1)))
  | ended hlive =>
    exact finalSlack_of_booked
      (bookCancel_slack _ hs.store hlive (hscaled _ (hs.store.parentOf_inUse hlive.1)))
  | acknowledged hlive => exact finalSlack_of_idle (acknowledge_slack hs.store hlive)
  | ignored => exact finalSlack_of_idle rfl
  | @expired slot idx e he hlive =>
    exact finalSlack_of_booked (bookCancel_slack (s := s.setWheel (s.timerWheel.deactivate e)) _ hs.store
      hlive (hscaled _ (hs.store.parentOf_inUse hlive.1)))
  | unarmed => exact finalSlack_of_idle rfl

/-- A call moves the slack by exactly the drift of its entry. -/
theorem call_slack {c : Call} (h : c.Admissible cfg canonical w s) (hs : Healthy canonical s) :
    (c.apply cfg w s).slack i d = s.slack i d + drift cfg w (c.entry cfg w s) i d := by
  have hentered := h.entered hs
  have hend := call_invariant
    (fun a => HealthyAt cfg w canonical a ∧
      finalSlack cfg w a i d = finalSlack cfg w (c.entry cfg w s) i d) c
    (fun a b hm ha => ⟨micro_healthy h.sound hm ha.1, (micro_finalSlack hm ha.1).trans ha.2⟩)
    ⟨entered_healthy h.sound hentered h.scaled hs, rfl⟩
  have hlast : (c.apply cfg w s).slack i d = finalSlack cfg w (c.entry cfg w s) i d := by
    rw [← hend.2, finalSlack_idle]
  rw [hlast, entered_finalSlack hentered h.scaled hs]

end Call

end OmsFormal.Oms
