import OmsFormal.PositionLimits
import OmsFormal.Reconciliation

/-!
# Clearances

The notional gate and the risk engine look at a signal once, before its parent is opened. The
parent lives on through fills, cancels and reroutes that are not checked again. Its total never
grows, though, and what its children have in the market is covered by it, so what was
cleared binds the parent for as long as it lives. The clearance is ghost state: the core keeps
neither the signal nor the operator's answer.
-/

namespace OmsFormal.Oms
open Sor Rounding OMSOrderPool GuardedRun
set_option autoImplicit false

/-- What a parent was cleared for: a signal, the operator's answer and the effective lots. -/
structure Clearance where
  sig : StrategyOrderSignal
  reply : Option (List Char)
  lots : ℤ

/-- What `n` lots of a signal's instrument cost at its limit. -/
def StrategyOrderSignal.notionalUsd (cfg : ExecCoreConfig) (sig : StrategyOrderSignal) (n : ℤ) : ℚ :=
  n * cfg.instruments.lotSize sig.instrId * sig.limitPriceUsd

/-- The cleared lots are within every limit that is set, and beyond the threshold of the gate the
operator has confirmed them. -/
structure Clearance.Passed (cfg : ExecCoreConfig) (g : Clearance) : Prop where
  asked : 1 ≤ g.lots ∧ g.lots ≤ g.sig.qtyLots
  order : 0 < cfg.riskLimits.maxOrderLots g.sig.instrId →
    g.lots ≤ cfg.riskLimits.maxOrderLots g.sig.instrId
  notional : 0 < g.sig.limitPriceUsd → 0 < cfg.riskLimits.maxNotionalUsd →
    g.sig.notionalUsd cfg g.lots ≤ cfg.riskLimits.maxNotionalUsd
  block : 0 < g.sig.limitPriceUsd → 0 < cfg.notionalGate.hardBlockUsd →
    g.sig.notionalUsd cfg g.lots ≤ cfg.notionalGate.hardBlockUsd
  confirmed : 0 < g.sig.limitPriceUsd → cfg.notionalGate.autoApproveUsd < g.sig.notionalUsd cfg g.lots →
    promptConfirmation g.reply = true

/-- A core together with the clearance of each parent. -/
structure Cleared where
  core : Core
  clearances : ℕ → Option Clearance

def Cleared.start (s : Core) : Cleared := ⟨s, fun _ => none⟩

/-- A signal that is dispatched leaves its clearance with its parent. -/
def Cleared.step (cfg : ExecCoreConfig) (e : Event) (x : Cleared) : Cleared :=
  match e with
  | .call w (.signal sig) =>
    match signalFlow cfg w sig x.core with
    | .dispatching _ pid _ _ =>
      ⟨onStrategyOrder cfg w sig x.core,
        Function.update x.clearances pid (some ⟨sig, w.reply, effectiveQty sig x.core.pos⟩)⟩
    | .finished s' => ⟨s', x.clearances⟩
  | e => ⟨Oms.step cfg e x.core, x.clearances⟩

/-- Parent `p` trades what it was cleared for, and no more: what it has filled and what its
children have in the market stay within the cleared lots. -/
structure Clearance.Covers (r : ℕ → ℕ → ℕ) (g : Clearance) (pool : OMSOrderPool) (p : ℕ) : Prop where
  instrId : (pool.parents p).instrId = g.sig.instrId
  dir : (pool.parents p).dir = g.sig.dir
  lots : (pool.parents p).cumQtyLots + pool.committed r p ≤ g.lots

/-- An order that waits for its venue is within the order limit of its instrument. -/
def OutboundOrder.WithinLimit (cfg : ExecCoreConfig) (r : ℕ → ℕ → ℕ) (ex : ℕ) (o : OutboundOrder) : Prop :=
  0 < cfg.riskLimits.maxOrderLots o.instrId →
    r ex o.instrId * o.qtyLots ≤ cfg.riskLimits.maxOrderLots o.instrId

section Checks
variable {cfg : ExecCoreConfig} {w : World} {sig : StrategyOrderSignal} {s s' : Core}

theorem approve_of_dispatching {pid : ℕ} {buf : List ChildOrder} {ctx : RoutingContext}
    (h : signalFlow cfg w sig s = .dispatching s' pid buf ctx) :
    approve cfg.notionalGate cfg.instruments w.reply sig = true := by
  by_contra hblocked
  rw [Bool.not_eq_true] at hblocked
  rw [signalFlow, if_pos hblocked] at h
  cases h

theorem validate_limits {limits : RiskLimits} {instruments : InstrumentTable} {pos : PositionTable}
    (h : validate limits instruments pos sig = .ok) :
    (0 < limits.maxOrderLots sig.instrId → sig.qtyLots ≤ limits.maxOrderLots sig.instrId) ∧
    (0 < sig.limitPriceUsd → 0 < limits.maxNotionalUsd →
      sig.qtyLots * instruments.lotSize sig.instrId * sig.limitPriceUsd ≤ limits.maxNotionalUsd) := by
  unfold validate at h
  split at h
  · cases h
  · split at h
    · cases h
    · rename_i hfinger
      split at h
      · cases h
      · refine ⟨fun hmax => ?_, fun hlimit hmax => ?_⟩
        · by_contra hbig
          apply hfinger
          rw [checkFatFinger]
          simp only [if_pos (And.intro hmax (not_le.mp hbig))]
          exact RiskRejectReason.noConfusion
        · by_contra hbig
          rw [checkMargin] at h
          simp only [if_pos (And.intro hmax (And.intro hlimit (not_le.mp hbig)))] at h
          cases h

theorem notionalUsd_mono (cfg : ExecCoreConfig) (hlimit : 0 < sig.limitPriceUsd) {m n : ℤ} (h : m ≤ n) :
    sig.notionalUsd cfg m ≤ sig.notionalUsd cfg n := by
  have hlot := cfg.instruments.lotSize_pos sig.instrId
  unfold StrategyOrderSignal.notionalUsd
  have hcast : (m : ℚ) ≤ n := by exact_mod_cast h
  exact mul_le_mul_of_nonneg_right (mul_le_mul_of_nonneg_right hcast hlot.le) hlimit.le

theorem approve_limits (hlimit : 0 < sig.limitPriceUsd)
    (h : approve cfg.notionalGate cfg.instruments w.reply sig = true) :
    (0 < cfg.notionalGate.hardBlockUsd → sig.notionalUsd cfg sig.qtyLots ≤ cfg.notionalGate.hardBlockUsd) ∧
    (cfg.notionalGate.autoApproveUsd < sig.notionalUsd cfg sig.qtyLots →
      promptConfirmation w.reply = true) := by
  unfold approve at h
  rw [if_neg (not_le.mpr hlimit)] at h
  simp only at h
  split at h
  · cases h
  · rename_i hblock
    refine ⟨fun hset => ?_, fun hbig => ?_⟩
    · by_contra hover
      exact hblock ⟨hset, not_le.mp hover⟩
    · rw [StrategyOrderSignal.notionalUsd] at hbig
      rw [if_neg (not_le.mpr hbig)] at h
      exact h

/-- A signal that is dispatched has passed every check with its effective lots. -/
theorem dispatched_passed {pid : ℕ} {buf : List ChildOrder} {ctx : RoutingContext}
    (h : signalFlow cfg w sig s = .dispatching s' pid buf ctx) (hpos : 1 ≤ sig.qtyLots)
    (hqty : effectiveQty sig s.pos ≠ 0) :
    (⟨sig, w.reply, effectiveQty sig s.pos⟩ : Clearance).Passed cfg := by
  have hone := effectiveQty_pos hpos hqty
  have hle : effectiveQty sig s.pos ≤ sig.qtyLots := clampReduceOnly_le hqty
  have hrisk := validate_limits (validate_of_dispatching h)
  have hgate := approve_of_dispatching h
  refine ⟨⟨hone, hle⟩, hrisk.1, hrisk.2, fun hlimit hset => ?_, fun hlimit hbig => ?_⟩
  · exact (notionalUsd_mono cfg hlimit hle).trans ((approve_limits hlimit hgate).1 hset)
  · exact (approve_limits hlimit hgate).2 (hbig.trans_le (notionalUsd_mono cfg hlimit hle))

end Checks

section Dwindling
variable {cfg : ExecCoreConfig} {w : World} {r : ℕ → ℕ → ℕ} {s s' s'' : Core} {c : Call} {a b : Phase × Core}

/-- Parent `p` was in use before, for the same trade and for no fewer lots. -/
structure Dwindled (p : ℕ) (s s' : Core) : Prop where
  inUse : s.pool.ParentInUse p
  instrId : (s'.pool.parents p).instrId = (s.pool.parents p).instrId
  dir : (s'.pool.parents p).dir = (s.pool.parents p).dir
  total : (s'.pool.parents p).totalQtyLots ≤ (s.pool.parents p).totalQtyLots

theorem Dwindled.trans {p : ℕ} (h : Dwindled p s s') (h' : Dwindled p s' s'') : Dwindled p s s'' :=
  ⟨h.inUse, h'.instrId.trans h.instrId, h'.dir.trans h.dir, h'.total.trans h.total⟩

theorem Dwindled.of_record {p : ℕ} (huse : s.pool.ParentInUse p)
    (h : s'.pool.parents p = s.pool.parents p) : Dwindled p s s' :=
  ⟨huse, by rw [h], by rw [h], by rw [h]⟩

theorem micro_dwindled (h : Micro cfg w a b) (ha : HealthyAt cfg w r a) (hb : HealthyAt cfg w r b) {p : ℕ}
    (hu : b.2.pool.ParentInUse p) : Dwindled p a.2 b.2 := by
  by_cases hp : p = a.1.pid
  · subst hp
    obtain ⟨hu', hshrunk⟩ := micro_shrunk h ha.store hu
    have htotal := (ha.qty.1 _ hu').total
    have htotal' := (hb.qty.1 _ hu).total
    have hcum := hshrunk.deal.cumQtyLots
    have hleaves := hshrunk.leaves
    exact ⟨hu', hshrunk.deal.instrId, hshrunk.deal.dir, by omega⟩
  · have hloc := micro_local h ha.store
    have hu' := (hloc.inUse p hp).mp hu
    exact .of_record hu' (hloc.record p hp hu')

theorem steps_dwindled (hsound : w.router.Sound) (h : Steps cfg w a b) (ha : HealthyAt cfg w r a) {p : ℕ}
    (hu : b.2.pool.ParentInUse p) : Dwindled p a.2 b.2 := by
  have hend := h.invariant (J := fun b => HealthyAt cfg w r b ∧ ∀ p, b.2.pool.ParentInUse p →
    Dwindled p a.2 b.2) (fun b c hmicro hb => ?_) ⟨ha, fun p hp => .of_record hp rfl⟩
  · exact hend.2 p hu
  · have hc := micro_healthy hsound hmicro hb.1
    refine ⟨hc, fun p hp => ?_⟩
    have hlast := micro_dwindled hmicro hb.1 hc hp
    exact (hb.2 p hlast.inUse).trans hlast

/-- A booking leaves every parent as it was, up to its fills. -/
theorem entered_dwindled (h : Entered cfg w s c a) {p : ℕ} (hu : a.2.pool.ParentInUse p)
    (hold : s.pool.ParentInUse p) : Dwindled p s a.2 := by
  have hbooked {s' : Core} {q : ℕ} (f : ParentOrder → ParentOrder) (hinstr : ∀ x, (f x).instrId = x.instrId)
      (hdir : ∀ x, (f x).dir = x.dir) (htotal : ∀ x, (f x).totalQtyLots = x.totalQtyLots)
      (hpool : s'.pool.parents = Function.update s.pool.parents q (f (s.pool.parents q))) :
      Dwindled p s s' := by
    by_cases hq : p = q
    · subst hq
      have hrec : s'.pool.parents p = f (s.pool.parents p) := by rw [hpool, Function.update_self]
      exact ⟨hold, by rw [hrec, hinstr], by rw [hrec, hdir], by rw [hrec, htotal]⟩
    · exact .of_record hold (by rw [hpool, Function.update_of_ne hq])
  cases h with
  | refused href => exact .of_record hold (href.records.parents p hold)
  | @admitted sig pid free hpos hfree hinstr hqty hsplit hflow =>
    refine .of_record hold (reserved_other w sig free ?_)
    rintro rfl
    exact open_fresh hfree hold
  | @filled rep hlive =>
    exact hbooked (ParentOrder.fill (toCanonicalLots cfg w (s.pool.children rep.childId)
      (s.pool.parents (s.parentOf rep.childId)).instrId rep.fillQtyLots) (rep.fillPriceTicks *
      (w.states (s.pool.children rep.childId).exchangeId).book.tickSize)
      (cfg.instruments.lotSize (s.pool.parents (s.parentOf rep.childId)).instrId) rep.recvNs)
      (fun _ => rfl) (fun _ => rfl) (fun _ => rfl) rfl
  | @ended rep hlive =>
    exact hbooked (fun x => { x with lastUpdateNs := rep.recvNs }) (fun _ => rfl) (fun _ => rfl)
      (fun _ => rfl) rfl
  | acknowledged => exact .of_record hold rfl
  | ignored => exact .of_record hold rfl
  | @expired slot idx e he hlive =>
    exact hbooked (fun x => { x with
      lastUpdateNs := (timeoutReport e.childId (s.pool.children e.childId)).recvNs })
      (fun _ => rfl) (fun _ => rfl) (fun _ => rfl) rfl
  | unarmed => exact .of_record hold rfl

end Dwindling

section Queues
variable {cfg : ExecCoreConfig} {w : World} {r : ℕ → ℕ → ℕ} {s : Core} {pid ex : ℕ} {a b : Phase × Core}

/-- Every parent in use is within the order limit of its instrument. -/
def TotalsLimited (cfg : ExecCoreConfig) (pool : OMSOrderPool) : Prop :=
  ∀ p, pool.ParentInUse p → 0 < cfg.riskLimits.maxOrderLots (pool.parents p).instrId →
    (pool.parents p).totalQtyLots ≤ cfg.riskLimits.maxOrderLots (pool.parents p).instrId

def QueuesLimited (cfg : ExecCoreConfig) (r : ℕ → ℕ → ℕ) (gateways : ℕ → List OutboundOrder) : Prop :=
  ∀ ex, ∀ o ∈ gateways ex, o.WithinLimit cfg r ex

theorem Dwindled.limited {p : ℕ} {s s' : Core} (h : Dwindled p s s') (hs : TotalsLimited cfg s.pool)
    (hmax : 0 < cfg.riskLimits.maxOrderLots (s'.pool.parents p).instrId) :
    (s'.pool.parents p).totalQtyLots ≤ cfg.riskLimits.maxOrderLots (s'.pool.parents p).instrId := by
  rw [h.instrId] at hmax ⊢
  exact h.total.trans (hs p h.inUse hmax)

section Send
variable {cid : ℕ} {ctx : RoutingContext} {co : ChildOrder} {rest : List ChildOrder} {free : List ℕ}
  (hroom : (s.pool.parents pid).childCount < ParentOrder.kMaxChildrenPerParent)
  (hfree : s.pool.childFree = cid :: free) (ha : HealthyAt cfg w r (.sending pid ctx (co :: rest), s))
  (hb : HealthyAt cfg w r (.sending pid ctx rest, sendChild cfg w pid ctx cid free co s))
include hroom hfree ha hb

/-- A new child is part of what covers its parent, so it is no larger than the parent. -/
theorem sendChild_lots_le : r co.exchangeId (s.pool.parents pid).instrId *
    (newChild w (s.pool.parents pid).parentId ctx cid co).qtyLots ≤ (s.pool.parents pid).totalQtyLots := by
  have hmicro : Micro cfg w (.sending pid ctx (co :: rest), s) _ := .send hroom hfree
  have hchild : (sendChild cfg w pid ctx cid free co s).pool.children cid =
      newChild w (s.pool.parents pid).parentId ctx cid co := Function.update_self _ _ _
  have hown : ((sendChild cfg w pid ctx cid free co s).pool.children cid).parentId = pid :=
    (congrArg ChildOrderState.parentId hchild).trans ((ha.store.2.ok pid).parentId ha.store.1)
  have hvalid := ha.store.2.childFree
  rw [hfree] at hvalid
  have huse : (sendChild cfg w pid ctx cid free co s).pool.ChildInUse cid := hvalid.head_inUse
  obtain ⟨hparent, hmem⟩ := (hb.store.2.ok pid).owner cid huse hown
  have hqty : QtyOk r (sendChild cfg w pid ctx cid free co s).pool pid := hb.qty.1 pid hparent
  have hdwindled : Dwindled pid s (sendChild cfg w pid ctx cid free co s) :=
    micro_dwindled hmicro ha hb hparent
  have hworking : ((sendChild cfg w pid ctx cid free co s).pool.children cid).state.working = true :=
    congrArg (fun c => c.state.working) hchild
  have hweight := weight_le_committed (r := r) hmem
  rw [ChildOrderState.weight_of_working hworking, hchild, hdwindled.instrId] at hweight
  calc (r co.exchangeId (s.pool.parents pid).instrId : ℤ) *
        (newChild w (s.pool.parents pid).parentId ctx cid co).qtyLots
      ≤ (sendChild cfg w pid ctx cid free co s).pool.committed r pid := (le_max_right _ _).trans hweight
    _ ≤ ((sendChild cfg w pid ctx cid free co s).pool.parents pid).leavesQtyLots := hqty.covered
    _ ≤ ((sendChild cfg w pid ctx cid free co s).pool.parents pid).totalQtyLots := by
      have htotal := hqty.total
      have hcum := hqty.cum
      omega
    _ ≤ (s.pool.parents pid).totalQtyLots := hdwindled.total

theorem sendChild_queuesLimited (hlimited : TotalsLimited cfg s.pool) (hq : QueuesLimited cfg r s.gateways) :
    QueuesLimited cfg r (sendChild cfg w pid ctx cid free co s).gateways := by
  have hlots := sendChild_lots_le hroom hfree ha hb
  have hgate : (sendChild cfg w pid ctx cid free co s).gateways = pushOutbound cfg
    (outboundOrder (newChild w (s.pool.parents pid).parentId ctx cid co) (s.pool.parents pid).instrId)
    s.gateways := rfl
  intro ex o ho
  rw [hgate] at ho
  rcases pushOutbound_cases cfg
    (outboundOrder (newChild w (s.pool.parents pid).parentId ctx cid co) (s.pool.parents pid).instrId)
    s.gateways ex with hlost | ⟨hex, hpush⟩
  · rw [hlost] at ho
    exact hq ex o ho
  · rw [hpush] at ho
    rcases List.mem_append.mp ho with ho | ho
    · exact hq ex o ho
    · obtain rfl := List.mem_singleton.mp ho
      subst hex
      exact fun hmax => hlots.trans (hlimited pid ha.store.1 hmax)

end Send

theorem micro_limited (hsound : w.router.Sound) (h : Micro cfg w a b) (ha : HealthyAt cfg w r a)
    (hlimited : TotalsLimited cfg a.2.pool) (hq : QueuesLimited cfg r a.2.gateways) :
    TotalsLimited cfg b.2.pool ∧ QueuesLimited cfg r b.2.gateways := by
  have hb := micro_healthy hsound h ha
  refine ⟨fun p hp hmax => (micro_dwindled h ha hb hp).limited hlimited hmax, ?_⟩
  cases h with
  | send hroom hfree => exact sendChild_queuesLimited hroom hfree ha hb hlimited hq
  | @sent pid ctx rest s hcount =>
    rw [releaseGap_gateways]
    exact hq
  | @noneSent pid ctx rest s hcount =>
    have hsame : (releaseGap pid ctx rest s).gateways = s.gateways := releaseGap_gateways ctx rest
    exact fun ex o ho => hq ex o (hsame ▸ ho)
  | trim =>
    rw [trimmed_eq]
    exact hq
  | _ => exact hq

end Queues

section Runs
variable {cfg : ExecCoreConfig} {w : World} {r : ℕ → ℕ → ℕ} {x : Cleared} {s : Core}

/-- Every parent in use has been cleared for its trade and for all of its lots. -/
def AllCleared (cfg : ExecCoreConfig) (x : Cleared) : Prop :=
  ∀ p, x.core.pool.ParentInUse p → ∃ g, x.clearances p = some g ∧ g.Passed cfg ∧
    (x.core.pool.parents p).instrId = g.sig.instrId ∧ (x.core.pool.parents p).dir = g.sig.dir ∧
    (x.core.pool.parents p).totalQtyLots ≤ g.lots

theorem AllCleared.limited (h : AllCleared cfg x) : TotalsLimited cfg x.core.pool := by
  intro p hp hmax
  obtain ⟨g, -, hpassed, hinstr, -, htotal⟩ := h p hp
  rw [hinstr] at hmax ⊢
  exact htotal.trans (hpassed.order hmax)

/-- Clearances stay valid as long as parents only dwindle. -/
theorem AllCleared.dwindle {s' : Core} (h : AllCleared cfg x)
    (hdwindled : ∀ p, s'.pool.ParentInUse p → Dwindled p x.core s') : AllCleared cfg ⟨s', x.clearances⟩ := by
  intro p hp
  have hd := hdwindled p hp
  obtain ⟨g, hg, hpassed, hinstr, hdir, htotal⟩ := h p hd.inUse
  exact ⟨g, hg, hpassed, hd.instrId.trans hinstr, hd.dir.trans hdir, hd.total.trans htotal⟩

theorem inUse_of_reserved {sig : StrategyOrderSignal} {pid q : ℕ} {free : List ℕ}
    (hfree : s.pool.parentFree = pid :: free) (hq : (reserved w sig pid free s).pool.ParentInUse q)
    (hne : q ≠ pid) : s.pool.ParentInUse q := by
  refine ⟨hq.1, fun hmem => ?_⟩
  rw [hfree] at hmem
  rcases List.mem_cons.mp hmem with h | h
  · exact hne h
  · exact hq.2 h

/-- The entry of a call opens no parent but the one its signal was cleared for. -/
theorem entered_cleared {c : Call} {a : Phase × Core} (h : Entered cfg w x.core c a)
    (hx : AllCleared cfg x) : AllCleared cfg ⟨a.2, (Cleared.step cfg (.call w c) x).clearances⟩ := by
  have hentry := h
  cases h with
  | @refused sig s' href hflow =>
    have hkeep : (Cleared.step cfg (.call w (.signal sig)) x).clearances = x.clearances := by
      simp only [Cleared.step, hflow]
    rw [hkeep]
    refine hx.dwindle fun p hp => entered_dwindled hentry hp ?_
    exact (inUse_of_parentFree href.records.parentFree p).mp hp
  | @admitted sig pid free hpos hfree hinstr hqty hsplit hflow =>
    have hgrant : (Cleared.step cfg (.call w (.signal sig)) x).clearances =
        Function.update x.clearances pid (some ⟨sig, w.reply, effectiveQty sig x.core.pos⟩) := by
      simp only [Cleared.step, hflow]
    rw [hgrant]
    intro p hp
    by_cases hne : p = pid
    · subst hne
      refine ⟨_, Function.update_self _ _ _, dispatched_passed hflow hpos hqty, ?_⟩
      simp only [reserved_record]
      exact ⟨rfl, rfl, le_rfl⟩
    · have hold := inUse_of_reserved hfree hp hne
      have hd := entered_dwindled hentry hp hold
      obtain ⟨g, hg, hpassed, hi, hdir, htotal⟩ := hx p hold
      exact ⟨g, (Function.update_of_ne hne _ _).trans hg, hpassed, hd.instrId.trans hi, hd.dir.trans hdir,
        hd.total.trans htotal⟩
  | filled => exact hx.dwindle fun p hp => entered_dwindled hentry hp hp
  | ended => exact hx.dwindle fun p hp => entered_dwindled hentry hp hp
  | acknowledged => exact hx.dwindle fun p hp => entered_dwindled hentry hp hp
  | ignored => exact hx
  | expired => exact hx.dwindle fun p hp => entered_dwindled hentry hp hp
  | unarmed => exact hx

theorem Cleared.step_core (e : Event) (x : Cleared) :
    (Cleared.step cfg e x).core = Oms.step cfg e x.core := by
  cases e with
  | env e => rfl
  | call w c =>
    cases c with
    | report rep => rfl
    | visit slot idx => rfl
    | signal sig =>
      simp only [Cleared.step]
      cases hflow : signalFlow cfg w sig x.core with
      | finished s' =>
        simp only [Oms.step, Call.apply, onStrategyOrder, hflow]
        rfl
      | dispatching s1 pid buf ctx => rfl

/-- A healthy core whose parents and waiting orders are within what was cleared. -/
structure Cleared.Ok (cfg : ExecCoreConfig) (r : ℕ → ℕ → ℕ) (x : Cleared) : Prop where
  healthy : Healthy r x.core
  cleared : AllCleared cfg x
  queued : QueuesLimited cfg r x.core.gateways

theorem call_cleared {c : Call} (hx : x.Ok cfg r) (h : c.Admissible cfg r w x.core) :
    (Cleared.step cfg (.call w c) x).Ok cfg r := by
  have hcore : (Cleared.step cfg (.call w c) x).core = c.apply cfg w x.core :=
    Cleared.step_core (.call w c) x
  have hentry := h.entered hx.healthy
  have hcleared := entered_cleared hentry hx.cleared
  have hstart : HealthyAt cfg w r (c.entry cfg w x.core) :=
    entered_healthy h.sound hentry h.scaled hx.healthy
  have hqueued : QueuesLimited cfg r (c.entry cfg w x.core).2.gateways := by
    rw [entered_gateways hentry]
    exact hx.queued
  have hend := call_invariant (fun a => HealthyAt cfg w r a ∧ TotalsLimited cfg a.2.pool ∧
      QueuesLimited cfg r a.2.gateways) c
    (fun a b hmicro ha => ⟨micro_healthy h.sound hmicro ha.1,
      micro_limited h.sound hmicro ha.1 ha.2.1 ha.2.2⟩)
    ⟨hstart, hcleared.limited, hqueued⟩
  have hdwindled : ∀ p, (c.apply cfg w x.core).pool.ParentInUse p →
      Dwindled p (c.entry cfg w x.core).2 (c.apply cfg w x.core) :=
    fun p hp => steps_dwindled h.sound (call_steps c) hstart hp
  have hlater := hcleared.dwindle hdwindled
  refine ⟨hcore ▸ call_healthy h hx.healthy, ?_, hcore ▸ hend.2.2⟩
  rw [← hcore] at hlater
  exact hlater

theorem Env.mem_gateways (e : Env) {ex : ℕ} {o : OutboundOrder} (h : o ∈ (e.apply s).gateways ex) :
    o ∈ s.gateways ex := by
  by_cases hpop : ∃ ex', e = .gatewayPop ex'
  · obtain ⟨ex', rfl⟩ := hpop
    simp only [Env.apply] at h
    by_cases hex : ex = ex'
    · subst hex
      rw [Function.update_self] at h
      exact List.mem_of_mem_tail h
    · rw [Function.update_of_ne hex] at h
      exact h
  · rw [Env.apply_gateways fun ex' heq => hpop ⟨ex', heq⟩] at h
    exact h

theorem step_cleared {e : Event} (hx : x.Ok cfg r) (h : e.Admissible cfg r x.core) :
    (Cleared.step cfg e x).Ok cfg r := by
  cases e with
  | call w c => exact call_cleared hx h
  | env e =>
    have hbooks := e.apply_sameBooks x.core
    have hdwindled : ∀ p, (e.apply x.core).pool.ParentInUse p → Dwindled p x.core (e.apply x.core) := by
      intro p hp
      rw [hbooks.pool] at hp
      exact .of_record hp (by rw [hbooks.pool])
    exact ⟨hbooks.healthy hx.healthy, hx.cleared.dwindle hdwindled,
      fun ex o ho => hx.queued ex o (Env.mem_gateways e ho)⟩

/-- What the gate and the risk engine let through binds for good: in every run, each parent in use
was cleared within all limits for its trade, has filled and has in the market no more than its
cleared lots, and no order in a queue is larger than the order limit. -/
theorem run_cleared {evs : List Event} (h0 : Fresh s) (hempty : ∀ ex, s.gateways ex = [])
    (h : Along (Oms.step cfg) (Event.Admissible cfg r) s evs) :
    let x := run (Cleared.step cfg) (Cleared.start s) evs
    x.core = run (Oms.step cfg) s evs ∧
    (∀ p, x.core.pool.ParentInUse p → ∃ g, x.clearances p = some g ∧ g.Passed cfg ∧
      g.Covers r x.core.pool p) ∧
    ∀ ex, ∀ o ∈ x.core.gateways ex, o.WithinLimit cfg r ex := by
  intro x
  have hghost := Along.lift (Cleared.step cfg) Cleared.core (Cleared.start s)
    (fun e x => Cleared.step_core e x) h
  have hstart : (Cleared.start s).Ok cfg r := by
    refine ⟨h0.healthy, fun p hp => absurd hp (h0.parentInUse p), fun ex o ho => ?_⟩
    have hnone : o ∈ s.gateways ex := ho
    rw [hempty] at hnone
    cases hnone
  have hx : x.Ok cfg r := hghost.invariant (Cleared.Ok cfg r) (fun _ _ hx he => step_cleared hx he) hstart
  refine ⟨run_proj Cleared.core Cleared.step_core, fun p hp => ?_, hx.queued⟩
  obtain ⟨g, hg, hpassed, hinstr, hdir, htotal⟩ := hx.cleared p hp
  have hqty := hx.healthy.qty p hp
  have hcovered := hqty.covered
  have hsum := hqty.total
  exact ⟨g, hg, hpassed, hinstr, hdir, by omega⟩

section Samples

/-- Orders of at most five lots and half a dollar, and a confirmation from a tenth of a dollar on. -/
def Sample.capped : ExecCoreConfig :=
  { config with riskLimits := ⟨fun _ => 5, fun _ => 0, 1 / 2, 0⟩, notionalGate := ⟨1 / 10, 1⟩ }

def Sample.confirmed : World := { world 9 with reply := some "yes".toList }

/-- Four lots at a hundred dollars are confirmed, filled by one, canceled and sent again. -/
def Sample.clearedRun : List Event :=
  [.call confirmed (.signal { signal .buy 4 false with limitPriceUsd := 100 }),
   .call confirmed (.report (report 0 .partialFill 1)), .call confirmed (.report (report 0 .canceled 0))]

theorem Sample.cleared_admissible :
    Along (Oms.step capped) (Event.Admissible capped canonical) (start 0) clearedRun := by
  have hscaled (instr : ℕ) : confirmed.Scaled capped canonical instr :=
    ⟨(scaled 9 instr).lot, (scaled 9 instr).pos⟩
  have hsound : confirmed.router.Sound := sound 9
  refine ⟨⟨by decide, fun _ => hscaled _, hsound⟩, ⟨?_, fun _ _ => hscaled _, hsound⟩,
    ⟨?_, fun _ _ => hscaled _, hsound⟩, trivial⟩
  · decide +kernel
  · decide +kernel

theorem run_cleared_rerouted :
    let x := run (Cleared.step Sample.capped) (Cleared.start (Sample.start 0)) Sample.clearedRun
    x.core.pool.ParentInUse 0 ∧ (x.core.pool.parents 0).cumQtyLots = 1 ∧
    ∃ g, x.clearances 0 = some g ∧ g.Passed Sample.capped ∧ g.Covers canonical x.core.pool 0 := by
  intro x
  have huse : x.core.pool.ParentInUse 0 := by decide +kernel
  exact ⟨huse, by decide +kernel,
    (run_cleared (Sample.fresh 0) (fun _ => rfl) Sample.cleared_admissible).2.1 0 huse⟩

end Samples

end Runs

end OmsFormal.Oms
