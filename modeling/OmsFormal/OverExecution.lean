import OmsFormal.MarketCalls

/-!
# How much the exchanges execute

A timeout cancels a child in the core only. Its order stays out, and the reroute
sends its lots a second time. In runs without such a timeout the exchanges never
execute more for a parent than it was accepted for.
-/

namespace OmsFormal.Oms
open Sor Rounding OMSOrderPool GuardedRun
set_option autoImplicit false

variable {cfg : ExecCoreConfig} {w : World} {M : Market}

section Timeouts

/-- A timeout of a child whose order is not out concerns no order. -/
theorem Market.Sound.visit {slot idx : ℕ} (h : M.Sound) (hs : Healthy canonical M.core)
    (hsafe : (Move.visit w slot idx).Safe cfg M) : (M.call cfg w (.visit slot idx)).Sound := by
  have hadm : (Call.visit slot idx).Admissible cfg canonical w M.core := hsafe.legal.admissible h rfl
  have hentered := hadm.entered hs
  generalize hentry : (Call.visit slot idx).entry cfg w M.core = a at hentered
  cases hentered with
  | @expired _ _ e he hlive =>
    have hout := hsafe.patient e he
    have hothers (y : ExchangeOrder) (hy : y ∈ M.orders) : y.order.childId ≠ e.childId :=
      fun heq => hout (Or.inr ⟨y, hy, heq⟩)
    refine Market.Sound.call hadm hs M.orders (by rw [hentry]; rfl) ?_
    rw [hentry]
    refine h.booked hs 0 hlive (bookCancel_pool _ _ _) rfl (fun p => (add_zero _).symm) (fun p => rfl)
      (fun ex o ho heq => hout (Or.inl ⟨ex, o, ho, heq⟩)) (List.Sublist.refl _) (fun y hy => ?_)
      (fun n => by rw [ite_self, sub_zero])
    exact (h.backing.resting y hy).booked (bookCancel_pool _ _ _) (hothers y hy)
  | unarmed =>
    refine Market.Sound.call hadm hs M.orders (by rw [hentry]) ?_
    rw [hentry]
    exact h

end Timeouts

section Signals
variable {sig : StrategyOrderSignal}

theorem Market.Sound.refused {s' : Core} (h : M.Sound) (hs : Healthy canonical M.core)
    (href : Refused w sig M.core s') : ({ M with core := s' } : Market).Sound := by
  have huse (p : ℕ) : s'.pool.ParentInUse p ↔ M.core.pool.ParentInUse p :=
    inUse_of_parentFree href.records.parentFree p
  have hrec {p : ℕ} (hp : s'.pool.ParentInUse p) : s'.pool.parents p = M.core.pool.parents p :=
    href.records.parents p ((huse p).mp hp)
  have hkept {c : ℕ} (hc : M.core.pool.ChildLive c) :
      s'.pool.ChildLive c ∧ s'.pool.children c = M.core.pool.children c := by
    have hchild := href.records.children c hc.1
    exact ⟨⟨(childInUse_of_childFree href.records.childFree c).mpr hc.1, by rw [hchild]; exact hc.2⟩, hchild⟩
  have hgate : s'.gateways = M.core.gateways := by
    obtain ⟨reason, heq⟩ := href.rest
    rw [heq]
    rfl
  refine ⟨h.backing.replace hgate (fun _ _ _ hc => hkept hc) (fun _ _ => rfl) hs.store
    (List.Sublist.refl _) fun x hx => ?_, fun p hp => h.opened p ((huse p).mp hp),
    fun p hp q hq => h.only p ((huse p).mp hp) q ((huse q).mp hq), h.unopened, fun p hp => ?_,
    fun p hp => ?_, h.bound⟩
  · obtain ⟨hlive, hchild⟩ := hkept (h.backing.resting x hx).live
    exact (h.backing.resting x hx).of_child hlive hchild rfl
  · rw [hrec hp]
    exact h.filled p ((huse p).mp hp)
  · rw [hrec hp]
    exact h.total p ((huse p).mp hp)

/-- The number of the parent just opened is not among those of the others. -/
theorem Market.Sound.opened_only {pid p q : ℕ} (h : M.Sound)
    (hp : p = pid ∨ p ≠ pid ∧ M.core.pool.ParentInUse p)
    (hq : q = pid ∨ q ≠ pid ∧ M.core.pool.ParentInUse q)
    (heq : Function.update M.owner pid M.opened q = Function.update M.owner pid M.opened p) : q = p := by
  have hself : Function.update M.owner pid M.opened pid = M.opened := Function.update_self _ _ _
  have hkeep {p : ℕ} (hp : p ≠ pid) : Function.update M.owner pid M.opened p = M.owner p :=
    Function.update_of_ne hp _ _
  rcases hp with rfl | ⟨hnep, hup⟩
  · rcases hq with rfl | ⟨hneq, huq⟩
    · rfl
    · rw [hself, hkeep hneq] at heq
      exact absurd heq (h.opened q huq).ne
  · rcases hq with rfl | ⟨hneq, huq⟩
    · rw [hself, hkeep hnep] at heq
      exact absurd heq.symm (h.opened p hup).ne
    · rw [hkeep hneq, hkeep hnep] at heq
      exact h.only p hup q huq heq

/-- An admitted signal opens a parent with the next number and nothing executed for it. -/
theorem Market.Sound.admitted {pid : ℕ} {free : List ℕ} (h : M.Sound) (hs : Healthy canonical M.core)
    (hfree : M.core.pool.parentFree = pid :: free) (hqty : 1 ≤ effectiveQty sig M.core.pos) :
    ({ M.openParent pid ((reserved w sig pid free M.core).pool.parents pid).totalQtyLots with
      core := reserved w sig pid free M.core } : Market).Sound := by
  have hrec := reserved_record w M.core sig pid free
  have hpid : ¬ M.core.pool.ParentInUse pid := open_fresh hfree
  have huse (p : ℕ) (hp : (reserved w sig pid free M.core).pool.ParentInUse p) :
      p = pid ∨ p ≠ pid ∧ M.core.pool.ParentInUse p := by
    have hadmitted : (Oms.admitted w sig pid free M.core).pool.ParentInUse p := hp
    rcases (open_parentInUse hs.store hfree p).mp hadmitted with heq | hu
    · exact Or.inl heq
    · exact Or.inr ⟨fun heq => hpid (heq ▸ hu), hu⟩
  have hother {p : ℕ} (hp : p ≠ pid) :
      (reserved w sig pid free M.core).pool.parents p = M.core.pool.parents p := reserved_other w sig free hp
  have hself : Function.update M.owner pid M.opened pid = M.opened := Function.update_self _ _ _
  have hkeep {p : ℕ} (hp : p ≠ pid) : Function.update M.owner pid M.opened p = M.owner p :=
    Function.update_of_ne hp _ _
  have hnone : unreportedFor M.opened M.orders = 0 := unreportedFor_eq_zero fun x hx => by
    have hb := h.backing.resting x hx
    have hlt := h.opened _ (hs.store.parentOf_inUse hb.live.1)
    rw [hb.owned] at hlt
    exact hlt.ne
  have haccepted (n : ℕ) (hn : n ≠ M.opened) (total : ℤ) :
      Function.update M.accepted M.opened total n = M.accepted n := Function.update_of_ne hn _ _
  have htotal : ((reserved w sig pid free M.core).pool.parents pid).totalQtyLots =
      effectiveQty sig M.core.pos := by
    rw [hrec]
    rfl
  have hcum : ((reserved w sig pid free M.core).pool.parents pid).cumQtyLots = 0 := by
    rw [hrec]
    rfl
  constructor
  · have hkeepUsed (p : ℕ) (hp : M.core.pool.ParentInUse p) :
        Function.update M.owner pid M.opened p = M.owner p := hkeep fun heq => hpid (heq ▸ hp)
    refine h.backing.replace rfl (fun _ _ _ hc => ⟨hc, rfl⟩) hkeepUsed hs.store (List.Sublist.refl _)
      fun x hx => ?_
    have hb := h.backing.resting x hx
    exact hb.of_child hb.live rfl (hkeepUsed _ (hs.store.parentOf_inUse hb.live.1))
  · intro p hp
    rcases huse p hp with rfl | ⟨hne, hu⟩
    · exact hself.trans_lt (Nat.lt_succ_self _)
    · exact (hkeep hne).trans_lt (Nat.lt_succ_of_lt (h.opened p hu))
  · intro p hp q hq heq
    exact h.opened_only (huse p hp) (huse q hq) heq
  · intro n hn
    exact h.unopened n (Nat.le_of_succ_le hn)
  · intro p hp
    rcases huse p hp with rfl | ⟨hne, hu⟩
    · simp only [Market.openParent, hself, hcum, hnone]
      exact h.unopened _ le_rfl
    · simp only [Market.openParent, hkeep hne, hother hne]
      exact h.filled p hu
  · intro p hp
    rcases huse p hp with rfl | ⟨hne, hu⟩
    · simp only [Market.openParent, hself, Function.update_self, le_refl]
    · simp only [Market.openParent, hkeep hne, hother hne]
      rw [haccepted _ (h.opened p hu).ne]
      exact h.total p hu
  · intro n
    simp only [Market.openParent]
    by_cases hn : n = M.opened
    · rw [hn, Function.update_self, h.unopened _ le_rfl, htotal]
      omega
    · rw [haccepted n hn]
      exact h.bound n

theorem Market.Sound.signal (h : M.Sound) (hs : Healthy canonical M.core)
    (hlegal : (Move.signal w sig).Legal cfg M) : (M.call cfg w (.signal sig)).Sound := by
  have hadm : (Call.signal sig).Admissible cfg canonical w M.core := hlegal.admissible h rfl
  rcases signal_cases cfg w sig M.core with ⟨s', hflow, href⟩ | ⟨pid, free, hfree, -, hqty, -, hflow⟩
  · have hgate : s'.gateways = M.core.gateways := by
      obtain ⟨reason, heq⟩ := href.rest
      rw [heq]
      rfl
    refine Market.Sound.call hadm hs (M.before cfg w (.signal sig)).orders ?_ ?_
    · simp only [Call.entry, hflow]
      exact hgate
    · simp only [Market.before, Call.entry, hflow]
      exact h.refused hs href
  · refine Market.Sound.call hadm hs (M.before cfg w (.signal sig)).orders ?_ ?_
    · simp only [Call.entry, hflow]
      rfl
    · simp only [Market.before, Call.entry, hflow]
      exact h.admitted hs hfree (effectiveQty_pos (hlegal.asks _ _ rfl) hqty)

end Signals

section Runs

theorem Move.core_healthy {m : Move} (hlegal : m.Legal cfg M) (h : M.Sound) (hs : Healthy canonical M.core) :
    Healthy canonical (M.step cfg m).core := by
  cases m with
  | signal w sig => exact call_healthy (hlegal.admissible h rfl) hs
  | visit w slot idx => exact call_healthy (hlegal.admissible h rfl) hs
  | env e => exact (e.apply_sameBooks M.core).healthy hs
  | take ex =>
    simp only [Market.step, Market.take]
    split
    · exact ((Env.gatewayPop ex).apply_sameBooks M.core).healthy hs
    · exact hs
  | execute i rep =>
    simp only [Market.step, Market.execute]
    split <;> exact hs
  | close i rep =>
    simp only [Market.step, Market.close]
    split <;> exact hs
  | acknowledge w i rep => exact call_healthy (hlegal.admissible h rfl) hs
  | deliver w i j =>
    simp only [Market.step, Market.deliver]
    cases hx : M.orders[i]? with
    | none => exact hs
    | some x =>
      cases hrep : x.reports[j]? with
      | none => simpa [hrep] using hs
      | some rep =>
        have hcall : (Move.deliver w i j).call M = some (w, .report rep) := by simp [Move.call, hx, hrep]
        simp only [hrep]
        exact call_healthy (hlegal.admissible h hcall) hs
  | deliverEnd w i =>
    simp only [Market.step, Market.deliverEnd]
    cases hx : M.orders[i]? with
    | none => exact hs
    | some x =>
      cases hrep : x.ended with
      | none => simpa [hrep] using hs
      | some rep =>
        have hcall : (Move.deliverEnd w i).call M = some (w, .report rep) := by simp [Move.call, hx, hrep]
        simp only [hrep]
        exact call_healthy (hlegal.admissible h hcall) hs

theorem Market.Sound.step {m : Move} (h : M.Sound) (hs : Healthy canonical M.core) (hsafe : m.Safe cfg M) :
    (M.step cfg m).Sound := by
  cases m with
  | signal w sig => exact h.signal hs hsafe.legal
  | visit w slot idx => exact h.visit hs hsafe
  | env e => exact h.env hsafe.legal.possible
  | take ex => exact h.take ex
  | execute i rep => exact h.execute hs hsafe.legal.possible
  | close i rep => exact h.close hsafe.legal.possible
  | acknowledge w i rep => exact h.acknowledged hs hsafe.legal
  | deliver w i j => exact h.deliver hs hsafe.legal
  | deliverEnd w i => exact h.deliverEnd hs hsafe.legal

/-- The small set-up with a deadline one tick after the start. -/
def Sample.brisk : ExecCoreConfig := { config with childTimeoutNs := 999999 }

theorem Sample.brisk_legal {m : Move} (hposs : m.Possible M)
    (hasks : ∀ w sig, m = .signal w sig → 1 ≤ sig.qtyLots)
    (hworld : ∀ w c, m.call M = some (w, c) → w = world 9) : m.Legal brisk M := by
  have hscaled (instr : ℕ) : (world 9).Scaled brisk canonical instr :=
    ⟨(scaled 9 instr).lot, (scaled 9 instr).pos⟩
  refine ⟨hposs, hasks, fun w c hc => ?_, fun w c hc => ?_⟩
  · rw [hworld w c hc]
    cases c with
    | signal sig => exact fun _ => hscaled _
    | report rep => exact fun _ _ => hscaled _
    | visit slot idx => exact fun _ _ => hscaled _
  · rw [hworld w c hc]
    exact sound 9

def Sample.buy : Move := .signal (world 9) (signal .buy 4 false)

theorem Sample.buy_legal : buy.Legal brisk M := by
  refine brisk_legal trivial ?_ ?_
  · rintro w sig heq
    cases heq
    decide
  · rintro w c heq
    cases heq
    rfl

theorem Sample.quiet_legal {m : Move} (hposs : m.Possible M) (hquiet : ∀ w sig, m ≠ .signal w sig)
    (hnone : m.call M = none) : m.Legal brisk M := by
  refine brisk_legal hposs (fun w sig heq => absurd heq (hquiet w sig)) fun w c hc => ?_
  rw [hnone] at hc
  cases hc

def Sample.market (ms : List Move) : Market := run (fun m M => M.step brisk m) (Market.start (start 0)) ms

/-- A buy of four lots times out while its order is at the exchange, and is sent again. -/
def Sample.resentMoves : List Move :=
  [buy, .take 0, .env .advance, .visit (world 9) 1 0, .take 0, .execute 0 (report 0 .fill 4),
   .execute 1 (report 0 .fill 4)]

theorem Sample.execute_legal (ms : List Move) (x : ExchangeOrder) {i : ℕ} {rep : ExecutionReport}
    (hx : (market ms).orders[i]? = some x) (hended : x.ended = none) (hchild : rep.childId = x.order.childId)
    (hfill : rep.execType.isFill = true) (hmin : 1 ≤ rep.fillQtyLots)
    (hmax : x.executed + rep.fillQtyLots ≤ x.order.qtyLots) :
    (Move.execute i rep).Legal brisk (market ms) :=
  quiet_legal ⟨x, hx, hended, hchild, hfill, hmin, hmax⟩ (fun _ _ h => by cases h) rfl

theorem Sample.resent_legal : Along (fun m M => M.step brisk m) (Move.Legal brisk)
    (Market.start (start 0)) resentMoves := by
  have hvisit {M : Market} : (Move.visit (world 9) 1 0).Legal brisk M := by
    refine brisk_legal trivial (fun w sig heq => by cases heq) fun w c heq => ?_
    cases heq
    rfl
  refine ⟨buy_legal, quiet_legal trivial (fun _ _ h => by cases h) rfl,
    quiet_legal (fun ex h => by cases h) (fun _ _ h => by cases h) rfl, hvisit,
    quiet_legal trivial (fun _ _ h => by cases h) rfl, ?_, ?_, trivial⟩
  · exact execute_legal (resentMoves.take 5) ⟨⟨0, 100, 4, .buy, .taker, 0, 0⟩, 0, 0, [], none⟩
      (by decide +kernel) rfl rfl rfl (by decide) (by decide)
  · exact execute_legal (resentMoves.take 6) ⟨⟨0, 100, 4, .buy, .taker, 0, 0⟩, 0, 0, [], none⟩
      (by decide +kernel) rfl rfl rfl (by decide) (by decide)

/-- The exchange fills one lot and cancels the rest; what is sent again fills. -/
def Sample.canceledMoves : List Move :=
  [buy, .take 0, .execute 0 (report 0 .partialFill 1), .close 0 (report 0 .canceled 0),
   .deliver (world 9) 0 0, .deliverEnd (world 9) 0, .take 0, .execute 0 (report 0 .fill 3)]

theorem Sample.canceled_safe : Along (fun m M => M.step brisk m) (Move.Safe brisk)
    (Market.start (start 0)) canceledMoves := by
  refine ⟨⟨buy_legal, trivial⟩, ⟨quiet_legal trivial (fun _ _ h => by cases h) rfl, trivial⟩, ⟨?_, trivial⟩,
    ⟨?_, trivial⟩, ⟨?_, trivial⟩, ⟨?_, trivial⟩, ⟨quiet_legal trivial (fun _ _ h => by cases h) rfl, trivial⟩,
    ⟨?_, trivial⟩, trivial⟩
  · exact execute_legal (canceledMoves.take 2) ⟨⟨0, 100, 4, .buy, .taker, 0, 0⟩, 0, 0, [], none⟩
      (by decide +kernel) rfl rfl rfl (by decide) (by decide)
  · exact quiet_legal (M := market (canceledMoves.take 3))
      ⟨⟨⟨0, 100, 4, .buy, .taker, 0, 0⟩, 0, 1, [report 0 .partialFill 1], none⟩, by decide +kernel,
        rfl, rfl, rfl,
        Or.inl (by decide)⟩ (fun _ _ h => by cases h) rfl
  · refine brisk_legal (M := market (canceledMoves.take 4))
      ⟨⟨⟨0, 100, 4, .buy, .taker, 0, 0⟩, 0, 1, [report 0 .partialFill 1], some (report 0 .canceled 0)⟩,
        by decide +kernel, by decide⟩ (fun _ _ h => by cases h) fun w c hc => ?_
    simp only [Move.call, Option.map_eq_some_iff] at hc
    obtain ⟨rep, -, hc⟩ := hc
    exact (Prod.mk.inj hc).1.symm
  · refine brisk_legal (M := market (canceledMoves.take 5))
      ⟨⟨⟨0, 100, 4, .buy, .taker, 0, 0⟩, 0, 1, [], some (report 0 .canceled 0)⟩,
        by decide +kernel, rfl, rfl⟩ (fun _ _ h => by cases h) fun w c hc => ?_
    simp only [Move.call, Option.map_eq_some_iff] at hc
    obtain ⟨rep, -, hc⟩ := hc
    exact (Prod.mk.inj hc).1.symm
  · exact execute_legal (canceledMoves.take 7) ⟨⟨0, 100, 3, .buy, .taker, 0, 0⟩, 0, 0, [], none⟩
      (by decide +kernel) rfl rfl rfl (by decide) (by decide)

end Runs

end OmsFormal.Oms
