import OmsFormal.Lifecycle
import OmsFormal.Deals

/-!
# Open-lot counters against what is in the market

With canonical lots everywhere, the slack of an instrument and direction is its
open-lot counter less the leaves of its live children. A call moves the slack by
what a first dispatch reserved and did not send, and by what a reroute gives up
or sends again; nothing else moves it.
-/

namespace OmsFormal.Oms
open Sor Rounding OMSOrderPool GuardedRun
set_option autoImplicit false

/-- Every venue trades in the instrument's canonical lot. -/
def canonical : ℕ → ℕ → ℕ := fun _ _ => 1

variable {cfg : ExecCoreConfig} {w : World} {s : Core} {i : ℕ} {d : OrderDir}

section Counters

@[simp] theorem releaseOpen_openLots (dir : OrderDir) (lots : ℤ) (p : InstrumentPosition) :
    (p.releaseOpen dir lots).openLots d = p.openLots d - if d = dir then lots else 0 := by
  cases dir <;> cases d <;> simp [InstrumentPosition.releaseOpen, InstrumentPosition.openLots]

@[simp] theorem reserveOpen_openLots (dir : OrderDir) (lots : ℤ) (p : InstrumentPosition) :
    (p.reserveOpen dir lots).openLots d = p.openLots d + if d = dir then lots else 0 := by
  cases dir <;> cases d <;> simp [InstrumentPosition.reserveOpen, InstrumentPosition.openLots]

theorem applyFill_openLots (dir : OrderDir) (lots : ℤ) (price : ℚ) (p : InstrumentPosition) :
    (p.applyFill dir lots price).openLots d = p.openLots d := by
  cases d <;> rfl

theorem modify_openLots (pos : PositionTable) (j : ℕ) (f : InstrumentPosition → InstrumentPosition) :
    ((pos.modify j f).instruments i).openLots d =
      if i = j then (f (pos.instruments j)).openLots d else (pos.instruments i).openLots d := by
  by_cases hi : i = j <;> simp [PositionTable.modify, hi]

/-- Lots of an order of instrument `j` in direction `dir`, seen from instrument `i` and direction
`d`. -/
def onSide (j : ℕ) (dir : OrderDir) (i : ℕ) (d : OrderDir) (lots : ℤ) : ℤ :=
  if j = i ∧ dir = d then lots else 0

@[simp] theorem onSide_zero (j : ℕ) (dir : OrderDir) : onSide j dir i d 0 = 0 := by
  simp [onSide]

theorem onSide_add (j : ℕ) (dir : OrderDir) (a b : ℤ) :
    onSide j dir i d (a + b) = onSide j dir i d a + onSide j dir i d b := by
  unfold onSide
  split <;> simp

theorem onSide_self (lots : ℤ) : onSide i d i d lots = lots := if_pos ⟨rfl, rfl⟩

theorem onSide_neg (j : ℕ) (dir : OrderDir) (a : ℤ) : onSide j dir i d (-a) = -onSide j dir i d a := by
  unfold onSide
  split <;> simp

/-- An update of one instrument that takes `lots` from one of its counters. -/
theorem take_openLots (pos : PositionTable) (j : ℕ) (dir : OrderDir) (lots : ℤ)
    {f : InstrumentPosition → InstrumentPosition}
    (h : ∀ p, (f p).openLots d = p.openLots d - if d = dir then lots else 0) :
    ((pos.modify j f).instruments i).openLots d =
      (pos.instruments i).openLots d - onSide j dir i d lots := by
  rw [modify_openLots, onSide]
  by_cases hi : i = j
  · subst hi
    simp [h, eq_comm]
  · have hj : j ≠ i := fun h => hi h.symm
    simp [hi, hj]

theorem release_openLots (pos : PositionTable) (j : ℕ) (dir : OrderDir) (lots : ℤ) :
    ((pos.modify j (InstrumentPosition.releaseOpen dir lots)).instruments i).openLots d =
      (pos.instruments i).openLots d - onSide j dir i d lots :=
  take_openLots pos j dir lots (releaseOpen_openLots dir lots)

theorem reserve_openLots (pos : PositionTable) (j : ℕ) (dir : OrderDir) (lots : ℤ) :
    ((pos.modify j (InstrumentPosition.reserveOpen dir lots)).instruments i).openLots d =
      (pos.instruments i).openLots d + onSide j dir i d lots := by
  rw [take_openLots pos j dir (-lots), onSide_neg, sub_neg_eq_add]
  intro p
  rw [reserveOpen_openLots]
  split <;> simp

end Counters

section Exposure

/-- What a child still has in the market. -/
def ChildOrderState.openLots (c : ChildOrderState) : ℤ := if c.state.terminal then 0 else c.leavesQtyLots

theorem ChildOrderState.openLots_of_live {c : ChildOrderState} (h : c.state.terminal = false) :
    c.openLots = c.leavesQtyLots := by
  simp [openLots, h]

theorem ChildOrderState.openLots_of_terminal {c : ChildOrderState} (h : c.state.terminal = true) :
    c.openLots = 0 := by
  simp [openLots, h]

/-- Leaves of the non-terminal children of parent `p`. -/
def OMSOrderPool.openLeaves (pool : OMSOrderPool) (p : ℕ) : ℤ :=
  ((pool.parents p).childIds.map fun c => (pool.children c).openLots).sum

/-- The share of parent `p` in what is open for instrument `i` in direction `d`. -/
def OMSOrderPool.share (pool : OMSOrderPool) (i : ℕ) (d : OrderDir) (p : ℕ) : ℤ :=
  if pool.ParentInUse p ∧ (pool.parents p).instrId = i ∧ (pool.parents p).dir = d then
    pool.openLeaves p else 0

/-- Leaves of the non-terminal children of all parents of instrument `i` in direction `d`. -/
def OMSOrderPool.exposure (pool : OMSOrderPool) (i : ℕ) (d : OrderDir) : ℤ :=
  (Finset.range kMaxParentOrders).sum (pool.share i d)

/-- The counter less what is really open. -/
def Core.slack (s : Core) (i : ℕ) (d : OrderDir) : ℤ :=
  (s.pos.instruments i).openLots d - s.pool.exposure i d

variable {pool pool' : OMSOrderPool} {pid : ℕ}

theorem share_of_not_inUse (h : ¬ pool.ParentInUse pid) : pool.share i d pid = 0 :=
  if_neg fun hc => h hc.1

theorem share_of_openLeaves (h : pool.openLeaves pid = 0) : pool.share i d pid = 0 := by
  unfold share
  split
  · exact h
  · rfl

theorem openLeaves_of_terminal
    (h : ∀ c ∈ (pool.parents pid).childIds, (pool.children c).state.terminal = true) :
    pool.openLeaves pid = 0 := by
  apply List.sum_eq_zero
  intro x hx
  obtain ⟨c, hc, rfl⟩ := List.mem_map.mp hx
  exact ChildOrderState.openLots_of_terminal (h c hc)

theorem openLeaves_of_childIds_nil (h : (pool.parents pid).childIds = []) :
    pool.openLeaves pid = 0 := by
  simp [openLeaves, h]

/-- The share of a parent depends on its own record and children only. -/
theorem share_congr (huse : pool'.ParentInUse pid ↔ pool.ParentInUse pid)
    (hinstr : (pool'.parents pid).instrId = (pool.parents pid).instrId)
    (hdir : (pool'.parents pid).dir = (pool.parents pid).dir)
    (hopen : pool'.openLeaves pid = pool.openLeaves pid) :
    pool'.share i d pid = pool.share i d pid := by
  simp only [share, huse, hinstr, hdir, hopen]

theorem share_of_local {q : ℕ} (hloc : Local pid pool pool') (hok : pool.ParentOk q) (hq : q ≠ pid) :
    pool'.share i d q = pool.share i d q := by
  by_cases hu : pool.ParentInUse q
  · have hrec := hloc.record q hq hu
    apply share_congr (hloc.inUse q hq) (by rw [hrec]) (by rw [hrec])
    simp only [openLeaves, hrec]
    apply SingleChange.list_sum_of_agree
    intro c hc
    rw [(hloc.child_eq hok hq hu hc).2]
  · rw [share_of_not_inUse hu, share_of_not_inUse fun h => hu ((hloc.inUse q hq).mp h)]

/-- A local step moves the exposure by the change of its own parent's share. -/
theorem exposure_local {idle : ℕ → Prop} (hloc : Local pid pool pool') (hinv : StoreInv idle pool)
    (hpid : pid < kMaxParentOrders) :
    pool'.exposure i d = pool.exposure i d - pool.share i d pid + pool'.share i d pid := by
  apply SingleChange.range_sum_change hpid
  intro q _ hq
  exact share_of_local hloc (hinv.ok q) hq

theorem exposure_of_share {idle : ℕ → Prop} (hloc : Local pid pool pool') (hinv : StoreInv idle pool)
    (hpid : pid < kMaxParentOrders) (hshare : pool'.share i d pid = pool.share i d pid) :
    pool'.exposure i d = pool.exposure i d := by
  rw [exposure_local hloc hinv hpid, hshare, sub_add_cancel]

theorem exposure_of_sameRecords {idle : ℕ → Prop} (hsame : SameRecords pool pool')
    (hinv : StoreInv idle pool) : pool'.exposure i d = pool.exposure i d := by
  apply Finset.sum_congr rfl
  intro q _
  exact share_of_local (hsame.isLocal (q + 1)) (hinv.ok q) (Nat.ne_of_lt (Nat.lt_succ_self q))

end Exposure

section Demand

/-- The child orders a trimmed parent gets from the router, if it asks at all. -/
def asked (w : World) (pid : ℕ) (ctx : RoutingContext) (s : Core) : List ChildOrder :=
  if (s.pool.parents pid).reduceOnly ∧ (s.pool.parents pid).leavesQtyLots = 0 then []
  else w.router.optimalSplit ctx

/-- Lots a reroute of parent `pid` gives up or sends again. It reserves none of them. -/
def rerouteDemand (cfg : ExecCoreConfig) (w : World) (pid : ℕ) (s : Core) : ℤ :=
  excessLots pid s +
    pendingLots (trimmedContext cfg w pid s) (asked w pid (trimmedContext cfg w pid s) (trimmed pid s))

/-- Whether a booked report goes on to reroute its parent. -/
def reroutes (pid : ℕ) (s : Core) : Bool :=
  decide ((s.pool.parents pid).leavesQtyLots ≠ 0) && allChildrenTerminal s.pool (s.pool.parents pid)

theorem reroutes_iff {pid : ℕ} {s : Core} : reroutes pid s = true ↔
    (s.pool.parents pid).leavesQtyLots ≠ 0 ∧ allChildrenTerminal s.pool (s.pool.parents pid) = true := by
  rw [reroutes, Bool.and_eq_true, decide_eq_true_eq]

/-- Whether a call goes on to reroute its parent. -/
def Call.startsReroute (cfg : ExecCoreConfig) (w : World) (c : Call) (s : Core) : Bool :=
  match c.entry cfg w s with
  | (.booked pid, s') => reroutes pid s'
  | _ => false

/-- If a call goes on to reroute a parent, that parent and the booked state have the property. -/
def Call.OnReroute (cfg : ExecCoreConfig) (w : World) (P : ℕ → Core → Prop) (c : Call) (s : Core) : Prop :=
  match c.entry cfg w s with
  | (.booked pid, s') => reroutes pid s' = true → P pid s'
  | _ => True

theorem Call.OnReroute.of_not_startsReroute {cfg : ExecCoreConfig} {w : World} {P : ℕ → Core → Prop}
    {c : Call} {s : Core} (h : c.startsReroute cfg w s = false) : c.OnReroute cfg w P s := by
  unfold Call.OnReroute
  unfold Call.startsReroute at h
  split
  · rename_i hentry
    rw [hentry] at h
    intro hr
    exact absurd hr (by simp [h])
  · exact trivial

theorem Call.OnReroute.of_entry {cfg : ExecCoreConfig} {w : World} {P : ℕ → Core → Prop} {c : Call}
    {s s' : Core} {pid : ℕ} (h : c.OnReroute cfg w P s) (hentry : c.entry cfg w s = (.booked pid, s')) :
    reroutes pid s' = true → P pid s' := by
  unfold Call.OnReroute at h
  rw [hentry] at h
  exact h

theorem Call.OnReroute.of_booked {cfg : ExecCoreConfig} {w : World} {P : ℕ → Core → Prop} {c : Call}
    {s : Core} (h : P (c.entry cfg w s).1.pid (c.entry cfg w s).2) : c.OnReroute cfg w P s := by
  unfold Call.OnReroute
  split
  · rename_i hentry
    rw [hentry] at h
    exact fun _ => h
  · exact trivial

/-- Lots a call will still take out of the slack, phase by phase. -/
def owedLots (cfg : ExecCoreConfig) (w : World) : Phase × Core → ℤ
  | (.idle, _) => 0
  | (.booked pid, s) => if reroutes pid s then rerouteDemand cfg w pid s else 0
  | (.trimmed pid ctx, s) => pendingLots ctx (asked w pid ctx s)
  | (.sending _ ctx rest, _) => pendingLots ctx rest

/-- The slack a call will end with. -/
def finalSlack (cfg : ExecCoreConfig) (w : World) (a : Phase × Core) (i : ℕ) (d : OrderDir) : ℤ :=
  a.2.slack i d - onSide (a.2.pool.parents a.1.pid).instrId (a.2.pool.parents a.1.pid).dir i d
    (owedLots cfg w a)

end Demand

end OmsFormal.Oms
