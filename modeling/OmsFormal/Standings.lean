import OmsFormal.DeadSignals

/-!
# What a fill settles

The standing of an order is its record and its position without the averages, the
label and the clock, with the margin, the children and the snapshots. Booking a
fill adds to it, and fills add up. Trimming an order for a reroute, and the request
it makes, are decided by its standing.
-/

namespace OmsFormal.Oms
open Sor Rounding OMSOrderPool GuardedRun
set_option autoImplicit false

/-- A record without its label, its average price and its clock. -/
def ParentOrder.audit (p : ParentOrder) : ParentOrder :=
  { p with state := .new, avgFillPrice := 0, lastUpdateNs := 0 }

def InstrumentPosition.audit (p : InstrumentPosition) : InstrumentPosition :=
  { p with avgEntryPrice := 0 }

structure Standing where
  parent : ParentOrder
  position : InstrumentPosition
  margin : MarginMonitor
  children : ℕ → ChildOrderState
  bookCache : BookSnapshotCache

/-- What an order has settled: its quantities, the net position and the open lots of its
instrument, the locked margin. -/
@[ext] structure Accounts where
  cumQtyLots : ℤ
  leavesQtyLots : ℤ
  netQtyLots : ℤ
  openLots : OrderDir → ℤ
  lockedMargin : ℚ

def standing (pid : ℕ) (s : Core) : Standing where
  parent := (s.pool.parents pid).audit
  position := (s.pos.instruments (s.pool.parents pid).instrId).audit
  margin := s.marginMonitor
  children := s.pool.children
  bookCache := s.bookCache

def Standing.accounts (x : Standing) : Accounts where
  cumQtyLots := x.parent.cumQtyLots
  leavesQtyLots := x.parent.leavesQtyLots
  netQtyLots := x.position.netQtyLots
  openLots := x.position.openLots
  lockedMargin := x.margin.lockedMargin

def accounts (pid : ℕ) (s : Core) : Accounts := (standing pid s).accounts

section Fill

/-- `lots` of child `cid` are filled at `px`, worth `canonical` lots of the instrument. -/
def Standing.fill (cfg : ExecCoreConfig) (cid : ℕ) (px : ℚ) (lots canonical : ℤ) (x : Standing) : Standing :=
  { x with
    parent := { x.parent with
      cumQtyLots := x.parent.cumQtyLots + canonical
      leavesQtyLots := x.parent.totalQtyLots - (x.parent.cumQtyLots + canonical) }
    position := InstrumentPosition.releaseOpen x.parent.dir canonical { x.position with
      netQtyLots := x.position.netQtyLots + match x.parent.dir with
        | .buy => canonical
        | .sell => -canonical }
    margin := x.margin.onFill cfg.margin canonical px (cfg.instruments.lotSize x.parent.instrId)
    children := Function.update x.children cid ((x.children cid).fill lots) }

variable {cfg : ExecCoreConfig} {w : World} {pid cid : ℕ} {px : ℚ} {a b F G : ℤ}

theorem ChildOrderState.fill_fill (c : ChildOrderState) : (c.fill a).fill b = c.fill (a + b) := by
  simp only [fill, add_assoc]

theorem Standing.fill_fill (x : Standing) :
    (x.fill cfg cid px a F).fill cfg cid px b G = x.fill cfg cid px (a + b) (F + G) := by
  have hmargin : (x.margin.onFill cfg.margin F px (cfg.instruments.lotSize x.parent.instrId)).onFill
      cfg.margin G px (cfg.instruments.lotSize x.parent.instrId) =
        x.margin.onFill cfg.margin (F + G) px (cfg.instruments.lotSize x.parent.instrId) := by
    simp only [MarginMonitor.onFill]
    push_cast
    congr 1
    ring
  simp only [fill, Function.update_self, Function.update_idem, ChildOrderState.fill_fill, hmargin, add_assoc]
  congr 1
  cases x.parent.dir with
  | buy =>
    simp only [InstrumentPosition.releaseOpen, InstrumentPosition.mk.injEq, and_true]
    omega
  | sell =>
    simp only [InstrumentPosition.releaseOpen, InstrumentPosition.mk.injEq, true_and, and_true]
    omega

theorem standing_bookFill (cfg : ExecCoreConfig) (w : World) (pid : ℕ) (rep : ExecutionReport) (s : Core) :
    standing pid (bookFill cfg w cid pid rep s) = (standing pid s).fill cfg cid
      (rep.fillPriceTicks * (w.states (s.pool.children cid).exchangeId).book.tickSize) rep.fillQtyLots
      (toCanonicalLots cfg w (s.pool.children cid) (s.pool.parents pid).instrId rep.fillQtyLots) := by
  have hinstr : ((bookFill cfg w cid pid rep s).pool.parents pid).instrId = (s.pool.parents pid).instrId := by
    simp [bookFill, ParentOrder.fill]
  simp only [standing, hinstr]
  simp only [bookFill, modifyParent_parents, modifyParent_children, modifyChild_children, modifyChild_parents,
    Function.update_self, PositionTable.modify]
  cases hdir : (s.pool.parents pid).dir with
  | buy => simp [Standing.fill, ParentOrder.fill, ParentOrder.audit, InstrumentPosition.audit, hdir,
      InstrumentPosition.applyFill, InstrumentPosition.releaseOpen]
  | sell => simp [Standing.fill, ParentOrder.fill, ParentOrder.audit, InstrumentPosition.audit, hdir,
      InstrumentPosition.applyFill, InstrumentPosition.releaseOpen]

end Fill

section Steps
variable {cfg : ExecCoreConfig} {w : World} {pid : ℕ} {s : Core}

@[simp] theorem standing_setParentState (st : OrderState) :
    standing pid (s.setParentState pid st) = standing pid s := by
  simp [standing, Core.setParentState, ParentOrder.audit]

@[simp] theorem standing_closeFilled : standing pid (closeFilled pid s) = standing pid s := by
  simp [standing, closeFilled, Core.setParentState, freeParent, freeSlots_eq, ParentOrder.audit]

@[simp] theorem standing_closeUnfilled (reason : RejectReason) :
    standing pid (closeUnfilled w pid reason s) = standing pid s := by
  simp [standing, closeUnfilled, notifyReject, Core.setParentState, freeParent, ParentOrder.audit]

@[simp] theorem standing_closeReduceOnlyDone : standing pid (closeReduceOnlyDone pid s) = standing pid s := by
  simp [standing, closeReduceOnlyDone, Core.setParentState, freeParent, ParentOrder.audit]

end Steps

section Reroute
variable (cfg : ExecCoreConfig) (w : World)

/-- What a reduce-only order gives up of its leaves. -/
def Standing.excess (x : Standing) : ℤ :=
  let p := x.parent
  if p.reduceOnly then
    p.leavesQtyLots - min p.leavesQtyLots
      (if p.instrId ≥ kMaxInstruments then p.leavesQtyLots
      else clampReduceOnlyImpl x.position p.dir p.leavesQtyLots true)
  else 0

def Standing.trim (x : Standing) : Standing :=
  { x with
    parent := { x.parent with
      childCount := 0
      childMask := 0
      totalQtyLots := x.parent.totalQtyLots - x.excess
      leavesQtyLots := x.parent.leavesQtyLots - x.excess }
    position := x.position.releaseOpen x.parent.dir x.excess }

/-- The request of a reroute. -/
def Standing.request (x : Standing) : RoutingContext :=
  let inputs := x.bookCache.getRoutingInputs x.parent.dir (UInt64.ofNat w.decisionNs)
  { buildRoutingContext cfg w x.parent x.trim.parent.leavesQtyLots with
    shortVolFactor := inputs.shortVolFactor
    bookImbalance := inputs.bookImbalance }

/-- The children a reroute hands back before it dispatches. -/
def Standing.handedBack (x : Standing) : ℕ :=
  (x.parent.childIds.filter fun c => (x.children c).state.terminal).length

def Accounts.release (dir : OrderDir) (lots : ℤ) (a : Accounts) : Accounts :=
  { a with openLots := fun d => a.openLots d - if d = dir then lots else 0 }

/-- The accounts a reroute leaves where `free` children can be allocated. -/
def Standing.rerouted (free : ℕ) (x : Standing) : Accounts :=
  if x.parent.reduceOnly = true ∧ x.trim.parent.leavesQtyLots = 0 then x.trim.accounts
  else
    let ctx := x.request cfg w
    let unsent :=
      (w.router.optimalSplit ctx).drop (min ParentOrder.kMaxChildrenPerParent (x.handedBack + free))
    x.trim.accounts.release x.parent.dir (max (gapLots ctx unsent) 0)

variable {cfg w} {pid : ℕ} {s : Core}

@[simp] theorem Accounts.release_zero (dir : OrderDir) (a : Accounts) : a.release dir 0 = a := by
  ext d
  · rfl
  · rfl
  · rfl
  · simp [release]
  · rfl

theorem clampReduceOnlyImpl_audit (p : InstrumentPosition) (dir : OrderDir) (qty : ℤ) (flag : Bool) :
    clampReduceOnlyImpl p.audit dir qty flag = clampReduceOnlyImpl p dir qty flag := by
  cases dir <;> rfl

theorem excessLots_standing : excessLots pid s = (standing pid s).excess := by
  simp only [excessLots, Standing.excess, standing, clampReduceOnlyImpl_audit]
  rfl

theorem releaseOpen_audit (dir : OrderDir) (lots : ℤ) (p : InstrumentPosition) :
    (p.releaseOpen dir lots).audit = p.audit.releaseOpen dir lots := by
  cases dir <;> rfl

theorem standing_trimmed : standing pid (trimmed pid s) = (standing pid s).trim := by
  have hrec := trimmed_record pid s
  have hpos : (trimmed pid s).pos.instruments (s.pool.parents pid).instrId =
      (s.pos.instruments (s.pool.parents pid).instrId).releaseOpen (s.pool.parents pid).dir
        (excessLots pid s) := by
    rw [trimmed_eq]
    exact Function.update_self _ _ _
  have hchildren : (trimmed pid s).pool.children = s.pool.children := by
    rw [trimmed_eq]
    simp [releaseChildren]
  have hinstr : ((trimmed pid s).pool.parents pid).instrId = (s.pool.parents pid).instrId := by
    rw [hrec]
    rfl
  have hrest : (trimmed pid s).marginMonitor = s.marginMonitor ∧ (trimmed pid s).bookCache = s.bookCache := by
    rw [trimmed_eq]
    exact ⟨rfl, rfl⟩
  rw [standing, hinstr, hpos, hrec, hchildren, hrest.1, hrest.2, releaseOpen_audit, excessLots_standing]
  rfl

theorem trimmedContext_standing : trimmedContext cfg w pid s = (standing pid s).request cfg w := by
  have hleaves : ((trimmed pid s).pool.parents pid).leavesQtyLots =
    (standing pid s).trim.parent.leavesQtyLots := by
    rw [← standing_trimmed]
    rfl
  rw [trimmedContext, hleaves]
  rfl

theorem trimmed_childFree : (trimmed pid s).pool.childFree.length =
    (standing pid s).handedBack + s.pool.childFree.length := by
  rw [trimmed_eq]
  simp [releaseChildren, Standing.handedBack, standing]
  rfl

end Reroute

end OmsFormal.Oms
