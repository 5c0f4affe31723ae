import OmsFormal.Standings

/-!
# The accounts a fill leads to

Once a fill is booked, `handle_fill` closes the parent, waits for its other
children or routes what is left. Where the accounts end up is a function of the
standing it has booked, and of the number of free children if it dispatches again.
-/

namespace OmsFormal.Oms
open Sor Rounding OMSOrderPool GuardedRun
set_option autoImplicit false

section Dispatch
variable {cfg : ExecCoreConfig} {w : World} {pid : ℕ} {ctx : RoutingContext}

/-- A dispatch sends what it has slots and children for, in order. -/
theorem dispatchLoop_rest (cfg : ExecCoreConfig) (w : World) (ctx : RoutingContext) (i : ℕ)
    (buf : List ChildOrder)
    (s : Core) (hcount : (s.pool.parents pid).childCount = i) :
    (dispatchLoop cfg w pid ctx i buf s).2 =
      buf.drop (min (ParentOrder.kMaxChildrenPerParent - i) s.pool.childFree.length) := by
  induction buf generalizing i s with
  | nil => rw [List.drop_nil]; rfl
  | cons co rest ih =>
    rcases Nat.lt_or_ge (s.pool.parents pid).childCount ParentOrder.kMaxChildrenPerParent with hroom | hfull
    · cases hfree : s.pool.childFree with
      | nil => rw [dispatchLoop_noChild hroom hfree, List.length_nil, Nat.min_zero, List.drop_zero]
      | cons cid free =>
        have hmin : min (ParentOrder.kMaxChildrenPerParent - i) (cid :: free).length =
            min (ParentOrder.kMaxChildrenPerParent - (i + 1)) free.length + 1 := by
          rw [List.length_cons]
          omega
        rw [dispatchLoop_send hcount hroom hfree, ih (i + 1) _ (by rw [sendChild_count, hcount]), hmin,
          List.drop_succ_cons]
        rfl
    · rw [dispatchLoop_full hfull, Nat.sub_eq_zero_of_le (hcount ▸ hfull), Nat.zero_min, List.drop_zero]

theorem accounts_dispatchLoop (cfg : ExecCoreConfig) (w : World) (ctx : RoutingContext) (i : ℕ)
    (buf : List ChildOrder) (s : Core)
    (hcount : (s.pool.parents pid).childCount = i) :
    accounts pid (dispatchLoop cfg w pid ctx i buf s).1 = accounts pid s ∧
    ((dispatchLoop cfg w pid ctx i buf s).1.pool.parents pid).dir = (s.pool.parents pid).dir := by
  refine dispatchLoop_rule (fun _ s1 => accounts pid s1 = accounts pid s ∧
    (s1.pool.parents pid).dir = (s.pool.parents pid).dir) ?_ ?_ i buf s hcount ⟨rfl, rfl⟩
  · rintro co rest s1 cid free ⟨hsame, hdir⟩ _ _
    refine ⟨Eq.trans ?_ hsame, Eq.trans ?_ hdir⟩
    · simp [accounts, standing, Standing.accounts, sendChild, attachChild, ParentOrder.addChild,
        ParentOrder.audit]
    · simp [sendChild, attachChild, ParentOrder.addChild]
  · rintro co rest s1 ⟨hsame, hdir⟩ hnil
    have hparents := allocChild_parents s1.pool
    refine ⟨Eq.trans ?_ hsame, by rw [hparents]; exact hdir⟩
    simp only [accounts, standing, Standing.accounts, hparents]

theorem accounts_releaseGap (rest : List ChildOrder) (s : Core) :
    accounts pid (releaseGap pid ctx rest s) =
      (accounts pid s).release (s.pool.parents pid).dir (max (gapLots ctx rest) 0) := by
  rw [releaseGap_eq]
  ext d
  · rfl
  · rfl
  · simp [accounts, Standing.accounts, standing, Accounts.release, PositionTable.modify,
      InstrumentPosition.audit]
  · simp only [accounts, Standing.accounts, standing, Accounts.release, PositionTable.modify,
      Function.update_self,
      releaseOpen_audit, releaseOpen_openLots]
  · rfl

/-- A dispatch takes what it could not send out of the open lots. -/
theorem accounts_dispatchChildOrders (buf : List ChildOrder) {s : Core}
    (hcount : (s.pool.parents pid).childCount = 0) :
    accounts pid (dispatchChildOrders cfg w pid buf ctx s) =
      (accounts pid s).release (s.pool.parents pid).dir
        (max (gapLots ctx (buf.drop (min ParentOrder.kMaxChildrenPerParent s.pool.childFree.length))) 0) := by
  have hrest := dispatchLoop_rest cfg w ctx 0 buf s hcount
  obtain ⟨hsame, hdir⟩ := accounts_dispatchLoop cfg w ctx 0 buf s hcount
  have hgap : accounts pid (releaseGap pid ctx (dispatchLoop cfg w pid ctx 0 buf s).2
      (dispatchLoop cfg w pid ctx 0 buf s).1) = (accounts pid s).release (s.pool.parents pid).dir
        (max (gapLots ctx (buf.drop (min ParentOrder.kMaxChildrenPerParent s.pool.childFree.length))) 0) := by
    rw [accounts_releaseGap, hsame, hdir, hrest]
    rfl
  rw [← hgap]
  simp only [dispatchChildOrders]
  split
  · simp only [accounts, standing_closeUnfilled]
  · rfl

theorem accounts_routeLeaves {s : Core} (hcount : (s.pool.parents pid).childCount = 0) :
    accounts pid ((routeLeaves w pid ctx s).run cfg w) = (accounts pid s).release (s.pool.parents pid).dir
      (max (gapLots ctx ((w.router.optimalSplit ctx).drop
        (min ParentOrder.kMaxChildrenPerParent s.pool.childFree.length))) 0) := by
  unfold routeLeaves
  cases w.router.optimalSplit ctx with
  | nil =>
    have hnone : gapLots ctx [] = 0 := by simp [gapLots]
    simp only [Flow.run, accounts, standing_closeUnfilled, List.drop_nil, hnone, max_self,
      Accounts.release_zero]
  | cons co rest =>
    have hcount' : ((s.setParentState pid .pendingNew).pool.parents pid).childCount = 0 := by
      simpa [Core.setParentState] using hcount
    have hdir : ((s.setParentState pid .pendingNew).pool.parents pid).dir = (s.pool.parents pid).dir := by
      simp [Core.setParentState]
    simp only [Flow.run]
    rw [accounts_dispatchChildOrders _ hcount', hdir]
    simp only [accounts, standing_setParentState]
    rfl

/-- A reroute leaves the accounts that the standing and the free children decide. -/
theorem accounts_rerouteLeaves (s : Core) : accounts pid ((rerouteLeaves cfg w pid s).run cfg w) =
    (standing pid s).rerouted cfg w s.pool.childFree.length := by
  have htrim : accounts pid (trimmed pid s) = (standing pid s).trim.accounts := congrArg _ standing_trimmed
  have hleaves : ((trimmed pid s).pool.parents pid).leavesQtyLots =
    (standing pid s).trim.parent.leavesQtyLots :=
    congrArg (fun x : Standing => x.parent.leavesQtyLots) standing_trimmed
  have hdir : ((trimmed pid s).pool.parents pid).dir = (standing pid s).parent.dir :=
    congrArg (fun x : Standing => x.parent.dir) standing_trimmed
  rw [rerouteLeaves_eq, trimmedContext_standing, hleaves, Standing.rerouted]
  by_cases hdone : (standing pid s).parent.reduceOnly = true ∧ (standing pid s).trim.parent.leavesQtyLots = 0
  · have hdone' : (s.pool.parents pid).reduceOnly = true ∧
        (standing pid s).trim.parent.leavesQtyLots = 0 := hdone
    rw [if_pos hdone, if_pos hdone']
    simp only [Flow.run, accounts, standing_closeReduceOnlyDone]
    exact htrim
  · have hdone' : ¬ ((s.pool.parents pid).reduceOnly = true ∧
        (standing pid s).trim.parent.leavesQtyLots = 0) := hdone
    rw [if_neg hdone, if_neg hdone', accounts_routeLeaves (trimmed_childCount s), htrim, hdir,
      trimmed_childFree]

end Dispatch

section After
variable (cfg : ExecCoreConfig) (w : World)

/-- What `handle_fill` does once the report is booked. -/
def afterFill (pid : ℕ) (s : Core) : Flow :=
  if (s.pool.parents pid).leavesQtyLots = 0 then .finished (closeFilled pid s)
  else
    let s := s.setParentState pid .partiallyFilled
    if allChildrenTerminal s.pool (s.pool.parents pid) then rerouteLeaves cfg w pid s
    else .finished s

theorem handleFill_eq (cid pid : ℕ) (rep : ExecutionReport) (s : Core) :
    handleFill cfg w cid pid rep s = afterFill cfg w pid (bookFill cfg w cid pid rep s) := rfl

/-- No child of the order is working. -/
def Standing.idle (x : Standing) : Bool :=
  x.parent.childIds.all fun c => !(x.children c).state.working

/-- The accounts a fill leads to once it is booked. -/
def Standing.settled (free : ℕ) (x : Standing) : Accounts :=
  if x.parent.leavesQtyLots ≠ 0 ∧ x.idle = true then x.rerouted cfg w free else x.accounts

variable {cfg w} {pid cid : ℕ}

theorem allChildrenTerminal_standing (s : Core) :
    allChildrenTerminal s.pool (s.pool.parents pid) = (standing pid s).idle := by
  rw [Bool.eq_iff_iff, allChildrenTerminal_iff, Standing.idle, List.all_eq_true]
  simp only [Bool.not_eq_true']
  rfl

theorem accounts_afterFill (s : Core) : accounts pid ((afterFill cfg w pid s).run cfg w) =
    (standing pid s).settled cfg w s.pool.childFree.length := by
  have hidle : allChildrenTerminal (s.setParentState pid .partiallyFilled).pool
      ((s.setParentState pid .partiallyFilled).pool.parents pid) = (standing pid s).idle := by
    rw [allChildrenTerminal_standing, standing_setParentState]
  simp only [afterFill, hidle, Standing.settled]
  by_cases hleaves : (s.pool.parents pid).leavesQtyLots = 0
  · rw [if_pos hleaves, if_neg fun h => h.1 hleaves]
    simp only [Flow.run, accounts, standing_closeFilled]
  · rw [if_neg hleaves]
    by_cases hall : (standing pid s).idle = true
    · rw [if_pos hall, if_pos ⟨hleaves, hall⟩, accounts_rerouteLeaves, standing_setParentState]
      rfl
    · rw [if_neg hall, if_neg fun h => hall h.2]
      simp only [Flow.run, accounts, standing_setParentState]

/-- While one of its children works, an order keeps its standing, and gives ids back only when
nothing is left of it. -/
theorem afterFill_working (cfg : ExecCoreConfig) (w : World) {s : Core}
    (hmem : cid ∈ (s.pool.parents pid).childIds)
    (hworks : (s.pool.children cid).state.working = true) :
    standing pid ((afterFill cfg w pid s).run cfg w) = standing pid s ∧
    (((afterFill cfg w pid s).run cfg w).pool.childFree = s.pool.childFree ∨
      (s.pool.parents pid).leavesQtyLots = 0) := by
  have hidle : allChildrenTerminal (s.setParentState pid .partiallyFilled).pool
      ((s.setParentState pid .partiallyFilled).pool.parents pid) = false := by
    rw [allChildrenTerminal_standing, standing_setParentState, ← allChildrenTerminal_standing,
      ← Bool.not_eq_true,
      allChildrenTerminal_iff]
    intro hall
    rw [hall cid hmem] at hworks
    cases hworks
  simp only [afterFill, hidle]
  split
  · rename_i hleaves
    exact ⟨standing_closeFilled, Or.inr hleaves⟩
  · exact ⟨standing_setParentState _, Or.inl rfl⟩

/-- Where nothing is left to route a fill settles what it booked. -/
theorem Standing.settled_of_nonpos {eng : RoutingEngine} (hreal : w.router = eng.router)
    (free : ℕ) {x : Standing}
    (h : x.parent.leavesQtyLots ≤ 0) : x.settled cfg w free = x.accounts := by
  rw [settled]
  split
  · rename_i hleft
    have hclamp : x.parent.leavesQtyLots ≤ (if x.parent.instrId ≥ kMaxInstruments then x.parent.leavesQtyLots
        else clampReduceOnlyImpl x.position x.parent.dir x.parent.leavesQtyLots true) := by
      unfold clampReduceOnlyImpl
      split_ifs <;> omega
    have hexcess : x.excess = 0 := by
      simp only [excess, min_eq_left hclamp, sub_self, ite_self]
    have hsame : x.trim.accounts = x.accounts := by
      simp only [trim, hexcess, accounts, sub_zero]
      cases x.parent.dir <;> simp [InstrumentPosition.releaseOpen]
    have hkept : x.trim.parent.leavesQtyLots = x.parent.leavesQtyLots := by
      simp only [trim, hexcess, sub_zero]
    have hnone : w.router.optimalSplit (x.request cfg w) = [] := by
      by_contra hne
      rw [hreal] at hne
      have href : (x.request cfg w).referenceLotSize = cfg.instruments.lotSize x.parent.instrId := rfl
      have hpos : 0 < resolveReferenceLotSize (x.request cfg w) := by
        rw [resolveReferenceLotSize_of_pos (href ▸ cfg.instruments.lotSize_pos _), href]
        exact cfg.instruments.lotSize_pos _
      have hone := optimalSplit_target eng hpos hne
      have htarget : (x.request cfg w).targetLots = x.trim.parent.leavesQtyLots := rfl
      omega
    rw [rerouted, if_neg fun hdone => hleft.1 (hkept ▸ hdone.2)]
    simp only [hnone, hsame, List.drop_nil]
    simp [gapLots]
  · rfl

/-- Nothing that follows the booking moves the net position. -/
theorem Standing.settled_net (free : ℕ) (x : Standing) :
    (x.settled cfg w free).netQtyLots = x.position.netQtyLots := by
  have htrim : x.trim.accounts.netQtyLots = x.position.netQtyLots := by
    simp only [trim, accounts]
    cases x.parent.dir <;> rfl
  rw [settled]
  split
  · rw [rerouted]
    split
    · exact htrim
    · exact htrim
  · rfl

end After

end OmsFormal.Oms
