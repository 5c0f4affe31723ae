import OmsFormal.Runs

/-!
# The order store through the phases of a call

Inside a call one parent may be without a working child: the one the call is
about. `StoreAt` says what the store invariant is in each phase; every small step
keeps it and touches nothing but that parent and its children.
-/

namespace OmsFormal.Oms
open Sor Rounding OMSOrderPool
set_option autoImplicit false

def Phase.pid : Phase → ℕ
  | .idle => 0
  | .booked pid => pid
  | .trimmed pid _ => pid
  | .sending pid _ _ => pid

theorem Micro.pid_eq {cfg : ExecCoreConfig} {w : World} {a b : Phase × Core} (h : Micro cfg w a b)
    (hidle : b.1 ≠ .idle) : b.1.pid = a.1.pid := by
  cases h <;> first | rfl | exact absurd rfl hidle

/-- The store invariant, phase by phase. -/
def StoreAt : Phase × Core → Prop
  | (.idle, s) => StoreInv Quiet s.pool
  | (.booked pid, s) => s.pool.ParentInUse pid ∧ StoreInv (fun q => q = pid) s.pool
  | (.trimmed pid _, s) => s.pool.ParentInUse pid ∧ StoreInv (fun q => q = pid) s.pool ∧
      (s.pool.parents pid).childCount = 0
  | (.sending pid _ _, s) => s.pool.ParentInUse pid ∧
      StoreInv (fun q => q = pid ∧ (s.pool.parents pid).childCount = 0) s.pool

variable {cfg : ExecCoreConfig} {w : World} {pid : ℕ} {s : Core}

theorem OMSOrderPool.StoreInv.mono {idle idle' : ℕ → Prop} {pool : OMSOrderPool}
    (h : StoreInv idle pool) (himp : ∀ q, idle q → idle' q) : StoreInv idle' pool :=
  ⟨h.parentFree, h.childFree, h.ok, fun q hu hn => h.alive q hu fun hi => hn (himp q hi)⟩

/-- A parent that turns out to have a working child need not be excepted. -/
theorem OMSOrderPool.StoreInv.settle (pid : ℕ) {idle idle' : ℕ → Prop} {pool : OMSOrderPool}
    (h : StoreInv idle pool) (halive : pool.Alive pid) (himp : ∀ q, idle q → q ≠ pid → idle' q) :
    StoreInv idle' pool := by
  refine ⟨h.parentFree, h.childFree, h.ok, ?_⟩
  intro q hu hn
  by_cases hq : q = pid
  · rw [hq]
    exact halive
  · exact h.alive q hu fun hi => hn (himp q hi hq)

section Pools

theorem trimmed_pool
    (hterm : ∀ c ∈ (s.pool.parents pid).childIds, (s.pool.children c).state.terminal = true) :
    (trimmed pid s).pool =
      (s.pool.clearChildren pid).modifyParent pid (ParentOrder.giveUp (excessLots pid s)) := by
  rw [trimmed_eq]
  simp only [releaseChildren_pool hterm]

theorem giveUp_sameSlots (excess : ℤ) (p : ParentOrder) : ParentOrder.SameSlots p (p.giveUp excess) :=
  ⟨rfl, rfl, rfl, rfl, rfl⟩

theorem setParentState_pool (st : OrderState) :
    (s.setParentState pid st).pool = s.pool.modifyParent pid fun p => { p with state := st } := rfl

theorem setParentState_storeInv {idle : ℕ → Prop} (st : OrderState) (hinv : StoreInv idle s.pool) :
    StoreInv idle (s.setParentState pid st).pool := by
  rw [setParentState_pool]
  exact modifyParent_storeInv ⟨rfl, rfl, rfl, rfl, rfl⟩ hinv

theorem setParentState_local (st : OrderState) : Local pid s.pool (s.setParentState pid st).pool := by
  rw [setParentState_pool]
  exact modifyParent_local s.pool pid _

theorem allocFailed_sameRecords (h : s.pool.childFree = []) :
    SameRecords s.pool s.pool.allocChild.2 := by
  simp only [allocChild, h]
  exact ⟨fun _ _ => rfl, fun _ _ => rfl, rfl, h.symm⟩

theorem alive_of_working (h : allChildrenTerminal s.pool (s.pool.parents pid) = false) :
    s.pool.Alive pid := by
  by_contra hdead
  have hall : allChildrenTerminal s.pool (s.pool.parents pid) = true := by
    rw [allChildrenTerminal_iff]
    intro c hc
    by_contra hw
    exact hdead ⟨c, hc, by simpa using hw⟩
  rw [hall] at h
  cases h

theorem childIds_nil {idle : ℕ → Prop} (hinv : StoreInv idle s.pool) (hu : s.pool.ParentInUse pid)
    (h0 : (s.pool.parents pid).childCount = 0) : (s.pool.parents pid).childIds = [] :=
  ParentOrder.childIds_eq_nil ((hinv.ok pid).packed hu) h0

end Pools

section Micro

/-- A parent in use whose slots are empty is closed by handing back its own id alone. -/
theorem closeUnfilled_retire {idle : ℕ → Prop} (w : World) (reason : RejectReason)
    (hinv : StoreInv idle s.pool)
    (hu : s.pool.ParentInUse pid) (h0 : (s.pool.parents pid).childCount = 0) :
    ∃ st, (closeUnfilled w pid reason s).pool =
      s.pool.retire pid { s.pool.parents pid with state := st } :=
  ⟨_, closeUnfilled_pool ((hinv.ok pid).parentId hu) (childIds_nil hinv hu h0)⟩

/-- An empty dispatch closes its parent in the same way, whatever gap it released. -/
theorem noneSent_retire {idle : ℕ → Prop} (ctx : RoutingContext) (rest : List ChildOrder)
    (hinv : StoreInv idle s.pool) (hu : s.pool.ParentInUse pid)
    (h0 : (s.pool.parents pid).childCount = 0) :
    ∃ st, (closeUnfilled w pid .childPoolExhausted (releaseGap pid ctx rest s)).pool =
      s.pool.retire pid { s.pool.parents pid with state := st } := by
  have h : StoreInv idle (releaseGap pid ctx rest s).pool → _ := fun hinv' =>
    closeUnfilled_retire w .childPoolExhausted hinv' (by rw [releaseGap_pool]; exact hu)
      (by rw [releaseGap_pool]; exact h0)
  simp only [releaseGap_pool] at h
  exact h hinv

theorem closeReduceOnlyDone_retire {idle : ℕ → Prop} (hinv : StoreInv idle s.pool)
    (hu : s.pool.ParentInUse pid) (h0 : (s.pool.parents pid).childCount = 0) :
    ∃ st, (closeReduceOnlyDone pid s).pool =
      s.pool.retire pid { s.pool.parents pid with state := st } :=
  ⟨_, closeReduceOnlyDone_pool ((hinv.ok pid).parentId hu) (childIds_nil hinv hu h0)⟩

theorem closeFilled_retire {idle : ℕ → Prop} (hinv : StoreInv idle s.pool)
    (hu : s.pool.ParentInUse pid) :
    ∃ st, (closeFilled pid s).pool = s.pool.retire pid { s.pool.parents pid with state := st } :=
  ⟨_, closeFilled_pool ((hinv.ok pid).parentId hu)⟩

theorem retire_idle {idle : ℕ → Prop} (hinv : StoreInv idle s.pool) (hidle : ∀ q, idle q → q = pid)
    (hu : s.pool.ParentInUse pid) (rec : ParentOrder) : StoreInv Quiet (s.pool.retire pid rec) :=
  retire_storeInv (hinv.mono fun q hq => Or.inr (hidle q hq)) hu rec

theorem trimmed_storeInv (hinv : StoreInv (fun q => q = pid) s.pool) (hu : s.pool.ParentInUse pid)
    (hall : allChildrenTerminal s.pool (s.pool.parents pid) = true) :
    StoreInv (fun q => q = pid) (trimmed pid s).pool := by
  rw [trimmed_pool (terminal_of_allChildrenTerminal hinv hu hall)]
  refine modifyParent_storeInv (giveUp_sameSlots _ _) ?_
  exact (clear_storeInv hinv hu).mono fun q hq => hq.elim id id

theorem sendChild_storeInv {ctx : RoutingContext} {cid : ℕ} {free : List ℕ} {co : ChildOrder}
    {idle : ℕ → Prop} (hinv : StoreInv idle s.pool) (hidle : ∀ q, idle q → q = pid)
    (hu : s.pool.ParentInUse pid)
    (hroom : (s.pool.parents pid).childCount < ParentOrder.kMaxChildrenPerParent)
    (hfree : s.pool.childFree = cid :: free) :
    StoreInv Quiet (sendChild cfg w pid ctx cid free co s).pool := by
  have hsent := attach_storeInv (newChild w (s.pool.parents pid).parentId ctx cid co)
    hinv hu hfree hroom ((hinv.ok pid).parentId hu) rfl rfl
  exact hsent.mono fun q hq => hq.2 (hidle q hq.1)

theorem micro_store {a b : Phase × Core} (h : Micro cfg w a b) (ha : StoreAt a) : StoreAt b := by
  cases h with
  | mark => exact ⟨ha.1, setParentState_storeInv _ ha.2⟩
  | close =>
    obtain ⟨st, hpool⟩ := closeFilled_retire ha.2 ha.1
    simp only [StoreAt, hpool]
    exact retire_idle ha.2 (fun _ => id) ha.1 _
  | keep h => exact ha.2.settle _ (alive_of_working h) fun q hq hn => hn hq
  | trim hleft hall =>
    refine ⟨?_, trimmed_storeInv ha.2 ha.1 hall, trimmed_childCount _⟩
    rw [trimmed_pool (terminal_of_allChildrenTerminal ha.2 ha.1 hall)]
    exact ha.1
  | reduced hflag hl =>
    obtain ⟨st, hpool⟩ := closeReduceOnlyDone_retire ha.2.1 ha.1 ha.2.2
    simp only [StoreAt, hpool]
    exact retire_idle ha.2.1 (fun _ => id) ha.1 _
  | noLiquidity hnone =>
    obtain ⟨st, hpool⟩ := closeUnfilled_retire w .noLiquidity ha.2.1 ha.1 ha.2.2
    simp only [StoreAt, hpool]
    exact retire_idle ha.2.1 (fun _ => id) ha.1 _
  | route hleft hsplit =>
    refine ⟨ha.1, (setParentState_storeInv _ ha.2.1).mono ?_⟩
    intro q hq
    exact ⟨hq, by simpa [Core.setParentState] using ha.2.2⟩
  | send hroom hfree =>
    exact ⟨ha.1, (sendChild_storeInv ha.2 (fun _ hq => hq.1) ha.1 hroom hfree).mono fun _ => False.elim⟩
  | allocFailed hfree =>
    have hsame := allocFailed_sameRecords hfree
    refine ⟨(inUse_of_parentFree hsame.parentFree _).mpr ha.1, ?_⟩
    simp only [hsame.parents _ ha.1]
    exact hsame.storeInv ha.2
  | sent hcount =>
    simp only [StoreAt, releaseGap_pool]
    exact ha.2.mono fun q hq => hcount hq.2
  | @noneSent pid ctx rest s hcount =>
    obtain ⟨st, hpool⟩ := noneSent_retire (w := w) ctx rest ha.2 ha.1 hcount
    simp only [StoreAt, hpool]
    exact retire_idle ha.2 (fun _ hq => hq.1) ha.1 _

/-- No small step touches another parent or its children. -/
theorem micro_local {a b : Phase × Core} (h : Micro cfg w a b) (ha : StoreAt a) :
    Local a.1.pid a.2.pool b.2.pool := by
  cases h with
  | mark => exact setParentState_local _
  | close =>
    obtain ⟨st, hpool⟩ := closeFilled_retire ha.2 ha.1
    simp only [hpool]
    exact retire_local ha.2 ha.1 _
  | keep h => exact Local.refl _ _
  | trim hleft hall =>
    simp only [trimmed_pool (terminal_of_allChildrenTerminal ha.2 ha.1 hall)]
    exact (clear_local ha.2 ha.1).trans (modifyParent_local _ _ _)
  | reduced hflag hl =>
    obtain ⟨st, hpool⟩ := closeReduceOnlyDone_retire ha.2.1 ha.1 ha.2.2
    simp only [hpool]
    exact retire_local ha.2.1 ha.1 _
  | noLiquidity hnone =>
    obtain ⟨st, hpool⟩ := closeUnfilled_retire w .noLiquidity ha.2.1 ha.1 ha.2.2
    simp only [hpool]
    exact retire_local ha.2.1 ha.1 _
  | route => exact setParentState_local _
  | send hroom hfree => exact attach_local _ ha.2 hfree ((ha.2.ok _).parentId ha.1)
  | allocFailed hfree => exact (allocFailed_sameRecords hfree).isLocal _
  | sent hcount =>
    simp only [releaseGap_pool]
    exact Local.refl _ _
  | @noneSent pid ctx rest s hcount =>
    obtain ⟨st, hpool⟩ := noneSent_retire (w := w) ctx rest ha.2 ha.1 hcount
    simp only [hpool]
    exact retire_local ha.2 ha.1 _

end Micro

end OmsFormal.Oms
