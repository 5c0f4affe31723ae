import OmsFormal.SlackPhases

/-!
# What becomes of an accepted quantity

A parent closes filled, or it closes with one reject for what it has left. So
filled and rejected lots add up to the total it carries when it closes, and that
is the accepted quantity unless a reduce-only reroute has cut it down: that cut
is logged, but no reject is pushed for it.
-/

namespace OmsFormal.Oms
open Sor Rounding OMSOrderPool GuardedRun
set_option autoImplicit false

/-- How a parent with a total of `total` lots closed: filled, or with one reject for the rest. -/
def Settles (total : ℤ) (parent : ParentOrder) (rejects : List OrderReject) : Prop :=
  (rejects = [] ∧ parent.cumQtyLots = total) ∨
  ∃ rej, rejects = [rej] ∧ parent.cumQtyLots + rej.qtyLots = total ∧ rej.instrId = parent.instrId ∧
    rej.dir = parent.dir ∧ rej.strategyId = parent.strategyId

/-- The account of parent `pid` inside a call: its total does not change, and the reject queue grows
over `queue` only when the parent closes, by what settles it. -/
def Accounted (pid : ℕ) (total : ℤ) (queue : List OrderReject) : Phase × Core → Prop
  | (.idle, s) =>
    (s.pool.ParentInUse pid ∧ (s.pool.parents pid).totalQtyLots = total ∧ s.rejectQueue = queue) ∨
    (¬ s.pool.ParentInUse pid ∧
      ∃ new, s.rejectQueue = queue ++ new ∧ Settles total (s.pool.parents pid) new)
  | (.booked p, s) => p = pid ∧ (s.pool.parents pid).totalQtyLots = total ∧ s.rejectQueue = queue ∧
      (reroutes pid s = true → excessLots pid s = 0)
  | (.trimmed p _, s) => p = pid ∧ (s.pool.parents pid).totalQtyLots = total ∧ s.rejectQueue = queue
  | (.sending p _ _, s) => p = pid ∧ (s.pool.parents pid).totalQtyLots = total ∧ s.rejectQueue = queue

variable {cfg : ExecCoreConfig} {w : World} {s : Core} {pid : ℕ} {total : ℤ} {queue : List OrderReject}

section Micro

theorem spscPush_of_room {α : Type} {n : ℕ} {x : α} {q : List α} (h : q.length + 1 < n) :
    spscPush n x q = q ++ [x] := if_pos h

theorem retire_record (pool : OMSOrderPool) (pid : ℕ) (rec : ParentOrder) :
    (pool.retire pid rec).parents pid = rec := by
  simp [retire]

/-- A parent that closes unfilled is settled by the reject for its leaves. -/
theorem closeUnfilled_settles (w : World) (reason : RejectReason) {r : ℕ → ℕ → ℕ} {idle : ℕ → Prop}
    (hinv : StoreInv idle s.pool) (hu : s.pool.ParentInUse pid) (h0 : (s.pool.parents pid).childCount = 0)
    (hq : QtyOk r s.pool pid) (hroom : s.rejectQueue.length + 1 < kOutboundQueueSize) :
    ¬ (closeUnfilled w pid reason s).pool.ParentInUse pid ∧
    ∃ new, (closeUnfilled w pid reason s).rejectQueue = s.rejectQueue ++ new ∧
      Settles (s.pool.parents pid).totalQtyLots ((closeUnfilled w pid reason s).pool.parents pid) new := by
  obtain ⟨st, hpool⟩ := closeUnfilled_retire w reason hinv hu h0
  have hqueue : (closeUnfilled w pid reason s).rejectQueue = s.rejectQueue ++
      [⟨(s.pool.parents pid).leavesQtyLots, (s.pool.parents pid).instrId, (s.pool.parents pid).dir,
        (s.pool.parents pid).strategyId, reason, w.rejectNs⟩] := spscPush_of_room hroom
  refine ⟨by rw [hpool]; exact retire_gone _ _ _, _, hqueue, Or.inr ⟨_, rfl, ?_⟩⟩
  rw [hpool, retire_record]
  exact ⟨hq.total.symm, rfl, rfl, rfl⟩

/-- A parent that closes without leaves is settled by its fills. -/
theorem retire_settles {r : ℕ → ℕ → ℕ} {s' : Core} {st : OrderState} (hq : QtyOk r s.pool pid)
    (hleaves : (s.pool.parents pid).leavesQtyLots = 0)
    (hpool : s'.pool = s.pool.retire pid { s.pool.parents pid with state := st }) :
    ¬ s'.pool.ParentInUse pid ∧
    Settles (s.pool.parents pid).totalQtyLots (s'.pool.parents pid) [] := by
  refine ⟨by rw [hpool]; exact retire_gone _ _ _, Or.inl ⟨rfl, ?_⟩⟩
  rw [hpool, retire_record, hq.total, hleaves, add_zero]

theorem micro_accounted {r : ℕ → ℕ → ℕ} {a b : Phase × Core} (h : Micro cfg w a b)
    (ha : HealthyAt cfg w r a) (hroom : queue.length + 1 < kOutboundQueueSize)
    (hacc : Accounted pid total queue a) : Accounted pid total queue b := by
  obtain ⟨hstore, _, hall, _⟩ := ha
  cases h with
  | @mark pid s =>
    obtain ⟨rfl, htotal, hqueue, hkeep⟩ := hacc
    refine ⟨rfl, by simpa [setParentState_pool] using htotal, hqueue, ?_⟩
    rw [reroutes_setParentState, excessLots_setParentState]
    exact hkeep
  | @close pid s hl =>
    obtain ⟨rfl, rfl, rfl, _⟩ := hacc
    obtain ⟨st, hpool⟩ := closeFilled_retire hstore.2 hstore.1
    have hq := hall pid hstore.1
    obtain ⟨hgone, hsettles⟩ := retire_settles hq (le_antisymm hl hq.leaves_nonneg) hpool
    exact Or.inr ⟨hgone, [], (List.append_nil _).symm, hsettles⟩
  | keep =>
    obtain ⟨rfl, htotal, hqueue, _⟩ := hacc
    exact Or.inl ⟨hstore.1, htotal, hqueue⟩
  | @trim pid s hleft hterm =>
    obtain ⟨rfl, htotal, hqueue, hkeep⟩ := hacc
    have hnone := hkeep (by simp [reroutes, hleft, hterm])
    refine ⟨rfl, ?_, by rw [trimmed_eq]; exact hqueue⟩
    rw [trimmed_record, hnone]
    simpa [ParentOrder.giveUp] using htotal
  | @reduced pid ctx s hflag hl =>
    obtain ⟨rfl, rfl, rfl⟩ := hacc
    obtain ⟨st, hpool⟩ := closeReduceOnlyDone_retire hstore.2.1 hstore.1 hstore.2.2
    obtain ⟨hgone, hsettles⟩ := retire_settles (hall pid hstore.1) hl hpool
    exact Or.inr ⟨hgone, [], (List.append_nil _).symm, hsettles⟩
  | noLiquidity =>
    obtain ⟨rfl, rfl, rfl⟩ := hacc
    exact Or.inr (closeUnfilled_settles _ _ hstore.2.1 hstore.1 hstore.2.2 (hall _ hstore.1) hroom)
  | @route pid ctx s =>
    obtain ⟨rfl, htotal, hqueue⟩ := hacc
    exact ⟨rfl, by simpa [setParentState_pool] using htotal, hqueue⟩
  | send =>
    obtain ⟨rfl, htotal, hqueue⟩ := hacc
    exact ⟨rfl, by simpa [sendChild, attachChild, ParentOrder.addChild] using htotal, hqueue⟩
  | allocFailed hfree =>
    obtain ⟨rfl, htotal, hqueue⟩ := hacc
    exact ⟨rfl, by rw [(allocFailed_sameRecords hfree).parents _ hstore.1]; exact htotal, hqueue⟩
  | @sent pid ctx rest s hcount =>
    obtain ⟨rfl, htotal, hqueue⟩ := hacc
    simp only [Accounted, releaseGap_pool, releaseGap_rejectQueue]
    exact Or.inl ⟨hstore.1, htotal, hqueue⟩
  | @noneSent pid ctx rest s hcount =>
    obtain ⟨rfl, rfl, rfl⟩ := hacc
    have hsettles := closeUnfilled_settles w .childPoolExhausted (s := releaseGap pid ctx rest s)
      (by rw [releaseGap_pool]; exact hstore.2) (by rw [releaseGap_pool]; exact hstore.1)
      (by rw [releaseGap_pool]; exact hcount) (by rw [releaseGap_pool]; exact hall _ hstore.1)
      (by rw [releaseGap_rejectQueue]; exact hroom)
    rw [releaseGap_pool, releaseGap_rejectQueue] at hsettles
    exact Or.inr hsettles

end Micro

end OmsFormal.Oms
