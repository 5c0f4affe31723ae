import OmsFormal.CallEntries
import OmsFormal.SingleChange
import Mathlib.Algebra.Order.BigOperators.Group.List

/-!
# Quantity conservation

`r e i` is the number of canonical lots of instrument `i` in one native lot of
venue `e`. A working child counts for its canonical leaves, but never for less
than one lot: a child order too small for its venue is sent with zero native
lots, yet it was split off from at least one canonical lot of its parent. With
that reading the children of a parent never cover more than its leaves, so a
parent without leaves has no child at work.
-/

namespace OmsFormal.Oms
open Sor Rounding OMSOrderPool
set_option autoImplicit false

/-- Every venue's lot is a whole number of canonical lots of instrument `instr`. -/
structure World.Scaled (cfg : ExecCoreConfig) (r : ℕ → ℕ → ℕ) (w : World) (instr : ℕ) : Prop where
  lot : ∀ e, (w.states e).book.lotSize = r e instr * cfg.instruments.lotSize instr
  pos : ∀ e, 1 ≤ r e instr

variable {cfg : ExecCoreConfig} {w : World} {r : ℕ → ℕ → ℕ}

theorem World.Scaled.toCanonicalLots {instr : ℕ} (h : w.Scaled cfg r instr) (child : ChildOrderState)
    (n : ℤ) : Oms.toCanonicalLots cfg w child instr n = r child.exchangeId instr * n := by
  rw [Oms.toCanonicalLots, h.lot]
  exact roundHalfAway_scaled (cfg.instruments.lotSize_pos instr) _ n

/-- The native lots a child order of `n` canonical lots is sent with. -/
theorem World.Scaled.toLots {instr : ℕ} (h : w.Scaled cfg r instr) (e : ℕ) {n : ℤ} (hn : 0 ≤ n) :
    toLots (n * cfg.instruments.lotSize instr) (w.states e).book.lotSize = n / r e instr := by
  rw [Sor.toLots, h.lot]
  exact truncate_scaled (cfg.instruments.lotSize_pos instr) (h.pos e) n hn

section Weights

/-- Canonical lots of instrument `instr` a child stands for. -/
def ChildOrderState.weight (r : ℕ → ℕ → ℕ) (instr : ℕ) (c : ChildOrderState) : ℤ :=
  if c.state.working then max 1 (r c.exchangeId instr * c.leavesQtyLots) else 0

theorem ChildOrderState.weight_nonneg (instr : ℕ) (c : ChildOrderState) : 0 ≤ c.weight r instr := by
  unfold weight
  split
  · exact zero_le_one.trans (le_max_left _ _)
  · exact le_rfl

theorem ChildOrderState.weight_of_working {instr : ℕ} {c : ChildOrderState}
    (h : c.state.working = true) : c.weight r instr = max 1 (r c.exchangeId instr * c.leavesQtyLots) :=
  if_pos h

theorem ChildOrderState.weight_of_idle {instr : ℕ} {c : ChildOrderState}
    (h : c.state.working = false) : c.weight r instr = 0 := by
  simp [weight, h]

theorem ChildOrderState.one_le_weight {instr : ℕ} {c : ChildOrderState}
    (h : c.state.working = true) : 1 ≤ c.weight r instr := by
  simp [weight, h]

/-- What the children of parent `p` stand for together. -/
def OMSOrderPool.committed (r : ℕ → ℕ → ℕ) (pool : OMSOrderPool) (p : ℕ) : ℤ :=
  ((pool.parents p).childIds.map fun c =>
    (pool.children c).weight r (pool.parents p).instrId).sum

/-- The quantities of one parent and its children. -/
structure QtyOk (r : ℕ → ℕ → ℕ) (pool : OMSOrderPool) (p : ℕ) : Prop where
  total : (pool.parents p).totalQtyLots = (pool.parents p).cumQtyLots + (pool.parents p).leavesQtyLots
  cum : 0 ≤ (pool.parents p).cumQtyLots
  child : ∀ c ∈ (pool.parents p).childIds, (pool.children c).state.working = true →
    (pool.children c).leavesQtyLots = (pool.children c).qtyLots - (pool.children c).cumQtyLots ∧
    0 ≤ (pool.children c).leavesQtyLots
  covered : pool.committed r p ≤ (pool.parents p).leavesQtyLots

variable {pool pool' : OMSOrderPool} {p : ℕ}

theorem committed_nonneg (r : ℕ → ℕ → ℕ) (pool : OMSOrderPool) (p : ℕ) : 0 ≤ pool.committed r p := by
  apply List.sum_nonneg
  intro x hx
  obtain ⟨c, _, rfl⟩ := List.mem_map.mp hx
  exact ChildOrderState.weight_nonneg _ _

theorem weight_le_committed {c : ℕ} (hc : c ∈ (pool.parents p).childIds) :
    (pool.children c).weight r (pool.parents p).instrId ≤ pool.committed r p := by
  apply List.single_le_sum
  · intro x hx
    obtain ⟨c, _, rfl⟩ := List.mem_map.mp hx
    exact ChildOrderState.weight_nonneg _ _
  · exact List.mem_map_of_mem hc

theorem QtyOk.leaves_nonneg (h : QtyOk r pool p) : 0 ≤ (pool.parents p).leavesQtyLots :=
  (committed_nonneg r pool p).trans h.covered

theorem QtyOk.leaves_pos (h : QtyOk r pool p) (ha : pool.Alive p) :
    1 ≤ (pool.parents p).leavesQtyLots := by
  obtain ⟨c, hc, hw⟩ := ha
  calc 1 ≤ (pool.children c).weight r (pool.parents p).instrId := ChildOrderState.one_le_weight hw
    _ ≤ pool.committed r p := weight_le_committed hc
    _ ≤ _ := h.covered

theorem QtyOk.idle_of_leaves (h : QtyOk r pool p) (hl : (pool.parents p).leavesQtyLots ≤ 0) :
    ∀ c ∈ (pool.parents p).childIds, (pool.children c).state.working = false := by
  intro c hc
  by_contra hw
  have hpos := h.leaves_pos ⟨c, hc, by simpa using hw⟩
  omega

theorem QtyOk.of_same (h : QtyOk r pool p)
    (hids : (pool'.parents p).childIds = (pool.parents p).childIds)
    (hinstr : (pool'.parents p).instrId = (pool.parents p).instrId)
    (htotal : (pool'.parents p).totalQtyLots = (pool.parents p).totalQtyLots)
    (hcum : (pool'.parents p).cumQtyLots = (pool.parents p).cumQtyLots)
    (hleaves : (pool'.parents p).leavesQtyLots = (pool.parents p).leavesQtyLots)
    (hchildren : ∀ c ∈ (pool.parents p).childIds, pool'.children c = pool.children c) :
    QtyOk r pool' p := by
  have hcommitted : pool'.committed r p = pool.committed r p := by
    simp only [committed, hids, hinstr]
    apply SingleChange.list_sum_of_agree
    intro c hc
    rw [hchildren c hc]
  refine ⟨by rw [htotal, hcum, hleaves]; exact h.total, by rw [hcum]; exact h.cum, ?_, ?_⟩
  · intro c hc hw
    rw [hids] at hc
    rw [hchildren c hc] at hw ⊢
    exact h.child c hc hw
  · rw [hcommitted, hleaves]
    exact h.covered

theorem QtyOk.of_record (h : QtyOk r pool p) (hrec : pool'.parents p = pool.parents p)
    (hchildren : ∀ c ∈ (pool.parents p).childIds, pool'.children c = pool.children c) :
    QtyOk r pool' p :=
  h.of_same (by rw [hrec]) (by rw [hrec]) (by rw [hrec]) (by rw [hrec]) (by rw [hrec]) hchildren

/-- Every parent in use satisfies its quantity invariant. -/
def AllQty (r : ℕ → ℕ → ℕ) (pool : OMSOrderPool) : Prop := ∀ p, pool.ParentInUse p → QtyOk r pool p

/-- A local step has to be checked at its own parent only. -/
theorem AllQty.of_local {pid : ℕ} {idle : ℕ → Prop} (h : AllQty r pool) (hinv : StoreInv idle pool)
    (hloc : Local pid pool pool') (hpid : pool'.ParentInUse pid → QtyOk r pool' pid) :
    AllQty r pool' := by
  intro q hu
  by_cases hq : q = pid
  · rw [hq] at hu ⊢
    exact hpid hu
  · have hu' := (hloc.inUse q hq).mp hu
    exact (h q hu').of_record (hloc.record q hq hu') fun c hc =>
      (hloc.child_eq (hinv.ok q) hq hu' hc).2

theorem AllQty.of_sameRecords {idle : ℕ → Prop} (h : AllQty r pool) (hinv : StoreInv idle pool)
    (hsame : SameRecords pool pool') : AllQty r pool' := by
  intro q hu
  have hu' := (inUse_of_parentFree hsame.parentFree q).mp hu
  exact (h q hu').of_record (hsame.parents q hu') fun c hc =>
    hsame.children c ((hinv.ok q).owned hu' c hc).1

end Weights

section Clamp

theorem clampReduceOnly_nonneg (pos : PositionTable) (instr : ℕ) (dir : OrderDir) {qty : ℤ}
    (h : 0 ≤ qty) (flag : Bool) : 0 ≤ clampReduceOnly pos instr dir qty flag := by
  unfold clampReduceOnly clampReduceOnlyImpl
  split_ifs <;> omega

theorem clampReduceOnly_le {pos : PositionTable} {instr : ℕ} {dir : OrderDir} {qty : ℤ} {flag : Bool}
    (h : clampReduceOnly pos instr dir qty flag ≠ 0) : clampReduceOnly pos instr dir qty flag ≤ qty := by
  unfold clampReduceOnly clampReduceOnlyImpl at h ⊢
  split_ifs at h ⊢ <;> omega

theorem excessLots_le {pid : ℕ} {s : Core} (h : 0 ≤ (s.pool.parents pid).leavesQtyLots) :
    excessLots pid s ≤ (s.pool.parents pid).leavesQtyLots := by
  simp only [excessLots]
  split
  · have hsafe := clampReduceOnly_nonneg s.pos (s.pool.parents pid).instrId (s.pool.parents pid).dir h true
    have hmin := le_min h hsafe
    omega
  · exact h

end Clamp

end OmsFormal.Oms
