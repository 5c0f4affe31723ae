import OmsFormal.BackedOrders

/-!
# Every move keeps the orders backed

One lemma a move. A call is checked at its entry, where the report or the signal
is booked; `Market.Sound.finish` carries the invariant to its return.
-/

namespace OmsFormal.Oms
open Sor Rounding OMSOrderPool
set_option autoImplicit false

variable {cfg : ExecCoreConfig} {w : World} {M : Market} {x : ExchangeOrder}

theorem Market.sound_start {s : Core} (h0 : Fresh s) (hempty : ∀ ex, s.gateways ex = []) :
    (Market.start s).Sound := by
  have hnone (p : ℕ) : ¬ s.pool.ParentInUse p := h0.parentInUse p
  refine ⟨?_, fun p hp => absurd hp (hnone p), fun p hp => absurd hp (hnone p), fun _ _ => rfl,
    fun p hp => absurd hp (hnone p), fun p hp => absurd hp (hnone p), fun _ => le_rfl⟩
  constructor
  · intro ex
    simp [Market.start, hempty]
  · intro ex p hp
    simp [Market.start, hempty] at hp
  · intro x hx
    cases hx
  · intro ex
    simp [Market.start, outIds, hempty]

section Outside

theorem Env.apply_gateways {e : Env} (he : ∀ ex, e ≠ .gatewayPop ex) (s : Core) :
    (e.apply s).gateways = s.gateways := by
  cases e with
  | advance => rfl
  | setUnwindMode i b =>
    simp only [Env.apply, Core.setUnwindMode]
    split <;> rfl
  | onMarkPrice mark lot i =>
    simp only [Env.apply, Core.onMarkPrice]
    split <;> rfl
  | onRestMargin equity used ts => rfl
  | onBookSnapshot ex snap =>
    simp only [Env.apply, Core.onBookSnapshot]
    split <;> rfl
  | gatewayPop ex => exact absurd rfl (he ex)
  | rejectPop => rfl

/-- What happens outside the calls concerns neither the store nor the queues. -/
theorem Market.Sound.env {e : Env} (h : M.Sound) (he : ∀ ex, e ≠ .gatewayPop ex) :
    (M.step cfg (.env e)).Sound := by
  have hpool : (e.apply M.core).pool = M.core.pool := (e.apply_sameBooks M.core).pool
  refine ⟨h.backing.of_same hpool (e.apply_gateways he M.core), ?_, ?_, h.unopened, ?_, ?_, h.bound⟩
  all_goals simp only [Market.step, hpool]
  · exact h.opened
  · exact h.only
  · exact h.filled
  · exact h.total

end Outside

section Exchanges

theorem Market.Sound.take (h : M.Sound) (ex : ℕ) : (M.take ex).Sound := by
  unfold Market.take
  split
  · rename_i o os n tags hqueue htags
    refine ⟨h.backing.take hqueue htags, h.opened, h.only, h.unopened, fun p hp => ?_, h.total, h.bound⟩
    have hfresh (k : ℕ) : unreportedFor k (ExchangeOrder.received o n :: M.orders) =
        unreportedFor k M.orders := by
      simp [unreportedFor, ExchangeOrder.received, ExchangeOrder.unreported]
    rw [hfresh]
    exact h.filled p hp
  · exact h

theorem ExchangeOrder.Backed.execute {owner : ℕ → ℕ} {s : Core} {rep : ExecutionReport} (h : x.Backed owner s)
    (hchild : rep.childId = x.order.childId) (hfill : rep.execType.isFill = true)
    (hmin : 1 ≤ rep.fillQtyLots) (hmax : x.executed + rep.fillQtyLots ≤ x.order.qtyLots) :
    (x.execute rep).Backed owner s ∧ (x.execute rep).unreported = x.unreported + rep.fillQtyLots := by
  have hunreported : (x.execute rep).unreported = x.unreported + rep.fillQtyLots := by
    simp only [ExchangeOrder.execute, ExchangeOrder.unreported, List.map_cons, List.sum_cons]
    omega
  refine ⟨⟨h.live, h.owned, ?_, hmax, fun r hr => ?_, h.ended⟩, hunreported⟩
  · rw [hunreported]
    simp only [ExchangeOrder.execute, h.leaves]
    omega
  · rcases List.mem_cons.mp hr with rfl | hr
    · exact ⟨hchild, hfill, hmin⟩
    · exact h.reports r hr

theorem Market.Sound.execute {i : ℕ} {rep : ExecutionReport} (h : M.Sound) (hs : Healthy canonical M.core)
    (hposs : (Move.execute i rep).Possible M) : (M.execute i rep).Sound := by
  obtain ⟨x, hx, -, hchild, hfill, hmin, hmax⟩ := hposs
  have hxb : x.Backed M.owner M.core := h.backing.resting x (List.mem_of_getElem? hx)
  obtain ⟨hx', hunreported⟩ := hxb.execute hchild hfill hmin hmax
  have hstep : M.execute i rep = { M with
      executed := Function.update M.executed x.owner (M.executed x.owner + rep.fillQtyLots)
      orders := M.orders.set i (x.execute rep) } := by
    simp only [Market.execute, hx]
  have hpid := hs.store.parentOf_inUse hxb.live.1
  have hlt : x.owner < M.opened := hxb.owned ▸ h.opened _ hpid
  have hexecuted : (M.execute i rep).executed =
      Function.update M.executed x.owner (M.executed x.owner + rep.fillQtyLots) := by rw [hstep]
  have hbacking := h.backing.set hx hx' rfl
  have hfilled (p : ℕ) (hp : M.core.pool.ParentInUse p) :
      (M.execute i rep).executed (M.owner p) = (M.core.pool.parents p).cumQtyLots +
        unreportedFor (M.owner p) (M.orders.set i (x.execute rep)) := by
    have hold := h.filled p hp
    rw [hexecuted, unreportedFor_set hx (x.execute rep) rfl, hunreported]
    by_cases howner : x.owner = M.owner p
    · rw [if_pos howner, howner, Function.update_self]
      omega
    · rw [if_neg howner, Function.update_of_ne (Ne.symm howner)]
      omega
  have hroom := Market.executed_le_accepted (M := M.execute i rep) (by rw [hstep]; exact hs)
    (by rw [hstep]; exact hbacking) (by rw [hstep]; exact hpid) (by rw [hstep]; exact h.only _ hpid)
    (by rw [hstep] at hfilled ⊢; exact hfilled _ hpid) (by rw [hstep]; exact h.total _ hpid)
  rw [hstep] at hfilled hexecuted hroom ⊢
  refine ⟨hbacking, h.opened, h.only, fun n hn => ?_, hfilled, h.total, fun n => ?_⟩
  · have hne : n ≠ x.owner := fun heq => absurd (heq ▸ hlt) (not_lt.mpr hn)
    exact (Function.update_of_ne hne _ _).trans (h.unopened n hn)
  · by_cases hn : n = x.owner
    · simp only [hxb.owned] at hroom
      rw [hn]
      exact hroom
    · rw [hexecuted, Function.update_of_ne hn]
      exact h.bound n

theorem Market.Sound.close {i : ℕ} {rep : ExecutionReport} (h : M.Sound)
    (hposs : (Move.close i rep).Possible M) : (M.close i rep).Sound := by
  obtain ⟨x, hx, -, hchild, hkind, -⟩ := hposs
  have hxb : x.Backed M.owner M.core := h.backing.resting x (List.mem_of_getElem? hx)
  have hx' : ({ x with ended := some rep } : ExchangeOrder).Backed M.owner M.core := by
    refine ⟨hxb.live, hxb.owned, hxb.leaves, hxb.executed, hxb.reports, fun r hr => ?_⟩
    obtain rfl := Option.some.inj hr
    exact ⟨hchild, hkind⟩
  have hstep : M.close i rep = { M with orders := M.orders.set i { x with ended := some rep } } := by
    simp only [Market.close, hx]
  rw [hstep]
  refine ⟨h.backing.set hx hx' rfl, h.opened, h.only, h.unopened, fun p hp => ?_, h.total, h.bound⟩
  have hsame : unreportedFor (M.owner p) (M.orders.set i { x with ended := some rep }) =
      unreportedFor (M.owner p) M.orders := by
    rw [unreportedFor_set hx { x with ended := some rep } rfl]
    simp [ExchangeOrder.unreported]
  rw [hsame]
  exact h.filled p hp

end Exchanges

end OmsFormal.Oms
