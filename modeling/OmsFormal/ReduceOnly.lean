import OmsFormal.OpenLots
import OmsFormal.Ledger

/-!
# Reduce-only runs

While every order for an instrument is reduce-only, all its parents are on the
side that closes the position, and the clamp keeps the open-lot counter within
it. Fills are then safe as long as the counter is not below what is really in
the market, that is, as long as the slack of that side is not negative. Only a
reroute can spend slack it does not have.
-/

namespace OmsFormal.Oms
open Sor Rounding OMSOrderPool GuardedRun
set_option autoImplicit false

/-- Lots of a position that orders in direction `d` could close. -/
def closable (d : OrderDir) (net : ℤ) : ℤ :=
  match d with
  | .buy => -net
  | .sell => net

def closingDir (net : ℤ) : OrderDir := if net < 0 then .buy else .sell

section Clamp

theorem headroom_of_reduces {p : InstrumentPosition} {dir : OrderDir}
    (h : reducesSomething dir p.netQtyLots = true) :
    headroom p dir = closable dir p.netQtyLots - p.openLots dir := by
  cases dir with
  | buy =>
    have hneg : p.netQtyLots < 0 := by simpa [reducesSomething] using h
    simp [headroom, closable, hneg]
  | sell =>
    have hpos : ¬ p.netQtyLots < 0 := by
      have : p.netQtyLots > 0 := by simpa [reducesSomething] using h
      omega
    simp [headroom, closable, hpos]

theorem clampReduceOnly_spec {pos : PositionTable} {instr : ℕ} {dir : OrderDir} {qty : ℤ} {flag : Bool}
    (hinstr : instr < kMaxInstruments) (hforce : flag = true ∨ (pos.instruments instr).unwindOnly = true)
    (hne : clampReduceOnly pos instr dir qty flag ≠ 0) :
    reducesSomething dir (pos.instruments instr).netQtyLots = true ∧
    clampReduceOnly pos instr dir qty flag ≤
      closable dir (pos.instruments instr).netQtyLots - (pos.instruments instr).openLots dir := by
  have hin : ¬ instr ≥ kMaxInstruments := Nat.not_le.mpr hinstr
  have hon : (!flag && !(pos.instruments instr).unwindOnly) = false := by
    rcases hforce with h | h <;> simp [h]
  simp only [clampReduceOnly, clampReduceOnlyImpl, hin, hon, if_false, Bool.false_eq_true] at hne ⊢
  cases hreduces : reducesSomething dir (pos.instruments instr).netQtyLots with
  | false => simp [hreduces] at hne
  | true =>
    rw [← headroom_of_reduces hreduces]
    simp only [hreduces, Bool.not_true, Bool.false_eq_true, if_false, true_and] at hne ⊢
    split_ifs at hne ⊢ <;> omega

theorem closable_of_reduces {dir : OrderDir} {net : ℤ} :
    reducesSomething dir net = true ↔ 0 < closable dir net := by
  cases dir <;> simp [reducesSomething, closable]

theorem abs_of_reduces {dir : OrderDir} {net : ℤ} (h : reducesSomething dir net = true) :
    closable dir net = |net| := by
  rw [closable_of_reduces] at h
  cases dir with
  | buy =>
    simp only [closable] at h ⊢
    rw [abs_of_neg (by omega)]
  | sell => exact (abs_of_pos h).symm

theorem closing_unique {d dir : OrderDir} {net : ℤ} (h : 0 ≤ closable d net)
    (hreduces : reducesSomething dir net = true) : dir = d := by
  rw [closable_of_reduces] at hreduces
  cases d <;> cases dir <;> simp only [closable] at h hreduces <;> first | rfl | omega

end Clamp

variable {cfg : ExecCoreConfig} {w : World} {s : Core} {i : ℕ} {d : OrderDir}

/-- Lots of instrument `i` that orders in direction `d` could close. -/
def Core.closable (s : Core) (i : ℕ) (d : OrderDir) : ℤ := Oms.closable d (s.pos.instruments i).netQtyLots

/-- No parent of instrument `i` is in use. -/
def OMSOrderPool.Absent (pool : OMSOrderPool) (i : ℕ) : Prop :=
  ∀ p, pool.ParentInUse p → (pool.parents p).instrId ≠ i

/-- The state of a reduce-only instrument while its position is being closed in direction `d`. -/
structure Closing (i : ℕ) (d : OrderDir) (s : Core) : Prop where
  side : ∀ p, s.pool.ParentInUse p → (s.pool.parents p).instrId = i → (s.pool.parents p).dir = d
  room : s.pool.Absent i ∨ (s.pos.instruments i).openLots d ≤ s.closable i d
  net : 0 ≤ s.closable i d

section Micro

theorem onSide_nonneg (j : ℕ) (dir : OrderDir) {lots : ℤ} (h : 0 ≤ lots) : 0 ≤ onSide j dir i d lots := by
  unfold onSide
  split
  · exact h
  · exact le_rfl

theorem micro_openLots_le {a b : Phase × Core} (h : Micro cfg w a b) (ha : HealthyAt cfg w canonical a) :
    (b.2.pos.instruments i).openLots d ≤ (a.2.pos.instruments i).openLots d := by
  cases h with
  | mark => exact le_rfl
  | close => exact le_rfl
  | keep => exact le_rfl
  | @trim pid s =>
    have hnn := onSide_nonneg (i := i) (d := d) (s.pool.parents pid).instrId (s.pool.parents pid).dir
      (excessLots_nonneg pid s)
    simp only [trimmed_openLots]
    omega
  | reduced => exact le_rfl
  | noLiquidity => exact le_rfl
  | route => exact le_rfl
  | send => exact le_rfl
  | allocFailed => exact le_rfl
  | @sent pid ctx rest s =>
    have hphase := ha.qty.2
    have hnn := onSide_nonneg (i := i) (d := d) (s.pool.parents pid).instrId (s.pool.parents pid).dir
      (pendingLots_nonneg hphase.pos)
    simp only [releaseGap_openLots hphase]
    omega
  | @noneSent pid ctx rest s =>
    have hphase := ha.qty.2
    have hnn := onSide_nonneg (i := i) (d := d) (s.pool.parents pid).instrId (s.pool.parents pid).dir
      (pendingLots_nonneg hphase.pos)
    have hpos : (closeUnfilled w pid .childPoolExhausted (releaseGap pid ctx rest s)).pos =
      (releaseGap pid ctx rest s).pos := rfl
    simp only [hpos, releaseGap_openLots hphase]
    omega

/-- No parent appears, and those that stay keep instrument and direction. -/
def SameSides (pool pool' : OMSOrderPool) : Prop :=
  ∀ p, pool'.ParentInUse p → pool.ParentInUse p ∧
    (pool'.parents p).instrId = (pool.parents p).instrId ∧ (pool'.parents p).dir = (pool.parents p).dir

/-- A step that adds no parent has to keep the position and the counter in their bounds. -/
theorem Closing.of_sameSides {s' : Core} (hc : Closing i d s) (hsides : SameSides s.pool s'.pool)
    (hnet : 0 ≤ s'.closable i d)
    (hroom : (s.pos.instruments i).openLots d ≤ s.closable i d →
      (s'.pos.instruments i).openLots d ≤ s'.closable i d) : Closing i d s' := by
  refine ⟨fun p hu hp => ?_, ?_, hnet⟩
  · obtain ⟨hu', hinstr, hdir⟩ := hsides p hu
    rw [hdir]
    exact hc.side p hu' (by rw [← hinstr]; exact hp)
  · rcases hc.room with habsent | hle
    · refine Or.inl fun p hu => ?_
      obtain ⟨hu', hinstr, _⟩ := hsides p hu
      rw [hinstr]
      exact habsent p hu'
    · exact Or.inr (hroom hle)

theorem micro_closing {a b : Phase × Core} (h : Micro cfg w a b) (ha : HealthyAt cfg w canonical a)
    (hc : Closing i d a.2) : Closing i d b.2 := by
  have hnet : b.2.closable i d = a.2.closable i d := by rw [Core.closable, micro_net h i]; rfl
  refine hc.of_sameSides (fun p hu => ?_) (by rw [hnet]; exact hc.net) fun hroom => ?_
  · obtain ⟨hu', hdeal⟩ := micro_deal h ha.store hu
    exact ⟨hu', hdeal.instrId, hdeal.dir⟩
  · rw [hnet]
    exact (micro_openLots_le h ha).trans hroom

end Micro

section Entry

theorem modifyParent_sides {pool : OMSOrderPool} {pid : ℕ} {g : ParentOrder → ParentOrder}
    (hinstr : (g (pool.parents pid)).instrId = (pool.parents pid).instrId)
    (hdir : (g (pool.parents pid)).dir = (pool.parents pid).dir) :
    SameSides pool (pool.modifyParent pid g) := by
  intro p hu
  refine ⟨hu, ?_⟩
  by_cases hp : p = pid
  · subst hp
    rw [modifyParent_parents, Function.update_self]
    exact ⟨hinstr, hdir⟩
  · rw [modifyParent_parents, Function.update_of_ne hp]
    exact ⟨rfl, rfl⟩

/-- What one live child has in the market is part of its side's exposure. -/
theorem leaves_le_exposure (hs : Healthy canonical s) {cid : ℕ} (hlive : s.pool.ChildLive cid) :
    (s.pool.children cid).leavesQtyLots ≤
      s.pool.exposure (s.pool.parents (s.parentOf cid)).instrId (s.pool.parents (s.parentOf cid)).dir := by
  have hu := hs.store.parentOf_inUse hlive.1
  have hopen : (s.pool.children cid).openLots ≤ s.pool.openLeaves (s.parentOf cid) := by
    apply List.single_le_sum
    · intro x hx
      obtain ⟨c, hc, rfl⟩ := List.mem_map.mp hx
      exact openLots_nonneg hs hu hc
    · exact List.mem_map_of_mem (hs.store.mem_childIds hlive.1)
  have hshare : s.pool.share (s.pool.parents (s.parentOf cid)).instrId
      (s.pool.parents (s.parentOf cid)).dir (s.parentOf cid) = s.pool.openLeaves (s.parentOf cid) :=
    if_pos ⟨hu, rfl, rfl⟩
  rw [ChildOrderState.openLots_of_live hlive.2, ← hshare] at hopen
  exact hopen.trans (Finset.single_le_sum (fun p _ => share_nonneg hs p) (Finset.mem_range.mpr hu.1))

theorem closable_add (dir : OrderDir) (lots : ℤ) (net : ℤ) :
    Oms.closable dir (match dir with
      | .buy => net + lots
      | .sell => net - lots) = Oms.closable dir net - lots := by
  cases dir with
  | buy =>
    simp only [Oms.closable]
    omega
  | sell => rfl

/-- A fill of a closing instrument closes that much of its position. -/
theorem bookFill_closable (rep : ExecutionReport) {pid : ℕ}
    (hscaled : w.Scaled cfg canonical (s.pool.parents pid).instrId)
    (hside : (s.pool.parents pid).instrId = i → (s.pool.parents pid).dir = d) :
    (bookFill cfg w rep.childId pid rep s).closable i d = s.closable i d -
      onSide (s.pool.parents pid).instrId (s.pool.parents pid).dir i d rep.fillQtyLots := by
  rw [Core.closable, bookFill_net, hscaled.toCanonicalLots]
  simp only [canonical, Nat.cast_one, one_mul, onSide]
  by_cases hi : (s.pool.parents pid).instrId = i
  · rw [if_pos hi.symm, if_pos ⟨hi, hside hi⟩, hside hi]
    exact closable_add d _ _
  · rw [if_neg fun h => hi h.symm, if_neg fun h => hi h.1, sub_zero]
    rfl

theorem bookFill_closing {rep : ExecutionReport} (hs : Healthy canonical s) (hc : Closing i d s)
    (hslack : 0 ≤ s.slack i d) (hlive : s.pool.ChildLive rep.childId) (hmin : 1 ≤ rep.fillQtyLots)
    (hmax : rep.fillQtyLots ≤ (s.pool.children rep.childId).leavesQtyLots)
    (hscaled : w.Scaled cfg canonical (s.pool.parents (s.parentOf rep.childId)).instrId) :
    Closing i d (bookFill cfg w rep.childId (s.parentOf rep.childId) rep s) ∧
    (bookFill cfg w rep.childId (s.parentOf rep.childId) rep s).closable i d ≤ s.closable i d := by
  have hu := hs.store.parentOf_inUse hlive.1
  have hside := hc.side _ hu
  have hclosable := bookFill_closable rep hscaled hside
  have hnn := onSide_nonneg (i := i) (d := d) (s.pool.parents (s.parentOf rep.childId)).instrId
    (s.pool.parents (s.parentOf rep.childId)).dir (zero_le_one.trans hmin)
  refine ⟨hc.of_sameSides (modifyParent_sides rfl rfl) ?_ fun hroom => ?_, by omega⟩
  · rw [hclosable]
    by_cases hi : (s.pool.parents (s.parentOf rep.childId)).instrId = i
    · have hleaves := leaves_le_exposure hs hlive
      rw [hi, hside hi] at hleaves ⊢
      have hroom := hc.room.resolve_left fun habsent => habsent _ hu hi
      simp only [Core.slack] at hslack
      rw [onSide_self]
      omega
    · have hnet := hc.net
      rw [onSide, if_neg fun h => hi h.1]
      omega
  · rw [hclosable, bookFill_openLots hscaled]
    omega

theorem bookCancel_closing {cid : ℕ} {rep : ExecutionReport} (hs : Healthy canonical s)
    (hc : Closing i d s) (hlive : s.pool.ChildLive cid)
    (hscaled : w.Scaled cfg canonical (s.pool.parents (s.parentOf cid)).instrId) :
    Closing i d (bookCancel cfg w cid (s.parentOf cid) rep s) ∧
    (bookCancel cfg w cid (s.parentOf cid) rep s).closable i d = s.closable i d := by
  have hnet : (bookCancel cfg w cid (s.parentOf cid) rep s).closable i d = s.closable i d := by
    rw [Core.closable, bookCancel_net]
    rfl
  have hleaves := ((hs.qty _ (hs.store.parentOf_inUse hlive.1)).child cid (hs.store.mem_childIds hlive.1)
    (hs.store.working_of_live hlive)).2
  have hnn := onSide_nonneg (i := i) (d := d) (s.pool.parents (s.parentOf cid)).instrId
    (s.pool.parents (s.parentOf cid)).dir hleaves
  refine ⟨hc.of_sameSides (modifyParent_sides rfl rfl) (by rw [hnet]; exact hc.net) fun hroom => ?_, hnet⟩
  rw [hnet, bookCancel_openLots hscaled]
  omega

end Entry

end OmsFormal.Oms
