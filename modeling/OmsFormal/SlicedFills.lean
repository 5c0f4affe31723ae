import OmsFormal.SettledAccounts
import OmsFormal.Lifecycle

/-!
# Executions reported in slices

A venue may report an execution in one fill or in several. Every report is
converted to canonical lots on its own, so the books do not depend on the slices
exactly if the native lots of the execution round evenly: rounded one by one they
come to what they round to together. A fill that completes the parent early only
gives ids back; the accounts go on as if it had not.
-/

namespace OmsFormal.Oms
open Sor Rounding OMSOrderPool GuardedRun
set_option autoImplicit false

/-- A report that child `cid` filled some lots at `price`. -/
structure ExecutionReport.Fills (cid : ℕ) (price : ℤ) (rep : ExecutionReport) : Prop where
  child : rep.childId = cid
  kind : rep.execType = .partialFill ∨ rep.execType = .fill
  price : rep.fillPriceTicks = price
  lots : 1 ≤ rep.fillQtyLots

/-- The reports are those of an execution of `n` lots. -/
structure Slicing (cid : ℕ) (price n : ℤ) (reps : List ExecutionReport) : Prop where
  fills : ∀ rep ∈ reps, rep.Fills cid price
  total : (reps.map ExecutionReport.fillQtyLots).sum = n

/-- A child that waits for its fills, listed by its parent. -/
structure Outstanding (cid : ℕ) (s : Core) : Prop where
  live : s.pool.ChildLive cid
  parent : s.pool.ParentInUse (s.parentOf cid)
  listed : cid ∈ (s.pool.parents (s.parentOf cid)).childIds
  leaves : (s.pool.children cid).leavesQtyLots =
    (s.pool.children cid).qtyLots - (s.pool.children cid).cumQtyLots

theorem Healthy.outstanding {r : ℕ → ℕ → ℕ} {s : Core} {cid : ℕ} (hs : Healthy r s)
    (hlive : s.pool.ChildLive cid) :
    Outstanding cid s := by
  have hu := hs.store.parentOf_inUse hlive.1
  have hmem := hs.store.mem_childIds hlive.1
  exact ⟨hlive, hu, hmem, ((hs.qty _ hu).child _ hmem (hs.store.working_of_live hlive)).1⟩

section Deliver
variable (cfg : ExecCoreConfig) (w : World)

/-- Reports handled one after the other. -/
def deliver (reps : List ExecutionReport) (s : Core) : Core :=
  run (step cfg) s (reps.map fun rep => .call w (.report rep))

/-- Canonical lots in one native lot of the child's venue. -/
def lotRatio (cid pid : ℕ) (s : Core) : ℚ :=
  (w.states (s.pool.children cid).exchangeId).book.lotSize /
    cfg.instruments.lotSize (s.pool.parents pid).instrId

/-- The canonical lots the reports are booked with, each converted on its own. -/
def bookedLots (ratio : ℚ) (reps : List ExecutionReport) : ℤ :=
  ((reps.map ExecutionReport.fillQtyLots).map fun n : ℤ => roundHalfAway (n * ratio)).sum

variable {cfg w} {cid pid : ℕ} {price : ℤ} {rep : ExecutionReport} {s t : Core}

/-- What of an outstanding child lasts until its last fill, even if the parent is freed before. -/
structure Attached (cid pid : ℕ) (x : Standing) : Prop where
  parent : (x.children cid).parentId = pid
  listed : cid ∈ x.parent.childIds
  leaves : (x.children cid).leavesQtyLots = (x.children cid).qtyLots - (x.children cid).cumQtyLots

theorem Attached.fill (cfg : ExecCoreConfig) {x : Standing} (h : Attached cid pid x) (px : ℚ)
    (lots canonical : ℤ) :
    Attached cid pid (x.fill cfg cid px lots canonical) := by
  refine ⟨?_, h.listed, ?_⟩
  · rw [← h.parent]
    simp [Standing.fill, ChildOrderState.fill]
  · simp [Standing.fill, ChildOrderState.fill]

theorem step_fill (hrep : rep.Fills cid price) (hcid : cid < kMaxTotalChildren)
    (hpid : pid < kMaxParentOrders)
    (hatt : Attached cid pid (standing pid s)) :
    step cfg (.call w (.report rep)) s = (afterFill cfg w pid (bookFill cfg w cid pid rep s)).run cfg w := by
  have hparent : (s.pool.children rep.childId).parentId = pid := by
    rw [hrep.child]
    exact hatt.parent
  simp only [step, Call.apply, onExecutionReport, reportFlow]
  rw [if_neg (by rw [hrep.child]; exact Nat.not_le.mpr hcid), hparent, if_neg (Nat.not_le.mpr hpid),
    hrep.child]
  rcases hrep.kind with hkind | hkind
  · rw [hkind]
    rfl
  · rw [hkind]
    rfl

theorem standing_booked (cfg : ExecCoreConfig) (w : World) (pid : ℕ) (hrep : rep.Fills cid price) (s : Core) :
    standing pid (bookFill cfg w cid pid rep s) = (standing pid s).fill cfg cid
      (price * (w.states (s.pool.children cid).exchangeId).book.tickSize) rep.fillQtyLots
      (roundHalfAway (rep.fillQtyLots * lotRatio cfg w cid pid s)) := by
  rw [standing_bookFill, hrep.price, toCanonicalLots, mul_div_assoc]
  rfl

/-- Lots of the report are settled, and ids given back only if they were the parent's last. -/
structure PartlyFilled (cfg : ExecCoreConfig) (w : World) (cid pid : ℕ) (price : ℤ) (rep : ExecutionReport)
    (s s' : Core) : Prop where
  standing : standing pid s' = (standing pid s).fill cfg cid
    (price * (w.states (s.pool.children cid).exchangeId).book.tickSize) rep.fillQtyLots
    (roundHalfAway (rep.fillQtyLots * lotRatio cfg w cid pid s))
  childFree : s'.pool.childFree = s.pool.childFree ∨ (s.pool.parents pid).totalQtyLots =
    (s.pool.parents pid).cumQtyLots + roundHalfAway (rep.fillQtyLots * lotRatio cfg w cid pid s)

/-- A fill that leaves lots with its child goes into the standing and is done. -/
theorem step_partial (hrep : rep.Fills cid price) (hcid : cid < kMaxTotalChildren)
    (hpid : pid < kMaxParentOrders)
    (hatt : Attached cid pid (standing pid s))
    (hleft : rep.fillQtyLots < (s.pool.children cid).leavesQtyLots) :
    PartlyFilled cfg w cid pid price rep s (step cfg (.call w (.report rep)) s) := by
  have hbooked := standing_booked cfg w pid hrep s
  have hchild : (bookFill cfg w cid pid rep s).pool.children cid =
    (s.pool.children cid).fill rep.fillQtyLots := by
    simp [bookFill]
  have hworks : ((bookFill cfg w cid pid rep s).pool.children cid).state.working = true := by
    have hleaves : (s.pool.children cid).leavesQtyLots =
        (s.pool.children cid).qtyLots - (s.pool.children cid).cumQtyLots := hatt.leaves
    rw [hchild, ChildOrderState.fill, if_neg (by omega)]
    rfl
  have hmem : cid ∈ ((bookFill cfg w cid pid rep s).pool.parents pid).childIds := by
    have hlisted := hbooked ▸ (hatt.fill cfg _ _ _).listed
    exact hlisted
  rw [step_fill hrep hcid hpid hatt]
  obtain ⟨hstanding, hfree⟩ := afterFill_working cfg w hmem hworks
  refine ⟨hstanding.trans hbooked, hfree.imp id fun hzero => ?_⟩
  have hleaves : ((bookFill cfg w cid pid rep s).pool.parents pid).leavesQtyLots =
    (s.pool.parents pid).totalQtyLots -
      ((s.pool.parents pid).cumQtyLots + roundHalfAway (rep.fillQtyLots * lotRatio cfg w cid pid s)) :=
    congrArg (fun x : Standing => x.parent.leavesQtyLots) hbooked
  omega

section PartlyFilled
variable {s' : Core} (h : PartlyFilled cfg w cid pid price rep s s')
include h

theorem PartlyFilled.child : s'.pool.children cid = (s.pool.children cid).fill rep.fillQtyLots :=
  (congrArg (fun x : Standing => x.children cid) h.standing).trans (Function.update_self _ _ _)

theorem PartlyFilled.attached (hatt : Attached cid pid (Oms.standing pid s)) :
    Attached cid pid (Oms.standing pid s') := by
  rw [h.standing]
  exact hatt.fill cfg _ _ _

theorem PartlyFilled.ratio : lotRatio cfg w cid pid s' = lotRatio cfg w cid pid s := by
  have hinstr : (s'.pool.parents pid).instrId = (s.pool.parents pid).instrId :=
    congrArg (fun x : Standing => x.parent.instrId) h.standing
  rw [lotRatio, h.child, hinstr]
  rfl

theorem PartlyFilled.leaves (hatt : Attached cid pid (Oms.standing pid s)) :
    (s'.pool.children cid).leavesQtyLots = (s.pool.children cid).leavesQtyLots - rep.fillQtyLots := by
  have hleaves : (s.pool.children cid).leavesQtyLots =
      (s.pool.children cid).qtyLots - (s.pool.children cid).cumQtyLots := hatt.leaves
  rw [h.child]
  simp only [ChildOrderState.fill]
  omega

end PartlyFilled

theorem bookedLots_cons (ratio : ℚ) (rep : ExecutionReport) (reps : List ExecutionReport) :
    bookedLots ratio (rep :: reps) = roundHalfAway (rep.fillQtyLots * ratio) + bookedLots ratio reps := by
  simp only [bookedLots, List.map_cons, List.sum_cons]

theorem bookedLots_nonneg {ratio : ℚ} (hratio : 0 ≤ ratio) {reps : List ExecutionReport}
    (hreps : ∀ rep ∈ reps, 1 ≤ rep.fillQtyLots) : 0 ≤ bookedLots ratio reps := by
  refine List.sum_nonneg fun m hm => ?_
  obtain ⟨n, hn, rfl⟩ := List.mem_map.mp hm
  obtain ⟨rep, hrep, rfl⟩ := List.mem_map.mp hn
  have hlots : (0 : ℚ) ≤ rep.fillQtyLots := by exact_mod_cast zero_le_one.trans (hreps rep hrep)
  exact roundHalfAway_nonneg (mul_nonneg hlots hratio)

/-- All but the last of the reports go into the standing, and so does the booking of the last one.
Ids are given back on the way only if nothing was left of the parent. -/
theorem booked_last {last : ExecutionReport} (hlast : last.Fills cid price) (hcid : cid < kMaxTotalChildren)
    (hpid : pid < kMaxParentOrders) (reps : List ExecutionReport) (hreps : ∀ rep ∈ reps, rep.Fills cid price)
    (hratio : 0 ≤ lotRatio cfg w cid pid s) (hatt : Attached cid pid (standing pid s))
    (hsum : (reps.map ExecutionReport.fillQtyLots).sum < (s.pool.children cid).leavesQtyLots) :
    Attached cid pid (standing pid (deliver cfg w reps s)) ∧
    standing pid (bookFill cfg w cid pid last (deliver cfg w reps s)) = (standing pid s).fill cfg cid
      (price * (w.states (s.pool.children cid).exchangeId).book.tickSize)
      ((reps ++ [last]).map ExecutionReport.fillQtyLots).sum
      (bookedLots (lotRatio cfg w cid pid s) (reps ++ [last])) ∧
    ((deliver cfg w reps s).pool.childFree = s.pool.childFree ∨
      (s.pool.parents pid).totalQtyLots ≤
        (s.pool.parents pid).cumQtyLots + bookedLots (lotRatio cfg w cid pid s) (reps ++ [last])) := by
  induction reps generalizing s with
  | nil =>
    refine ⟨hatt, (standing_booked cfg w pid hlast s).trans ?_, Or.inl rfl⟩
    simp [bookedLots]
  | cons rep reps ih =>
    have hrest : ∀ x ∈ reps, x.Fills cid price := fun x hx => hreps x (List.mem_cons_of_mem rep hx)
    have hnn : 0 ≤ (reps.map ExecutionReport.fillQtyLots).sum := by
      refine List.sum_nonneg fun n hn => ?_
      obtain ⟨x, hx, rfl⟩ := List.mem_map.mp hn
      exact zero_le_one.trans (hrest x hx).lots
    rw [List.map_cons, List.sum_cons] at hsum
    have hone : PartlyFilled cfg w cid pid price rep s (step cfg (.call w (.report rep)) s) :=
      step_partial (hreps rep List.mem_cons_self) hcid hpid hatt (by omega)
    obtain ⟨hlasting, hbooked, hkept⟩ := ih hrest (hone.ratio ▸ hratio) (hone.attached hatt)
      (by rw [hone.leaves hatt]; omega)
    rw [hone.ratio] at hbooked hkept
    rw [List.cons_append, List.map_cons, List.sum_cons, bookedLots_cons]
    refine ⟨hlasting, hbooked.trans ?_, ?_⟩
    · rw [hone.child, hone.standing]
      exact Standing.fill_fill _
    · have htotal : ((step cfg (.call w (.report rep)) s).pool.parents pid).totalQtyLots =
          (s.pool.parents pid).totalQtyLots :=
            congrArg (fun x : Standing => x.parent.totalQtyLots) hone.standing
      have hcum : ((step cfg (.call w (.report rep)) s).pool.parents pid).cumQtyLots =
          (s.pool.parents pid).cumQtyLots + roundHalfAway (rep.fillQtyLots * lotRatio cfg w cid pid s) :=
        congrArg (fun x : Standing => x.parent.cumQtyLots) hone.standing
      have hmore : 0 ≤ bookedLots (lotRatio cfg w cid pid s) (reps ++ [last]) := by
        refine bookedLots_nonneg hratio fun x hx => ?_
        rcases List.mem_append.mp hx with hx | hx
        · exact (hrest x hx).lots
        · exact List.mem_singleton.mp hx ▸ hlast.lots
      rw [htotal, hcum] at hkept
      rcases hkept with hkept | hkept
      · refine hone.childFree.imp (fun hfree => hkept.trans hfree) fun hlast => ?_
        omega
      · right
        omega

/-- The accounts after all reports of an execution, for some number of free children; what was given
back on the way counts only where nothing is left to route. -/
theorem accounts_deliver {n : ℤ} {reps : List ExecutionReport} (hcid : cid < kMaxTotalChildren)
    (hpid : pid < kMaxParentOrders) (hslice : Slicing cid price n reps)
    (hratio : 0 ≤ lotRatio cfg w cid pid s)
    (hatt : Attached cid pid (standing pid s)) (hpos : 1 ≤ n)
    (hle : n ≤ (s.pool.children cid).leavesQtyLots) :
    ∃ free, accounts pid (deliver cfg w reps s) = ((standing pid s).fill cfg cid
      (price * (w.states (s.pool.children cid).exchangeId).book.tickSize) n
      (bookedLots (lotRatio cfg w cid pid s) reps)).settled cfg w free ∧
    (free = s.pool.childFree.length ∨ (s.pool.parents pid).totalQtyLots ≤
      (s.pool.parents pid).cumQtyLots + bookedLots (lotRatio cfg w cid pid s) reps) := by
  have hne : reps ≠ [] := by
    rintro rfl
    have htotal : (0 : ℤ) = n := hslice.total
    omega
  obtain ⟨init, last, rfl⟩ := (List.eq_nil_or_concat' reps).resolve_left hne
  have hlast := hslice.fills last (List.mem_append_right _ List.mem_cons_self)
  have htotal := hslice.total
  rw [List.map_append, List.sum_append, List.map_singleton, List.sum_singleton] at htotal
  have hone := hlast.lots
  obtain ⟨hlasting, hbooked, hkept⟩ := booked_last hlast hcid hpid init
    (fun rep hrep => hslice.fills rep (List.mem_append_left _ hrep)) hratio hatt (by omega)
  refine ⟨(deliver cfg w init s).pool.childFree.length, ?_, hkept.imp (congrArg List.length) id⟩
  have hdeliver : deliver cfg w (init ++ [last]) s =
    step cfg (.call w (.report last)) (deliver cfg w init s) := by
    rw [deliver, List.map_append, run_append]
    rfl
  rw [hdeliver, step_fill hlast hcid hpid hlasting, accounts_afterFill, hbooked, hslice.total]
  rfl

end Deliver

section Slices

/-- However an execution of `n` native lots is reported, in one fill or in several, the accounts
come out the same. -/
def SlicesAlike (cfg : ExecCoreConfig) (w : World) (cid : ℕ) (n : ℤ) (s : Core) : Prop :=
  ∀ (price : ℤ) (whole : ExecutionReport) (reps : List ExecutionReport), Slicing cid price n [whole] →
    Slicing cid price n reps →
      accounts (s.parentOf cid) (deliver cfg w reps s) = accounts (s.parentOf cid) (deliver cfg w [whole] s)

variable {cfg : ExecCoreConfig} {w : World} {cid : ℕ} {n : ℤ} {s : Core}

def fillReport (cid : ℕ) (lots : ℤ) : ExecutionReport :=
  { childId := cid, fillPriceTicks := 0, fillQtyLots := lots, execType := .partialFill,
    exchangeId := 0, exchangeNs := 0, recvNs := 0 }

theorem fillReport_fills {lots : ℤ} (h : 1 ≤ lots) : (fillReport cid lots).Fills cid 0 :=
  ⟨rfl, Or.inl rfl, rfl, h⟩

theorem slicing_whole (h : 1 ≤ n) : Slicing cid 0 n [fillReport cid n] := by
  refine ⟨fun rep hrep => ?_, by simp [fillReport]⟩
  rw [List.mem_singleton.mp hrep]
  exact fillReport_fills h

theorem slicing_units (k : ℕ) : Slicing cid 0 k (List.replicate k (fillReport cid 1)) := by
  refine ⟨fun rep hrep => ?_, by simp [fillReport]⟩
  rw [List.eq_of_mem_replicate hrep]
  exact fillReport_fills le_rfl

theorem bookedLots_whole {ratio : ℚ} {price : ℤ} {whole : ExecutionReport} (h : Slicing cid price n [whole]) :
    bookedLots ratio [whole] = roundHalfAway (n * ratio) := by
  have hlots : whole.fillQtyLots = n := by simpa using h.total
  simp [bookedLots, hlots]

/-- Equal accounts have booked equal lots: they are in the net position. -/
theorem bookedLots_of_settled {x : Standing} {px px' : ℚ} {lots lots' F F' : ℤ} {free free' : ℕ}
    (h : (x.fill cfg cid px lots F).settled cfg w free = (x.fill cfg cid px' lots' F').settled cfg w free') :
    F = F' := by
  have hnet := congrArg Accounts.netQtyLots h
  rw [Standing.settled_net, Standing.settled_net] at hnet
  simp only [Standing.fill, releaseOpen_net, add_right_inj] at hnet
  cases hdir : x.parent.dir with
  | buy => simpa only [hdir] using hnet
  | sell => simpa only [hdir, neg_inj] using hnet

/-- The accounts do not depend on the slices exactly if the lots of the execution round evenly into
canonical lots. -/
theorem slicesAlike_iff (h : Outstanding cid s) (hreal : ∃ eng : RoutingEngine, w.router = eng.router)
    (hlot : 0 < (w.states (s.pool.children cid).exchangeId).book.lotSize) (hpos : 1 ≤ n)
    (hle : n ≤ (s.pool.children cid).leavesQtyLots) :
    SlicesAlike cfg w cid n s ↔ RoundsEvenly ((w.states (s.pool.children cid).exchangeId).book.lotSize /
      cfg.instruments.lotSize (s.pool.parents (s.parentOf cid)).instrId) n := by
  obtain ⟨eng, hreal⟩ := hreal
  have hratio : 0 ≤ lotRatio cfg w cid (s.parentOf cid) s := (div_pos hlot (cfg.instruments.lotSize_pos _)).le
  have hatt : Attached cid (s.parentOf cid) (standing (s.parentOf cid) s) := ⟨rfl, h.listed, h.leaves⟩
  change _ ↔ RoundsEvenly (lotRatio cfg w cid (s.parentOf cid) s) n
  constructor
  · intro hall
    obtain ⟨k, rfl⟩ := Int.eq_ofNat_of_zero_le (zero_le_one.trans hpos)
    have hsame := hall 0 _ _ (slicing_whole hpos) (slicing_units k)
    obtain ⟨free, hunits, -⟩ := accounts_deliver h.live.1.1 h.parent.1 (slicing_units k) hratio hatt hpos hle
    obtain ⟨free', hwhole, -⟩ :=
      accounts_deliver h.live.1.1 h.parent.1 (slicing_whole hpos) hratio hatt hpos hle
    rw [hunits, hwhole] at hsame
    have hbooked := bookedLots_of_settled hsame
    rw [bookedLots_whole (slicing_whole hpos)] at hbooked
    refine sum_roundHalfAway_units hratio ?_
    simpa only [bookedLots, List.map_replicate, fillReport, Int.cast_natCast] using hbooked
  · intro heven price whole reps hwhole hreps
    obtain ⟨free, hsliced, hfree⟩ := accounts_deliver h.live.1.1 h.parent.1 hreps hratio hatt hpos hle
    obtain ⟨free', hone, hfree'⟩ := accounts_deliver h.live.1.1 h.parent.1 hwhole hratio hatt hpos hle
    have hbooked : bookedLots (lotRatio cfg w cid (s.parentOf cid) s) reps =
        bookedLots (lotRatio cfg w cid (s.parentOf cid) s) [whole] := by
      rw [bookedLots_whole hwhole, ← hreps.total]
      refine sum_roundHalfAway hratio (fun m hm => ?_) (hreps.total.symm ▸ heven)
      obtain ⟨rep, hrep, rfl⟩ := List.mem_map.mp hm
      exact zero_le_one.trans (hreps.fills rep hrep).lots
    rw [hsliced, hone, hbooked]
    -- either both ways met the same free children, or neither has anything to route
    by_cases hnone : (s.pool.parents (s.parentOf cid)).totalQtyLots ≤
      (s.pool.parents (s.parentOf cid)).cumQtyLots +
        bookedLots (lotRatio cfg w cid (s.parentOf cid) s) [whole]
    · rw [Standing.settled_of_nonpos hreal, Standing.settled_of_nonpos hreal]
      · exact sub_nonpos.mpr hnone
      · exact sub_nonpos.mpr hnone
    · rw [hfree.resolve_right (hbooked ▸ hnone), hfree'.resolve_right hnone]

namespace Sample

/-- A core that has bought four lots of the canonical size over a venue of world `w`. -/
def bought (w : World) : Core :=
  run (step config) (Core.init config 0) [.call w (.signal (signal .buy 4 false))]

/-- A venue whose lots are half a canonical lot each. -/
def halfWorld : World :=
  { world 9 with states := fun _ => { venue 9 with book := { (venue 9).book with lotSize := 1 / 2000 } } }

theorem bought_outstanding {w : World} (hparents : (bought w).pool.parentFree = List.range' 1 4095)
    (hchildren : (bought w).pool.childFree = List.range' 1 32767)
    (hstate : ((bought w).pool.children 0).state.terminal = false) (hparent : (bought w).parentOf 0 = 0)
    (hlisted : 0 ∈ ((bought w).pool.parents 0).childIds)
    (hleaves : ((bought w).pool.children 0).leavesQtyLots =
      ((bought w).pool.children 0).qtyLots - ((bought w).pool.children 0).cumQtyLots) :
    Outstanding 0 (bought w) := by
  refine ⟨firstChildLive hchildren hstate, ?_, ?_, hleaves⟩
  · rw [hparent]
    refine ⟨by decide, ?_⟩
    rw [hparents, List.mem_range'_1]
    omega
  · rw [hparent]
    exact hlisted

theorem bought_world : Outstanding 0 (bought (world 9)) := by
  refine bought_outstanding ?_ ?_ ?_ ?_ ?_ ?_ <;> first | decide +kernel | with_unfolding_all rfl

theorem bought_halfWorld : Outstanding 0 (bought halfWorld) := by
  refine bought_outstanding ?_ ?_ ?_ ?_ ?_ ?_ <;> first | decide +kernel | with_unfolding_all rfl

end Sample

theorem slicesAlike_iff_bought :
    SlicesAlike Sample.config (Sample.world 9) 0 4 (Sample.bought (Sample.world 9)) ∧
    (SlicesAlike Sample.config Sample.halfWorld 0 4 (Sample.bought Sample.halfWorld) ↔ False) := by
  constructor
  · refine (slicesAlike_iff Sample.bought_world ⟨Sample.engine, rfl⟩ ?_ (by decide) ?_).mpr ?_ <;>
      decide +kernel
  · refine (slicesAlike_iff Sample.bought_halfWorld ⟨Sample.engine, rfl⟩ ?_ (by decide) ?_).trans ?_ <;>
      decide +kernel

/-- Four half lots reported one by one are booked as four whole lots and complete the order; reported
together they are two. -/
theorem halfLots_booked_twice :
    Outstanding 0 (Sample.bought Sample.halfWorld) ∧
    ((Sample.bought Sample.halfWorld).pool.children 0).leavesQtyLots = 8 ∧
    (accounts 0 (deliver Sample.config Sample.halfWorld (List.replicate 4 (fillReport 0 1))
      (Sample.bought Sample.halfWorld))).cumQtyLots = 4 ∧
    (deliver Sample.config Sample.halfWorld (List.replicate 4 (fillReport 0 1))
      (Sample.bought Sample.halfWorld)).pool.parentsInUse = 0 ∧
    (accounts 0 (deliver Sample.config Sample.halfWorld [fillReport 0 4]
      (Sample.bought Sample.halfWorld))).cumQtyLots = 2 ∧
    ¬ SlicesAlike Sample.config Sample.halfWorld 0 4 (Sample.bought Sample.halfWorld) := by
  have hunits : (accounts 0 (deliver Sample.config Sample.halfWorld (List.replicate 4 (fillReport 0 1))
      (Sample.bought Sample.halfWorld))).cumQtyLots = 4 := by decide +kernel
  have hwhole : (accounts 0 (deliver Sample.config Sample.halfWorld [fillReport 0 4]
      (Sample.bought Sample.halfWorld))).cumQtyLots = 2 := by decide +kernel
  refine ⟨Sample.bought_halfWorld, by decide +kernel, hunits, by decide +kernel, hwhole, fun hall => ?_⟩
  have hparent : (Sample.bought Sample.halfWorld).parentOf 0 = 0 := by decide +kernel
  have hsame := hall 0 _ _ (slicing_whole (by decide)) (slicing_units 4)
  have hcum := congrArg Accounts.cumQtyLots hsame
  rw [hparent] at hcum
  exact absurd (hunits.symm.trans (hcum.trans hwhole)) (by decide)

end Slices

end OmsFormal.Oms
