import OmsFormal.ReleasedMargin
import OmsFormal.ParentClosings

/-!
# Margin of a flat book

The locked margin follows reports, not positions: a fill that closes a position is
charged like the one that opened it. What is locked when all positions are closed
and no order is open is therefore decided by the report that closes the last of
them. The book comes out clear only if that report takes away all that was locked.
-/

namespace OmsFormal.Oms
open OMSOrderPool GuardedRun
set_option autoImplicit false

/-- All positions are closed and no parent is in use. -/
structure Core.FlatBook (s : Core) : Prop where
  net : ∀ i < kMaxInstruments, (s.pos.instruments i).netQtyLots = 0
  closed : ∀ p, ¬ s.pool.ParentInUse p

def Core.MarginClear (s : Core) : Prop := s.FlatBook → s.marginMonitor.lockedMargin = 0

def Core.EquityBack (cfg : ExecCoreConfig) (s : Core) : Prop :=
  s.FlatBook → s.available = cfg.margin.equityUsd

/-- The report booked for parent `pid` finds all positions closed, no other parent in use, and
concludes this one. -/
structure LastOut (cfg : ExecCoreConfig) (w : World) (pid : ℕ) (b : Core) : Prop where
  net : ∀ i < kMaxInstruments, (b.pos.instruments i).netQtyLots = 0
  sole : ∀ q, b.pool.ParentInUse q → q = pid
  concludes : Concludes cfg w pid b

/-- The booking takes away all that is locked. -/
def Booking.Clears (locked : ℚ) : Booking → Prop
  | .nothing => locked = 0
  | .charge usd => locked + usd = 0
  | .release usd => locked ≤ usd

instance (locked : ℚ) (b : Booking) : Decidable (b.Clears locked) :=
  match b with
  | .nothing => inferInstanceAs (Decidable (locked = 0))
  | .charge usd => inferInstanceAs (Decidable (locked + usd = 0))
  | .release usd => inferInstanceAs (Decidable (locked ≤ usd))

/-- If the report a call books is the last one out, what it books has the property. -/
def Call.OnLastOut (cfg : ExecCoreConfig) (w : World) (P : Booking → Prop) (c : Call) (s : Core) : Prop :=
  match c.entry cfg w s with
  | (.booked pid, b) => LastOut cfg w pid b → P (c.booking cfg w s)
  | _ => True

/-- A report that leaves the book flat takes away all that was locked. -/
def Event.ClearsMargin (cfg : ExecCoreConfig) : Event → Core → Prop
  | .call w c, s => c.OnLastOut cfg w (Booking.Clears s.marginMonitor.lockedMargin) s
  | .env _, _ => True

/-- A fill costs something. -/
def Event.ChargesFills (cfg : ExecCoreConfig) (e : Event) (s : Core) : Prop :=
  ∀ usd, e.booking cfg s = .charge usd → 0 < usd

/-- The report that leaves the book flat is not a fill, and takes away all that was locked. -/
def Event.ReleasedLast (cfg : ExecCoreConfig) : Event → Core → Prop
  | .call w c, s => c.OnLastOut cfg w
      (fun b => (∀ usd, b ≠ .charge usd) ∧ b.Clears s.marginMonitor.lockedMargin) s
  | .env _, _ => True

variable {cfg : ExecCoreConfig} {w : World} {s : Core} {e : Event} {c : Call} {pid : ℕ}

section Book
variable {m : MarginMonitor} {b : Booking}

theorem book_lockedMargin_eq_zero_iff : (m.book b).lockedMargin = 0 ↔ b.Clears m.lockedMargin := by
  cases b with
  | nothing => exact Iff.rfl
  | charge usd => exact Iff.rfl
  | release usd =>
    simp only [MarginMonitor.book, Booking.Clears]
    split
    · rename_i hmore
      exact iff_of_false (sub_ne_zero.mpr hmore.ne') (not_le.mpr hmore)
    · rename_i hless
      exact iff_of_true rfl (not_lt.mp hless)

end Book

section Flat

theorem SameBooks.flatBook_iff {s' : Core} (h : SameBooks s s') : s'.FlatBook ↔ s.FlatBook := by
  constructor
  · intro hflat
    refine ⟨fun i hi => (h.net i).symm.trans (hflat.net i hi), fun p hu => hflat.closed p ?_⟩
    rw [h.pool]
    exact hu
  · intro hflat
    refine ⟨fun i hi => (h.net i).trans (hflat.net i hi), fun p hu => hflat.closed p ?_⟩
    rw [← h.pool]
    exact hu

theorem call_flatBook_iff {b : Core} (h : c.Admissible cfg canonical w s) (hs : Healthy canonical s)
    (hentry : c.entry cfg w s = (.booked pid, b)) : (c.apply cfg w s).FlatBook ↔ LastOut cfg w pid b := by
  have hself := call_inUse_iff h hs hentry
  have hother (q : ℕ) (hq : q ≠ pid) : (c.apply cfg w s).pool.ParentInUse q ↔ b.pool.ParentInUse q := by
    have hrest := call_inUse_other (q := q) h hs (by rw [hentry]; exact fun _ => hq)
    rw [hentry] at hrest
    exact hrest
  have hnet (i : ℕ) : ((c.apply cfg w s).pos.instruments i).netQtyLots =
      (b.pos.instruments i).netQtyLots := by
    rw [call_net, hentry]
  constructor
  · intro hflat
    refine ⟨fun i hi => (hnet i).symm.trans (hflat.net i hi), fun q hq => ?_, ?_⟩
    · by_contra hne
      exact hflat.closed q ((hother q hne).mpr hq)
    · by_contra hgoes
      exact hflat.closed pid (hself.mpr hgoes)
  · intro hlast
    refine ⟨fun i hi => (hnet i).trans (hlast.net i hi), fun q hq => ?_⟩
    by_cases hqp : q = pid
    · subst hqp
      exact hself.mp hq hlast.concludes
    · exact hqp (hlast.sole q ((hother q hqp).mp hq))

/-- A call that books no report: it charges and releases nothing, moves no position, and the orders
that were open stay so. -/
structure Unbooked (s : Core) (a : Phase × Core) (b : Booking) : Prop where
  booking : b = .nothing
  net : ∀ i, (a.2.pos.instruments i).netQtyLots = (s.pos.instruments i).netQtyLots
  inUse : ∀ q, s.pool.ParentInUse q → a.2.pool.ParentInUse q
  other : ∀ q, s.pool.ParentInUse q → a.1 ≠ .idle → q ≠ a.1.pid

theorem entered_unbooked {a : Phase × Core} (h : Entered cfg w s c a)
    (ha : ∀ pid, a.1 ≠ .booked pid) : Unbooked s a (c.booking cfg w s) := by
  cases h with
  | refused href =>
    exact ⟨rfl, fun i => by rw [href.pos],
      fun q hq => (inUse_of_parentFree href.records.parentFree q).mpr hq, fun q _ hidle => absurd rfl hidle⟩
  | @admitted sig pid free _ hfree =>
    exact ⟨rfl, reserved_net w sig pid free s, fun q hq => (reserved_inUse w sig hfree hq).1,
      fun q hq _ => (reserved_inUse w sig hfree hq).2⟩
  | filled => exact absurd rfl (ha _)
  | ended => exact absurd rfl (ha _)
  | expired => exact absurd rfl (ha _)
  | acknowledged hlive hkind =>
    refine ⟨?_, fun i => rfl, fun q hq => hq, fun q _ hidle => absurd rfl hidle⟩
    simp only [Call.booking, reportBooking, hkind, ite_self]
  | ignored hkind =>
    refine ⟨?_, fun i => rfl, fun q hq => hq, fun q _ hidle => absurd rfl hidle⟩
    simp only [Call.booking, reportBooking, hkind, ite_self]
  | unarmed hnone =>
    refine ⟨?_, fun i => rfl, fun q hq => hq, fun q _ hidle => absurd rfl hidle⟩
    simp only [Call.booking, hnone]

theorem Unbooked.flatBook (hbook : Unbooked s (c.entry cfg w s) (c.booking cfg w s))
    (h : c.Admissible cfg canonical w s) (hs : Healthy canonical s) (hflat : (c.apply cfg w s).FlatBook) :
    s.FlatBook := by
  refine ⟨fun i hi => ?_, fun q hq => ?_⟩
  · rw [← hbook.net i, ← call_net]
    exact hflat.net i hi
  · exact hflat.closed q ((call_inUse_other h hs (hbook.other q hq)).mpr (hbook.inUse q hq))

end Flat

section Step

theorem Call.onLastOut_of_booking {P : Booking → Prop} (h : P (c.booking cfg w s)) :
    c.OnLastOut cfg w P s := by
  unfold Call.OnLastOut
  split
  · exact fun _ => h
  · exact trivial

theorem Call.onLastOut_congr {P Q : Booking → Prop} (h : P (c.booking cfg w s) ↔ Q (c.booking cfg w s)) :
    c.OnLastOut cfg w P s ↔ c.OnLastOut cfg w Q s := by
  unfold Call.OnLastOut
  split
  · exact imp_congr_right fun _ => h
  · exact Iff.rfl

/-- Where a flat book held no margin so far, a step keeps it that way exactly if the report that
leaves the book flat takes away what was locked. -/
theorem step_marginClear (hs : Healthy canonical s) (h : e.Admissible cfg canonical s)
    (hrest : e.isRest = false) (hclear : s.MarginClear) :
    (step cfg e s).MarginClear ↔ e.ClearsMargin cfg s := by
  have hlocked : (step cfg e s).marginMonitor.lockedMargin =
      (s.marginMonitor.book (e.booking cfg s)).lockedMargin := event_lockedMargin hrest
  cases e with
  | env e =>
    refine iff_of_true (fun hflat => ?_) trivial
    rw [hlocked]
    exact hclear ((e.apply_sameBooks s).flatBook_iff.mp hflat)
  | call w c =>
    rw [Core.MarginClear, hlocked, book_lockedMargin_eq_zero_iff]
    simp only [step, Event.ClearsMargin, Call.OnLastOut, Event.booking]
    split
    · rename_i pid b hentry
      rw [call_flatBook_iff h hs hentry]
    · rename_i hunbooked
      have hbook := entered_unbooked (h.entered hs) fun pid hpid => hunbooked pid _ (Prod.ext hpid rfl)
      refine iff_of_true (fun hflat => ?_) trivial
      rw [hbook.booking]
      exact hclear (hbook.flatBook h hs hflat)

/-- A fill that costs something only adds to what is locked. -/
theorem event_releasedLast_iff (hpos : 0 ≤ s.marginMonitor.lockedMargin) (hcharge : e.ChargesFills cfg s) :
    e.ClearsMargin cfg s ↔ e.ReleasedLast cfg s := by
  cases e with
  | env e => exact Iff.rfl
  | call w c =>
    simp only [Event.ClearsMargin, Event.ReleasedLast]
    apply Call.onLastOut_congr
    refine ⟨fun hclears => ⟨fun usd hbook => ?_, hclears⟩, fun h => h.2⟩
    have hmore : 0 < usd := hcharge usd hbook
    rw [hbook, Booking.Clears] at hclears
    linarith

end Step

section Run
variable {evs : List Event}

/-- What is available is the equity of the configuration less what is locked. -/
structure Core.OwnEquity (cfg : ExecCoreConfig) (s : Core) : Prop where
  published : s.MarginPublished
  equity : s.marginMonitor.localEquity = cfg.margin.equityUsd
  upnl : s.marginMonitor.upnl = 0

theorem init_ownEquity (cfg : ExecCoreConfig) (now : ℕ) : (Core.init cfg now).OwnEquity cfg :=
  ⟨init_published cfg now, rfl, rfl⟩

theorem step_ownEquity (hs : s.OwnEquity cfg) (hrest : e.isRest = false) (hmark : e.isMark = false) :
    (step cfg e s).OwnEquity cfg := by
  have hbooks : Books (e.booking cfg s) s (step cfg e s) := event_books hrest hmark
  have hsame := book_equity s.marginMonitor (e.booking cfg s)
  refine ⟨hbooks.published hs.published, ?_, ?_⟩
  · rw [hbooks.monitor, hsame.1, hs.equity]
  · rw [hbooks.monitor, hsame.2, hs.upnl]

theorem Core.OwnEquity.equityBack_iff (hs : s.OwnEquity cfg) : s.EquityBack cfg ↔ s.MarginClear := by
  have havailable : s.available = cfg.margin.equityUsd - s.marginMonitor.lockedMargin := by
    rw [Core.available, hs.published]
    simp only [MarginMonitor.recomputeAvailable, MarginState.update, hs.equity, hs.upnl, lt_irrefl, if_false,
      add_zero]
  refine imp_congr_right fun _ => ?_
  rw [havailable, sub_eq_self]

/-- Without REST updates, no flat book of a run with canonical lots holds any margin exactly if each
report that leaves the book flat takes away what was locked. Without mark prices either, the equity
is then back. If fills cost something, no such report may be a fill. -/
theorem run_marginClear_iff (now : ℕ)
    (h : Along (step cfg) (Event.Admissible cfg canonical) (Core.init cfg now) evs)
    (hrest : ∀ e ∈ evs, e.isRest = false) :
    (Always (step cfg) Core.MarginClear (Core.init cfg now) evs ↔
      Along (step cfg) (Event.ClearsMargin cfg) (Core.init cfg now) evs) ∧
    ((∀ e ∈ evs, e.isMark = false) → (Always (step cfg) (Core.EquityBack cfg) (Core.init cfg now) evs ↔
      Along (step cfg) (Event.ClearsMargin cfg) (Core.init cfg now) evs)) ∧
    (Along (step cfg) (Event.ChargesFills cfg) (Core.init cfg now) evs →
      (Along (step cfg) (Event.ClearsMargin cfg) (Core.init cfg now) evs ↔
        Along (step cfg) (Event.ReleasedLast cfg) (Core.init cfg now) evs)) := by
  have hquiet : Along (step cfg) (fun e _ => e.isRest = false) (Core.init cfg now) evs :=
    along_of_forall fun e he _ => hrest e he
  have hclear : Always (step cfg) Core.MarginClear (Core.init cfg now) evs ↔
      Along (step cfg) (Event.ClearsMargin cfg) (Core.init cfg now) evs :=
    (h.and hquiet).always_iff (Healthy canonical) (fun _ _ hs he => step_healthy hs he.1)
      (fun _ _ hs he hclear => step_marginClear hs he.1 he.2 hclear) (fresh_init cfg now).healthy fun _ => rfl
  refine ⟨hclear, fun hmark => ?_, fun hcharge => ?_⟩
  · have hown : Always (step cfg) (Core.OwnEquity cfg) (Core.init cfg now) evs :=
      (hquiet.and (along_of_forall fun e he _ => hmark e he)).always (Core.OwnEquity cfg)
        (fun _ _ hs he => step_ownEquity hs he.1 he.2) (fun _ hs => hs) (init_ownEquity cfg now)
    rw [← hclear]
    exact forall₂_congr fun pre hpre => (hown pre hpre).equityBack_iff
  · exact (hquiet.and hcharge).along_iff (fun s => 0 ≤ s.marginMonitor.lockedMargin)
      (fun e s hs he => by
        rw [event_lockedMargin he.1]
        exact book_lockedMargin_nonneg hs fun usd hbook => (he.2 usd hbook).le)
      (fun _ _ hs he => event_releasedLast_iff hs he.2) le_rfl

theorem Sample.withdrawnBuy_admissible :
    Along (step config) (Event.Admissible config canonical) (Core.init config 0) withdrawnBuy := by
  refine ⟨⟨by decide, fun _ => scaled 9 _, sound 9⟩, ⟨⟨?_, ?_⟩, fun _ _ => scaled 0 _, sound 0⟩, trivial⟩
  · refine firstChildLive ?_ ?_ <;> with_unfolding_all rfl
  · intro hfill
    cases hfill

/-- The cancel that ends the only order releases more than nothing, which is what was locked. -/
theorem marginClear_withdrawnBuy :
    Along (step Sample.config) (Event.ClearsMargin Sample.config) (Core.init Sample.config 0)
      Sample.withdrawnBuy ∧
    Always (step Sample.config) Core.MarginClear (Core.init Sample.config 0) Sample.withdrawnBuy ∧
    Always (step Sample.config) (Core.EquityBack Sample.config) (Core.init Sample.config 0)
      Sample.withdrawnBuy ∧
    Along (step Sample.config) (Event.ReleasedLast Sample.config) (Core.init Sample.config 0)
      Sample.withdrawnBuy := by
  have hclears : Along (step Sample.config) (Event.ClearsMargin Sample.config) (Core.init Sample.config 0)
      Sample.withdrawnBuy := by
    refine ⟨Call.onLastOut_of_booking ?_, Call.onLastOut_of_booking ?_, trivial⟩
    · decide +kernel
    · decide +kernel
  have hcharges : Along (step Sample.config) (Event.ChargesFills Sample.config) (Core.init Sample.config 0)
      Sample.withdrawnBuy :=
    (Sample.withdrawnBuy_unfilled _).mono fun _ _ he usd hcharge => absurd hcharge (he.no_charge usd)
  obtain ⟨hclear, hback, hlast⟩ := run_marginClear_iff 0 Sample.withdrawnBuy_admissible (by decide)
  exact ⟨hclears, hclear.mpr hclears, (hback (by decide)).mpr hclears, (hlast hcharges).mp hclears⟩

/-- Four lots are bought, and the position is closed again. -/
def Sample.roundTrip : List Event :=
  [.call (world 9) (.signal (signal .buy 4 false)), .call (world 9) (.report (report 0 .fill 4)),
   .call (world 9) (.signal (signal .sell 4 false)), .call (world 9) (.report (report 0 .fill 4))]

theorem Sample.roundTrip_admissible :
    Along (step config) (Event.Admissible config canonical) (Core.init config 0) roundTrip := by
  refine ⟨⟨by decide, fun _ => scaled 9 _, sound 9⟩, ⟨⟨?_, ?_⟩, fun _ _ => scaled 9 _, sound 9⟩,
    ⟨by decide, fun _ => scaled 9 _, sound 9⟩, ⟨⟨?_, ?_⟩, fun _ _ => scaled 9 _, sound 9⟩, trivial⟩
  · refine firstChildLive ?_ ?_ <;> with_unfolding_all rfl
  · intro _
    decide +kernel
  · refine firstChildLive ?_ ?_ <;> with_unfolding_all rfl
  · intro _
    decide +kernel

/-- Both fills are charged, so the margin of two trades stays locked without a position. -/
theorem flatBook_locked :
    Along (step Sample.config) (Event.Admissible Sample.config canonical) (Core.init Sample.config 0)
      Sample.roundTrip ∧
    (∀ e ∈ Sample.roundTrip, e.isRest = false ∧ e.isMark = false) ∧
    (run (step Sample.config) (Core.init Sample.config 0) Sample.roundTrip).FlatBook ∧
    (run (step Sample.config) (Core.init Sample.config 0) Sample.roundTrip).marginMonitor.lockedMargin =
      2 / 25 ∧
    ¬ (run (step Sample.config) (Core.init Sample.config 0) Sample.roundTrip).MarginClear ∧
    ¬ (run (step Sample.config) (Core.init Sample.config 0) Sample.roundTrip).EquityBack Sample.config := by
  have hflat : (run (step Sample.config) (Core.init Sample.config 0) Sample.roundTrip).FlatBook := by
    refine ⟨by decide +kernel, fun p => ?_⟩
    have hfree : (run (step Sample.config) (Core.init Sample.config 0) Sample.roundTrip).pool.parentFree =
        0 :: List.range' 1 4095 := by with_unfolding_all rfl
    rw [OMSOrderPool.ParentInUse, hfree]
    exact FreeStack.not_inUse_init _ p
  have hlocked : (run (step Sample.config) (Core.init Sample.config 0)
      Sample.roundTrip).marginMonitor.lockedMargin = 2 / 25 := by decide +kernel
  have havailable : ¬ (run (step Sample.config) (Core.init Sample.config 0) Sample.roundTrip).available =
      Sample.config.margin.equityUsd := by decide +kernel
  refine ⟨Sample.roundTrip_admissible, by decide, hflat, hlocked, fun h => ?_, fun h => havailable (h hflat)⟩
  have hzero := h hflat
  rw [hlocked] at hzero
  norm_num at hzero

end Run

end OmsFormal.Oms
