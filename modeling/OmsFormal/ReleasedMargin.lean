import OmsFormal.MarginBookings

/-!
# Margin that is released but was never taken

Sending a child takes no margin, and its cancel gives some back. What is given back
was charged by other fills, so the margin a signal leaves behind when all its
children are withdrawn is what it found only while nothing is locked, or while what
the children give up is worth nothing.
-/

namespace OmsFormal.Oms
open GuardedRun
set_option autoImplicit false

/-- The booking leaves the locked margin where it is. A release stops at zero. -/
def Booking.Neutral (locked : ℚ) : Booking → Prop
  | .nothing => True
  | .charge usd => usd = 0
  | .release usd => (usd = 0 ∧ 0 < locked) ∨ (0 ≤ usd ∧ locked = 0)

instance (locked : ℚ) (b : Booking) : Decidable (b.Neutral locked) :=
  match b with
  | .nothing => inferInstanceAs (Decidable True)
  | .charge usd => inferInstanceAs (Decidable (usd = 0))
  | .release _ => inferInstanceAs (Decidable (_ ∨ _))

/-- Nothing is filled, and neither REST nor a mark price comes in. -/
def Event.Unfilled (cfg : ExecCoreConfig) : Event → Core → Prop
  | .call w c, s => ∀ usd, c.booking cfg w s ≠ .charge usd
  | .env (.onMarkPrice _ _ _), _ => False
  | .env (.onRestMargin _ _ _), _ => False
  | .env _, _ => True

def Event.ReleasesNothing (cfg : ExecCoreConfig) (e : Event) (s : Core) : Prop :=
  (e.booking cfg s).Neutral s.marginMonitor.lockedMargin

/-- A release gives back, and does not charge. -/
def Event.GivesBack (cfg : ExecCoreConfig) (e : Event) (s : Core) : Prop :=
  ∀ usd, e.booking cfg s = .release usd → 0 ≤ usd

def Core.available (s : Core) : ℚ := s.pos.margin.marginAvailable

variable {cfg : ExecCoreConfig} {w : World} {s s' : Core} {e : Event}

section Monitor
variable {m : MarginMonitor} {b : Booking}

theorem book_lockedMargin_eq_iff :
    (m.book b).lockedMargin = m.lockedMargin ↔ b.Neutral m.lockedMargin := by
  cases b with
  | nothing => exact iff_of_true rfl trivial
  | charge usd =>
    simp only [MarginMonitor.book, Booking.Neutral]
    constructor <;> intro h <;> linarith
  | release usd =>
    simp only [MarginMonitor.book, Booking.Neutral]
    split
    · rename_i hmore
      constructor
      · intro h
        have hzero : usd = 0 := by linarith
        exact Or.inl ⟨hzero, by rw [hzero] at hmore; exact hmore⟩
      · rintro (⟨hzero, _⟩ | ⟨hnonneg, hnone⟩)
        · rw [hzero, sub_zero]
        · exact absurd hmore (not_lt.mpr (by rw [hnone]; exact hnonneg))
    · rename_i hless
      constructor
      · intro h
        exact Or.inr ⟨by rw [h]; exact not_lt.mp hless, h.symm⟩
      · rintro (⟨hzero, hlocked⟩ | ⟨_, hnone⟩)
        · exact absurd hlocked (by rw [← hzero]; exact hless)
        · exact hnone.symm

theorem book_lockedMargin_nonneg (h : 0 ≤ m.lockedMargin) (hcharge : ∀ usd, b = .charge usd → 0 ≤ usd) :
    0 ≤ (m.book b).lockedMargin := by
  cases b with
  | nothing => exact h
  | charge usd => exact add_nonneg h (hcharge usd rfl)
  | release usd =>
    simp only [MarginMonitor.book]
    split
    · rename_i hmore
      exact sub_nonneg.mpr hmore.le
    · exact le_rfl

theorem book_lockedMargin_le (h : 0 ≤ m.lockedMargin) (hcharge : ∀ usd, b ≠ .charge usd)
    (hback : ∀ usd, b = .release usd → 0 ≤ usd) : (m.book b).lockedMargin ≤ m.lockedMargin := by
  cases b with
  | nothing => exact le_rfl
  | charge usd => exact absurd rfl (hcharge usd)
  | release usd =>
    simp only [MarginMonitor.book]
    split
    · exact sub_le_self _ (hback usd rfl)
    · exact h

end Monitor

section Events

theorem Event.Unfilled.no_charge (h : e.Unfilled cfg s) (usd : ℚ) : e.booking cfg s ≠ .charge usd := by
  cases e with
  | call w c => exact h usd
  | env e => exact Booking.noConfusion

theorem Event.unfilled_of_end {rep : ExecutionReport} (h : rep.execType.isEnd = true) :
    (Event.call w (.report rep)).Unfilled cfg s := by
  intro usd
  simp only [Call.booking, reportBooking]
  split
  · exact Booking.noConfusion
  · cases hkind : rep.execType with
    | canceled => exact Booking.noConfusion
    | rejected => exact Booking.noConfusion
    | _ =>
      rw [hkind] at h
      cases h

theorem step_books (h : e.Unfilled cfg s) : Books (e.booking cfg s) s (step cfg e s) := by
  apply event_books
  · cases e with
    | call w c => rfl
    | env e => cases e <;> first | rfl | exact h.elim
  · cases e with
    | call w c => rfl
    | env e => cases e <;> first | rfl | exact h.elim

/-- REST and mark prices publish what they write as well. -/
theorem step_published (cfg : ExecCoreConfig) (e : Event) (h : s.MarginPublished) :
    (step cfg e s).MarginPublished := by
  cases e with
  | call w c => exact (call_books c s).published h
  | env e =>
    by_cases hunfilled : (Event.env e).Unfilled cfg s
    · exact (step_books hunfilled).published h
    · cases e with
      | onMarkPrice mark lot i =>
        simp only [step, Env.apply, Core.onMarkPrice]
        split
        · exact h
        · exact rfl
      | onRestMargin => exact rfl
      | _ => exact absurd trivial hunfilled

theorem init_published (cfg : ExecCoreConfig) (now : ℕ) : (Core.init cfg now).MarginPublished := by
  simp [Core.MarginPublished, Core.init, MarginMonitor.init, MarginMonitor.recomputeAvailable]

theorem run_published (cfg : ExecCoreConfig) (now : ℕ) (evs : List Event) :
    (run (step cfg) (Core.init cfg now) evs).MarginPublished := by
  have hall : Along (step cfg) (fun _ _ => True) (Core.init cfg now) evs := along_true
  exact hall.invariant Core.MarginPublished (fun e _ hs _ => step_published cfg e hs) (init_published cfg now)

/-- The available margin falls by what is locked more. -/
theorem step_available (hpub : s.MarginPublished) (h : e.Unfilled cfg s) :
    (step cfg e s).available = s.available -
      ((s.marginMonitor.book (e.booking cfg s)).lockedMargin - s.marginMonitor.lockedMargin) := by
  have hbooks := step_books h
  have hequity := book_equity s.marginMonitor (e.booking cfg s)
  rw [Core.available, Core.available, hbooks.published hpub, hbooks.monitor, hpub]
  simp only [MarginMonitor.recomputeAvailable, MarginState.update, hequity.1, hequity.2]
  ring

end Events

section Runs
variable {evs : List Event} {available : ℚ}

theorem step_keepsAvailable (hpub : s.MarginPublished) (h : e.Unfilled cfg s)
    (hs : s.available = available) :
    (step cfg e s).available = available ↔ e.ReleasesNothing cfg s := by
  rw [step_available hpub h, hs, Event.ReleasesNothing, ← book_lockedMargin_eq_iff]
  constructor <;> intro hsame <;> linarith

/-- Without fills, the available margin never moves exactly when no release finds anything to release. -/
theorem run_keepsAvailable_iff (hpub : s.MarginPublished) (h : Along (step cfg) (Event.Unfilled cfg) s evs) :
    Always (step cfg) (fun s' => s'.available = s.available) s evs ↔
      Along (step cfg) (Event.ReleasesNothing cfg) s evs :=
  h.always_iff Core.MarginPublished (fun e _ hs _ => step_published cfg e hs)
    (fun _ _ hs he hsame => step_keepsAvailable hs he hsame) hpub rfl

/-- Without fills the available margin only rises, if releases give back. -/
theorem run_available_le (hpub : s.MarginPublished) (hpos : 0 ≤ s.marginMonitor.lockedMargin)
    (h : Along (step cfg) (Event.Unfilled cfg) s evs) (hback : Along (step cfg) (Event.GivesBack cfg) s evs) :
    s.available ≤ (run (step cfg) s evs).available := by
  have hneg := (h.and hback).antitone
    (fun s => s.MarginPublished ∧ 0 ≤ s.marginMonitor.lockedMargin) (fun s => -s.available)
    (fun e s hs he => by
      refine ⟨step_published cfg e hs.1, ?_⟩
      rw [(step_books he.1).monitor]
      exact book_lockedMargin_nonneg hs.2 fun usd hcharge => absurd hcharge (he.1.no_charge usd))
    (fun e s hs he => by
      have hless := book_lockedMargin_le hs.2 he.1.no_charge he.2
      rw [step_available hs.1 he.1]
      linarith)
    ⟨hpub, hpos⟩
  exact neg_le_neg_iff.mp hneg

theorem run_lockedMargin_nonneg (hpos : 0 ≤ s.marginMonitor.lockedMargin)
    (h : Along (step cfg) (Event.Unfilled cfg) s evs) :
    0 ≤ (run (step cfg) s evs).marginMonitor.lockedMargin :=
  h.invariant (fun s => 0 ≤ s.marginMonitor.lockedMargin)
    (fun e s hs he => by
      rw [(step_books he).monitor]
      exact book_lockedMargin_nonneg hs fun usd hcharge => absurd hcharge (he.no_charge usd)) hpos

/-- Where releases give back, the available margin ends where it began only if it never moved. -/
theorem run_available_eq_iff (hpub : s.MarginPublished) (hpos : 0 ≤ s.marginMonitor.lockedMargin)
    (h : Along (step cfg) (Event.Unfilled cfg) s evs) (hback : Along (step cfg) (Event.GivesBack cfg) s evs) :
    (run (step cfg) s evs).available = s.available ↔ Along (step cfg) (Event.ReleasesNothing cfg) s evs := by
  rw [← run_keepsAvailable_iff hpub h]
  constructor
  · rintro hend pre ⟨post, rfl⟩
    obtain ⟨hfirst, hlast⟩ := along_append.mp h
    obtain ⟨hbackFirst, hbackLast⟩ := along_append.mp hback
    have hup := run_available_le hpub hpos hfirst hbackFirst
    have hmid : (run (step cfg) s pre).MarginPublished :=
      hfirst.invariant Core.MarginPublished (fun e _ hs _ => step_published cfg e hs) hpub
    have hdown := run_available_le hmid (run_lockedMargin_nonneg hpos hfirst) hlast hbackLast
    rw [← run_append, hend] at hdown
    exact le_antisymm hdown hup
  · intro hall
    exact hall evs List.prefix_rfl

/-- From any reachable state, a signal and what follows it without a fill leave the available margin
alone exactly when every cancel, reject and timeout finds nothing locked or releases nothing. That
is decided in the last state already if nothing is negative. -/
theorem signal_available_iff (now : ℕ) (before : List Event) {sig : StrategyOrderSignal}
    {after : List Event} (hs : s = run (step cfg) (Core.init cfg now) before)
    (h : Along (step cfg) (Event.Unfilled cfg) s (.call w (.signal sig) :: after)) :
    (Always (step cfg) (fun s' => s'.available = s.available) s (.call w (.signal sig) :: after) ↔
      Along (step cfg) (Event.ReleasesNothing cfg) s (.call w (.signal sig) :: after)) ∧
    (0 ≤ s.marginMonitor.lockedMargin →
      Along (step cfg) (Event.GivesBack cfg) s (.call w (.signal sig) :: after) →
      ((run (step cfg) s (.call w (.signal sig) :: after)).available = s.available ↔
        Along (step cfg) (Event.ReleasesNothing cfg) s (.call w (.signal sig) :: after))) := by
  have hpub : s.MarginPublished := by
    rw [hs]
    exact run_published cfg now before
  exact ⟨run_keepsAvailable_iff hpub h, fun hpos hback => run_available_eq_iff hpub hpos h hback⟩

/-- A buy of four lots, canceled when the book is empty. -/
def Sample.withdrawnBuy : List Event :=
  [.call (world 9) (.signal (signal .buy 4 false)), .call (world 0) (.report (report 0 .canceled 0))]

theorem Sample.withdrawnBuy_unfilled (s : Core) :
    Along (step config) (Event.Unfilled config) s withdrawnBuy :=
  ⟨fun _ => Booking.noConfusion, Event.unfilled_of_end rfl, trivial⟩

/-- In a new core nothing is locked, so nothing is released. -/
theorem available_kept_withdrawnBuy :
    Always (step Sample.config) (fun s => s.available = (Core.init Sample.config 0).available)
      (Core.init Sample.config 0) Sample.withdrawnBuy := by
  refine (signal_available_iff 0 [] rfl (Sample.withdrawnBuy_unfilled _)).1.mpr ⟨trivial, ?_, trivial⟩
  unfold Event.ReleasesNothing
  decide +kernel

/-- A core that has bought four lots before. -/
def Sample.boughtBefore : Core :=
  run (step config) (Core.init config 0)
    [.call (world 9) (.signal (signal .buy 4 false)), .call (world 9) (.report (report 0 .fill 4))]

/-- The four lots that are canceled unfilled release the margin of the four that were bought. -/
theorem cancel_releases_foreign_margin :
    Along (step Sample.config) (Event.Unfilled Sample.config) Sample.boughtBefore Sample.withdrawnBuy ∧
    (∀ p, ¬ (run (step Sample.config) Sample.boughtBefore Sample.withdrawnBuy).pool.ParentInUse p) ∧
    ¬ (run (step Sample.config) Sample.boughtBefore Sample.withdrawnBuy).available =
      Sample.boughtBefore.available := by
  refine ⟨Sample.withdrawnBuy_unfilled _, fun p => ?_, by decide +kernel⟩
  have hfree : (run (step Sample.config) Sample.boughtBefore Sample.withdrawnBuy).pool.parentFree =
      0 :: List.range' 1 4095 := by with_unfolding_all rfl
  rw [OMSOrderPool.ParentInUse, hfree]
  exact FreeStack.not_inUse_init _ p

end Runs

end OmsFormal.Oms
