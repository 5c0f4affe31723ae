import OmsFormal.RouteOrigins
import OmsFormal.GuardedRun

/-!
# The feed of a venue's book

A book is loaded from a snapshot and then follows numbered messages. The first
number out of turn makes it invalid, and nothing but a new snapshot makes it
valid again: the messages after the gap may be accepted, the flag stays down. The
router leaves invalid books alone, so an order goes only to a venue whose book
has seen every message since its snapshot. What a message does to the levels is
the feed handler's business.
-/

namespace OmsFormal.Sor
open GuardedRun
set_option autoImplicit false

/-- A book with the number of the last message it took. -/
structure FeedBook where
  book : NormalizedBook
  lastSequence : UInt64

/-- `levels` is what the handler makes of the sides when the message is in turn. -/
inductive FeedEvent where
  | load (seq : UInt64) (levels : Side → List Level)
  | message (seq : UInt64) (levels : Side → List Level)
  | invalidate

namespace FeedBook

/-- False on a gap. -/
def applySequence (incomingSeq : UInt64) (b : FeedBook) : Bool × FeedBook :=
  if b.lastSequence ≠ 0 ∧ incomingSeq ≠ b.lastSequence + 1 then
    (false, { b with book := { b.book with isValid := false } })
  else (true, { b with lastSequence := incomingSeq })

def invalidate (b : FeedBook) : FeedBook :=
  { b with book := { b.book with isValid := false, sides := fun _ => [] } }

def load (seq : UInt64) (levels : Side → List Level) (b : FeedBook) : FeedBook :=
  { book := { b.book with sides := levels, isValid := true }, lastSequence := seq }

def receive (seq : UInt64) (levels : Side → List Level) (b : FeedBook) : FeedBook :=
  match b.applySequence seq with
  | (false, b) => b
  | (true, b) => { b with book := { b.book with sides := levels } }

def step : FeedEvent → FeedBook → FeedBook
  | .load seq levels, b => b.load seq levels
  | .message seq levels, b => b.receive seq levels
  | .invalidate, b => b.invalidate

end FeedBook

def FeedEvent.IsLoad : FeedEvent → Prop
  | .load _ _ => True
  | _ => False

/-- Messages only, numbered without a gap from the one after `last`. -/
def Contiguous : ℕ → List FeedEvent → Prop
  | _, [] => True
  | last, .message seq _ :: evs => seq.toNat = last + 1 ∧ Contiguous (last + 1) evs
  | _, _ :: _ => False

/-- What a book went through: anything, then a snapshot, then no other one. Snapshots carry a
number, and numbers do not run out. -/
structure FeedHistory where
  start : FeedBook
  before : List FeedEvent
  seq : UInt64
  levels : Side → List Level
  since : List FeedEvent
  fresh : seq ≠ 0
  latest : ∀ e ∈ since, ¬ e.IsLoad
  short : seq.toNat + since.length < 2 ^ 64

def FeedHistory.book (h : FeedHistory) : FeedBook :=
  run FeedBook.step h.start (h.before ++ .load h.seq h.levels :: h.since)

section Gap
variable {b : FeedBook} {evs : List FeedEvent}

theorem applySequence_inTurn {seq : UInt64} (h : seq.toNat = b.lastSequence.toNat + 1) :
    b.applySequence seq = (true, { b with lastSequence := seq }) := by
  have hnext : seq = b.lastSequence + 1 := by
    apply UInt64.toNat_inj.mp
    have hlt := seq.toNat_lt
    rw [UInt64.toNat_add, h]
    exact (Nat.mod_eq_of_lt (h ▸ hlt)).symm
  exact if_neg (not_and.mpr fun _ => not_not.mpr hnext)

theorem applySequence_gap {seq : UInt64} (hlast : b.lastSequence ≠ 0)
    (hroom : b.lastSequence.toNat + 1 < 2 ^ 64) (h : seq.toNat ≠ b.lastSequence.toNat + 1) :
    b.applySequence seq = (false, { b with book := { b.book with isValid := false } }) := by
  refine if_pos ⟨hlast, fun heq => h ?_⟩
  rw [heq, UInt64.toNat_add]
  exact Nat.mod_eq_of_lt hroom

theorem step_keepsInvalid {e : FeedEvent} (he : ¬ e.IsLoad) (h : b.book.isValid = false) :
    (FeedBook.step e b).book.isValid = false := by
  cases e with
  | load seq levels => exact absurd trivial he
  | message seq levels =>
    simp only [FeedBook.step, FeedBook.receive, FeedBook.applySequence]
    split
    · rename_i heq
      split at heq
      · cases heq
        rfl
      · cases heq
    · rename_i heq
      split at heq
      · cases heq
      · cases heq
        exact h
  | invalidate => rfl

/-- A book that went down stays down until the next snapshot. -/
theorem run_keepsInvalid (h : b.book.isValid = false) (hevs : ∀ e ∈ evs, ¬ e.IsLoad) :
    (run FeedBook.step b evs).book.isValid = false := by
  have hall : Along FeedBook.step (fun e _ => ¬ e.IsLoad) b evs := along_of_forall fun e he _ => hevs e he
  exact hall.invariant (fun b => b.book.isValid = false) (fun _ _ hb he => step_keepsInvalid he hb) h

/-- Without a new snapshot a valid book stays valid exactly as long as no message is missed. -/
theorem run_valid_iff (hvalid : b.book.isValid = true) (hlast : b.lastSequence ≠ 0)
    (hevs : ∀ e ∈ evs, ¬ e.IsLoad) (hshort : b.lastSequence.toNat + evs.length < 2 ^ 64) :
    (run FeedBook.step b evs).book.isValid = true ↔ Contiguous b.lastSequence.toNat evs := by
  induction evs generalizing b with
  | nil => simp [Contiguous, hvalid]
  | cons e evs ih =>
    have hrest : ∀ e ∈ evs, ¬ e.IsLoad := fun e he => hevs e (List.mem_cons_of_mem _ he)
    rw [List.length_cons] at hshort
    rw [run_cons]
    cases e with
    | load seq levels => exact absurd trivial (hevs _ List.mem_cons_self)
    | message seq levels =>
      rw [Contiguous]
      by_cases hturn : seq.toNat = b.lastSequence.toNat + 1
      · have hstep : FeedBook.step (.message seq levels) b =
            { book := { b.book with sides := levels }, lastSequence := seq } := by
          simp only [FeedBook.step, FeedBook.receive, applySequence_inTurn hturn]
        have hnext : seq ≠ 0 := by
          rintro rfl
          simp at hturn
        have hafter := ih (b := { book := { b.book with sides := levels }, lastSequence := seq })
          hvalid hnext hrest (by rw [hturn]; omega)
        rw [hstep, hafter]
        simp only [hturn, true_and]
      · have hstep : FeedBook.step (.message seq levels) b =
            { b with book := { b.book with isValid := false } } := by
          simp only [FeedBook.step, FeedBook.receive, applySequence_gap hlast (by omega) hturn]
        rw [hstep, run_keepsInvalid rfl hrest]
        simp [hturn]
    | invalidate =>
      rw [FeedBook.step, run_keepsInvalid rfl hrest]
      simp [Contiguous]

end Gap

theorem FeedHistory.valid_iff (h : FeedHistory) :
    h.book.book.isValid = true ↔ Contiguous h.seq.toNat h.since := by
  rw [FeedHistory.book, run_append, run_cons]
  exact run_valid_iff rfl h.fresh h.latest h.short

/-- A book is valid exactly when it has seen every message since its last snapshot, and only then
does the router, taker or maker, send an order to its venue. -/
theorem routed_contiguous (eng : RoutingEngine) (ctx : RoutingContext) (feeds : ℕ → FeedHistory)
    (hr : 0 < resolveReferenceLotSize ctx) (hid : ∀ ex, (ctx.states ex).exchangeId = ex)
    (hbook : ∀ ex, (ctx.states ex).book = (feeds ex).book.book) :
    (∀ ex, (ctx.states ex).book.isValid = true ↔ Contiguous (feeds ex).seq.toNat (feeds ex).since) ∧
    ∀ co ∈ (eng.calculateOptimalSplit ctx).2 ++ (eng.calculateMakerPlacement ctx).2,
      Contiguous (feeds co.exchangeId).seq.toNat (feeds co.exchangeId).since := by
  have hvalid (ex : ℕ) :
      (ctx.states ex).book.isValid = true ↔ Contiguous (feeds ex).seq.toNat (feeds ex).since := by
    rw [hbook]
    exact (feeds ex).valid_iff
  refine ⟨hvalid, fun co hco => ?_⟩
  obtain ⟨ex, hlive, hex⟩ : ∃ ex, ctx.Live ex ∧ co.exchangeId = (ctx.states ex).exchangeId := by
    rcases List.mem_append.mp hco with htaker | hmaker
    · obtain ⟨ex, hlive, hex, -⟩ := (optimalSplit_taken eng hr co htaker).origin
      exact ⟨ex, hlive, hex⟩
    · obtain ⟨ex, hlive, hex, -⟩ := (makerPlacement_posted eng co hmaker).origin
      exact ⟨ex, hlive, hex⟩
  rw [hex, hid]
  exact (hvalid ex).mp hlive.2.2

namespace Sample

/-- A snapshot numbered 1 and one message more, which venue 0 gets in turn and the others miss. -/
def feed (seq : UInt64) : FeedHistory where
  start := ⟨⟨fun _ => [], 1, 1 / 1000, false⟩, 0⟩
  before := []
  seq := 1
  levels := fun _ => [⟨100, 4⟩]
  since := [.message seq fun _ => [⟨100, 9⟩]]
  fresh := by decide
  latest := by
    intro e he
    rw [List.mem_singleton.mp he]
    exact id
  short := by
    change 1 + 1 < 2 ^ 64
    decide

def feeds (ex : ℕ) : FeedHistory := if ex = 0 then feed 2 else feed 3

def fedVenues : RoutingContext :=
  { twoVenues with states := fun ex => { askVenue ex [] with book := (feeds ex).book.book } }

end Sample

/-- All lots go to the venue whose feed has no gap. -/
theorem routed_contiguous_fedVenues :
    (Sample.freeEngine.calculateOptimalSplit Sample.fedVenues).2.map (fun co => (co.exchangeId, co.qty)) =
      [(0, 8 / 1000)] ∧
    ∀ co ∈ (Sample.freeEngine.calculateOptimalSplit Sample.fedVenues).2 ++
        (Sample.freeEngine.calculateMakerPlacement Sample.fedVenues).2,
      Contiguous (Sample.feeds co.exchangeId).seq.toNat (Sample.feeds co.exchangeId).since :=
  ⟨by decide +kernel, (routed_contiguous Sample.freeEngine Sample.fedVenues Sample.feeds (by decide +kernel)
    (fun _ => rfl) (fun _ => rfl)).2⟩

end OmsFormal.Sor
