import Mathlib.Data.Nat.ModEq

/-!
# One timer on a ring

A ring of slots is scanned by a clock that moves one tick at a time. A timer sits in
the slot of its deadline's bucket modulo the ring; if the bucket is ahead of the clock
by at most one turn, the first scan that meets the slot is the one of the bucket.
-/

namespace OmsFormal.RingTimer
set_option autoImplicit false

/-- A timer while it is armed, and the clocks at which it fired. -/
structure Watch (α : Type) where
  armed : Option α
  fired : List ℕ

variable {α : Type} (slotOf : α → ℕ) (ring tick : ℕ)

/-- The clock scans one slot. -/
def scan (slot now : ℕ) (w : Watch α) : Watch α :=
  match w.armed with
  | none => w
  | some a => if slotOf a = slot then ⟨none, w.fired ++ [now]⟩ else w

/-- The clock moves on by a number of ticks and scans the slot of each. -/
def turn : ℕ → ℕ → Watch α → Watch α
  | 0, _, w => w
  | n + 1, now, w => turn n (now + tick) (scan slotOf ((now + tick) / tick % ring) (now + tick) w)

/-- The timer `a` waits for its bucket, or fired in it. -/
def Expects (bucket : ℕ) (a : α) (fired : List ℕ) (now : ℕ) (w : Watch α) : Prop :=
  (now / tick < bucket ∧ bucket ≤ now / tick + ring ∧ w = ⟨some a, fired⟩) ∨
  (bucket ≤ now / tick ∧ ∃ clock, clock / tick = bucket ∧ w = ⟨none, fired ++ [clock]⟩)

variable {slotOf ring tick} {a : α} {w : Watch α} {bucket now : ℕ} {fired : List ℕ}

theorem scan_none (slot now : ℕ) (h : w.armed = none) : scan slotOf slot now w = w := by
  rw [scan, h]

theorem scan_some (slot now : ℕ) :
    scan slotOf slot now ⟨some a, fired⟩ =
      if slotOf a = slot then ⟨none, fired ++ [now]⟩ else ⟨some a, fired⟩ := rfl

theorem turn_none (n now : ℕ) (h : w.armed = none) : turn slotOf ring tick n now w = w := by
  induction n generalizing now with
  | zero => rfl
  | succ n ih => rw [turn, scan_none _ _ h, ih]

/-- Buckets less than a turn apart are in different slots. -/
theorem slot_ne {b : ℕ} (hlt : b < bucket) (hturn : bucket < b + ring) : bucket % ring ≠ b % ring := by
  intro heq
  have hdvd := (Nat.modEq_iff_dvd' hlt.le).mp heq.symm
  have hle := Nat.le_of_dvd (Nat.sub_pos_of_lt hlt) hdvd
  omega

theorem Expects.scan (htick : 0 < tick) (hslot : slotOf a = bucket % ring)
    (h : Expects ring tick bucket a fired now w) :
    Expects ring tick bucket a fired (now + tick)
      (scan slotOf ((now + tick) / tick % ring) (now + tick) w) := by
  have hnext : (now + tick) / tick = now / tick + 1 := Nat.add_div_right now htick
  rcases h with ⟨hbehind, hahead, rfl⟩ | ⟨hpast, clock, hclock, rfl⟩
  · by_cases hdue : now / tick + 1 = bucket
    · right
      refine ⟨by rw [hnext, hdue], now + tick, hnext.trans hdue, ?_⟩
      rw [hnext, hdue, scan_some, if_pos hslot]
    · left
      refine ⟨by omega, by omega, ?_⟩
      have hother : slotOf a ≠ (now / tick + 1) % ring := by
        rw [hslot]
        exact slot_ne (by omega) (by omega)
      rw [hnext, scan_some, if_neg hother]
  · right
    exact ⟨by omega, clock, hclock, scan_none _ _ rfl⟩

theorem Expects.turn (htick : 0 < tick) (hslot : slotOf a = bucket % ring) (n : ℕ)
    (h : Expects ring tick bucket a fired now w) :
    Expects ring tick bucket a fired (now + n * tick) (turn slotOf ring tick n now w) := by
  induction n generalizing now w with
  | zero =>
    rw [zero_mul, add_zero]
    exact h
  | succ n ih =>
    have hmore := ih (h.scan htick hslot)
    rw [RingTimer.turn, Nat.succ_mul, Nat.add_comm (n * tick), ← Nat.add_assoc]
    exact hmore

end OmsFormal.RingTimer
