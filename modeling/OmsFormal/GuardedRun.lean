import Mathlib.Order.Basic
import Mathlib.Data.List.Infix

/-!
# Runs of a deterministic system under a step condition

A run is a list of events applied from the left. `Along ok` says that every
event met the condition in the state it was applied to; an invariant then has to
be checked for one step only, and a quantity that no step raises is monotone
over the whole run.
-/

namespace OmsFormal.GuardedRun
set_option autoImplicit false

universe u v
variable {σ : Type u} {ε : Type v} (step : ε → σ → σ)

def run (s : σ) (evs : List ε) : σ := evs.foldl (fun s e => step e s) s

/-- Every event of the run meets `ok` in the state it is applied to. -/
def Along (ok : ε → σ → Prop) : σ → List ε → Prop
  | _, [] => True
  | s, e :: evs => ok e s ∧ Along ok (step e s) evs

variable {step} {ok : ε → σ → Prop} {s : σ} {evs : List ε}

@[simp] theorem run_nil : run step s [] = s := rfl

@[simp] theorem run_cons (e : ε) : run step s (e :: evs) = run step (step e s) evs := rfl

theorem run_append (evs' : List ε) : run step s (evs ++ evs') = run step (run step s evs) evs' :=
  List.foldl_append

theorem along_append {evs' : List ε} :
    Along step ok s (evs ++ evs') ↔ Along step ok s evs ∧ Along step ok (run step s evs) evs' := by
  induction evs generalizing s with
  | nil => simp [Along]
  | cons e evs ih => simp [Along, ih, and_assoc]

theorem along_true : Along step (fun _ _ => True) s evs := by
  induction evs generalizing s with
  | nil => exact trivial
  | cons e evs ih => exact ⟨trivial, ih⟩

theorem along_of_forall (h : ∀ e ∈ evs, ∀ s, ok e s) : Along step ok s evs := by
  induction evs generalizing s with
  | nil => exact trivial
  | cons e evs ih => exact ⟨h e List.mem_cons_self s, ih fun x hx => h x (List.mem_cons_of_mem e hx)⟩

theorem Along.mono {ok' : ε → σ → Prop} (h : Along step ok s evs) (himp : ∀ e s, ok e s → ok' e s) :
    Along step ok' s evs := by
  induction evs generalizing s with
  | nil => exact trivial
  | cons e evs ih => exact ⟨himp e s h.1, ih h.2⟩

theorem Along.and {ok' : ε → σ → Prop} (h : Along step ok s evs) (h' : Along step ok' s evs) :
    Along step (fun e s => ok e s ∧ ok' e s) s evs := by
  induction evs generalizing s with
  | nil => exact trivial
  | cons e evs ih => exact ⟨⟨h.1, h'.1⟩, ih h.2 h'.2⟩

/-- An invariant of every admissible step holds at the end of every admissible run. -/
theorem Along.invariant (h : Along step ok s evs) (Inv : σ → Prop)
    (hstep : ∀ e s, Inv s → ok e s → Inv (step e s)) (hs : Inv s) : Inv (run step s evs) := by
  induction evs generalizing s with
  | nil => exact hs
  | cons e evs ih => exact ih h.2 (hstep e s hs h.1)

/-- A condition that follows from an invariant and the condition of the run. -/
theorem Along.strengthen {ok' : ε → σ → Prop} (h : Along step ok s evs) (Inv : σ → Prop)
    (hstep : ∀ e s, Inv s → ok e s → Inv (step e s)) (himp : ∀ e s, Inv s → ok e s → ok' e s)
    (hs : Inv s) : Along step ok' s evs := by
  induction evs generalizing s with
  | nil => exact trivial
  | cons e evs ih => exact ⟨himp e s hs h.1, ih h.2 (hstep e s hs h.1)⟩

/-- Two conditions that an invariant makes the same, step by step, are the same along the run. -/
theorem Along.along_iff {P Q : ε → σ → Prop} (h : Along step ok s evs) (Inv : σ → Prop)
    (hstep : ∀ e s, Inv s → ok e s → Inv (step e s)) (hiff : ∀ e s, Inv s → ok e s → (P e s ↔ Q e s))
    (hs : Inv s) : Along step P s evs ↔ Along step Q s evs := by
  induction evs generalizing s with
  | nil => exact Iff.rfl
  | cons e evs ih => exact and_congr (hiff e s hs h.1) (ih h.2 (hstep e s hs h.1))

section Always
variable {P : σ → Prop}

/-- Every state of the run, the first and the last included, has the property. -/
def Always (step : ε → σ → σ) (P : σ → Prop) (s : σ) (evs : List ε) : Prop :=
  ∀ pre, pre <+: evs → P (run step s pre)

theorem always_nil : Always step P s [] ↔ P s := by
  simp [Always]

theorem always_cons {e : ε} : Always step P s (e :: evs) ↔ P s ∧ Always step P (step e s) evs := by
  constructor
  · intro h
    exact ⟨h [] List.nil_prefix, fun pre hpre => h (e :: pre) (List.cons_prefix_cons.mpr ⟨rfl, hpre⟩)⟩
  · rintro ⟨hs, h⟩ pre hpre
    cases pre with
    | nil => exact hs
    | cons x pre =>
      obtain ⟨hx, htail⟩ := List.cons_prefix_cons.mp hpre
      rw [hx]
      exact h pre htail

/-- What follows from an invariant of every admissible step holds in every state of the run. -/
theorem Along.always (h : Along step ok s evs) (Inv : σ → Prop)
    (hstep : ∀ e s, Inv s → ok e s → Inv (step e s)) (himp : ∀ s, Inv s → P s) (hs : Inv s) :
    Always step P s evs := by
  rintro pre ⟨post, rfl⟩
  exact himp _ ((along_append.mp h).1.invariant Inv hstep hs)

/-- If, step by step, the property survives exactly when the step meets `ok'`, then it holds all
along the run exactly when all steps meet `ok'`. -/
theorem Along.always_iff {ok' : ε → σ → Prop} (h : Along step ok s evs) (Inv : σ → Prop)
    (hstep : ∀ e s, Inv s → ok e s → Inv (step e s))
    (hiff : ∀ e s, Inv s → ok e s → P s → (P (step e s) ↔ ok' e s)) (hs : Inv s) (hP : P s) :
    Always step P s evs ↔ Along step ok' s evs := by
  induction evs generalizing s with
  | nil => simp [always_nil, Along, hP]
  | cons e evs ih =>
    have hone := hiff e s hs h.1 hP
    rw [always_cons, Along]
    constructor
    · rintro ⟨_, hrest⟩
      have hnext : P (step e s) := hrest [] List.nil_prefix
      exact ⟨hone.mp hnext, (ih h.2 (hstep e s hs h.1) hnext).mp hrest⟩
    · rintro ⟨hok, hrest⟩
      exact ⟨hP, (ih h.2 (hstep e s hs h.1) (hone.mpr hok)).mpr hrest⟩

end Always

section Ghost
universe w
variable {τ : Type w} {stepGhost : ε → τ → τ} (proj : τ → σ) {x : τ}

/-- A system with ghost state runs as the system it extends. -/
theorem run_proj (hproj : ∀ e x, proj (stepGhost e x) = step e (proj x)) :
    proj (run stepGhost x evs) = run step (proj x) evs := by
  induction evs generalizing x with
  | nil => rfl
  | cons e evs ih => rw [run_cons, run_cons, ih, hproj]

theorem Along.lift (stepGhost : ε → τ → τ) (proj : τ → σ) (x : τ)
    (hproj : ∀ e x, proj (stepGhost e x) = step e (proj x)) (h : Along step ok (proj x) evs) :
    Along stepGhost (fun e x => ok e (proj x)) x evs := by
  induction evs generalizing x with
  | nil => exact trivial
  | cons e evs ih => exact ⟨h.1, ih _ (by rw [hproj]; exact h.2)⟩

end Ghost

/-- A quantity that no admissible step raises, in states where the invariant holds. -/
theorem Along.antitone {α : Type*} [Preorder α] (h : Along step ok s evs) (Inv : σ → Prop) (f : σ → α)
    (hstep : ∀ e s, Inv s → ok e s → Inv (step e s))
    (hle : ∀ e s, Inv s → ok e s → f (step e s) ≤ f s)
    (hs : Inv s) : f (run step s evs) ≤ f s := by
  induction evs generalizing s with
  | nil => exact le_rfl
  | cons e evs ih => exact (ih h.2 (hstep e s hs h.1)).trans (hle e s hs h.1)

/-- A count that some steps lower until it is zero, and that no other step raises, is zero once
there were enough of the former. -/
theorem Along.countdown (h : Along step ok s evs) (Inv : σ → Prop) (f : σ → ℕ) (p : ε → Bool)
    (hstep : ∀ e s, Inv s → ok e s → Inv (step e s))
    (hdrop : ∀ e s, Inv s → ok e s → p e = true → f (step e s) ≤ f s - 1)
    (hle : ∀ e s, Inv s → ok e s → f (step e s) ≤ f s) (hs : Inv s) (hk : f s ≤ evs.countP p) :
    Inv (run step s evs) ∧ f (run step s evs) = 0 := by
  induction evs generalizing s with
  | nil => exact ⟨hs, Nat.le_zero.mp hk⟩
  | cons e evs ih =>
    apply ih h.2 (hstep e s hs h.1)
    by_cases hp : p e = true
    · rw [List.countP_cons_of_pos hp] at hk
      have hone := hdrop e s hs h.1 hp
      omega
    · rw [List.countP_cons_of_neg hp] at hk
      exact (hle e s hs h.1).trans hk

end OmsFormal.GuardedRun
