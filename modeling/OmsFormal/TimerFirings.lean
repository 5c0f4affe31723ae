import OmsFormal.TimerDeadlines
import OmsFormal.RingTimer

/-!
# When a timer fires

A wheel whose callback only keeps a log. Seen from one child, an insert arms its timer,
a cancel disarms it and a tick scans slots; what is done for other children is not seen
at all. So a timer that is at most one turn ahead fires once, in the bucket of its
deadline.
-/

namespace OmsFormal.Oms
open GuardedRun RingTimer
set_option autoImplicit false

namespace TimerWheel
variable {wheel : TimerWheel}

theorem Placed.occupied_le (h : wheel.Placed) (slot : ℕ) : wheel.occupied slot ≤ kSlotDepth := by
  have hn : ((wheel.active.filter fun e => decide (e.slot = slot)).map TimerEntry.idx).Nodup := by
    apply List.Nodup.map_on
    · intro a ha b hb hidx
      obtain ⟨hamem, haslot⟩ := List.mem_filter.mp ha
      obtain ⟨hbmem, hbslot⟩ := List.mem_filter.mp hb
      have hslot : a.slot = b.slot := (of_decide_eq_true haslot).trans (of_decide_eq_true hbslot).symm
      exact List.inj_on_of_nodup_map h.position hamem hbmem (Prod.ext hslot hidx)
    · exact (List.Nodup.of_map _ h.position).filter _
  have hsub : (wheel.active.filter fun e => decide (e.slot = slot)).map TimerEntry.idx ⊆
      List.range kSlotDepth := by
    intro i hi
    obtain ⟨e, he, rfl⟩ := List.mem_map.mp hi
    exact List.mem_range.mpr (h.bound e (List.mem_filter.mp he).1).2
  have hlen := (hn.subperm hsub).length_le
  rw [List.length_range, List.length_map, ← List.countP_eq_length_filter] at hlen
  exact hlen

/-- An insert reports failure exactly when its slot is full, and then changes nothing. -/
theorem insert_fails_iff (h : wheel.Placed) (c now timeout : ℕ) :
    (wheel.insert c now timeout).1 = false ↔
      wheel.occupied (wheel.slotFor (now + timeout)) = kSlotDepth := by
  constructor
  · intro hfail
    by_contra hroom
    obtain ⟨i, hins⟩ := insert_of_room wheel c now timeout
      (lt_of_le_of_ne (h.occupied_le _) hroom)
    rw [hins] at hfail
    cases hfail
  · intro hfull
    have hafter := (h.insert c now timeout).occupied_le (wheel.slotFor (now + timeout))
    simp only [insert] at hafter ⊢
    split
    · rfl
    · rename_i i hi
      rw [hi] at hafter
      simp only [occupied, List.countP_cons, decide_true, if_true] at hafter hfull
      omega

theorem insert_of_fails {c now timeout : ℕ} (h : (wheel.insert c now timeout).1 = false) :
    (wheel.insert c now timeout).2 = wheel := by
  simp only [insert] at h ⊢
  split
  · rfl
  · rename_i i hi
    rw [hi] at h
    cases h

theorem insert_of_succeeds {c now timeout : ℕ} (h : (wheel.insert c now timeout).1 = true) :
    ∃ i, (wheel.insert c now timeout).2 = { wheel with
      active := ⟨wheel.slotFor (now + timeout), i, c, now + timeout⟩ :: wheel.active } := by
  simp only [insert] at h ⊢
  split
  · rename_i hi
    rw [hi] at h
    cases h
  · exact ⟨_, rfl⟩

end TimerWheel

inductive WheelCall
  | insert (childId nowNs timeoutNs : ℕ)
  | cancel (childId : ℕ)
  | tick (nowNs : ℕ)
  deriving DecidableEq

/-- The wheel, and the callbacks it made: the child and the wheel clock. -/
structure FiringLog where
  wheel : TimerWheel
  calls : List (ℕ × ℕ)

namespace FiringLog

def setWheel (wheel : TimerWheel) (x : FiringLog) : FiringLog := { x with wheel := wheel }

def record (clock _idx childId : ℕ) (x : FiringLog) : FiringLog :=
  { x with calls := x.calls ++ [(childId, clock)] }

def start (tickNs nowNs : ℕ) : FiringLog := ⟨⟨[], tickNs, nowNs⟩, []⟩

def step : WheelCall → FiringLog → FiringLog
  | .insert c now timeout, x => { x with wheel := (x.wheel.insert c now timeout).2 }
  | .cancel c, x => { x with wheel := x.wheel.cancel c }
  | .tick now, x => TimerWheel.tick FiringLog.wheel setWheel record now x

/-- No active entry names the child. -/
def Idle (c : ℕ) (x : FiringLog) : Prop := ∀ e ∈ x.wheel.active, e.childId ≠ c

/-- A child is armed only while it has no active entry. -/
def ArmsIdle : WheelCall → FiringLog → Prop
  | .insert c _ _, x => x.Idle c
  | .cancel _, _ | .tick _, _ => True

/-- The clocks at which the child's timer fired. -/
def firings (c : ℕ) (x : FiringLog) : List ℕ :=
  (x.calls.filter fun call => decide (call.1 = c)).map Prod.snd

/-- What the log says about one child. -/
def watch (c : ℕ) (x : FiringLog) : Watch TimerEntry where
  armed := x.wheel.active.find? fun e => decide (e.childId = c)
  fired := x.firings c

structure Kept (x : FiringLog) : Prop where
  distinct : x.wheel.Distinct
  placed : x.wheel.Placed

variable {x y : FiringLog} {c slot idx : ℕ} {e : TimerEntry}

section Watch

theorem armed_none_iff : (x.watch c).armed = none ↔ x.Idle c := by
  simp [watch, Idle]

theorem armed_mem (h : (x.watch c).armed = some e) : e ∈ x.wheel.active ∧ e.childId = c := by
  have hfound : (x.wheel.active.find? fun e => decide (e.childId = c)) = some e := h
  have hc := List.find?_some hfound
  exact ⟨List.mem_of_find?_eq_some hfound, by simpa using hc⟩

theorem armed_iff (h : x.wheel.Distinct) :
    (x.watch c).armed = some e ↔ e ∈ x.wheel.active ∧ e.childId = c := by
  constructor
  · exact armed_mem
  · rintro ⟨he, hc⟩
    cases hfound : (x.watch c).armed with
    | none => exact absurd hc (armed_none_iff.mp hfound e he)
    | some e' =>
      obtain ⟨he', hc'⟩ := armed_mem hfound
      rw [h.eq he' he (hc'.trans hc.symm)]

/-- The same entries and the same firings of the child. -/
theorem watch_congr (hx : x.wheel.Distinct) (hy : y.wheel.Distinct)
    (hactive : ∀ e, e.childId = c → (e ∈ y.wheel.active ↔ e ∈ x.wheel.active))
    (hfired : y.firings c = x.firings c) : y.watch c = x.watch c := by
  have harmed : (y.watch c).armed = (x.watch c).armed := by
    ext e
    rw [armed_iff hy, armed_iff hx]
    constructor
    · rintro ⟨he, hc⟩
      exact ⟨(hactive e hc).mp he, hc⟩
    · rintro ⟨he, hc⟩
      exact ⟨(hactive e hc).mpr he, hc⟩
  exact (Watch.mk.injEq ..).mpr ⟨harmed, hfired⟩

theorem firings_record (clock idx c' : ℕ) :
    (record clock idx c' x).firings c = x.firings c ++ if c' = c then [clock] else [] := by
  simp only [firings, record, List.filter_append, List.map_append, List.filter_cons, List.filter_nil,
    decide_eq_true_eq]
  split <;> rfl

end Watch

section Scan

/-- One position of the ring is scanned. -/
def visit (slot idx : ℕ) (x : FiringLog) : FiringLog :=
  TimerWheel.visitEntry FiringLog.wheel setWheel record slot idx x

theorem visit_of_none (h : x.wheel.entryAt slot idx = none) : x.visit slot idx = x := by
  rw [visit, TimerWheel.visitEntry, h]

theorem visit_of_some (h : x.wheel.entryAt slot idx = some e) :
    x.visit slot idx = record x.wheel.nowNs idx e.childId (x.setWheel (x.wheel.deactivate e)) := by
  rw [visit, TimerWheel.visitEntry, h]

theorem visit_kept (h : x.Kept) (slot idx : ℕ) :
    (x.visit slot idx).Kept ∧ TimerWheel.SameClock x.wheel (x.visit slot idx).wheel := by
  cases hfound : x.wheel.entryAt slot idx with
  | none =>
    rw [visit_of_none hfound]
    exact ⟨h, rfl, rfl⟩
  | some e =>
    rw [visit_of_some hfound]
    exact ⟨⟨TimerWheel.deactivate_distinct h.distinct e, h.placed.of_sublist List.erase_sublist⟩, rfl, rfl⟩

/-- The visit of a timer's position fires it. -/
theorem watch_visit_self (h : x.Kept) (he : e ∈ x.wheel.active) (hc : e.childId = c) :
    (x.visit e.slot e.idx).watch c = ⟨none, x.firings c ++ [x.wheel.nowNs]⟩ := by
  have hfound := h.placed.entryAt he
  have hdistinct := TimerWheel.deactivate_distinct h.distinct e
  have hidle : (x.visit e.slot e.idx).Idle c := by
    rw [visit_of_some hfound]
    intro y hy
    rw [← hc]
    exact ((TimerWheel.mem_deactivate h.distinct he).mp hy).2
  have hfired : (x.visit e.slot e.idx).firings c = x.firings c ++ [x.wheel.nowNs] := by
    rw [visit_of_some hfound, firings_record, if_pos hc]
    rfl
  exact (Watch.mk.injEq ..).mpr ⟨armed_none_iff.mpr hidle, hfired⟩

/-- The visit of any other position is not seen. -/
theorem watch_visit_other (h : x.Kept)
    (hother : ∀ e, (x.watch c).armed = some e → ¬ (e.slot = slot ∧ e.idx = idx)) :
    (x.visit slot idx).watch c = x.watch c := by
  cases hfound : x.wheel.entryAt slot idx with
  | none => rw [visit_of_none hfound]
  | some e =>
    have he := TimerWheel.entryAt_mem hfound
    have hc : e.childId ≠ c := fun hc =>
      hother e ((armed_iff h.distinct).mpr ⟨he, hc⟩) (TimerWheel.entryAt_place hfound)
    rw [visit_of_some hfound]
    apply watch_congr h.distinct (TimerWheel.deactivate_distinct h.distinct e)
    · intro y hy
      have hmem := TimerWheel.mem_deactivate (x := y) h.distinct he
      exact hmem.trans ⟨fun hboth => hboth.1, fun hy' => ⟨hy', fun heq => hc (heq.symm.trans hy)⟩⟩
    · rw [firings_record, if_neg hc, List.append_nil]
      rfl

def visits (slot : ℕ) (l : List ℕ) (x : FiringLog) : FiringLog := l.foldl (fun x i => x.visit slot i) x

theorem visits_kept (h : x.Kept) (slot : ℕ) (l : List ℕ) :
    (x.visits slot l).Kept ∧ TimerWheel.SameClock x.wheel (x.visits slot l).wheel := by
  induction l generalizing x with
  | nil => exact ⟨h, rfl, rfl⟩
  | cons i l ih =>
    obtain ⟨hone, hclock⟩ := visit_kept h slot i
    obtain ⟨hall, hrest⟩ := ih hone
    exact ⟨hall, hclock.trans hrest⟩

theorem watch_visits_other (h : x.Kept) {l : List ℕ}
    (hother : ∀ e, (x.watch c).armed = some e → ¬ (e.slot = slot ∧ e.idx ∈ l)) :
    (x.visits slot l).watch c = x.watch c := by
  induction l generalizing x with
  | nil => rfl
  | cons i l ih =>
    have hone : (x.visit slot i).watch c = x.watch c := watch_visit_other h
      fun e he hplace => hother e he ⟨hplace.1, by rw [hplace.2]; exact List.mem_cons_self⟩
    refine (ih (visit_kept h slot i).1 fun e he hplace => ?_).trans hone
    rw [hone] at he
    exact hother e he ⟨hplace.1, List.mem_cons_of_mem i hplace.2⟩

theorem watch_visits_self (h : x.Kept) {l : List ℕ} (he : (x.watch c).armed = some e) (hidx : e.idx ∈ l) :
    (x.visits e.slot l).watch c = ⟨none, x.firings c ++ [x.wheel.nowNs]⟩ := by
  induction l generalizing x with
  | nil => exact absurd hidx List.not_mem_nil
  | cons i l ih =>
    obtain ⟨hkept, hclock⟩ := visit_kept h e.slot i
    by_cases hi : i = e.idx
    · obtain ⟨hmem, hc⟩ := armed_mem he
      have hone := watch_visit_self h hmem hc
      rw [← hi] at hone
      refine (watch_visits_other hkept fun e' he' => ?_).trans hone
      rw [hone] at he'
      cases he'
    · have hone : (x.visit e.slot i).watch c = x.watch c := by
        apply watch_visit_other h
        intro e' he' hplace
        rw [he] at he'
        cases he'
        exact hi hplace.2.symm
      have hlater := (List.mem_cons.mp hidx).resolve_left fun heq => hi heq.symm
      have hrest := ih hkept (by rw [hone]; exact he) hlater
      rw [hclock.nowNs, show (x.visit e.slot i).firings c = x.firings c from congrArg Watch.fired hone]
        at hrest
      exact hrest

/-- Seen from one child, a scan of a slot is the scan of its own timer. -/
theorem watch_checkSlot (h : x.Kept) (slot : ℕ) :
    (TimerWheel.checkSlot FiringLog.wheel setWheel record slot x).watch c =
      scan TimerEntry.slot slot x.wheel.nowNs (x.watch c) := by
  change (x.visits slot (List.range kSlotDepth)).watch c = _
  cases harmed : (x.watch c).armed with
  | none =>
    rw [scan_none _ _ harmed]
    apply watch_visits_other h
    intro e he
    rw [harmed] at he
    cases he
  | some e =>
    have hbound := (h.placed.bound e (armed_mem harmed).1).2
    have hwatch : x.watch c = ⟨some e, x.firings c⟩ := (Watch.mk.injEq ..).mpr ⟨harmed, rfl⟩
    by_cases hslot : e.slot = slot
    · subst hslot
      rw [watch_visits_self h harmed (List.mem_range.mpr hbound), hwatch, scan_some, if_pos rfl]
    · rw [hwatch, scan_some, if_neg hslot, ← hwatch]
      apply watch_visits_other h
      intro e' he' hplace
      rw [harmed] at he'
      cases he'
      exact hslot hplace.1

/-- Seen from one child, the loop of `tick` turns the ring under its own timer. -/
theorem watch_tickLoop (h : x.Kept) (n : ℕ) :
    (TimerWheel.tickLoop FiringLog.wheel setWheel record n x).watch c =
      turn TimerEntry.slot kFineSlots x.wheel.tickNs n x.wheel.nowNs (x.watch c) ∧
    (TimerWheel.tickLoop FiringLog.wheel setWheel record n x).Kept ∧
    (TimerWheel.tickLoop FiringLog.wheel setWheel record n x).wheel.tickNs = x.wheel.tickNs ∧
    (TimerWheel.tickLoop FiringLog.wheel setWheel record n x).wheel.nowNs =
      x.wheel.nowNs + n * x.wheel.tickNs := by
  induction n generalizing x with
  | zero => exact ⟨rfl, h, rfl, by rw [zero_mul, add_zero]; rfl⟩
  | succ n ih =>
    have hadvanced : (x.setWheel x.wheel.advance).Kept := ⟨h.distinct, h.placed.bound, h.placed.position⟩
    have hslot := watch_checkSlot (c := c) hadvanced (x.wheel.advance.slotFor x.wheel.advance.nowNs)
    obtain ⟨hkept, hnow, htick⟩ := visits_kept hadvanced (x.wheel.advance.slotFor x.wheel.advance.nowNs)
      (List.range kSlotDepth)
    obtain ⟨hwatch, hall, hrate, hclock⟩ := ih hkept
    refine ⟨?_, hall, hrate.trans htick, ?_⟩
    · rw [turn, ← show (x.setWheel x.wheel.advance).watch c = x.watch c from rfl]
      refine hwatch.trans ?_
      rw [hnow, htick]
      exact congrArg _ hslot
    · refine hclock.trans ?_
      rw [hnow, htick]
      change x.wheel.nowNs + x.wheel.tickNs + n * x.wheel.tickNs = _
      rw [Nat.succ_mul, Nat.add_comm (n * _), Nat.add_assoc]

end Scan

section Calls
variable {tickNs bucket : ℕ} {fired : List ℕ} {call : WheelCall}

theorem step_kept (h : x.Kept) (hok : ArmsIdle call x) :
    (step call x).Kept ∧ (step call x).wheel.tickNs = x.wheel.tickNs := by
  cases call with
  | insert c now timeout =>
    have hplaced := h.placed.insert c now timeout
    rcases x.wheel.insert_result c now timeout with hins | ⟨i, hins⟩
    · rw [step, hins]
      exact ⟨h, rfl⟩
    · rw [step]
      rw [hins] at hplaced ⊢
      refine ⟨⟨?_, hplaced⟩, rfl⟩
      apply List.nodup_cons.mpr
      refine ⟨fun hmem => ?_, h.distinct⟩
      obtain ⟨e, he, hc⟩ := List.mem_map.mp hmem
      exact hok e he hc
  | cancel c =>
    exact ⟨⟨TimerWheel.cancel_distinct h.distinct c, h.placed.cancel c⟩,
      (TimerWheel.cancel_clock c x.wheel).tickNs⟩
  | tick now =>
    obtain ⟨_, hkept, hrate, _⟩ := watch_tickLoop (c := 0) h ((now - x.wheel.nowNs) / x.wheel.tickNs)
    exact ⟨hkept, hrate⟩

theorem run_kept {calls : List WheelCall} (hrate : x.wheel.tickNs = tickNs) (h : x.Kept)
    (hok : Along step ArmsIdle x calls) :
    (run step x calls).Kept ∧ (run step x calls).wheel.tickNs = tickNs := by
  apply hok.invariant fun y => y.Kept ∧ y.wheel.tickNs = tickNs
  · intro call y hy hcall
    obtain ⟨hkept, hsame⟩ := step_kept hy.1 hcall
    exact ⟨hkept, hsame.trans hy.2⟩
  · exact ⟨h, hrate⟩

theorem watch_insert_other {c' now timeout : ℕ} (h : x.Kept) (hc : c' ≠ c) (hok : x.Idle c') :
    (step (.insert c' now timeout) x).watch c = x.watch c := by
  obtain ⟨hkept, _⟩ : (step (.insert c' now timeout) x).Kept ∧
      (step (.insert c' now timeout) x).wheel.tickNs = x.wheel.tickNs := step_kept h hok
  apply watch_congr h.distinct hkept.distinct _ rfl
  intro e he
  rcases x.wheel.insert_result c' now timeout with hins | ⟨i, hins⟩
  · rw [step, hins]
  · rw [step, hins]
    refine ⟨fun hmem => (List.mem_cons.mp hmem).resolve_left fun hnew => hc ?_, List.mem_cons_of_mem _⟩
    rw [← he, hnew]

theorem watch_cancel {c' : ℕ} (h : x.Kept) (hc : c' = c → x.Idle c) :
    (step (.cancel c') x).watch c = x.watch c := by
  apply watch_congr (y := step (.cancel c') x) h.distinct (TimerWheel.cancel_distinct h.distinct c') _ rfl
  intro e he
  rw [step, TimerWheel.mem_cancel h.distinct]
  refine ⟨fun hboth => hboth.1, fun hmem => ⟨hmem, fun heq => ?_⟩⟩
  exact hc (heq.symm.trans he) e hmem he

theorem cancel_idle (h : x.Kept) (c : ℕ) : (step (.cancel c) x).Idle c :=
  fun _ he => ((TimerWheel.mem_cancel h.distinct).mp he).2

/-- The call arms no timer of the child and disarms none. -/
def LeftAlone (c : ℕ) : WheelCall → FiringLog → Prop
  | .insert c' _ _, _ => c' ≠ c
  | .cancel c', x => c' = c → x.Idle c
  | .tick _, _ => True

/-- Calls that leave the timer alone only move the clock under it. -/
theorem step_expects (h : x.Kept) (hrate : x.wheel.tickNs = tickNs) (htick : 0 < tickNs)
    (hslot : e.slot = bucket % kFineSlots) (hok : ArmsIdle call x) (halone : LeftAlone c call x)
    (hx : Expects kFineSlots tickNs bucket e fired x.wheel.nowNs (x.watch c)) :
    Expects kFineSlots tickNs bucket e fired (step call x).wheel.nowNs ((step call x).watch c) := by
  cases call with
  | insert c' now timeout =>
    rw [watch_insert_other h halone hok, step, (TimerWheel.insert_clock c' now timeout x.wheel).nowNs]
    exact hx
  | cancel c' =>
    rw [watch_cancel h halone, step, (TimerWheel.cancel_clock c' x.wheel).nowNs]
    exact hx
  | tick now =>
    obtain ⟨hwatch, _, _, hclock⟩ := watch_tickLoop (c := c) h ((now - x.wheel.nowNs) / x.wheel.tickNs)
    rw [step, TimerWheel.tick, hwatch, hclock, hrate]
    exact hx.turn htick hslot _

/-- A child without a timer stays silent until one is armed. -/
theorem step_silent (h : x.Kept) (hok : ArmsIdle call x) (hidle : x.Idle c)
    (hcall : ∀ now timeout, call ≠ .insert c now timeout) :
    (step call x).Idle c ∧ (step call x).firings c = x.firings c := by
  have hsame : (step call x).watch c = x.watch c := by
    cases call with
    | insert c' now timeout =>
      exact watch_insert_other h (fun hc => hcall now timeout (by rw [hc])) hok
    | cancel c' => exact watch_cancel h fun _ => hidle
    | tick now =>
      obtain ⟨hwatch, _, _, _⟩ := watch_tickLoop (c := c) h ((now - x.wheel.nowNs) / x.wheel.tickNs)
      exact hwatch.trans (turn_none _ _ (armed_none_iff.mpr hidle))
  refine ⟨armed_none_iff.mp ?_, congrArg Watch.fired hsame⟩
  rw [hsame]
  exact armed_none_iff.mpr hidle

end Calls

section Runs
variable {tickNs nowNs : ℕ}

/-- From `x` on, the timer armed with this deadline waits while the wheel clock is in earlier buckets
than its own, and has fired once, in its own, as soon as the clock is not. -/
structure FiresOnce (tickNs c deadlineNs : ℕ) (x y : FiringLog) : Prop where
  waits : y.wheel.nowNs / tickNs < deadlineNs / tickNs → y.firings c = x.firings c ∧
    ∃ e ∈ y.wheel.active, e.childId = c ∧ e.deadlineNs = deadlineNs
  fires : deadlineNs / tickNs ≤ y.wheel.nowNs / tickNs → ∃ clock, clock / tickNs = deadlineNs / tickNs ∧
    clock < deadlineNs + tickNs ∧ deadlineNs < clock + tickNs ∧ y.firings c = x.firings c ++ [clock]

/-- What is promised of the wheel: an insert fails exactly on a full slot, a timer that is at most one
turn ahead fires once and in its bucket, and without an armed timer nothing fires. -/
structure Prompt (tickNs : ℕ) (x : FiringLog) : Prop where
  fails_iff : ∀ c now timeout, (x.wheel.insert c now timeout).1 = false ↔
    x.wheel.occupied (x.wheel.slotFor (now + timeout)) = kSlotDepth
  failed : ∀ c now timeout, (x.wheel.insert c now timeout).1 = false →
    step (.insert c now timeout) x = x
  once : ∀ c now timeout, x.Idle c → (x.wheel.insert c now timeout).1 = true →
    x.wheel.nowNs / tickNs < (now + timeout) / tickNs →
    (now + timeout) / tickNs ≤ x.wheel.nowNs / tickNs + kFineSlots →
    ∀ after, Along step ArmsIdle (step (.insert c now timeout) x) after →
      Along step (LeftAlone c) (step (.insert c now timeout) x) after →
      FiresOnce tickNs c (now + timeout) x (run step (step (.insert c now timeout) x) after)
  silent : ∀ c, x.Idle c → ∀ after, Along step ArmsIdle x after →
    (∀ now timeout, WheelCall.insert c now timeout ∉ after) →
    (run step x after).firings c = x.firings c
  canceled : ∀ c, (step (.cancel c) x).Idle c

theorem same_bucket {clock deadlineNs : ℕ} (htick : 0 < tickNs)
    (h : clock / tickNs = deadlineNs / tickNs) :
    clock < deadlineNs + tickNs ∧ deadlineNs < clock + tickNs := by
  have hc := Nat.div_add_mod clock tickNs
  have hd := Nat.div_add_mod deadlineNs tickNs
  have hcmod := Nat.mod_lt clock htick
  have hdmod := Nat.mod_lt deadlineNs htick
  rw [h] at hc
  omega

theorem Kept.once {c now timeout : ℕ} (h : x.Kept) (hrate : x.wheel.tickNs = tickNs) (htick : 0 < tickNs)
    (hidle : x.Idle c) (hins : (x.wheel.insert c now timeout).1 = true)
    (hbehind : x.wheel.nowNs / tickNs < (now + timeout) / tickNs)
    (hahead : (now + timeout) / tickNs ≤ x.wheel.nowNs / tickNs + kFineSlots) {after : List WheelCall}
    (hok : Along step ArmsIdle (step (.insert c now timeout) x) after)
    (halone : Along step (LeftAlone c) (step (.insert c now timeout) x) after) :
    FiresOnce tickNs c (now + timeout) x (run step (step (.insert c now timeout) x) after) := by
  obtain ⟨i, hresult⟩ := TimerWheel.insert_of_succeeds hins
  obtain ⟨hkept, hrate'⟩ : (step (.insert c now timeout) x).Kept ∧
      (step (.insert c now timeout) x).wheel.tickNs = x.wheel.tickNs := step_kept h hidle
  have hnew : step (.insert c now timeout) x = x.setWheel { x.wheel with
      active := ⟨x.wheel.slotFor (now + timeout), i, c, now + timeout⟩ :: x.wheel.active } := by
    rw [step, hresult]
    rfl
  generalize hentry : (⟨x.wheel.slotFor (now + timeout), i, c, now + timeout⟩ : TimerEntry) = e at hnew
  have hslot : e.slot = (now + timeout) / tickNs % kFineSlots := by
    rw [← hentry, ← hrate]
    rfl
  have hstart : Expects kFineSlots tickNs ((now + timeout) / tickNs) e (x.firings c)
      (step (.insert c now timeout) x).wheel.nowNs ((step (.insert c now timeout) x).watch c) := by
    have harmed : ((step (.insert c now timeout) x).watch c).armed = some e := by
      rw [armed_iff hkept.distinct, hnew, ← hentry]
      exact ⟨List.mem_cons_self, rfl⟩
    refine Or.inl ⟨?_, ?_, (Watch.mk.injEq ..).mpr ⟨harmed, rfl⟩⟩
    · rw [hnew]
      exact hbehind
    · rw [hnew]
      exact hahead
  -- the invariant of the run: the timer waits, or fired in its bucket
  have hend := (hok.and halone).invariant (fun y => (y.Kept ∧ y.wheel.tickNs = tickNs) ∧
      Expects kFineSlots tickNs ((now + timeout) / tickNs) e (x.firings c) y.wheel.nowNs (y.watch c))
    (fun call y hy hcall => by
      obtain ⟨hkept', hsame⟩ := step_kept hy.1.1 hcall.1
      exact ⟨⟨hkept', hsame.trans hy.1.2⟩,
        step_expects hy.1.1 hy.1.2 htick hslot hcall.1 hcall.2 hy.2⟩)
    ⟨⟨hkept, hrate'.trans hrate⟩, hstart⟩
  generalize run step (step (.insert c now timeout) x) after = y at hend ⊢
  rcases hend.2 with ⟨hlt, _, hwatch⟩ | ⟨hle, clock, hclock, hwatch⟩
  · refine ⟨fun _ => ⟨congrArg Watch.fired hwatch, e, ?_⟩, fun hpast => absurd hpast (not_le.mpr hlt)⟩
    obtain ⟨he, hc⟩ := armed_mem (congrArg Watch.armed hwatch)
    exact ⟨he, hc, by rw [← hentry]⟩
  · refine ⟨fun hlt => absurd hlt (not_lt.mpr hle), fun _ => ⟨clock, hclock, ?_⟩⟩
    obtain ⟨hlate, hearly⟩ := same_bucket htick hclock
    exact ⟨hlate, hearly, congrArg Watch.fired hwatch⟩

theorem Kept.silent {c : ℕ} (h : x.Kept) (hidle : x.Idle c) {after : List WheelCall}
    (hok : Along step ArmsIdle x after) (hnone : ∀ now timeout, WheelCall.insert c now timeout ∉ after) :
    (run step x after).firings c = x.firings c := by
  have hother : Along step (fun call _ => ∀ now timeout, call ≠ .insert c now timeout) x after :=
    along_of_forall fun call hcall _ now timeout heq => hnone now timeout (heq ▸ hcall)
  have hend := (hok.and hother).invariant
    (fun y => y.Kept ∧ y.Idle c ∧ y.firings c = x.firings c)
    (fun call y hy hcall => by
      obtain ⟨hstill, hfired⟩ := step_silent hy.1 hcall.1 hy.2.1 hcall.2
      exact ⟨(step_kept hy.1 hcall.1).1, hstill, hfired.trans hy.2.2⟩)
    ⟨h, hidle, rfl⟩
  exact hend.2.2

/-- With a tick of 10 and the clock at 7, the clock has come to 17 when the second timer is canceled. -/
def Sample.wheelCalls : List WheelCall := [.insert 1 5 20, .insert 2 5 15, .tick 18, .cancel 2]

end Runs

end FiringLog

end OmsFormal.Oms
