import OmsFormal.GuardedRun
import OmsFormal.ReleaseAcquire
import OmsFormal.SnapshotAge

/-!
# The snapshots in a shared memory

The feed threads store the fields of a snapshot one by one, the stamp last and with
release order; the execution thread loads the stamp first, with acquire order, and
then the other fields. So there is never a stamp whose update is not in the memory.
-/

namespace OmsFormal.Oms
open Sor ReleaseAcquire GuardedRun
set_option autoImplicit false

inductive SnapshotField where
  | volFactor
  | bookImbalance
  | midPriceUsd
  | lastUpdateNs
  deriving DecidableEq

namespace SnapshotField

abbrev Value : SnapshotField → Type
  | lastUpdateNs => UInt64
  | _ => ℚ

/-- The next store of `ExchangeSnapshot::update`, which begins with `vol_factor`. -/
def nextStore : SnapshotField → Option SnapshotField
  | volFactor => some bookImbalance
  | bookImbalance => some midPriceUsd
  | midPriceUsd => some lastUpdateNs
  | lastUpdateNs => none

def storeOrder : SnapshotField → StoreOrder
  | lastUpdateNs => .release
  | _ => .relaxed

/-- The next load of `ExchangeSnapshot::read`, which begins with `last_update_ns`. -/
def nextLoad : SnapshotField → Option SnapshotField
  | lastUpdateNs => some volFactor
  | volFactor => some bookImbalance
  | bookImbalance => some midPriceUsd
  | midPriceUsd => none

def loadOrder : SnapshotField → LoadOrder
  | lastUpdateNs => .acquire
  | _ => .relaxed

/-- The place of a field among the stores. -/
def storeRank : SnapshotField → ℕ
  | volFactor => 0
  | bookImbalance => 1
  | midPriceUsd => 2
  | lastUpdateNs => 3

/-- The place of a field among the loads. -/
def loadRank : SnapshotField → ℕ
  | lastUpdateNs => 0
  | volFactor => 1
  | bookImbalance => 2
  | midPriceUsd => 3

end SnapshotField

namespace ExchangeSnapshot

def field (s : ExchangeSnapshot) : (f : SnapshotField) → f.Value
  | .volFactor => s.volFactor
  | .bookImbalance => s.bookImbalance
  | .midPriceUsd => s.midPriceUsd
  | .lastUpdateNs => s.lastUpdateNs

def setField (s : ExchangeSnapshot) : (f : SnapshotField) → f.Value → ExchangeSnapshot
  | .volFactor, v => { s with volFactor := v }
  | .bookImbalance, v => { s with bookImbalance := v }
  | .midPriceUsd, v => { s with midPriceUsd := v }
  | .lastUpdateNs, v => { s with lastUpdateNs := v }

@[simp] theorem field_setField_self (s : ExchangeSnapshot) (f : SnapshotField) (v : f.Value) :
    (s.setField f v).field f = v := by
  cases f <;> rfl

theorem field_setField_of_ne (s : ExchangeSnapshot) {f f' : SnapshotField} (h : f' ≠ f) (v : f.Value) :
    (s.setField f v).field f' = s.field f' := by
  cases f <;> cases f' <;> first | rfl | exact absurd rfl h

end ExchangeSnapshot

inductive SnapshotThread where
  | exec
  | feed (n : ℕ)
  deriving DecidableEq

/-- A field of the snapshot of an exchange. -/
abbrev SnapshotCell := ℕ × SnapshotField

abbrev SnapshotMemory := Memory SnapshotThread fun l : SnapshotCell => l.2.Value

/-- A call of `ExchangeSnapshot::update`, about to store `next`. -/
structure UpdateCall where
  exchange : ℕ
  snapshot : ExchangeSnapshot
  next : SnapshotField

/-- A call of `BookSnapshotCache::get_routing_inputs`, about to load `next` of `exchange`. What it
has loaded so far is in `readings`; `picks` tells from which update each of it is, and `handed`
which update of each exchange the thread was bound to know of at the call. -/
structure ReadCall where
  dir : OrderDir
  nowNs : UInt64
  exchange : ℕ
  next : SnapshotField
  best : UInt64 × RoutingInputs
  readings : ℕ → ExchangeSnapshot
  picks : ℕ → SnapshotField → ℕ
  handed : ℕ → ℕ

/-- A call that has returned. -/
structure ServedCall where
  dir : OrderDir
  nowNs : UInt64
  inputs : RoutingInputs
  readings : ℕ → ExchangeSnapshot
  picks : ℕ → SnapshotField → ℕ
  handed : ℕ → ℕ

/-- No reading of `q'` is from an earlier update than that of `q`. -/
def ServedCall.NotAfter (q q' : ServedCall) : Prop :=
  ∀ ex < kMaxExchanges, ∀ f, q.picks ex f ≤ q'.picks ex f

/-- The snapshots in the memory, the calls under way, and all updates there were: number 0 is what
an exchange starts with. -/
structure SnapshotSystem where
  memory : SnapshotMemory
  updates : ℕ → Option UpdateCall
  reading : Option ReadCall
  log : ℕ → List ExchangeSnapshot
  handed : ℕ → ℕ
  served : List ServedCall

inductive SnapshotAction where
  | update (ex : ℕ) (s : ExchangeSnapshot)
  | feedStep (n : ℕ)
  | request (dir : OrderDir) (nowNs : UInt64)
  | execStep (choice : ℕ)
  | handOff (t t' : SnapshotThread)

namespace SnapshotSystem

def blank : ExchangeSnapshot := ⟨0, 0, 0, 0⟩

def init : SnapshotSystem where
  memory := Memory.init fun l => blank.field l.2
  updates _ := none
  reading := none
  log _ := [blank]
  handed _ := 0
  served := []

/-- `ExecutionCore::on_book_snapshot`, up to the first store of the update. -/
def beginUpdate (owner : ℕ → ℕ) (ex : ℕ) (s : ExchangeSnapshot) (x : SnapshotSystem) : SnapshotSystem :=
  if ex < kMaxExchanges ∧ x.updates (owner ex) = none then
    { x with
      updates := Function.update x.updates (owner ex) (some ⟨ex, s, .volFactor⟩)
      log := Function.update x.log ex (x.log ex ++ [s]) }
  else x

/-- A store of `ExchangeSnapshot::update`. -/
def feedStep (n : ℕ) (x : SnapshotSystem) : SnapshotSystem :=
  match x.updates n with
  | none => x
  | some c =>
    { x with
      memory := (Access.store c.next.storeOrder (.feed n) (c.exchange, c.next)
        (c.snapshot.field c.next)).apply x.memory
      updates := Function.update x.updates n (c.next.nextStore.map fun f => { c with next := f }) }

def request (dir : OrderDir) (nowNs : UInt64) (x : SnapshotSystem) : SnapshotSystem :=
  match x.reading with
  | some _ => x
  | none =>
    { x with
      reading := some
        { dir := dir
          nowNs := nowNs
          exchange := 0
          next := .lastUpdateNs
          best := (0, ⟨0, 0, false⟩)
          readings := fun _ => blank
          picks := fun _ _ => 0
          handed := x.handed } }

/-- A load of `ExchangeSnapshot::read`. -/
def loadField (choice : ℕ) (c : ReadCall) (m : SnapshotMemory) : ReadCall :=
  let l : SnapshotCell := (c.exchange, c.next)
  { c with
    readings := Function.update c.readings c.exchange
      ((c.readings c.exchange).setField c.next (m.read .exec l choice).value)
    picks := Function.update c.picks c.exchange
      (Function.update (c.picks c.exchange) c.next (m.index .exec l choice)) }

def afterLoad (choice : ℕ) (c : ReadCall) (x : SnapshotSystem) : SnapshotSystem :=
  { x with
    memory := (Access.load c.next.loadOrder .exec (c.exchange, c.next) choice).apply x.memory }

/-- What the loop of `get_routing_inputs` does with a reading that is complete. -/
def consider (c : ReadCall) : ReadCall :=
  { c with
    exchange := c.exchange + 1
    next := .lastUpdateNs
    best := BookSnapshotCache.keepFresher ⟨c.readings⟩ c.dir c.nowNs c.best c.exchange }

def serve (c : ReadCall) : ServedCall where
  dir := c.dir
  nowNs := c.nowNs
  inputs := c.best.2
  readings := c.readings
  picks := c.picks
  handed := c.handed

def execStep (choice : ℕ) (x : SnapshotSystem) : SnapshotSystem :=
  match x.reading with
  | none => x
  | some c =>
    let c' := loadField choice c x.memory
    let x' := afterLoad choice c x
    match c.next.nextLoad with
    | some f => { x' with reading := some { c' with next := f } }
    | none =>
      if c.exchange + 1 < kMaxExchanges then { x' with reading := some (consider c') }
      else { x' with reading := none, served := x.served ++ [serve (consider c')] }

/-- The two threads synchronize otherwise, say through a queue. The execution thread is then bound
to know of the updates that the feed thread has completed. -/
def handOff (owner : ℕ → ℕ) (t t' : SnapshotThread) (x : SnapshotSystem) : SnapshotSystem :=
  { x with
    memory := (Access.handOff t t').apply x.memory
    handed := fun ex =>
      if t = .feed (owner ex) ∧ t' = .exec then (x.memory.values (ex, .lastUpdateNs)).length - 1
      else x.handed ex }

def step (owner : ℕ → ℕ) : SnapshotAction → SnapshotSystem → SnapshotSystem
  | .update ex s => beginUpdate owner ex s
  | .feedStep n => feedStep n
  | .request dir nowNs => request dir nowNs
  | .execStep choice => execStep choice
  | .handOff t t' => handOff owner t t'

section Writers
variable {owner : ℕ → ℕ} {x : SnapshotSystem}

/-- Whether the field of the latest update is yet to be stored. -/
def pending (owner : ℕ → ℕ) (x : SnapshotSystem) (ex : ℕ) (f : SnapshotField) : ℕ :=
  match x.updates (owner ex) with
  | none => 0
  | some c => if c.exchange = ex ∧ c.next.storeRank ≤ f.storeRank then 1 else 0

/-- What the feed threads have stored, seen from the updates there were. -/
structure Written (owner : ℕ → ℕ) (x : SnapshotSystem) : Prop where
  owned : ∀ n c, x.updates n = some c → owner c.exchange = n
  latest : ∀ n c, x.updates n = some c → ∃ before, x.log c.exchange = before ++ [c.snapshot]
  values : ∀ ex f, x.memory.values (ex, f) <+: (x.log ex).map (ExchangeSnapshot.field · f)
  count : ∀ ex f, (x.memory.history (ex, f)).length + x.pending owner ex f = (x.log ex).length
  writer : ∀ ex f, x.memory.view (.feed (owner ex)) (ex, f) + 1 = (x.memory.history (ex, f)).length
  published : ∀ ex f, f ≠ .lastUpdateNs → x.memory.Published (ex, .lastUpdateNs) (ex, f)

theorem init_written : init.Written owner where
  owned _ _ h := by cases h
  latest _ _ h := by cases h
  values _ _ := List.prefix_refl _
  count _ _ := rfl
  writer _ _ := rfl
  published _ _ _ := Memory.published_init _

/-- An access that stores nothing, or nothing of a snapshot, changes nothing for the writers. -/
theorem Written.readOnly {a : Access SnapshotThread fun l : SnapshotCell => l.2.Value}
    {r : Option ReadCall} {served : List ServedCall} {handed : ℕ → ℕ} (h : x.Written owner)
    (ha : a.target = none) :
    ({ x with memory := a.apply x.memory, reading := r, served := served, handed := handed } :
      SnapshotSystem).Written owner := by
  have htarget (l : SnapshotCell) : a.target ≠ some l := by
    rw [ha]
    exact (Option.some_ne_none l).symm
  refine ⟨h.owned, h.latest, fun ex f => ?_, fun ex f => ?_, fun ex f => ?_, fun ex f hf => ?_⟩
  · rw [Access.values_of_ne (htarget _)]
    exact h.values ex f
  · rw [Access.length_of_ne (htarget _)]
    exact h.count ex f
  · exact Access.view_of_last (h.writer ex f) (htarget _)
  · refine (h.published ex f hf).apply (fun heq => hf (congrArg Prod.snd heq)) fun o t v hstore => ?_
    rw [hstore] at ha
    cases ha

theorem pending_of_none {ex : ℕ} (h : x.updates (owner ex) = none) (f : SnapshotField) :
    x.pending owner ex f = 0 := by
  simp [pending, h]

theorem pending_of_some {ex : ℕ} {c : UpdateCall} (h : x.updates (owner ex) = some c) (f : SnapshotField) :
    x.pending owner ex f = if c.exchange = ex ∧ c.next.storeRank ≤ f.storeRank then 1 else 0 := by
  simp [pending, h]

theorem beginUpdate_written (h : x.Written owner) (ex : ℕ) (s : ExchangeSnapshot) :
    (beginUpdate owner ex s x).Written owner := by
  unfold beginUpdate
  split
  · rename_i hfree
    obtain ⟨-, hnone⟩ := hfree
    refine ⟨fun n c hc => ?_, fun n c hc => ?_, fun ex' f => ?_, fun ex' f => ?_, h.writer, h.published⟩
    · by_cases hn : n = owner ex
      · subst hn
        simp only [Function.update_self] at hc
        cases hc
        rfl
      · simp only [Function.update_of_ne hn] at hc
        exact h.owned n c hc
    · by_cases hn : n = owner ex
      · subst hn
        simp only [Function.update_self] at hc
        cases hc
        exact ⟨x.log ex, Function.update_self ..⟩
      · simp only [Function.update_of_ne hn] at hc
        have hother : c.exchange ≠ ex := by
          rintro rfl
          exact hn (h.owned n c hc).symm
        simp only [Function.update_of_ne hother]
        exact h.latest n c hc
    · by_cases hex : ex' = ex
      · subst hex
        simp only [Function.update_self]
        exact (h.values ex' f).trans ((List.prefix_append _ _).map _)
      · simp only [Function.update_of_ne hex]
        exact h.values ex' f
    · have hcount := h.count ex' f
      by_cases hex : ex' = ex
      · subst hex
        rw [pending_of_none hnone] at hcount
        rw [pending_of_some (Function.update_self ..)]
        simp [SnapshotField.storeRank, ← hcount]
      · simp only [Function.update_of_ne hex, ← hcount]
        congr 1
        by_cases howner : owner ex' = owner ex
        · simp [pending, howner, hnone, Ne.symm hex]
        · simp only [pending, Function.update_of_ne howner]
  · exact h

/-- What is pending of an update after one more store. -/
theorem nextStore_pending (f f' : SnapshotField) :
    (match f.nextStore with
      | none => 0
      | some g => if g.storeRank ≤ f'.storeRank then 1 else 0) =
      if f' = f then 0 else if f.storeRank ≤ f'.storeRank then 1 else 0 := by
  cases f <;> cases f' <;> rfl

theorem feedStep_of_none {n : ℕ} (h : x.updates n = none) : feedStep n x = x := by
  simp only [feedStep, h]

theorem pending_next {c : UpdateCall} (hc : x.updates (owner c.exchange) = some c) :
    x.pending owner c.exchange c.next = 1 := by
  simp [pending_of_some hc]

theorem feedStep_pending {c : UpdateCall} (hc : x.updates (owner c.exchange) = some c) (ex : ℕ)
    (f : SnapshotField) :
    (feedStep (owner c.exchange) x).pending owner ex f =
      if ex = c.exchange ∧ f = c.next then 0 else x.pending owner ex f := by
  by_cases howner : owner ex = owner c.exchange
  · by_cases hex : ex = c.exchange
    · subst hex
      have hnext := nextStore_pending c.next f
      simp only [pending, feedStep, hc, Function.update_self, true_and]
      rw [← hnext]
      cases c.next.nextStore with
      | none => rfl
      | some g => simp only [Option.map_some, true_and]
    · have hne : c.exchange ≠ ex := Ne.symm hex
      simp only [pending, feedStep, hc, howner, Function.update_self]
      cases c.next.nextStore with
      | none => simp [hne]
      | some g => simp [hne]
  · have hex : ex ≠ c.exchange := fun heq => howner (congrArg owner heq)
    simp only [pending, feedStep, hc, Function.update_of_ne howner, hex, false_and, if_false]

theorem feedStep_written (h : x.Written owner) (n : ℕ) : (feedStep n x).Written owner := by
  cases hc : x.updates n with
  | none => rwa [feedStep_of_none hc]
  | some c =>
    obtain rfl := h.owned n c hc
    obtain ⟨before, hlog⟩ := h.latest _ c hc
    have hlength := h.count c.exchange c.next
    rw [pending_next hc, hlog, List.length_append, List.length_singleton] at hlength
    have hpending := feedStep_pending hc
    have hstep : (feedStep (owner c.exchange) x).memory =
        (Access.store c.next.storeOrder (.feed (owner c.exchange)) (c.exchange, c.next)
          (c.snapshot.field c.next)).apply x.memory := by
      simp only [feedStep, hc]
    have hsame : (feedStep (owner c.exchange) x).log = x.log := by
      simp only [feedStep, hc]
    have htarget {ex : ℕ} {f : SnapshotField} (hne : ¬ (ex = c.exchange ∧ f = c.next)) :
        (Access.store (V := fun l : SnapshotCell => l.2.Value) c.next.storeOrder
          (SnapshotThread.feed (owner c.exchange)) (c.exchange, c.next)
          (c.snapshot.field c.next)).target ≠ some (ex, f) := by
      rintro heq
      cases heq
      exact hne ⟨rfl, rfl⟩
    refine ⟨fun n' c' hc' => ?_, fun n' c' hc' => ?_, fun ex f => ?_, fun ex f => ?_, fun ex f => ?_,
      fun ex f hf => ?_⟩
    · simp only [feedStep, hc] at hc'
      by_cases hn : n' = owner c.exchange
      · subst hn
        rw [Function.update_self] at hc'
        obtain ⟨g, -, rfl⟩ := Option.map_eq_some_iff.mp hc'
        rfl
      · rw [Function.update_of_ne hn] at hc'
        exact h.owned n' c' hc'
    · rw [hsame]
      simp only [feedStep, hc] at hc'
      by_cases hn : n' = owner c.exchange
      · subst hn
        rw [Function.update_self] at hc'
        obtain ⟨g, -, rfl⟩ := Option.map_eq_some_iff.mp hc'
        exact ⟨before, hlog⟩
      · rw [Function.update_of_ne hn] at hc'
        exact h.latest n' c' hc'
    · rw [hstep, hsame]
      by_cases hcell : ex = c.exchange ∧ f = c.next
      · obtain ⟨rfl, rfl⟩ := hcell
        -- all updates but the latest are stored, so that the value of the latest comes next
        have hvalues := h.values c.exchange c.next
        rw [hlog, List.map_append] at hvalues ⊢
        have hbefore : x.memory.values (c.exchange, c.next) =
            before.map (ExchangeSnapshot.field · c.next) := by
          refine (List.prefix_of_prefix_length_le hvalues (List.prefix_append _ _) ?_).eq_of_length ?_
          · rw [Memory.values_length, List.length_map]
            omega
          · rw [Memory.values_length, List.length_map]
            omega
        rw [Access.values_store, hbefore]
        exact List.prefix_refl _
      · rw [Access.values_of_ne (htarget hcell)]
        exact h.values ex f
    · rw [hstep, hsame, hpending]
      by_cases hcell : ex = c.exchange ∧ f = c.next
      · rw [if_pos hcell]
        obtain ⟨rfl, rfl⟩ := hcell
        rw [Access.length_store, hlog, List.length_append, List.length_singleton]
        omega
      · rw [if_neg hcell, Access.length_of_ne (htarget hcell)]
        exact h.count ex f
    · rw [hstep]
      by_cases hcell : ex = c.exchange ∧ f = c.next
      · obtain ⟨rfl, rfl⟩ := hcell
        exact Access.view_store _ _ _
      · exact Access.view_of_last (h.writer ex f) (htarget hcell)
    · rw [hstep]
      refine (h.published ex f hf).apply (fun heq => hf (congrArg Prod.snd heq)) fun o t v hstore => ?_
      have hdata := h.count ex f
      have hwriter := h.writer ex f
      obtain ⟨cex, snapshot, next⟩ := c
      cases hstore
      have hdone : x.pending owner cex f = 0 := by
        rw [pending_of_some hc]
        cases f with
        | lastUpdateNs => exact absurd rfl hf
        | _ => simp [SnapshotField.storeRank]
      rw [hdone, hlog, List.length_append, List.length_singleton] at hdata
      dsimp only at hlength hdata hwriter ⊢
      exact ⟨rfl, by omega⟩

theorem step_written (h : x.Written owner) (a : SnapshotAction) : (step owner a x).Written owner := by
  cases a with
  | update ex s => exact beginUpdate_written h ex s
  | feedStep n => exact feedStep_written h n
  | request dir nowNs =>
    simp only [step, request]
    split
    · exact h
    · exact ⟨h.owned, h.latest, h.values, h.count, h.writer, h.published⟩
  | execStep choice =>
    simp only [step, execStep, afterLoad]
    split
    · exact h
    · split
      · exact h.readOnly rfl
      · split <;> exact h.readOnly rfl
  | handOff t t' => exact h.readOnly rfl

end Writers

end SnapshotSystem

end OmsFormal.Oms
