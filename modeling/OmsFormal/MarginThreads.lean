import OmsFormal.MarginEstimates
import OmsFormal.ThreadPrograms

/-!
# The margin monitor between its threads

The execution thread books fills and releases, the REST thread overwrites the
margin with what the exchange reports, and the feeds mark positions; each
recomputes the available margin from cells the others write meanwhile. No load
and store of a call is one step. A fill or a release is never lost and never
counted twice; a REST report is lost where one of them was computed before it
was seen.
-/

namespace OmsFormal.Oms
open Sor GuardedRun ReleaseAcquire ThreadPrograms
set_option autoImplicit false

inductive MarginThread where
  | execution
  | rest
  | feed (n : ℕ)
  deriving DecidableEq

/-- The atomics of the position table and of the margin monitor. -/
inductive MarginCell where
  | netQtyLots (i : ℕ)
  | avgEntryPrice (i : ℕ)
  | localEquity
  | lockedMargin
  | upnl
  | restUpdateNs
  | totalEquity
  | marginUsed
  | marginAvailable
  deriving DecidableEq

abbrev MarginCell.Value : MarginCell → Type
  | netQtyLots _ => ℤ
  | avgEntryPrice _ => ℚ
  | localEquity => ℚ
  | lockedMargin => ℚ
  | upnl => ℚ
  | restUpdateNs => ℕ
  | totalEquity => ℚ
  | marginUsed => ℚ
  | marginAvailable => ℚ

def MarginCell.isPosition : MarginCell → Bool
  | netQtyLots _ => true
  | avgEntryPrice _ => true
  | _ => false

abbrev MarginProgram := Program MarginCell.Value

/-- The calls that touch them. -/
inductive ThreadCall where
  | applyFill (i : ℕ) (dir : OrderDir) (lots : ℤ) (price : ℚ)
  | onFill (fillLots : ℤ) (fillPriceUsd lotSize : ℚ)
  | onRelease (lots : ℤ) (priceUsd lotSize : ℚ)
  | onRestUpdate (equityUsd usedMarginUsd : ℚ) (tsNs : ℕ)
  | onMarkPrice (feed : ℕ) (markUsd lotSize : ℚ) (i : ℕ)

namespace ThreadCall

def thread : ThreadCall → MarginThread
  | applyFill .. => .execution
  | onFill .. => .execution
  | onRelease .. => .execution
  | onRestUpdate .. => .rest
  | onMarkPrice n .. => .feed n

section Programs
variable (cfg : MarginConfig)

def update (equity used : ℚ) : MarginProgram :=
  .store .relaxed .totalEquity equity <|
  .store .relaxed .marginUsed used <|
  .store .release .marginAvailable (equity - used) .done

def recomputeAvailable : MarginProgram :=
  .load .relaxed .localEquity fun equity =>
  .load .relaxed .lockedMargin fun locked =>
  .load .relaxed .upnl fun upnl =>
  update (equity + if upnl < 0 then upnl else 0) locked

/-- What the locked margin becomes. -/
def book (locked : ℚ) : ThreadCall → ℚ
  | onFill fillLots fillPriceUsd lotSize =>
    locked + fillLots * lotSize * fillPriceUsd * cfg.initialMarginRate
  | onRelease lots priceUsd lotSize =>
    let marginDelta := lots * lotSize * priceUsd * cfg.initialMarginRate
    if locked > marginDelta then locked - marginDelta else 0
  | onRestUpdate _ usedMarginUsd _ => usedMarginUsd
  | _ => locked

def program : ThreadCall → MarginProgram
  | applyFill i dir lots price =>
    .load .relaxed (.netQtyLots i) fun prev =>
    .load .relaxed (.avgEntryPrice i) fun prevAvg =>
    let p := InstrumentPosition.applyFill dir lots price
      { InstrumentPosition.zero with netQtyLots := prev, avgEntryPrice := prevAvg }
    .store .release (.netQtyLots i) p.netQtyLots <|
    .store .release (.avgEntryPrice i) p.avgEntryPrice .done
  | onFill fillLots fillPriceUsd lotSize =>
    .load .relaxed .lockedMargin fun prev =>
    .store .release .lockedMargin (book cfg prev (onFill fillLots fillPriceUsd lotSize))
    recomputeAvailable
  | onRelease lots priceUsd lotSize =>
    .load .relaxed .lockedMargin fun prev =>
    .store .release .lockedMargin (book cfg prev (onRelease lots priceUsd lotSize))
    recomputeAvailable
  | onRestUpdate equityUsd usedMarginUsd tsNs =>
    .store .relaxed .localEquity equityUsd <|
    .store .release .lockedMargin usedMarginUsd <|
    .store .relaxed .restUpdateNs tsNs
    recomputeAvailable
  | onMarkPrice _ markUsd lotSize i =>
    .load .acquire (.netQtyLots i) fun net =>
    .load .acquire (.avgEntryPrice i) fun avg =>
    if net = 0 ∨ avg ≤ 0 then .done
    else .store .release .upnl ((markUsd - avg) * (net * lotSize)) recomputeAvailable

end Programs

end ThreadCall

/-- The monitor as its constructor leaves it, before any position. -/
def MarginCell.initial (cfg : MarginConfig) : (c : MarginCell) → c.Value
  | .netQtyLots _ => (0 : ℤ)
  | .avgEntryPrice _ => (0 : ℚ)
  | .localEquity => cfg.equityUsd
  | .lockedMargin => (0 : ℚ)
  | .upnl => (0 : ℚ)
  | .restUpdateNs => (0 : ℕ)
  | .totalEquity => cfg.equityUsd
  | .marginUsed => (0 : ℚ)
  | .marginAvailable => cfg.equityUsd

abbrev MarginSystem := System MarginThread ThreadCall MarginCell.Value

namespace MarginSystem

def start (cfg : MarginConfig) : MarginSystem := System.init (MarginCell.initial cfg)

def step (cfg : MarginConfig) : Action MarginThread ThreadCall → MarginSystem → MarginSystem :=
  System.step ThreadCall.thread (ThreadCall.program cfg)

end MarginSystem

section Programs
variable {cfg : MarginConfig} {value : ∀ c : MarginCell, List c.Value} {trace : List (Touch MarginCell)}
variable {o : StoreOrder} {next : MarginProgram} {call : ThreadCall}

/-- What a recomputation reads, and what it publishes. -/
structure Recomputed (value : ∀ c : MarginCell, List c.Value) (i j u : ℕ) (available : ℚ) : Prop where
  figures : ∃ equity locked upnl, (value .localEquity)[i]? = some equity ∧
    (value .lockedMargin)[j]? = some locked ∧ (value .upnl)[u]? = some upnl ∧
    available = equity + (if upnl < 0 then upnl else 0) - locked

/-- A recomputation stores the margin state and nothing else. -/
theorem recompute_store {c : MarginCell} {v : c.Value}
    (h : ThreadCall.recomputeAvailable.Follows value trace (.store o c v next)) :
    c = .totalEquity ∨ c = .marginUsed ∨ c = .marginAvailable := by
  cases h with
  | read _ h => cases h with
    | read _ h => cases h with
      | read _ h => cases h with
        | nil => exact Or.inl rfl
        | wrote _ h => cases h with
          | nil => exact Or.inr (Or.inl rfl)
          | wrote _ h => cases h with
            | nil => exact Or.inr (Or.inr rfl)
            | wrote _ h => cases h

theorem recompute_available {v : ℚ}
    (h : ThreadCall.recomputeAvailable.Follows value trace (.store o .marginAvailable v next)) :
    ∃ i j u a b, trace = [.read .localEquity i, .read .lockedMargin j, .read .upnl u,
      .wrote .totalEquity a, .wrote .marginUsed b] ∧ Recomputed value i j u v := by
  cases h with
  | read hequity h => cases h with
    | read hlocked h => cases h with
      | read hupnl h => cases h with
        | wrote _ h => cases h with
          | wrote _ h => cases h with
            | nil => exact ⟨_, _, _, _, _, rfl, _, _, _, hequity, hlocked, hupnl, rfl⟩
            | wrote _ h => cases h

/-- Fills and releases store what they make of the locked margin they have read, and nothing else
stores it but a report. -/
theorem locked_store {v : ℚ}
    (h : (ThreadCall.program cfg call).Follows value trace (.store o .lockedMargin v next)) :
    (call.thread = .rest ∧ v = ThreadCall.book cfg 0 call) ∨
    call.thread = .execution ∧ ∃ j prev, trace = [.read .lockedMargin j] ∧
      (value .lockedMargin)[j]? = some prev ∧ v = ThreadCall.book cfg prev call := by
  cases call with
  | applyFill i dir lots price =>
    cases h with
    | read _ h => cases h with
      | read _ h => cases h with
        | wrote _ h => cases h with
          | wrote _ h => cases h
  | onFill fillLots fillPriceUsd lotSize =>
    cases h with
    | read hprev h => cases h with
      | nil => exact Or.inr ⟨rfl, _, _, rfl, hprev, rfl⟩
      | wrote _ h => exact absurd (recompute_store h) (by simp)
  | onRelease lots priceUsd lotSize =>
    cases h with
    | read hprev h => cases h with
      | nil => exact Or.inr ⟨rfl, _, _, rfl, hprev, rfl⟩
      | wrote _ h => exact absurd (recompute_store h) (by simp)
  | onRestUpdate equityUsd usedMarginUsd tsNs =>
    cases h with
    | wrote _ h => cases h with
      | nil => exact Or.inl ⟨rfl, rfl⟩
      | wrote _ h => cases h with
        | wrote _ h => exact absurd (recompute_store h) (by simp)
  | onMarkPrice feed markUsd lotSize i =>
    cases h with
    | read _ h => cases h with
      | read _ h =>
        beta_reduce at h
        split at h
        · cases h
        · cases h with
          | wrote _ h => exact absurd (recompute_store h) (by simp)

/-- The available margin is published at the end of a recomputation. -/
theorem available_store {v : ℚ}
    (h : (ThreadCall.program cfg call).Follows value trace (.store o .marginAvailable v next)) :
    ∃ before i j u a b, trace = before ++ [.read .localEquity i, .read .lockedMargin j, .read .upnl u,
      .wrote .totalEquity a, .wrote .marginUsed b] ∧ Recomputed value i j u v := by
  cases call with
  | applyFill i dir lots price =>
    cases h with
    | read _ h => cases h with
      | read _ h => cases h with
        | wrote _ h => cases h with
          | wrote _ h => cases h
  | onFill fillLots fillPriceUsd lotSize =>
    cases h with
    | read _ h => cases h with
      | wrote _ h =>
        obtain ⟨i, j, u, a, b, rfl, hpublished⟩ := recompute_available h
        exact ⟨[_, _], i, j, u, a, b, rfl, hpublished⟩
  | onRelease lots priceUsd lotSize =>
    cases h with
    | read _ h => cases h with
      | wrote _ h =>
        obtain ⟨i, j, u, a, b, rfl, hpublished⟩ := recompute_available h
        exact ⟨[_, _], i, j, u, a, b, rfl, hpublished⟩
  | onRestUpdate equityUsd usedMarginUsd tsNs =>
    cases h with
    | wrote _ h => cases h with
      | wrote _ h => cases h with
        | wrote _ h =>
          obtain ⟨i, j, u, a, b, rfl, hpublished⟩ := recompute_available h
          exact ⟨[_, _, _], i, j, u, a, b, rfl, hpublished⟩
  | onMarkPrice feed markUsd lotSize i =>
    cases h with
    | read _ h => cases h with
      | read _ h =>
        beta_reduce at h
        split at h
        · cases h
        · cases h with
          | wrote _ h =>
            obtain ⟨i, j, u, a, b, rfl, hpublished⟩ := recompute_available h
            exact ⟨[_, _, _], i, j, u, a, b, rfl, hpublished⟩

/-- A profit or a loss is what one price makes of the lots and the average that were read. -/
theorem upnl_store {v : ℚ}
    (h : (ThreadCall.program cfg call).Follows value trace (.store o .upnl v next)) :
    ∃ feed markUsd lotSize i a b net avg, call = .onMarkPrice feed markUsd lotSize i ∧
      trace = [.read (.netQtyLots i) a, .read (.avgEntryPrice i) b] ∧
      (value (.netQtyLots i))[a]? = some net ∧ (value (.avgEntryPrice i))[b]? = some avg ∧
      net ≠ 0 ∧ 0 < avg ∧ v = (markUsd - avg) * (net * lotSize) := by
  cases call with
  | applyFill i dir lots price =>
    cases h with
    | read _ h => cases h with
      | read _ h => cases h with
        | wrote _ h => cases h with
          | wrote _ h => cases h
  | onFill fillLots fillPriceUsd lotSize =>
    cases h with
    | read _ h => cases h with
      | wrote _ h => exact absurd (recompute_store h) (by simp)
  | onRelease lots priceUsd lotSize =>
    cases h with
    | read _ h => cases h with
      | wrote _ h => exact absurd (recompute_store h) (by simp)
  | onRestUpdate equityUsd usedMarginUsd tsNs =>
    cases h with
    | wrote _ h => cases h with
      | wrote _ h => cases h with
        | wrote _ h => exact absurd (recompute_store h) (by simp)
  | onMarkPrice feed markUsd lotSize i =>
    cases h with
    | read hnet h => cases h with
      | @read _ _ _ b avg _ _ havg h =>
        beta_reduce at h
        split at h
        · cases h
        · rename_i hopen
          obtain ⟨hne, hpos⟩ := not_or.mp hopen
          cases h with
          | nil => exact ⟨_, _, _, _, _, _, _, _, rfl, rfl, hnet, havg, hne, not_le.mp hpos, rfl⟩
          | wrote _ h => exact absurd (recompute_store h) (by simp)

end Programs

namespace MarginSystem

/-- The fills and releases among the entries of a log. -/
def charges (entries : List (Entry ThreadCall MarginCell)) : List ThreadCall :=
  (entries.map Entry.call).filter fun c => c.thread = .execution

/-- The locked margin `v` after `n` stores: what a report or the start said, and every fill and release
since; the reports since were overwritten by one that had not seen them. -/
structure Replayed (cfg : MarginConfig) (log : List (Entry ThreadCall MarginCell)) (n : ℕ) (v : ℚ) :
    Prop where
  replay : ∃ base reported, base ≤ n ∧
    (base = 0 ∧ reported = 0 ∨
      ∃ k e equity ts, base = k + 1 ∧ log[k]? = some e ∧ e.call = .onRestUpdate equity reported ts) ∧
    v = (charges ((log.take n).drop base)).foldl (ThreadCall.book cfg) reported ∧
    ∀ k e, base ≤ k → k < n → log[k]? = some e → e.call.thread = .rest →
      ∃ k' e' j, k < k' ∧ k' < n ∧ log[k']? = some e' ∧ e'.call.thread = .execution ∧
        .read .lockedMargin j ∈ e'.trace ∧ j ≤ k

section Replay
variable {cfg : MarginConfig} {s : MarginSystem}

abbrev Ok (cfg : MarginConfig) (s : MarginSystem) : Prop :=
  System.Ok ThreadCall.thread (ThreadCall.program cfg) s

theorem charges_append (xs ys : List (Entry ThreadCall MarginCell)) :
    charges (xs ++ ys) = charges xs ++ charges ys := by
  simp [charges]

theorem charges_nil_of {xs : List (Entry ThreadCall MarginCell)}
    (h : ∀ e ∈ xs, e.call.thread ≠ .execution) : charges xs = [] := by
  simpa [charges] using h

theorem take_drop_split {α : Type} {xs : List α} {x : α} {base j m : ℕ} (hbase : base ≤ j) (hj : j ≤ m)
    (hx : xs[m]? = some x) :
    (xs.take (m + 1)).drop base = (xs.take j).drop base ++ ((xs.take m).drop j ++ [x]) := by
  have hlt := (List.getElem?_eq_some_iff.mp hx).1
  have hfirst : (xs.take m).take j = xs.take j := by rw [List.take_take, min_eq_left hj]
  have hlength : base ≤ (xs.take j).length := by
    rw [List.length_take]
    omega
  rw [List.take_add_one, hx, Option.toList_some]
  calc (xs.take m ++ [x]).drop base
      = ((xs.take m).take j ++ (xs.take m).drop j ++ [x]).drop base := by rw [List.take_append_drop]
    _ = (xs.take j ++ ((xs.take m).drop j ++ [x])).drop base := by rw [hfirst, List.append_assoc]
    _ = (xs.take j).drop base ++ ((xs.take m).drop j ++ [x]) := List.drop_append_of_le_length hlength

/-- Every store of the locked margin is a report, or goes on from an earlier store and leaves no fill or
release out. -/
theorem Ok.replayed (h : s.Ok cfg) (hfirst : (s.memory.values .lockedMargin)[0]? = some (0 : ℚ)) {n : ℕ}
    {v : ℚ} (hv : (s.memory.values .lockedMargin)[n]? = some v) : Replayed cfg (s.log .lockedMargin) n v := by
  -- the induction follows the store that a fill or release has read
  induction n using Nat.strong_induction_on generalizing v with
  | h n ih =>
    cases n with
    | zero =>
      obtain rfl : (0 : ℚ) = v := Option.some.inj (hfirst.symm.trans hv)
      exact ⟨0, 0, le_rfl, Or.inl ⟨rfl, rfl⟩, rfl, fun k e hk hlt => absurd hlt (by omega)⟩
    | succ m =>
      have hm : m < (s.log .lockedMargin).length := by
        have hlt := (List.getElem?_eq_some_iff.mp hv).1
        rw [Memory.values_length, h.length] at hlt
        omega
      obtain ⟨e, he⟩ : ∃ e, (s.log .lockedMargin)[m]? = some e := ⟨_, List.getElem?_eq_getElem hm⟩
      have hentry := h.entries .lockedMargin m e he
      obtain ⟨o, v', next, hv', hfollows⟩ := hentry.follows
      obtain rfl : v' = v := Option.some.inj (hv'.symm.trans hv)
      rcases locked_store hfollows with ⟨hrest, hbooked⟩ | ⟨hexec, j, prev, htrace, hprev, hbooked⟩
      · obtain ⟨c, trace⟩ := e
        cases c with
        | onRestUpdate equity used ts =>
          refine ⟨m + 1, used, le_rfl, Or.inr ⟨m, _, equity, ts, rfl, he, rfl⟩, ?_,
            fun k e hk hlt => absurd hlt (by omega)⟩
          have hnone : ((s.log .lockedMargin).take (m + 1)).drop (m + 1) = [] :=
            List.drop_eq_nil_of_le (List.length_take_le _ _)
          rw [hnone]
          exact hbooked
        | applyFill => cases hrest
        | onFill => cases hrest
        | onRelease => cases hrest
        | onMarkPrice => cases hrest
      · have hread : Touch.read .lockedMargin j ∈ e.trace := by simp [htrace]
        have hj : j ≤ m := hentry.known _ hread rfl
        obtain ⟨base, reported, hbase, hstart, hfold, hover⟩ := ih j (by omega) hprev
        have hquiet : ∀ x ∈ ((s.log .lockedMargin).take m).drop j, x.call.thread ≠ .execution := by
          intro x hx hmine
          obtain ⟨k, hk⟩ := List.mem_iff_getElem?.mp hx
          rw [List.getElem?_drop, List.getElem?_take] at hk
          split at hk
          · rename_i hlt
            have hown := hentry.own (j + k) x hlt hk (hmine.trans hexec.symm)
            rcases hown with hwrote | hseen
            · simp [htrace] at hwrote
            · have hle := hseen j hread
              omega
          · cases hk
        have hcharge : charges [e] = [e.call] := by simp [charges, hexec]
        refine ⟨base, reported, by omega, hstart, ?_, fun k x hk hlt hx hrest => ?_⟩
        · rw [take_drop_split hbase hj he, charges_append, charges_append, charges_nil_of hquiet, hcharge,
            List.nil_append, List.foldl_append, ← hfold, hbooked]
          rfl
        · by_cases hbefore : k < j
          · obtain ⟨k', e', j', hk', hlt', hentry'⟩ := hover k x hk hbefore hx hrest
            exact ⟨k', e', j', hk', by omega, hentry'⟩
          · have hne : k ≠ m := by
              rintro rfl
              obtain rfl : x = e := Option.some.inj (hx.symm.trans he)
              rw [hexec] at hrest
              cases hrest
            exact ⟨m, e, j, by omega, by omega, he, hexec, hread, by omega⟩

end Replay

section Pairs
variable {cfg : MarginConfig} {s : MarginSystem} {c : ThreadCall} {t : MarginThread}
variable {r : Running ThreadCall MarginCell.Value} {trace : List (Touch MarginCell)}

/-- No cell of a position is touched. -/
def Plain : MarginProgram → Prop
  | .done => True
  | .load _ l next => l.isPosition = false ∧ ∀ v, Plain (next v)
  | .store _ l _ next => l.isPosition = false ∧ Plain next

theorem Plain.follows {value : ∀ c : MarginCell, List c.Value} {p q : MarginProgram} (h : Plain p)
    (hfollows : p.Follows value trace q) : Plain q := by
  induction hfollows with
  | nil p => exact h
  | read _ _ ih => exact ih (h.2 _)
  | wrote _ _ ih => exact ih h.2

theorem recompute_plain : Plain ThreadCall.recomputeAvailable :=
  ⟨rfl, fun _ => ⟨rfl, fun _ => ⟨rfl, fun _ => ⟨rfl, rfl, rfl, trivial⟩⟩⟩⟩

/-- Where a call stands with the cells of a position. -/
inductive Stage (c : ThreadCall) : MarginProgram → List (Touch MarginCell) → Prop where
  | loadNet (o : LoadOrder) (i : ℕ) (next : ℤ → MarginProgram)
      (ho : o = .acquire ∨ c.thread = .execution)
      (hnext : ∀ v, ∃ o' next', next v = .load o' (.avgEntryPrice i) next') :
      Stage c (.load o (.netQtyLots i) next) []
  | loadAvg (o : LoadOrder) (i : ℕ) (next : ℚ → MarginProgram) (trace : List (Touch MarginCell))
      (hnext : ∀ v, Plain (next v) ∨ ∃ net next', next v = .store .release (.netQtyLots i) net next') :
      Stage c (.load o (.avgEntryPrice i) next) trace
  | storeNet (i : ℕ) (net : ℤ) (avg : ℚ) (trace : List (Touch MarginCell)) (hmine : c.thread = .execution) :
      Stage c (.store .release (.netQtyLots i) net (.store .release (.avgEntryPrice i) avg .done)) trace
  | storeAvg (i : ℕ) (avg : ℚ) (trace : List (Touch MarginCell)) (hmine : c.thread = .execution) :
      Stage c (.store .release (.avgEntryPrice i) avg .done) trace
  | plain (p : MarginProgram) (trace : List (Touch MarginCell)) (hplain : Plain p) : Stage c p trace

theorem stage_of_follows {value : ∀ c : MarginCell, List c.Value} {rest : MarginProgram}
    (h : (ThreadCall.program cfg c).Follows value trace rest) : Stage c rest trace := by
  cases c with
  | applyFill i dir lots price =>
    cases h with
    | nil => exact .loadNet _ i _ (Or.inr rfl) fun v => ⟨_, _, rfl⟩
    | read _ h => cases h with
      | nil => exact .loadAvg _ i _ _ fun v => Or.inr ⟨_, _, rfl⟩
      | read _ h => cases h with
        | nil => exact .storeNet i _ _ _ rfl
        | wrote _ h => cases h with
          | nil => exact .storeAvg i _ _ rfl
          | wrote _ h => cases h with
            | nil => exact .plain _ _ trivial
  | onFill lots price lotSize =>
    have hplain : Plain (ThreadCall.program cfg (.onFill lots price lotSize)) :=
      ⟨rfl, fun _ => ⟨rfl, recompute_plain⟩⟩
    exact .plain _ _ (hplain.follows h)
  | onRelease lots price lotSize =>
    have hplain : Plain (ThreadCall.program cfg (.onRelease lots price lotSize)) :=
      ⟨rfl, fun _ => ⟨rfl, recompute_plain⟩⟩
    exact .plain _ _ (hplain.follows h)
  | onRestUpdate equity used ts =>
    have hplain : Plain (ThreadCall.program cfg (.onRestUpdate equity used ts)) :=
      ⟨rfl, rfl, rfl, recompute_plain⟩
    exact .plain _ _ (hplain.follows h)
  | onMarkPrice feed mark lotSize i =>
    have hplain (net : ℤ) (avg : ℚ) : Plain (if net = 0 ∨ avg ≤ 0 then .done
        else .store .release .upnl ((mark - avg) * (net * lotSize)) ThreadCall.recomputeAvailable) := by
      split
      · trivial
      · exact ⟨rfl, recompute_plain⟩
    cases h with
    | nil => exact .loadNet _ i _ (Or.inl rfl) fun v => ⟨_, _, rfl⟩
    | read _ h => cases h with
      | nil => exact .loadAvg _ i _ _ fun v => Or.inl (hplain _ v)
      | read _ h => exact .plain _ _ ((hplain _ _).follows h)

/-- Whether the average of position `i` is the next to be stored. -/
def owesAverage (p : MarginProgram) (i : ℕ) : ℕ :=
  match p with
  | .store _ (.avgEntryPrice j) _ _ => if j = i then 1 else 0
  | _ => 0

theorem Plain.owes {p : MarginProgram} (h : Plain p) (i : ℕ) : owesAverage p i = 0 := by
  cases p with
  | done => rfl
  | load o l next => rfl
  | store o l v next =>
    cases l with
    | avgEntryPrice j => cases h.1
    | _ => rfl

def owed (s : MarginSystem) (i : ℕ) : ℕ := (s.running .execution).elim 0 fun r => owesAverage r.rest i

theorem Stage.load {o : LoadOrder} {l : MarginCell} {next : l.Value → MarginProgram}
    (h : Stage c (.load o l next) trace) :
    (∀ i, l = .netQtyLots i → (o = .acquire ∨ c.thread = .execution) ∧ trace = []) ∧
      ∀ v i, owesAverage (next v) i = 0 := by
  cases h with
  | loadNet o i next ho hnext =>
    refine ⟨fun j hj => ⟨ho, rfl⟩, fun v j => ?_⟩
    obtain ⟨o', next', hv⟩ := hnext v
    rw [hv]
    rfl
  | loadAvg o i next _ hnext =>
    refine ⟨fun j hj => MarginCell.noConfusion hj, fun v j => ?_⟩
    rcases hnext v with hplain | ⟨net, next', hv⟩
    · exact hplain.owes j
    · rw [hv]
      rfl
  | plain _ _ hplain =>
    refine ⟨fun j hj => ?_, fun v j => (hplain.2 v).owes j⟩
    subst hj
    cases hplain.1

theorem Stage.store {o : StoreOrder} {l : MarginCell} {v : l.Value} {next : MarginProgram}
    (h : Stage c (.store o l v next) trace) :
    (∃ i avg, l = .netQtyLots i ∧ o = .release ∧ c.thread = .execution ∧
      next = .store .release (.avgEntryPrice i) avg .done) ∨
    (∃ i, l = .avgEntryPrice i ∧ c.thread = .execution ∧ next = .done) ∨
    l.isPosition = false ∧ ∀ i, owesAverage next i = 0 := by
  cases h with
  | storeNet i net avg _ hmine => exact Or.inl ⟨i, avg, rfl, rfl, hmine, rfl⟩
  | storeAvg i avg _ hmine => exact Or.inr (Or.inl ⟨i, rfl, hmine, rfl⟩)
  | plain _ _ hplain => exact Or.inr (Or.inr ⟨hplain.1, hplain.2.owes⟩)

/-- The average that was read is at most one fill older than the lots. -/
def Near (trace : List (Touch MarginCell)) : Prop :=
  ∀ i a b, .read (.netQtyLots i) a ∈ trace → .read (.avgEntryPrice i) b ∈ trace → a ≤ b + 1

/-- Lots and averages are stored in turns, by the execution thread alone. -/
structure Paired (s : MarginSystem) : Prop where
  linked : ∀ i, s.memory.Linked (fun k => k - 1) (.netQtyLots i) (.avgEntryPrice i)
  lots : ∀ i, s.memory.Current .execution (.netQtyLots i)
  averages : ∀ i, s.memory.Current .execution (.avgEntryPrice i)
  lengths : ∀ i, (s.memory.history (.netQtyLots i)).length =
    (s.memory.history (.avgEntryPrice i)).length + s.owed i
  running : ∀ t (r : Running ThreadCall MarginCell.Value), s.running t = some r → Near r.trace
  entries : ∀ (l : MarginCell) (k : ℕ) (e : Entry ThreadCall MarginCell),
    (s.log l)[k]? = some e → Near e.trace

theorem pred_mono : Monotone fun k : ℕ => k - 1 := fun _ _ h => Nat.sub_le_sub_right h 1

theorem start_paired : (start cfg).Paired where
  linked i := Memory.linked_init _ rfl
  lots i := rfl
  averages i := rfl
  lengths i := rfl
  running t r h := by cases h
  entries l k e h := by cases h

theorem owed_running (hrun : s.running .execution = some r) (i : ℕ) : s.owed i = owesAverage r.rest i := by
  rw [owed, hrun]
  rfl

theorem Paired.call (h : s.Paired) (c : ThreadCall) :
    Paired (System.begin ThreadCall.thread (ThreadCall.program cfg) c s) := by
  cases hrun : s.running c.thread with
  | some r =>
    simp only [System.begin, hrun]
    exact h
  | none =>
    simp only [System.begin, hrun]
    refine ⟨h.linked, h.lots, h.averages, fun i => ?_, fun t r hr => ?_, h.entries⟩
    · refine (h.lengths i).trans (congrArg _ ?_)
      by_cases hmine : c.thread = .execution
      · rw [hmine] at hrun
        have hfirst : owesAverage (ThreadCall.program cfg c) i = 0 := by cases c <;> rfl
        simp [owed, hrun, hmine, hfirst]
      · simp [owed, Function.update_of_ne (Ne.symm hmine)]
    · simp only [Function.update_apply] at hr
      split at hr
      · obtain rfl := Option.some.inj hr
        exact fun i a b ha => absurd ha List.not_mem_nil
      · exact h.running t r hr

theorem Paired.load {o : LoadOrder} {l : MarginCell} {next : l.Value → MarginProgram} (hok : s.Ok cfg)
    (h : s.Paired) (hrun : s.running t = some r) (hrest : r.rest = .load o l next) (choice : ℕ) :
    Paired (System.load t r o l next choice s) := by
  have hrunning := hok.running t r hrun
  have hstage := stage_of_follows hrunning.follows
  rw [hrest] at hstage
  obtain ⟨hnet, howes⟩ := hstage.load
  have hne (l' : MarginCell) : (Access.load (V := MarginCell.Value) o t l choice).target ≠ some l' :=
    fun heq => by cases heq
  refine ⟨fun i => ?_, fun i => (h.lots i).apply (hne _), fun i => (h.averages i).apply (hne _),
    fun i => ?_, fun t' r' hr' => ?_, h.entries⟩
  · have hlink := (h.linked i).apply (a := .load o t l choice) pred_mono rfl (by simp)
      (fun o' t' v' heq => by cases heq) fun o' t' choice' heq => by
        cases heq
        refine (hnet i rfl).1.imp_right fun hexec => ?_
        obtain rfl : t = .execution := hrunning.mine.symm.trans hexec
        exact h.lots i
    exact hlink
  · refine (h.lengths i).trans (congrArg _ ?_)
    by_cases ht : t = .execution
    · subst ht
      rw [owed_running hrun, hrest]
      simp only [owed, System.load, Function.update_self, Option.elim_some, howes]
      rfl
    · simp [owed, System.load, Function.update_of_ne (Ne.symm ht)]
  · simp only [System.load, Function.update_apply] at hr'
    split at hr'
    · obtain rfl := Option.some.inj hr'
      intro i a b ha hb
      rcases List.mem_append.mp hb with hold | hnew
      · rcases List.mem_append.mp ha with hfirst | hfirst
        · exact h.running t r hrun i a b hfirst hold
        · obtain ⟨hcell, -⟩ := Touch.read.inj (List.mem_singleton.mp hfirst)
          rw [(hnet i hcell.symm).2] at hold
          exact absurd hold List.not_mem_nil
      · obtain ⟨rfl, rfl⟩ := Touch.read.inj (List.mem_singleton.mp hnew)
        rcases List.mem_append.mp ha with hfirst | hfirst
        · have hknown : a ≤ s.memory.view t (.netQtyLots i) := hrunning.known _ hfirst
          have hlink : s.memory.view t (.netQtyLots i) - 1 ≤ s.memory.view t (.avgEntryPrice i) :=
            (h.linked i).threads t
          have hread := s.memory.view_le_index t (.avgEntryPrice i) choice
          omega
        · cases List.mem_singleton.mp hfirst
    · exact h.running t' r' hr'

theorem Paired.store {o : StoreOrder} {l : MarginCell} {v : l.Value} {next : MarginProgram} (hok : s.Ok cfg)
    (h : s.Paired) (hrun : s.running t = some r) (hrest : r.rest = .store o l v next) :
    Paired (System.store t r o l v next s) := by
  have hrunning := hok.running t r hrun
  have hstage := stage_of_follows hrunning.follows
  rw [hrest] at hstage
  have hne (l' : MarginCell) (hl : l' ≠ l) :
      (Access.store (V := MarginCell.Value) o t l v).target ≠ some l' :=
    fun heq => hl (Option.some.inj heq).symm
  have hload {l' : MarginCell} (o' : LoadOrder) (t' : MarginThread) (choice : ℕ)
      (heq : Access.store o t l v = .load o' t' l' choice) : o' = .acquire ∨ s.memory.Current t' l' := by
    cases heq
  have hreads : ∀ t' (r' : Running ThreadCall MarginCell.Value),
      (System.store t r o l v next s).running t' = some r' → Near r'.trace := by
    intro t' r' hr'
    simp only [System.store, Function.update_apply] at hr'
    split at hr'
    · obtain rfl := Option.some.inj hr'
      intro i a b ha hb
      exact h.running t r hrun i a b (by simpa using ha) (by simpa using hb)
    · exact h.running t' r' hr'
  have hlog : ∀ (l' : MarginCell) (k : ℕ) (e : Entry ThreadCall MarginCell),
      ((System.store t r o l v next s).log l')[k]? = some e → Near e.trace := by
    intro l' k e he
    rcases System.log_store he with hold | ⟨-, -, rfl⟩
    · exact h.entries l' k e hold
    · exact h.running t r hrun
  rcases hstage.store with ⟨j, avg, rfl, rfl, hmine, rfl⟩ | ⟨j, rfl, hmine, rfl⟩ | ⟨hother, howes⟩
  · -- the lots are stored where lots and averages are even
    obtain rfl : t = .execution := hrunning.mine.symm.trans hmine
    have howed (i : ℕ) : s.owed i = 0 := by
      rw [owed_running hrun, hrest]
      rfl
    have heven := h.lengths j
    rw [howed] at heven
    have hlast : s.memory.view .execution (.avgEntryPrice j) + 1 = _ := h.averages j
    refine ⟨fun i => ?_, fun i => ?_, fun i => (h.averages i).apply (hne _ (by simp)), fun i => ?_,
      hreads, hlog⟩
    · have hlink := (h.linked i).apply (a := .store .release .execution (.netQtyLots j) v) pred_mono rfl
        (by simp) (fun o' t' v' heq => by
          cases heq
          exact ⟨rfl, by omega⟩) hload
      exact hlink
    · by_cases hi : i = j
      · subst hi
        exact Memory.current_store _ _ _
      · exact (h.lots i).apply (hne _ (by simp [hi]))
    · have hsame := Access.length_of_ne (m := s.memory) (hne (.avgEntryPrice i) (by simp))
      by_cases hi : i = j
      · subst hi
        have hmore := Access.length_store (m := s.memory) (l := .netQtyLots i) .release .execution v
        simp only [owed, System.store, Function.update_self, Option.elim_some, owesAverage, if_pos, hsame,
          hmore]
        omega
      · have hold := Access.length_of_ne (m := s.memory) (hne (.netQtyLots i) (by simp [hi]))
        have hbefore := h.lengths i
        rw [howed] at hbefore
        simp only [owed, System.store, Function.update_self, Option.elim_some, owesAverage, hsame, hold,
          if_neg (Ne.symm hi)]
        exact hbefore
  · obtain rfl : t = .execution := hrunning.mine.symm.trans hmine
    have howed (i : ℕ) : s.owed i = if j = i then 1 else 0 := by
      rw [owed_running hrun, hrest]
      rfl
    refine ⟨fun i => ?_, fun i => (h.lots i).apply (hne _ (by simp)), fun i => ?_, fun i => ?_, hreads, hlog⟩
    · have hlink := (h.linked i).apply (a := .store o .execution (.avgEntryPrice j) v) pred_mono rfl
        (by simp) (fun o' t' v' heq => by cases heq) hload
      exact hlink
    · by_cases hi : i = j
      · subst hi
        exact Memory.current_store _ _ _
      · exact (h.averages i).apply (hne _ (by simp [hi]))
    · have hsame := Access.length_of_ne (m := s.memory) (hne (.netQtyLots i) (by simp))
      have hbefore := h.lengths i
      rw [howed] at hbefore
      by_cases hi : i = j
      · subst hi
        have hmore := Access.length_store (m := s.memory) (l := .avgEntryPrice i) o .execution v
        simp only [owed, System.store, Function.update_self, Option.elim_some, owesAverage, hsame, hmore]
        simpa using hbefore
      · have hold := Access.length_of_ne (m := s.memory) (hne (.avgEntryPrice i) (by simp [hi]))
        rw [if_neg (Ne.symm hi)] at hbefore
        simp only [owed, System.store, Function.update_self, Option.elim_some, owesAverage, hsame, hold]
        exact hbefore
  · have hcell (l' : MarginCell) (hl : l'.isPosition = true) : l' ≠ l := by
      rintro rfl
      rw [hl] at hother
      cases hother
    refine ⟨fun i => ?_, fun i => (h.lots i).apply (hne _ (hcell _ rfl)),
      fun i => (h.averages i).apply (hne _ (hcell _ rfl)), fun i => ?_, hreads, hlog⟩
    · have hlink := (h.linked i).apply (a := .store o t l v) pred_mono rfl (by simp)
        (fun o' t' v' heq => by
          cases heq
          cases hother) hload
      exact hlink
    · have hlots := Access.length_of_ne (m := s.memory) (hne _ (hcell (.netQtyLots i) rfl))
      have haverages := Access.length_of_ne (m := s.memory) (hne _ (hcell (.avgEntryPrice i) rfl))
      have howed : owed (System.store t r o l v next s) i = s.owed i := by
        by_cases ht : t = .execution
        · subst ht
          have hnone : owesAverage (.store o l v next) i = 0 := by
            cases l with
            | avgEntryPrice j => cases hother
            | _ => rfl
          rw [owed_running hrun, hrest, hnone]
          simp only [owed, System.store, Function.update_self, Option.elim_some, howes]
        · simp [owed, System.store, Function.update_of_ne (Ne.symm ht)]
      rw [howed]
      exact hlots.trans ((h.lengths i).trans (by rw [← haverages]; rfl))

theorem Paired.step (hok : s.Ok cfg) (h : s.Paired) (a : Action MarginThread ThreadCall) :
    (step cfg a s).Paired := by
  cases a with
  | call c => exact h.call c
  | move t choice =>
    cases hrun : s.running t with
    | none =>
      simp only [MarginSystem.step, System.step, System.move, hrun]
      exact h
    | some r =>
      cases hrest : r.rest with
      | done =>
        simp only [MarginSystem.step, System.step, System.move, hrun, hrest]
        refine ⟨h.linked, h.lots, h.averages, fun i => ?_, fun t' r' hr' => ?_, h.entries⟩
        · refine (h.lengths i).trans (congrArg _ ?_)
          by_cases ht : t = .execution
          · subst ht
            rw [owed_running hrun, hrest]
            simp [owed, owesAverage]
          · simp [owed, Function.update_of_ne (Ne.symm ht)]
        · simp only [Function.update_apply] at hr'
          split at hr'
          · cases hr'
          · exact h.running t' r' hr'
      | load o l next =>
        simp only [MarginSystem.step, System.step, System.move, hrun, hrest]
        exact h.load hok hrun hrest choice
      | store o l v next =>
        simp only [MarginSystem.step, System.step, System.move, hrun, hrest]
        exact h.store hok hrun hrest

theorem run_paired (cfg : MarginConfig) (acts : List (Action MarginThread ThreadCall)) :
    (run (step cfg) (start cfg) acts).Paired := by
  have hall : Along (step cfg) (fun _ _ => True) (start cfg) acts := along_true
  exact (hall.invariant (fun s => s.Ok cfg ∧ s.Paired)
    (fun a s h _ => ⟨h.1.step_ok a, h.2.step h.1 a⟩) ⟨System.init_ok _, start_paired⟩).2

end Pairs

section Publication
variable {cfg : MarginConfig} {s : MarginSystem}

/-- The figure `v` is one recomputation, of cells that had the call's own stores. -/
def Published (s : MarginSystem) (e : Entry ThreadCall MarginCell) (v : ℚ) : Prop :=
  ∃ i j u, Recomputed s.memory.values i j u v ∧
    ∀ a, (.wrote .localEquity a ∈ e.trace → a ≤ i) ∧ (.wrote .lockedMargin a ∈ e.trace → a ≤ j) ∧
      (.wrote .upnl a ∈ e.trace → a ≤ u)

/-- The profit or loss `v` is what a mark makes of lots and an average that the cells have held, the
average at most one fill older than the lots. -/
def MarkedBy (s : MarginSystem) (e : Entry ThreadCall MarginCell) (v : ℚ) : Prop :=
  ∃ (feed : ℕ) (markUsd lotSize : ℚ) (i a b : ℕ) (net : ℤ) (avg : ℚ),
    e.call = .onMarkPrice feed markUsd lotSize i ∧
    (s.memory.values (.netQtyLots i))[a]? = some net ∧
    (s.memory.values (.avgEntryPrice i))[b]? = some avg ∧
    net ≠ 0 ∧ 0 < avg ∧ v = (markUsd - avg) * (net * lotSize) ∧ a ≤ b + 1

theorem Ok.published (h : s.Ok cfg) {k : ℕ} {e : Entry ThreadCall MarginCell} {v : ℚ}
    (he : (s.log .marginAvailable)[k]? = some e)
    (hv : (s.memory.values .marginAvailable)[k + 1]? = some v) : s.Published e v := by
  have hentry := h.entries _ k e he
  obtain ⟨o, v', next, hv', hfollows⟩ := hentry.follows
  obtain rfl : v' = v := Option.some.inj (hv'.symm.trans hv)
  obtain ⟨before, i, j, u, a, b, htrace, hfigures⟩ := available_store hfollows
  have hordered := hentry.ordered
  rw [htrace] at hordered
  obtain ⟨-, -, hcross⟩ := List.pairwise_append.mp hordered
  have hown (c : MarginCell) (k n : ℕ) (hc : c ≠ .totalEquity) (hc' : c ≠ .marginUsed)
      (hread : Touch.read c k ∈ [.read .localEquity i, .read .lockedMargin j, .read .upnl u,
        .wrote .totalEquity a, .wrote .marginUsed b])
      (hwrote : Touch.wrote c n ∈ e.trace) : n ≤ k := by
    rw [htrace] at hwrote
    rcases List.mem_append.mp hwrote with hbefore | hafter
    · exact hcross _ hbefore _ hread rfl
    · simp [hc, hc'] at hafter
  exact ⟨i, j, u, hfigures, fun n => ⟨hown _ i n (by simp) (by simp) (by simp),
    hown _ j n (by simp) (by simp) (by simp), hown _ u n (by simp) (by simp) (by simp)⟩⟩

theorem Paired.marked (hp : s.Paired) (h : s.Ok cfg) {k : ℕ} {e : Entry ThreadCall MarginCell} {v : ℚ}
    (he : (s.log .upnl)[k]? = some e) (hv : (s.memory.values .upnl)[k + 1]? = some v) : s.MarkedBy e v := by
  obtain ⟨o, v', next, hv', hfollows⟩ := (h.entries _ k e he).follows
  obtain rfl : v' = v := Option.some.inj (hv'.symm.trans hv)
  obtain ⟨feed, markUsd, lotSize, i, a, b, net, avg, hcall, htrace, hnet, havg, hne, hpos, hvalue⟩ :=
    upnl_store hfollows
  have hnear : a ≤ b + 1 := hp.entries _ k e he i a b (by simp [htrace]) (by simp [htrace])
  exact ⟨feed, markUsd, lotSize, i, a, b, net, avg, hcall, hnet, havg, hne, hpos, hvalue, hnear⟩

end Publication

/-- However the threads interleave and whatever their loads return: the locked margin is always what one
report or the start said and every fill and release booked since, each once and in order, and a report
is lost only where one of these was computed before it was seen; every available margin is one
recomputation, of cells that had the call's own stores; and every profit or loss is a mark of lots and
an average the position has had, the average at most one fill older than the lots. -/
theorem run_accounts (cfg : MarginConfig) (acts : List (Action MarginThread ThreadCall)) :
    let s := run (step cfg) (start cfg) acts
    (∀ n v, (s.memory.values .lockedMargin)[n]? = some v → Replayed cfg (s.log .lockedMargin) n v) ∧
    (∀ k e v, (s.log .marginAvailable)[k]? = some e →
      (s.memory.values .marginAvailable)[k + 1]? = some v → s.Published e v) ∧
    ∀ k e v, (s.log .upnl)[k]? = some e → (s.memory.values .upnl)[k + 1]? = some v → s.MarkedBy e v := by
  intro s
  have h : s.Ok cfg := System.run_ok _ acts
  have hfirst : (s.memory.values .lockedMargin)[0]? = some (0 : ℚ) :=
    System.run_first (MarginCell.initial cfg) acts .lockedMargin
  exact ⟨fun n v hv => h.replayed hfirst hv, fun k e v he hv => h.published he hv,
    fun k e v he hv => (run_paired cfg acts).marked h he hv⟩

section Atomic
variable {cfg : MarginConfig}

/-- The monitor and the positions that the cells hold. -/
def monitorOf (σ : (c : MarginCell) → c.Value) : MarginBook where
  monitor := ⟨σ .localEquity, σ .lockedMargin, σ .upnl, σ .restUpdateNs⟩
  margin := ⟨σ .totalEquity, σ .marginUsed, σ .marginAvailable⟩

def positionsOf (σ : (c : MarginCell) → c.Value) (i : ℕ) : InstrumentPosition :=
  { InstrumentPosition.zero with netQtyLots := σ (.netQtyLots i), avgEntryPrice := σ (.avgEntryPrice i) }

/-- A call in one step. -/
def callAtOnce (cfg : MarginConfig) (x : MarginBook × (ℕ → InstrumentPosition)) :
    ThreadCall → MarginBook × (ℕ → InstrumentPosition)
  | .applyFill i dir lots price => (x.1, Function.update x.2 i ((x.2 i).applyFill dir lots price))
  | .onFill lots price lotSize => (x.1.call cfg (.onFill lots price lotSize), x.2)
  | .onRelease lots price lotSize => (x.1.call cfg (.onRelease lots price lotSize), x.2)
  | .onRestUpdate equity used ts => (x.1.call cfg (.onRestUpdate equity used ts), x.2)
  | .onMarkPrice _ mark lotSize i => (x.1.call cfg (.onMarkPrice (x.2 i) mark lotSize), x.2)

section Recomputation
variable {σ : (c : MarginCell) → c.Value}

theorem positionsOf_update {c : MarginCell} (v : c.Value) (hnet : ∀ i, c ≠ .netQtyLots i)
    (havg : ∀ i, c ≠ .avgEntryPrice i) : positionsOf (Function.update σ c v) = positionsOf σ := by
  funext i
  rw [positionsOf, Function.update_of_ne (hnet i).symm, Function.update_of_ne (havg i).symm, positionsOf]

theorem positionsOf_recompute : positionsOf (ThreadCall.recomputeAvailable.exec σ) = positionsOf σ := by
  simp only [ThreadCall.recomputeAvailable, ThreadCall.update, Program.exec]
  rw [positionsOf_update _ (by simp) (by simp), positionsOf_update _ (by simp) (by simp),
    positionsOf_update _ (by simp) (by simp)]

theorem monitorOf_recompute :
    monitorOf (ThreadCall.recomputeAvailable.exec σ) = MarginBook.publish (monitorOf σ).monitor := by
  by_cases hloss : σ .upnl < 0
  · simp [ThreadCall.recomputeAvailable, ThreadCall.update, Program.exec, monitorOf, MarginBook.publish,
      MarginMonitor.recomputeAvailable, MarginState.update, hloss]
  · simp [ThreadCall.recomputeAvailable, ThreadCall.update, Program.exec, monitorOf, MarginBook.publish,
      MarginMonitor.recomputeAvailable, MarginState.update, hloss]

/-- A call with nobody in between is the call in one step. -/
theorem exec_program (c : ThreadCall) :
    (monitorOf ((c.program cfg).exec σ), positionsOf ((c.program cfg).exec σ)) =
      callAtOnce cfg (monitorOf σ, positionsOf σ) c := by
  cases c with
  | applyFill i dir lots price =>
    refine Prod.ext (by simp [ThreadCall.program, Program.exec, monitorOf, callAtOnce]) ?_
    funext k
    by_cases hk : k = i
    · subst hk
      simp only [ThreadCall.program, Program.exec, positionsOf, callAtOnce, Function.update_self]
      rw [Function.update_of_ne (by simp), Function.update_self]
      rfl
    · simp [ThreadCall.program, Program.exec, positionsOf, callAtOnce, Function.update_of_ne, hk]
  | onFill lots price lotSize =>
    simp only [ThreadCall.program, Program.exec, monitorOf_recompute, positionsOf_recompute]
    rw [positionsOf_update _ (by simp) (by simp)]
    simp [monitorOf, callAtOnce, MarginBook.call, MarginMonitor.onFill, ThreadCall.book]
  | onRelease lots price lotSize =>
    simp only [ThreadCall.program, Program.exec, monitorOf_recompute, positionsOf_recompute]
    rw [positionsOf_update _ (by simp) (by simp)]
    simp [monitorOf, callAtOnce, MarginBook.call, MarginMonitor.onRelease, ThreadCall.book]
  | onRestUpdate equity used ts =>
    simp only [ThreadCall.program, Program.exec, monitorOf_recompute, positionsOf_recompute]
    rw [positionsOf_update _ (by simp) (by simp), positionsOf_update _ (by simp) (by simp),
      positionsOf_update _ (by simp) (by simp)]
    simp [monitorOf, callAtOnce, MarginBook.call, MarginMonitor.onRestUpdate]
  | onMarkPrice feed mark lotSize i =>
    by_cases hopen : σ (.netQtyLots i) = 0 ∨ σ (.avgEntryPrice i) ≤ 0
    · simp [ThreadCall.program, Program.exec, monitorOf, positionsOf, callAtOnce, MarginBook.call,
        MarginMonitor.onMarkPrice, hopen]
    · simp only [ThreadCall.program, Program.exec, if_neg hopen, monitorOf_recompute,
        positionsOf_recompute]
      rw [positionsOf_update _ (by simp) (by simp)]
      simp [monitorOf, positionsOf, callAtOnce, MarginBook.call, MarginMonitor.onMarkPrice, hopen]

end Recomputation

/-- Calls that do not overlap, and load what was stored last, are the calls of the monitor that take one
step each. -/
theorem run_atOnce {acts : List (Action MarginThread ThreadCall)}
    (h : Along (step cfg) Action.Serial (start cfg) acts)
    (hidle : ∀ t, (run (step cfg) (start cfg) acts).running t = none) :
    ∃ σ, Latest (run (step cfg) (start cfg) acts).memory σ ∧
      (monitorOf σ, positionsOf σ) = (acts.filterMap Action.begun).foldl (callAtOnce cfg)
        (MarginBook.init cfg, fun _ => InstrumentPosition.zero) := by
  have hstart : (start cfg).Leads (MarginCell.initial cfg) := .idle (fun _ => rfl) (latest_init _)
  have hfold (calls : List ThreadCall) (σ : (c : MarginCell) → c.Value) :
      (monitorOf (calls.foldl (fun σ c => (c.program cfg).exec σ) σ),
        positionsOf (calls.foldl (fun σ c => (c.program cfg).exec σ) σ)) =
      calls.foldl (callAtOnce cfg) (monitorOf σ, positionsOf σ) := by
    induction calls generalizing σ with
    | nil => rfl
    | cons c calls ih => rw [List.foldl_cons, List.foldl_cons, ih, exec_program]
  have hinitial : (monitorOf (MarginCell.initial cfg), positionsOf (MarginCell.initial cfg)) =
      (MarginBook.init cfg, fun _ => InstrumentPosition.zero) := by
    simp only [monitorOf, MarginCell.initial, MarginBook.init, MarginMonitor.init, MarginState.update,
      sub_zero]
    rfl
  cases hstart.run h with
  | idle _ hlatest => exact ⟨_, hlatest, (hfold _ _).trans (by rw [hinitial])⟩
  | busy t r σ' hrun => exact absurd (hidle t) (by simp [step, hrun])

/-- A fill of one lot at 100, alone, with a tenth of it as margin. -/
theorem run_atOnce_oneFill :
    ∃ σ, Latest (run (step ⟨1 / 10, 1000⟩) (start ⟨1 / 10, 1000⟩)
        (.call (.onFill 1 100 1) :: List.replicate 9 (.move .execution 9))).memory σ ∧
      (monitorOf σ).availableConservative = 990 := by
  obtain ⟨σ, hlatest, heq⟩ := @run_atOnce ⟨1 / 10, 1000⟩
    (.call (.onFill 1 100 1) :: List.replicate 9 (.move .execution 9))
    ⟨fun _ => rfl, along_moves fun _ => le_rfl⟩ fun t => by cases t <;> rfl
  refine ⟨σ, hlatest, ?_⟩
  have hmonitor : monitorOf σ = (MarginBook.init ⟨1 / 10, 1000⟩).call ⟨1 / 10, 1000⟩ (.onFill 1 100 1) :=
    congrArg Prod.fst heq
  rw [hmonitor]
  norm_num [MarginBook.call, MarginBook.init, MarginBook.publish, MarginBook.availableConservative,
    MarginMonitor.init, MarginMonitor.onFill, MarginMonitor.recomputeAvailable, MarginState.update]

end Atomic

end MarginSystem

end OmsFormal.Oms
