import Mathlib.Data.Nat.Count
import OmsFormal.ReleaseAcquire
import OmsFormal.SpscQueue

/-!
# The ring in a release/acquire memory

The indices of the ring are atomic, its cells are not. A side loads its own index
relaxed and the other side's with acquire order, and stores its own with release
order. A load may miss what the other side has stored last, so a side works with
an old copy of the other's index; and a cell is safe to touch only because the
index that was loaded carries the accesses the other side has made to it. With an
element the consumer learns of everything its producer knew.
-/

namespace OmsFormal.Oms
open ReleaseAcquire GuardedRun SpscQueue
set_option autoImplicit false

inductive RingThread where
  | producer
  | consumer
  | other (n : ℕ)
  deriving DecidableEq

/-- Other data the threads share, by its writer. -/
abbrev SharedCell := RingThread × ℕ

/-- The indices, the cells, and what else is shared. Every read of a cell leaves a mark, which nobody
loads: it is there to tell which reads a thread knows of. -/
inductive RingCell where
  | head
  | tail
  | slot (c : ℕ)
  | mark (c : ℕ)
  | shared (l : SharedCell)
  deriving DecidableEq

abbrev RingCell.Value (T E : Type) : RingCell → Type
  | head => ℕ
  | tail => ℕ
  | slot _ => T
  | mark _ => Unit
  | shared _ => E

abbrev RingMemory (T E : Type) := Memory RingThread (RingCell.Value T E)

/-- The ring of `SpscQueue` with its data in the memory. For each push, `sent` is what the producer
knew of the other shared data. -/
structure WeakQueue (T E : Type) where
  memory : RingMemory T E
  producer : Producer T
  consumer : Consumer T
  pushed : List T
  popped : List T
  sent : List (SharedCell → ℕ)

/-- Who moves next, and which store it would load; or a thread stores data of its own or loads other
data, or two of them synchronize otherwise. -/
inductive WeakAction (T E : Type) where
  | push (v : T) (choice : ℕ)
  | pop (choice : ℕ)
  | store (o : StoreOrder) (t : RingThread) (l : ℕ) (v : E)
  | load (o : LoadOrder) (t : RingThread) (l : SharedCell) (choice : ℕ)
  | handOff (t t' : RingThread)

variable {T E : Type}

namespace RingMemory

def start (buf : ℕ → T) (data : SharedCell → E) : RingMemory T E :=
  Memory.init fun
    | .head => (0 : ℕ)
    | .tail => (0 : ℕ)
    | .slot c => buf c
    | .mark _ => ()
    | .shared l => data l

/-- What a thread would load from an index. -/
def loadedHead (m : RingMemory T E) (t : RingThread) (choice : ℕ) : ℕ := (m.read t .head choice).value

def loadedTail (m : RingMemory T E) (t : RingThread) (choice : ℕ) : ℕ := (m.read t .tail choice).value

def loadedSlot (m : RingMemory T E) (t : RingThread) (c choice : ℕ) : T := (m.read t (.slot c) choice).value

end RingMemory

namespace WeakQueue

def init (buf : ℕ → T) (data : SharedCell → E) : WeakQueue T E :=
  ⟨RingMemory.start buf data, .idle, .idle, [], [], []⟩

section Steps
variable (n : ℕ)

def pushStep (v : T) (choice : ℕ) (q : WeakQueue T E) : WeakQueue T E :=
  match q.producer with
  | .idle =>
    { q with
      memory := (Access.load .relaxed .producer .head choice).apply q.memory
      producer := .loaded (q.memory.loadedHead .producer choice) v }
  | .loaded h v =>
    { q with
      memory := (Access.load .acquire .producer .tail choice).apply q.memory
      producer := if next n h = q.memory.loadedTail .producer choice then .idle else .writing h v }
  | .writing h v =>
    { q with
      memory := (Access.store .relaxed .producer (.slot h) v).apply q.memory
      producer := .storing h v }
  | .storing h v =>
    { q with
      memory := (Access.store .release .producer .head (next n h)).apply q.memory
      producer := .idle
      pushed := q.pushed ++ [v]
      sent := q.sent ++ [fun l => q.memory.view .producer (.shared l)] }

def popStep (choice : ℕ) (q : WeakQueue T E) : WeakQueue T E :=
  match q.consumer with
  | .idle =>
    { q with
      memory := (Access.load .relaxed .consumer .tail choice).apply q.memory
      consumer := .loaded (q.memory.loadedTail .consumer choice) }
  | .loaded t =>
    { q with
      memory := (Access.load .acquire .consumer .head choice).apply q.memory
      consumer := if t = q.memory.loadedHead .consumer choice then .idle else .reading t }
  | .reading t =>
    { q with
      memory := (Access.store .relaxed .consumer (.mark t) ()).apply
        ((Access.load .relaxed .consumer (.slot t) choice).apply q.memory)
      consumer := .storing t (q.memory.loadedSlot .consumer t choice) }
  | .storing t v =>
    { q with
      memory := (Access.store .release .consumer .tail (next n t)).apply q.memory
      consumer := .idle
      popped := q.popped ++ [v] }

def step (a : WeakAction T E) (q : WeakQueue T E) : WeakQueue T E :=
  match a with
  | .push v choice => q.pushStep n v choice
  | .pop choice => q.popStep n choice
  | .store o t l v => { q with memory := (Access.store o t (.shared (t, l)) v).apply q.memory }
  | .load o t l choice => { q with memory := (Access.load o t (.shared l) choice).apply q.memory }
  | .handOff t t' => { q with memory := (Access.handOff t t').apply q.memory }

end Steps

/-- The elements stored, oldest first. -/
def content (q : WeakQueue T E) : List T := q.pushed.drop q.popped.length

/-- The elements written to the cells so far, the one of the push under way included. -/
def written (q : WeakQueue T E) : List T :=
  match q.producer with
  | .storing _ v => q.pushed ++ [v]
  | _ => q.pushed

/-- How many elements have been read from the cells. -/
def taken (q : WeakQueue T E) : ℕ :=
  match q.consumer with
  | .storing _ _ => q.popped.length + 1
  | _ => q.popped.length

/-- How many of the first `w` elements go through cell `c`. -/
def laps (n c w : ℕ) : ℕ := Nat.count (fun i => i % n = c) w

section Laps
variable {n c : ℕ}

theorem laps_zero (n c : ℕ) : laps n c 0 = 0 := Nat.count_zero _

theorem laps_mono (n c : ℕ) : Monotone (laps n c) := Nat.count_monotone _

theorem laps_succ (n c w : ℕ) : laps n c (w + 1) = laps n c w + if w % n = c then 1 else 0 :=
  Nat.count_succ _ _

/-- Elements that go through other cells do not count. -/
theorem laps_same {a b : ℕ} (hle : a ≤ b) (h : ∀ j, a ≤ j → j < b → j % n ≠ c) :
    laps n c b = laps n c a := by
  induction b, hle using Nat.le_induction with
  | base => rfl
  | succ b hab ih =>
    rw [laps_succ, if_neg (h b hab (Nat.lt_succ_self b)), Nat.add_zero]
    exact ih fun j hj hlt => h j hj (Nat.lt_succ_of_lt hlt)

/-- No other element goes through the cell of `i` until the turn is over. -/
theorem laps_turn {i w : ℕ} (hlt : i < w) (hle : w ≤ i + n) :
    laps n (i % n) w = laps n (i % n) i + 1 := by
  have hother : laps n (i % n) w = laps n (i % n) (i + 1) := laps_same hlt fun j hj hjw heq => by
    have hcell := cell_inj (by omega) (by omega) heq.symm
    omega
  rw [hother, laps_succ, if_pos rfl]

/-- Since the turn before, no element has gone through the cell of `i`. -/
theorem laps_before {i a b : ℕ} (ha : i < a + n) (hab : a ≤ b) (hb : b ≤ i) :
    laps n (i % n) b = laps n (i % n) a :=
  laps_same hab fun j hj hjb heq => by
    have hcell := cell_inj (by omega) (by omega) heq
    omega

end Laps

end WeakQueue

namespace RingMemory
open WeakQueue

/-- What the memory holds after `pushed` pushes and `popped` pops, with the elements `written` and
`taken` reads. -/
structure Holds (n pushed popped taken : ℕ) (written : List T) (m : RingMemory T E) : Prop where
  head : m.values .head = (List.range (pushed + 1)).map (· % n)
  tail : m.values .tail = (List.range (popped + 1)).map (· % n)
  slots : ∀ c, (m.history (.slot c)).length = laps n c written.length + 1
  marks : ∀ c, (m.history (.mark c)).length = laps n c taken + 1
  cells : ∀ i v, written[i]? = some v → (m.values (.slot (i % n)))[laps n (i % n) i + 1]? = some v
  ownHead : m.Current .producer .head
  ownTail : m.Current .consumer .tail
  writes : ∀ c, m.Current .producer (.slot c)
  reads : ∀ c, m.Current .consumer (.mark c)
  published : ∀ c, m.Linked (laps n c) .head (.slot c)
  released : ∀ c, m.Linked (laps n c) .tail (.mark c)

variable {n pushed popped taken : ℕ} {written : List T} {m : RingMemory T E}
variable {a : Access RingThread (RingCell.Value T E)}

theorem start_holds (buf : ℕ → T) (data : SharedCell → E) : (start buf data).Holds n 0 0 0 [] where
  head := by simp [start, Memory.values, Memory.init]
  tail := by simp [start, Memory.values, Memory.init]
  slots c := rfl
  marks c := rfl
  cells i v h := by cases h
  ownHead := rfl
  ownTail := rfl
  writes c := rfl
  reads c := rfl
  published c := Memory.linked_init _ (laps_zero n c)
  released c := Memory.linked_init _ (laps_zero n c)

/-- An access that stores other data only, and loads no index relaxed, changes nothing that is held. -/
theorem Holds.silent (h : m.Holds n pushed popped taken written)
    (htarget : ∀ l, a.target = some l → ∃ c, l = .shared c)
    (hload : ∀ o t l choice, a = .load o t l choice → o = .acquire ∨ ∃ c, l = .shared c) :
    Holds n pushed popped taken written (a.apply m) := by
  have hne (l : RingCell) (hl : ∀ c, l ≠ .shared c) : a.target ≠ some l := fun htl =>
    (htarget l htl).elim hl
  have hlink (l : RingCell) (hl : ∀ c, l ≠ .shared c) (o : StoreOrder) (t : RingThread)
      (v : l.Value T E) : a ≠ .store o t l v := by
    rintro rfl
    exact hne l hl rfl
  have hacquire (l : RingCell) (hl : ∀ c, l ≠ .shared c) (o : LoadOrder) (t : RingThread) (choice : ℕ)
      (heq : a = .load o t l choice) : o = .acquire ∨ m.Current t l :=
    (hload o t l choice heq).imp_right fun hex => absurd hex (not_exists.mpr hl)
  have hhead := hne .head (by simp)
  have htail := hne .tail (by simp)
  have hslot (c : ℕ) := hne (.slot c) (by simp)
  have hmark (c : ℕ) := hne (.mark c) (by simp)
  refine ⟨?_, ?_, fun c => ?_, fun c => ?_, fun i v hv => ?_, h.ownHead.apply hhead, h.ownTail.apply htail,
    fun c => (h.writes c).apply (hslot c), fun c => (h.reads c).apply (hmark c), fun c => ?_, fun c => ?_⟩
  · rw [Access.values_of_ne hhead]
    exact h.head
  · rw [Access.values_of_ne htail]
    exact h.tail
  · rw [Access.length_of_ne (hslot c)]
    exact h.slots c
  · rw [Access.length_of_ne (hmark c)]
    exact h.marks c
  · rw [Access.values_of_ne (hslot _)]
    exact h.cells i v hv
  · exact (h.published c).apply (laps_mono n c) (laps_zero n c) (by simp)
      (fun o t v heq => absurd heq (hlink .head (by simp) o t v)) (hacquire .head (by simp))
  · exact (h.released c).apply (laps_mono n c) (laps_zero n c) (by simp)
      (fun o t v heq => absurd heq (hlink .tail (by simp) o t v)) (hacquire .tail (by simp))

section Stores

/-- A store to a cell or a mark leaves the links alone. -/
theorem Holds.links {o : StoreOrder} {t : RingThread} {l : RingCell} {v : l.Value T E}
    (h : m.Holds n pushed popped taken written) (hhead : l ≠ .head) (htail : l ≠ .tail) (c : ℕ) :
    ((Access.store o t l v).apply m).Linked (laps n c) .head (.slot c) ∧
      ((Access.store o t l v).apply m).Linked (laps n c) .tail (.mark c) := by
  constructor
  · refine (h.published c).apply (laps_mono n c) (laps_zero n c) (by simp) (fun o t v heq => ?_)
      fun o t choice heq => by cases heq
    cases heq
    exact absurd rfl hhead
  · refine (h.released c).apply (laps_mono n c) (laps_zero n c) (by simp) (fun o t v heq => ?_)
      fun o t choice heq => by cases heq
    cases heq
    exact absurd rfl htail

theorem target_store_ne {o : StoreOrder} {t : RingThread} {l l' : RingCell} {v : l.Value T E} (h : l' ≠ l) :
    (Access.store (V := RingCell.Value T E) o t l v).target ≠ some l' :=
  fun heq => h (Option.some.inj heq).symm

/-- The producer writes the next element to its cell. -/
theorem Holds.write (h : m.Holds n pushed popped taken written) (v : T) :
    Holds n pushed popped taken (written ++ [v])
      ((Access.store .relaxed .producer (.slot (written.length % n)) v).apply m) := by
  have hlinks := fun c => h.links (o := .relaxed) (t := .producer) (l := .slot (written.length % n)) (v := v)
    (by simp) (by simp) c
  refine ⟨?_, ?_, fun c => ?_, fun c => ?_, fun i x hx => ?_, h.ownHead.apply (target_store_ne (by simp)),
    h.ownTail.apply (target_store_ne (by simp)), fun c => ?_,
    fun c => (h.reads c).apply (target_store_ne (by simp)), fun c => (hlinks c).1, fun c => (hlinks c).2⟩
  · rw [Access.values_of_ne (target_store_ne (by simp))]
    exact h.head
  · rw [Access.values_of_ne (target_store_ne (by simp))]
    exact h.tail
  · rw [List.length_append, List.length_singleton, laps_succ]
    by_cases hc : written.length % n = c
    · subst hc
      rw [Access.length_store, h.slots, if_pos rfl]
    · rw [Access.length_of_ne (target_store_ne (by simp [Ne.symm hc])), h.slots, if_neg hc, Nat.add_zero]
  · rw [Access.length_of_ne (target_store_ne (by simp))]
    exact h.marks c
  · have hlength (c : ℕ) : (m.values (.slot c)).length = laps n c written.length + 1 :=
      (m.values_length _).trans (h.slots c)
    rw [List.getElem?_append] at hx
    split at hx
    · have hold := h.cells i x hx
      by_cases hc : i % n = written.length % n
      · rw [hc] at hold ⊢
        rw [Access.values_store, List.getElem?_append_left (List.getElem?_eq_some_iff.mp hold).1]
        exact hold
      · rw [Access.values_of_ne (target_store_ne (by simp [hc]))]
        exact hold
    · obtain ⟨hlt, rfl⟩ := List.getElem?_eq_some_iff.mp hx
      rw [List.length_singleton] at hlt
      obtain rfl : i = written.length := by omega
      rw [Access.values_store, ← hlength, List.getElem?_concat_length, List.getElem_singleton]
  · by_cases hc : written.length % n = c
    · subst hc
      exact Memory.current_store _ _ _
    · exact (h.writes c).apply (target_store_ne (by simp [Ne.symm hc]))

/-- The consumer leaves its mark on the cell it has read. -/
theorem Holds.mark (h : m.Holds n pushed popped taken written) :
    Holds n pushed popped (taken + 1) written
      ((Access.store .relaxed .consumer (.mark (taken % n)) ()).apply m) := by
  have hlinks := fun c => h.links (o := .relaxed) (t := .consumer) (l := .mark (taken % n)) (v := ())
    (by simp) (by simp) c
  refine ⟨?_, ?_, fun c => ?_, fun c => ?_, fun i x hx => ?_, h.ownHead.apply (target_store_ne (by simp)),
    h.ownTail.apply (target_store_ne (by simp)), fun c => (h.writes c).apply (target_store_ne (by simp)),
    fun c => ?_, fun c => (hlinks c).1, fun c => (hlinks c).2⟩
  · rw [Access.values_of_ne (target_store_ne (by simp))]
    exact h.head
  · rw [Access.values_of_ne (target_store_ne (by simp))]
    exact h.tail
  · rw [Access.length_of_ne (target_store_ne (by simp))]
    exact h.slots c
  · rw [laps_succ]
    by_cases hc : taken % n = c
    · subst hc
      rw [Access.length_store, h.marks, if_pos rfl]
    · rw [Access.length_of_ne (target_store_ne (by simp [Ne.symm hc])), h.marks, if_neg hc, Nat.add_zero]
  · rw [Access.values_of_ne (target_store_ne (by simp))]
    exact h.cells i x hx
  · by_cases hc : taken % n = c
    · subst hc
      exact Memory.current_store _ _ _
    · exact (h.reads c).apply (target_store_ne (by simp [Ne.symm hc]))

/-- The producer hands over all it has written. -/
theorem Holds.publish (h : m.Holds n pushed popped taken written) (hw : written.length = pushed + 1) :
    Holds n (pushed + 1) popped taken written
      ((Access.store .release .producer .head ((pushed + 1) % n)).apply m) := by
  have hvalues : (m.values .head).length = pushed + 1 := by simp [h.head]
  refine ⟨?_, ?_, fun c => ?_, fun c => ?_, fun i x hx => ?_, Memory.current_store _ _ _,
    h.ownTail.apply (target_store_ne (by simp)), fun c => (h.writes c).apply (target_store_ne (by simp)),
    fun c => (h.reads c).apply (target_store_ne (by simp)), fun c => ?_, fun c => ?_⟩
  · simp [Access.values_store, h.head, List.range_succ]
  · rw [Access.values_of_ne (target_store_ne (by simp))]
    exact h.tail
  · rw [Access.length_of_ne (target_store_ne (by simp))]
    exact h.slots c
  · rw [Access.length_of_ne (target_store_ne (by simp))]
    exact h.marks c
  · rw [Access.values_of_ne (target_store_ne (by simp))]
    exact h.cells i x hx
  · refine (h.published c).apply (laps_mono n c) (laps_zero n c) (by simp) (fun o t v heq => ?_)
      fun o t choice heq => by cases heq
    cases heq
    have hlast : m.view .producer (.slot c) + 1 = (m.history (.slot c)).length := h.writes c
    rw [h.slots c, hw] at hlast
    rw [← Memory.values_length, hvalues]
    exact ⟨rfl, by omega⟩
  · exact (h.released c).apply (laps_mono n c) (laps_zero n c) (by simp) (fun o t v heq => by cases heq)
      fun o t choice heq => by cases heq

/-- The consumer hands back the cells it has read. -/
theorem Holds.release (h : m.Holds n pushed popped taken written) (ht : taken = popped + 1) :
    Holds n pushed (popped + 1) taken written
      ((Access.store .release .consumer .tail ((popped + 1) % n)).apply m) := by
  have hvalues : (m.values .tail).length = popped + 1 := by simp [h.tail]
  refine ⟨?_, ?_, fun c => ?_, fun c => ?_, fun i x hx => ?_, h.ownHead.apply (target_store_ne (by simp)),
    Memory.current_store _ _ _, fun c => (h.writes c).apply (target_store_ne (by simp)),
    fun c => (h.reads c).apply (target_store_ne (by simp)), fun c => ?_, fun c => ?_⟩
  · rw [Access.values_of_ne (target_store_ne (by simp))]
    exact h.head
  · simp [Access.values_store, h.tail, List.range_succ]
  · rw [Access.length_of_ne (target_store_ne (by simp))]
    exact h.slots c
  · rw [Access.length_of_ne (target_store_ne (by simp))]
    exact h.marks c
  · rw [Access.values_of_ne (target_store_ne (by simp))]
    exact h.cells i x hx
  · exact (h.published c).apply (laps_mono n c) (laps_zero n c) (by simp) (fun o t v heq => by cases heq)
      fun o t choice heq => by cases heq
  · refine (h.released c).apply (laps_mono n c) (laps_zero n c) (by simp) (fun o t v heq => ?_)
      fun o t choice heq => by cases heq
    cases heq
    have hlast : m.view .consumer (.mark c) + 1 = (m.history (.mark c)).length := h.reads c
    rw [h.marks c, ht] at hlast
    rw [← Memory.values_length, hvalues]
    exact ⟨rfl, by omega⟩

end Stores

section Loads
variable (h : m.Holds n pushed popped taken written)
include h

theorem Holds.head_length : (m.history .head).length = pushed + 1 := by
  rw [← Memory.values_length, h.head, List.length_map, List.length_range]

theorem Holds.tail_length : (m.history .tail).length = popped + 1 := by
  rw [← Memory.values_length, h.tail, List.length_map, List.length_range]

theorem Holds.headIndex_le (t : RingThread) (choice : ℕ) : m.index t .head choice ≤ pushed :=
  Nat.lt_succ_iff.mp ((m.index_lt t .head choice).trans_eq h.head_length)

theorem Holds.tailIndex_le (t : RingThread) (choice : ℕ) : m.index t .tail choice ≤ popped :=
  Nat.lt_succ_iff.mp ((m.index_lt t .tail choice).trans_eq h.tail_length)

theorem Holds.loadedHead (t : RingThread) (choice : ℕ) :
    m.loadedHead t choice = m.index t .head choice % n := by
  have hread := m.getElem?_index t .head choice
  rw [h.head, List.getElem?_map, List.getElem?_range (by have := h.headIndex_le t choice; omega)] at hread
  exact (Option.some.inj hread).symm

theorem Holds.loadedTail (t : RingThread) (choice : ℕ) :
    m.loadedTail t choice = m.index t .tail choice % n := by
  have hread := m.getElem?_index t .tail choice
  rw [h.tail, List.getElem?_map, List.getElem?_range (by have := h.tailIndex_le t choice; omega)] at hread
  exact (Option.some.inj hread).symm

theorem Holds.headView_le (t : RingThread) : m.view t .head ≤ pushed :=
  Nat.lt_succ_iff.mp ((m.seen t .head).trans_eq h.head_length)

theorem Holds.tailView_le (t : RingThread) : m.view t .tail ≤ popped :=
  Nat.lt_succ_iff.mp ((m.seen t .tail).trans_eq h.tail_length)

/-- With the index of the consumer, the producer has learned of all reads of the cell it is to write. -/
theorem Holds.mayWrite (hroom : pushed + 1 < m.view .producer .tail + n) (htaken : taken ≤ pushed)
    (hpopped : popped ≤ taken) : m.Current .producer (.mark (pushed % n)) := by
  have hlearned := (h.released (pushed % n)).threads .producer
  have hseen := m.seen .producer (.mark (pushed % n))
  have hlength := h.marks (pushed % n)
  have hlaps := laps_before (n := n) (i := pushed) (by omega) ((h.tailView_le .producer).trans hpopped) htaken
  unfold Memory.Current
  omega

/-- With the index of the producer, the consumer has learned of all writes of the cell it is to read. -/
theorem Holds.mayRead (hheard : popped < m.view .consumer .head) (hpushed : pushed ≤ written.length)
    (hroom : written.length ≤ popped + n) : m.Current .consumer (.slot (popped % n)) := by
  have hlearned := (h.published (popped % n)).threads .consumer
  have hseen := m.seen .consumer (.slot (popped % n))
  have hlength := h.slots (popped % n)
  have hle := h.headView_le .consumer
  have hview := laps_turn (n := n) (i := popped) hheard (by omega)
  have hwritten := laps_turn (n := n) (i := popped) (w := written.length) (by omega) hroom
  unfold Memory.Current
  omega

/-- So it reads the element whose turn it is. -/
theorem Holds.loadedSlot {v : T} (hheard : popped < m.view .consumer .head)
    (hpushed : pushed ≤ written.length) (hroom : written.length ≤ popped + n)
    (hv : written[popped]? = some v) (choice : ℕ) :
    m.loadedSlot .consumer (popped % n) choice = v := by
  have hlast := h.mayRead hheard hpushed hroom
  have hlength : m.view .consumer (.slot (popped % n)) + 1 = (m.history (.slot (popped % n))).length := hlast
  have hturn := laps_turn (n := n) (i := popped) (w := written.length)
    (List.getElem?_eq_some_iff.mp hv).1 hroom
  have hread := m.getElem?_index .consumer (.slot (popped % n)) choice
  have hcell := h.cells popped v hv
  have hindex : laps n (popped % n) popped + 1 = m.index .consumer (.slot (popped % n)) choice := by
    rw [hlast.index]
    have hslots := h.slots (popped % n)
    omega
  rw [hindex, hread] at hcell
  exact Option.some.inj hcell

end Loads

end RingMemory

namespace WeakQueue
variable {n k : ℕ} {q : WeakQueue T E}

/-- What the producer knows at each point of a push. -/
def ProducerOk (n : ℕ) (q : WeakQueue T E) : Prop :=
  match q.producer with
  | .idle => True
  | .loaded h _ => h = q.pushed.length % n
  | .writing h _ => h = q.pushed.length % n ∧ q.pushed.length + 1 < q.memory.view .producer .tail + n
  | .storing h _ => h = q.pushed.length % n ∧ q.pushed.length + 1 < q.memory.view .producer .tail + n

/-- What the consumer knows at each point of a pop. -/
def ConsumerOk (n : ℕ) (q : WeakQueue T E) : Prop :=
  match q.consumer with
  | .idle => True
  | .loaded t => t = q.popped.length % n
  | .reading t => t = q.popped.length % n ∧ q.popped.length < q.memory.view .consumer .head
  | .storing t v => t = q.popped.length % n ∧ q.popped.length < q.memory.view .consumer .head ∧
      q.pushed[q.popped.length]? = some v

/-- The ring, each side with the other's index as far as it has heard. -/
structure Synced (n : ℕ) (q : WeakQueue T E) : Prop where
  shared : RingMemory.Holds n q.pushed.length q.popped.length q.taken q.written q.memory
  order : q.popped <+: q.pushed
  room : q.pushed.length < q.memory.view .producer .tail + n
  heard : q.popped.length ≤ q.memory.view .consumer .head
  producer : q.ProducerOk n
  consumer : q.ConsumerOk n

theorem init_synced (buf : ℕ → T) (data : SharedCell → E) : (init buf data).Synced (2 ^ k) where
  shared := RingMemory.start_holds buf data
  order := List.prefix_refl _
  room := by simp [init]
  heard := Nat.zero_le _
  producer := trivial
  consumer := trivial

section Views
variable {q' : WeakQueue T E}

theorem ProducerOk.grow (h : q.ProducerOk n) (hpc : q'.producer = q.producer) (hpushed : q'.pushed = q.pushed)
    (hview : q.memory.view .producer .tail ≤ q'.memory.view .producer .tail) : q'.ProducerOk n := by
  unfold ProducerOk at h ⊢
  rw [hpc, hpushed]
  cases hp : q.producer with
  | idle => trivial
  | loaded => simpa only [hp] using h
  | writing =>
    simp only [hp] at h
    exact ⟨h.1, by omega⟩
  | storing =>
    simp only [hp] at h
    exact ⟨h.1, by omega⟩

theorem ConsumerOk.grow (h : q.ConsumerOk n) (hpc : q'.consumer = q.consumer) (hpopped : q'.popped = q.popped)
    (hpushed : q.pushed <+: q'.pushed)
    (hview : q.memory.view .consumer .head ≤ q'.memory.view .consumer .head) : q'.ConsumerOk n := by
  unfold ConsumerOk at h ⊢
  rw [hpc, hpopped]
  cases hc : q.consumer with
  | idle => trivial
  | loaded => simpa only [hc] using h
  | reading =>
    simp only [hc] at h
    exact ⟨h.1, by omega⟩
  | storing =>
    simp only [hc] at h
    obtain ⟨rest, hrest⟩ := hpushed
    refine ⟨h.1, by omega, ?_⟩
    rw [← hrest, List.getElem?_append_left (List.getElem?_eq_some_iff.mp h.2.2).1]
    exact h.2.2

theorem length_written (q : WeakQueue T E) :
    q.pushed.length ≤ q.written.length ∧ q.written.length ≤ q.pushed.length + 1 := by
  unfold written
  split
  · simp
  · exact ⟨le_rfl, Nat.le_succ _⟩

theorem getElem?_written {v : T} {i : ℕ} (h : q.pushed[i]? = some v) : q.written[i]? = some v := by
  unfold written
  split
  · rw [List.getElem?_append_left (List.getElem?_eq_some_iff.mp h).1]
    exact h
  · exact h

end Views

section Invariant

theorem Synced.taken_le (h : q.Synced n) : q.popped.length ≤ q.taken ∧ q.taken ≤ q.pushed.length := by
  have hle := h.order.length_le
  have hok := h.consumer
  unfold taken ConsumerOk at *
  cases hc : q.consumer with
  | storing t v =>
    simp only [hc] at hok
    exact ⟨Nat.le_succ _, (List.getElem?_eq_some_iff.mp hok.2.2).1⟩
  | idle => exact ⟨le_rfl, hle⟩
  | loaded t => exact ⟨le_rfl, hle⟩
  | reading t => exact ⟨le_rfl, hle⟩

/-- The other index is at most a turn away. -/
theorem Synced.written_le (h : q.Synced n) : q.written.length ≤ q.popped.length + n := by
  have hroom := h.room
  have hview := h.shared.tailView_le .producer
  have hlength := q.length_written
  omega

theorem pushStep_synced (h : q.Synced (2 ^ k)) (v : T) (choice : ℕ) :
    (q.pushStep (2 ^ k) v choice).Synced (2 ^ k) := by
  have hshared := h.shared
  have hok := h.producer
  cases hpc : q.producer with
  | idle =>
    have hwritten : q.written = q.pushed := by simp [written, hpc]
    rw [hwritten] at hshared
    have hload : (Access.load .relaxed .producer .head choice).apply q.memory = q.memory :=
      hshared.ownHead.load choice
    have hview : q.memory.view .producer .head + 1 = (q.memory.history .head).length := hshared.ownHead
    rw [hshared.head_length] at hview
    simp only [pushStep, hpc, hload]
    refine ⟨hshared, h.order, h.room, h.heard, ?_, h.consumer⟩
    simp only [ProducerOk]
    rw [hshared.loadedHead, hshared.ownHead.index]
    congr 1
    omega
  | loaded hd x =>
    have hwritten : q.written = q.pushed := by simp [written, hpc]
    rw [hwritten] at hshared
    simp only [ProducerOk, hpc] at hok
    have hmono := Access.view_le q.memory (.load .acquire .producer .tail choice)
    have hsilent : RingMemory.Holds (2 ^ k) q.pushed.length q.popped.length q.taken q.pushed
        ((Access.load .acquire .producer .tail choice).apply q.memory) :=
      hshared.silent (fun l hl => by cases hl) fun o t l choice' heq => by cases heq; exact Or.inl rfl
    have hroom := h.room
    have hle := q.memory.view_le_index .producer .tail choice
    have hindex := hshared.tailIndex_le .producer choice
    have hheard : q.popped.length ≤
        ((Access.load .acquire .producer .tail choice).apply q.memory).view .consumer .head :=
      h.heard.trans (hmono _ _)
    have hnext : q.pushed.length <
        ((Access.load .acquire .producer .tail choice).apply q.memory).view .producer .tail + 2 ^ k :=
      hroom.trans_le (Nat.add_le_add_right (hmono _ _) _)
    have hconsumer : ConsumerOk (2 ^ k)
        { q with memory := (Access.load .acquire .producer .tail choice).apply q.memory } :=
      h.consumer.grow rfl rfl (List.prefix_refl _) (hmono _ _)
    simp only [pushStep, hpc]
    by_cases hfull : next (2 ^ k) hd = q.memory.loadedTail .producer choice
    · rw [if_pos hfull]
      exact ⟨hsilent, h.order, hnext, hheard, trivial, hconsumer⟩
    · rw [if_neg hfull]
      refine ⟨hsilent, h.order, hnext, hheard, ⟨hok, ?_⟩, hconsumer⟩
      -- an old copy of the tail only has less room
      simp only [Access.view_acquire]
      by_contra hnone
      apply hfull
      have hturn : q.pushed.length + 1 = q.memory.index .producer .tail choice + 2 ^ k := by
        have hpos := hok
        omega
      rw [hok, next_eq, Nat.mod_add_mod, hturn, Nat.add_mod_right, hshared.loadedTail]
  | writing hd x =>
    have hwritten : q.written = q.pushed := by simp [written, hpc]
    rw [hwritten] at hshared
    simp only [ProducerOk, hpc] at hok
    obtain ⟨rfl, hroom⟩ := hok
    have hmono := Access.view_le q.memory (.store .relaxed .producer (.slot (q.pushed.length % 2 ^ k)) x)
    simp only [pushStep, hpc]
    refine ⟨hshared.write x, h.order, ?_, h.heard.trans (hmono _ _), ⟨rfl, ?_⟩, ?_⟩
    · exact h.room.trans_le (Nat.add_le_add_right (hmono _ _) _)
    · exact hroom.trans_le (Nat.add_le_add_right (hmono _ _) _)
    · exact h.consumer.grow rfl rfl (List.prefix_refl _) (hmono _ _)
  | storing hd x =>
    have hwritten : q.written = q.pushed ++ [x] := by simp [written, hpc]
    rw [hwritten] at hshared
    simp only [ProducerOk, hpc] at hok
    obtain ⟨rfl, hroom⟩ := hok
    have hmono := Access.view_le q.memory
      (.store .release .producer .head (next (2 ^ k) (q.pushed.length % 2 ^ k)))
    have hpublish := hshared.publish (by rw [List.length_append, List.length_singleton])
    rw [← Nat.mod_add_mod, ← next_eq] at hpublish
    simp only [pushStep, hpc]
    refine ⟨?_, h.order.trans (List.prefix_append _ _), ?_, h.heard.trans (hmono _ _), trivial, ?_⟩
    · simp only [List.length_append, List.length_singleton]
      exact hpublish
    · simp only [List.length_append, List.length_singleton]
      exact hroom.trans_le (Nat.add_le_add_right (hmono _ _) _)
    · exact h.consumer.grow rfl rfl (List.prefix_append _ _) (hmono _ _)

theorem popStep_synced (h : q.Synced (2 ^ k)) (choice : ℕ) :
    (q.popStep (2 ^ k) choice).Synced (2 ^ k) := by
  have hshared := h.shared
  have hok := h.consumer
  obtain ⟨htaken, htaken'⟩ := h.taken_le
  cases hpc : q.consumer with
  | idle =>
    have hnone : q.taken = q.popped.length := by simp [taken, hpc]
    rw [hnone] at hshared
    have hload : (Access.load .relaxed .consumer .tail choice).apply q.memory = q.memory :=
      hshared.ownTail.load choice
    have hview : q.memory.view .consumer .tail + 1 = (q.memory.history .tail).length := hshared.ownTail
    rw [hshared.tail_length] at hview
    simp only [popStep, hpc, hload]
    refine ⟨hshared, h.order, h.room, h.heard, h.producer, ?_⟩
    simp only [ConsumerOk]
    rw [hshared.loadedTail, hshared.ownTail.index]
    congr 1
    omega
  | loaded t =>
    have hnone : q.taken = q.popped.length := by simp [taken, hpc]
    rw [hnone] at hshared
    simp only [ConsumerOk, hpc] at hok
    have hmono := Access.view_le q.memory (.load .acquire .consumer .head choice)
    have hsilent : RingMemory.Holds (2 ^ k) q.pushed.length q.popped.length q.popped.length q.written
        ((Access.load .acquire .consumer .head choice).apply q.memory) :=
      hshared.silent (fun l hl => by cases hl) fun o t l choice' heq => by cases heq; exact Or.inl rfl
    have hle := q.memory.view_le_index .consumer .head choice
    have hheard := h.heard
    have hnext : q.pushed.length <
        ((Access.load .acquire .consumer .head choice).apply q.memory).view .producer .tail + 2 ^ k :=
      h.room.trans_le (Nat.add_le_add_right (hmono _ _) _)
    have hproducer : ProducerOk (2 ^ k)
        { q with memory := (Access.load .acquire .consumer .head choice).apply q.memory } :=
      h.producer.grow rfl rfl (hmono _ _)
    simp only [popStep, hpc]
    by_cases hempty : t = q.memory.loadedHead .consumer choice
    · rw [if_pos hempty]
      exact ⟨hsilent, h.order, hnext, hheard.trans (hmono _ _), hproducer, trivial⟩
    · rw [if_neg hempty]
      refine ⟨hsilent, h.order, hnext, hheard.trans (hmono _ _), hproducer, hok, ?_⟩
      -- an old copy of the head only has fewer elements
      simp only [Access.view_acquire]
      by_contra hless
      apply hempty
      have hsame : q.memory.index .consumer .head choice = q.popped.length := by omega
      rw [hok, hshared.loadedHead, hsame]
  | reading t =>
    have hnone : q.taken = q.popped.length := by simp [taken, hpc]
    rw [hnone] at hshared
    simp only [ConsumerOk, hpc] at hok
    obtain ⟨rfl, hheard⟩ := hok
    have hpushed := q.length_written.1
    have hlt : q.popped.length < q.pushed.length := hheard.trans_le (hshared.headView_le _)
    have hget : q.pushed[q.popped.length]? = some q.pushed[q.popped.length] := List.getElem?_eq_getElem hlt
    have hvalue := hshared.loadedSlot hheard hpushed h.written_le (getElem?_written hget) choice
    have hload : (Access.load .relaxed .consumer (.slot (q.popped.length % 2 ^ k)) choice).apply q.memory =
        q.memory := (hshared.mayRead hheard hpushed h.written_le).load choice
    have hmono := Access.view_le q.memory (.store .relaxed .consumer (.mark (q.popped.length % 2 ^ k)) ())
    simp only [popStep, hpc, hload, hvalue]
    refine ⟨hshared.mark, h.order, ?_, h.heard.trans (hmono _ _), ?_, rfl, ?_, hget⟩
    · exact h.room.trans_le (Nat.add_le_add_right (hmono _ _) _)
    · exact h.producer.grow rfl rfl (hmono _ _)
    · exact hheard.trans_le (hmono _ _)
  | storing t x =>
    have hone : q.taken = q.popped.length + 1 := by simp [taken, hpc]
    rw [hone] at hshared
    simp only [ConsumerOk, hpc] at hok
    obtain ⟨rfl, hheard, hget⟩ := hok
    have hmono := Access.view_le q.memory
      (.store .release .consumer .tail (next (2 ^ k) (q.popped.length % 2 ^ k)))
    have hrelease := hshared.release rfl
    rw [← Nat.mod_add_mod, ← next_eq] at hrelease
    simp only [popStep, hpc]
    refine ⟨?_, prefix_snoc h.order hget, ?_, ?_, ?_, trivial⟩
    · simp only [taken, List.length_append, List.length_singleton]
      exact hrelease
    · exact h.room.trans_le (Nat.add_le_add_right (hmono _ _) _)
    · simp only [List.length_append, List.length_singleton]
      exact hheard.trans_le (hmono _ _)
    · exact h.producer.grow rfl rfl (hmono _ _)

/-- What is no access to the ring only adds to the views. -/
theorem other_synced (h : q.Synced n) {a : Access RingThread (RingCell.Value T E)}
    (htarget : ∀ l, a.target = some l → ∃ c, l = .shared c)
    (hload : ∀ o t l choice, a = .load o t l choice → o = .acquire ∨ ∃ c, l = .shared c) :
    ({ q with memory := a.apply q.memory } : WeakQueue T E).Synced n := by
  have hmono := Access.view_le q.memory a
  refine ⟨?_, h.order, h.room.trans_le (Nat.add_le_add_right (hmono _ _) _), h.heard.trans (hmono _ _),
    h.producer.grow rfl rfl (hmono _ _), h.consumer.grow rfl rfl (List.prefix_refl _) (hmono _ _)⟩
  exact h.shared.silent htarget hload

theorem step_synced (h : q.Synced (2 ^ k)) (a : WeakAction T E) : (step (2 ^ k) a q).Synced (2 ^ k) := by
  cases a with
  | push v choice => exact pushStep_synced h v choice
  | pop choice => exact popStep_synced h choice
  | store o t l v =>
    exact other_synced h (fun l' hl' => ⟨(t, l), (Option.some.inj hl').symm⟩) fun o' t' l' choice heq => by
      cases heq
  | load o t l choice =>
    refine other_synced h (fun l' hl' => by cases hl') fun o' t' l' choice' heq => ?_
    cases heq
    exact Or.inr ⟨l, rfl⟩
  | handOff t t' =>
    exact other_synced h (fun l hl => by cases hl) fun o t l choice heq => by cases heq

theorem run_synced (buf : ℕ → T) (data : SharedCell → E) (acts : List (WeakAction T E)) :
    (run (step (2 ^ k)) (init buf data) acts).Synced (2 ^ k) := by
  have hall : Along (step (2 ^ k)) (fun _ _ => True) (init buf data) acts := along_true
  exact hall.invariant (Synced (2 ^ k)) (fun a q h _ => step_synced h a) (init_synced buf data)

end Invariant

section HandedOver

/-- What the first pushes have handed over of the shared data at `l`. -/
def handedOver (sent : List (SharedCell → ℕ)) (l : SharedCell) : ℕ → ℕ
  | 0 => 0
  | k + 1 => max (handedOver sent l k) (sent[k]?.elim 0 (· l))

theorem handedOver_mono (sent : List (SharedCell → ℕ)) (l : SharedCell) : Monotone (handedOver sent l) :=
  monotone_nat_of_le_succ fun _ => le_max_left _ _

theorem handedOver_zero (sent : List (SharedCell → ℕ)) (l : SharedCell) : handedOver sent l 0 = 0 := rfl

theorem le_handedOver {sent : List (SharedCell → ℕ)} {seen : SharedCell → ℕ} {i j : ℕ}
    (hseen : sent[i]? = some seen) (hlt : i < j) (l : SharedCell) : seen l ≤ handedOver sent l j := by
  refine le_trans ?_ (handedOver_mono sent l (Nat.succ_le_of_lt hlt))
  simp [handedOver, hseen]

theorem handedOver_append (sent : List (SharedCell → ℕ)) (seen : SharedCell → ℕ) (l : SharedCell) {j : ℕ}
    (hle : j ≤ sent.length) : handedOver (sent ++ [seen]) l j = handedOver sent l j := by
  induction j with
  | zero => rfl
  | succ j ih =>
    rw [handedOver, handedOver, ih (by omega), List.getElem?_append_left (by omega)]

theorem handedOver_last (sent : List (SharedCell → ℕ)) (seen : SharedCell → ℕ) (l : SharedCell) :
    handedOver (sent ++ [seen]) l (sent.length + 1) = max (handedOver sent l sent.length) (seen l) := by
  rw [handedOver, handedOver_append sent seen l le_rfl, List.getElem?_concat_length]
  rfl

/-- Whoever knows of a push knows what its producer knew. -/
structure Shared (q : WeakQueue T E) : Prop where
  sent : q.sent.length = q.pushed.length
  handed : ∀ l, q.memory.Linked (handedOver q.sent l) .head (.shared l)

theorem init_shared (buf : ℕ → T) (data : SharedCell → E) : (init buf data).Shared where
  sent := rfl
  handed l := Memory.linked_init _ (handedOver_zero [] l)

/-- Only a store of `head_` hands anything over. -/
theorem Shared.apply {q' : WeakQueue T E} (h : q.Shared) (a : Access RingThread (RingCell.Value T E))
    (hsent : q'.sent = q.sent) (hpushed : q'.pushed = q.pushed) (hmemory : q'.memory = a.apply q.memory)
    (hstore : a.target ≠ some .head)
    (hload : ∀ o t choice, a = .load o t .head choice → o = .acquire ∨ q.memory.Current t .head) :
    q'.Shared := by
  refine ⟨by rw [hsent, hpushed, h.sent], fun l => ?_⟩
  rw [hsent, hmemory]
  refine (h.handed l).apply (handedOver_mono _ l) (handedOver_zero _ l) (by simp) (fun o t v heq => ?_) hload
  subst heq
  exact absurd rfl hstore

theorem pushStep_shared (h : q.Synced (2 ^ k)) (hs : q.Shared) (v : T) (choice : ℕ) :
    (q.pushStep (2 ^ k) v choice).Shared := by
  cases hpc : q.producer with
  | idle =>
    simp only [pushStep, hpc]
    refine hs.apply (.load .relaxed .producer .head choice) rfl rfl rfl (fun heq => by cases heq)
      fun o t choice' heq => ?_
    cases heq
    exact Or.inr h.shared.ownHead
  | loaded hd x =>
    simp only [pushStep, hpc]
    exact hs.apply (.load .acquire .producer .tail choice) rfl rfl rfl (fun heq => by cases heq)
      fun o t choice' heq => by cases heq
  | writing hd x =>
    simp only [pushStep, hpc]
    exact hs.apply (.store .relaxed .producer (.slot hd) x) rfl rfl rfl (fun heq => by cases heq)
      fun o t choice' heq => by cases heq
  | storing hd x =>
    simp only [pushStep, hpc]
    refine ⟨by simp [hs.sent], fun l => ?_⟩
    have hlength : (q.memory.history .head).length = q.sent.length + 1 := by
      rw [h.shared.head_length, hs.sent]
    have hown : q.memory.view .producer .head + 1 = (q.memory.history .head).length := h.shared.ownHead
    have hview : q.memory.view .producer .head = q.sent.length := by omega
    have hlink : q.memory.Linked (handedOver (q.sent ++ [fun l => q.memory.view .producer (.shared l)]) l)
        .head (.shared l) := (hs.handed l).congr fun j hj => handedOver_append _ _ l (by omega)
    refine hlink.apply (a := .store .release .producer .head (next (2 ^ k) hd)) (handedOver_mono _ l)
      (handedOver_zero _ l) (by simp) (fun o t x heq => ?_) fun o t choice' heq => by cases heq
    cases heq
    refine ⟨rfl, ?_⟩
    rw [hlength, handedOver_last]
    have hthread := (hs.handed l).threads .producer
    rw [hview] at hthread
    exact max_le hthread le_rfl

theorem popStep_shared (hs : q.Shared) (choice : ℕ) : (q.popStep n choice).Shared := by
  cases hpc : q.consumer with
  | idle =>
    simp only [popStep, hpc]
    exact hs.apply (.load .relaxed .consumer .tail choice) rfl rfl rfl (fun heq => by cases heq)
      fun o t choice' heq => by cases heq
  | loaded tl =>
    simp only [popStep, hpc]
    refine hs.apply (.load .acquire .consumer .head choice) rfl rfl rfl (fun heq => by cases heq)
      fun o t choice' heq => ?_
    cases heq
    exact Or.inl rfl
  | reading tl =>
    simp only [popStep, hpc]
    have hload : Shared { q with
        memory := (Access.load .relaxed .consumer (.slot tl) choice).apply q.memory } :=
      hs.apply (.load .relaxed .consumer (.slot tl) choice) rfl rfl rfl (fun heq => by cases heq)
        fun o t choice' heq => by cases heq
    exact hload.apply (.store .relaxed .consumer (.mark tl) ()) rfl rfl rfl (fun heq => by cases heq)
      fun o t choice' heq => by cases heq
  | storing tl x =>
    simp only [popStep, hpc]
    exact hs.apply (.store .release .consumer .tail (next n tl)) rfl rfl rfl (fun heq => by cases heq)
      fun o t choice' heq => by cases heq

theorem step_shared (h : q.Synced (2 ^ k)) (hs : q.Shared) (a : WeakAction T E) :
    (step (2 ^ k) a q).Shared := by
  cases a with
  | push v choice => exact pushStep_shared h hs v choice
  | pop choice => exact popStep_shared hs choice
  | store o t l v =>
    exact hs.apply (.store o t (.shared (t, l)) v) rfl rfl rfl (fun heq => by cases heq)
      fun o t choice heq => by cases heq
  | load o t l choice =>
    exact hs.apply (.load o t (.shared l) choice) rfl rfl rfl (fun heq => by cases heq)
      fun o t choice heq => by cases heq
  | handOff t t' =>
    exact hs.apply (.handOff t t') rfl rfl rfl (fun heq => by cases heq)
      fun o t choice heq => by cases heq

theorem run_shared (buf : ℕ → T) (data : SharedCell → E) (acts : List (WeakAction T E)) :
    (run (step (2 ^ k)) (init buf data) acts).Shared := by
  have hall : Along (step (2 ^ k)) (fun _ _ => True) (init buf data) acts := along_true
  exact (hall.invariant (fun q => q.Synced (2 ^ k) ∧ q.Shared)
    (fun a q h _ => ⟨step_synced h.1 a, step_shared h.1 h.2 a⟩)
    ⟨init_synced buf data, init_shared buf data⟩).2

/-- With an element the consumer learns all that its producer knew. -/
theorem Synced.learned (h : q.Synced n) (hs : q.Shared) {i : ℕ} {seen : SharedCell → ℕ}
    (hseen : q.sent[i]? = some seen) (hi : i < q.popped.length) (l : SharedCell) :
    seen l ≤ q.memory.view .consumer (.shared l) :=
  calc seen l ≤ handedOver q.sent l (q.memory.view .consumer .head) :=
        le_handedOver hseen (hi.trans_le h.heard) l
    _ ≤ q.memory.view .consumer (.shared l) := (hs.handed l).threads .consumer

end HandedOver

section Guarantees

/-- The next step of the producer loads `tail_` and makes `push` return false. -/
def PushFails (n choice : ℕ) (q : WeakQueue T E) : Prop :=
  ∃ h v, q.producer = .loaded h v ∧ next n h = q.memory.loadedTail .producer choice

/-- The next step of the consumer loads `head_` and makes `pop` return false. -/
def PopFails (choice : ℕ) (q : WeakQueue T E) : Prop :=
  ∃ t, q.consumer = .loaded t ∧ t = q.memory.loadedHead .consumer choice

/-- The next access to a cell, if it is one, comes after every access it might conflict with. -/
structure RaceFree (q : WeakQueue T E) : Prop where
  write : ∀ h v, q.producer = .writing h v →
    q.memory.Current .producer (.slot h) ∧ q.memory.Current .producer (.mark h)
  read : ∀ t, q.consumer = .reading t → q.memory.Current .consumer (.slot t)

theorem Synced.raceFree (h : q.Synced n) : q.RaceFree where
  write hd v hpc := by
    have hok := h.producer
    simp only [ProducerOk, hpc] at hok
    obtain ⟨rfl, hroom⟩ := hok
    exact ⟨h.shared.writes _, h.shared.mayWrite hroom h.taken_le.2 h.taken_le.1⟩
  read t hpc := by
    have hok := h.consumer
    simp only [ConsumerOk, hpc] at hok
    obtain ⟨rfl, hheard⟩ := hok
    exact h.shared.mayRead hheard q.length_written.1 h.written_le

/-- A push fails only where the producer has not heard of a free cell, and the load brings no news. -/
theorem Synced.full_of_pushFails (h : q.Synced (2 ^ k)) {choice : ℕ} (hfail : q.PushFails (2 ^ k) choice) :
    q.memory.index .producer .tail choice = q.memory.view .producer .tail ∧
      q.memory.view .producer .tail + (2 ^ k - 1) = q.pushed.length := by
  obtain ⟨hd, v, hpc, hnext⟩ := hfail
  have hok := h.producer
  simp only [ProducerOk, hpc] at hok
  rw [hok, h.shared.loadedTail, next_eq, Nat.mod_add_mod] at hnext
  have hroom := h.room
  have hle := q.memory.view_le_index .producer .tail choice
  have hindex := h.shared.tailIndex_le .producer choice
  have horder := h.order.length_le
  have hturn : q.memory.index .producer .tail choice + 2 ^ k = q.pushed.length + 1 := by
    by_contra hne
    have hcell := cell_inj (n := 2 ^ k) (a := q.memory.index .producer .tail choice)
      (b := q.pushed.length + 1) (by omega) (by omega) hnext.symm
    omega
  constructor <;> omega

/-- A pop fails only where the consumer has not heard of an element, and the load brings no news. -/
theorem Synced.empty_of_popFails (h : q.Synced n) {choice : ℕ} (hfail : q.PopFails choice) :
    q.memory.index .consumer .head choice = q.memory.view .consumer .head ∧
      q.memory.view .consumer .head = q.popped.length := by
  obtain ⟨t, hpc, hempty⟩ := hfail
  have hok := h.consumer
  simp only [ConsumerOk, hpc] at hok
  rw [hok, h.shared.loadedHead] at hempty
  have hheard := h.heard
  have hle := q.memory.view_le_index .consumer .head choice
  have hindex := h.shared.headIndex_le .consumer choice
  have hroom := h.room
  have hview := h.shared.tailView_le .producer
  have hcell := cell_inj (by omega) (by omega) hempty
  omega

theorem Synced.content_le (h : q.Synced n) : q.content.length ≤ n - 1 := by
  have hroom := h.room
  have hview := h.shared.tailView_le .producer
  simp only [content, List.length_drop]
  omega

theorem step_refines_fifo (h : q.Synced (2 ^ k)) (a : WeakAction T E) :
    FifoStep (2 ^ k) q.content (step (2 ^ k) a q).content := by
  cases a with
  | store o t l v => exact .stutter _
  | load o t l choice => exact .stutter _
  | handOff t t' => exact .stutter _
  | push v choice =>
    cases hpc : q.producer with
    | idle =>
      simp only [step, pushStep, hpc]
      exact .stutter _
    | loaded hd x =>
      simp only [step, pushStep, hpc]
      exact .stutter _
    | writing hd x =>
      simp only [step, pushStep, hpc]
      exact .stutter _
    | storing hd x =>
      have hok := h.producer
      simp only [ProducerOk, hpc] at hok
      have hview := h.shared.tailView_le .producer
      have horder := h.order.length_le
      have hroom : q.content.length + 1 < 2 ^ k := by
        simp only [content, List.length_drop]
        omega
      have hpush : (step (2 ^ k) (.push v choice) q).content = spscPush (2 ^ k) x q.content := by
        rw [spscPush, if_pos hroom]
        simp only [step, pushStep, hpc, content]
        exact List.drop_append_of_le_length h.order.length_le
      rw [hpush]
      exact .enqueue _ _ hroom
  | pop choice =>
    cases hpc : q.consumer with
    | idle =>
      simp only [step, popStep, hpc]
      exact .stutter _
    | loaded t =>
      simp only [step, popStep, hpc]
      exact .stutter _
    | reading t =>
      simp only [step, popStep, hpc]
      exact .stutter _
    | storing t x =>
      have hok := h.consumer
      simp only [ConsumerOk, hpc] at hok
      obtain ⟨hlt, hget⟩ := List.getElem?_eq_some_iff.mp hok.2.2
      have hold : q.content = x :: q.pushed.drop (q.popped.length + 1) := by
        rw [content, List.drop_eq_getElem_cons hlt, hget]
      have hnew : (step (2 ^ k) (.pop choice) q).content = q.pushed.drop (q.popped.length + 1) := by
        simp only [step, popStep, hpc, content, List.length_append, List.length_singleton]
      rw [hold, hnew]
      exact .dequeue _ _

/-- Release stores and acquire loads of the indices are enough: whatever the loads return and however
the threads interleave, no access to a cell races with another one, the pops return the pushed values
in order and with each all that its producer knew, a call fails only on what its side knows to be a
full or an empty ring, and every step is a step of the bounded queue. -/
theorem run_raceFree (buf : ℕ → T) (data : SharedCell → E) (acts : List (WeakAction T E)) :
    let q := run (step (2 ^ k)) (init buf data) acts
    q.RaceFree ∧ q.popped <+: q.pushed ∧ q.content.length ≤ 2 ^ k - 1 ∧
    (q.sent.length = q.pushed.length ∧ ∀ i seen, q.sent[i]? = some seen → i < q.popped.length →
      ∀ l, seen l ≤ q.memory.view .consumer (.shared l)) ∧
    (∀ choice, q.PushFails (2 ^ k) choice →
      q.memory.index .producer .tail choice = q.memory.view .producer .tail ∧
      q.memory.view .producer .tail + (2 ^ k - 1) = q.pushed.length) ∧
    (∀ choice, q.PopFails choice →
      q.memory.index .consumer .head choice = q.memory.view .consumer .head ∧
      q.memory.view .consumer .head = q.popped.length) ∧
    ∀ a, FifoStep (2 ^ k) q.content (step (2 ^ k) a q).content := by
  intro q
  have h : q.Synced (2 ^ k) := run_synced buf data acts
  have hs : q.Shared := run_shared buf data acts
  exact ⟨h.raceFree, h.order, h.content_le, ⟨hs.sent, fun _ _ hseen hi => h.learned hs hseen hi⟩,
    fun _ => h.full_of_pushFails, fun _ => h.empty_of_popFails, step_refines_fifo h⟩

end Guarantees

end WeakQueue

end OmsFormal.Oms
