import OmsFormal.ExecutionCore
import OmsFormal.GuardedRun

/-!
# The single-producer single-consumer ring

Every load, buffer access and store of `push` and `pop` is one step, and the two
sides interleave freely. Each side works on a copy of the other's index that may
be out of date. The invariant counts the finished calls of both sides: the
indices are these counts modulo the ring size, and a stale copy errs on the safe
side, since the other side can only have made more room or more elements.
-/

namespace OmsFormal.Oms
open GuardedRun
set_option autoImplicit false

variable {T : Type}

/-- Where a `push` stands: `h` is its copy of `head_`. -/
inductive Producer (T : Type) where
  | idle
  | loaded (h : ℕ) (v : T)
  | writing (h : ℕ) (v : T)
  | storing (h : ℕ) (v : T)

/-- Where a `pop` stands: `t` is its copy of `tail_`. -/
inductive Consumer (T : Type) where
  | idle
  | loaded (t : ℕ)
  | reading (t : ℕ)
  | storing (t : ℕ) (v : T)

/-- The shared ring, the two program counters, and the values of the calls that succeeded. -/
structure SpscQueue (T : Type) where
  buf : ℕ → T
  head : ℕ
  tail : ℕ
  producer : Producer T
  consumer : Consumer T
  pushed : List T
  popped : List T

/-- Who moves next; an idle producer starts to push `v`. -/
inductive SpscAction (T : Type) where
  | push (v : T)
  | pop

namespace SpscQueue

def init (buf : ℕ → T) : SpscQueue T := ⟨buf, 0, 0, .idle, .idle, [], []⟩

section Steps
variable (n : ℕ)

/-- The index after `i`; `n - 1` is the source's `kMask`. -/
def next (i : ℕ) : ℕ := (i + 1) &&& (n - 1)

def pushStep (v : T) (q : SpscQueue T) : SpscQueue T :=
  match q.producer with
  | .idle => { q with producer := .loaded q.head v }
  | .loaded h v => { q with producer := if next n h = q.tail then .idle else .writing h v }
  | .writing h v => { q with buf := Function.update q.buf h v, producer := .storing h v }
  | .storing h v => { q with head := next n h, producer := .idle, pushed := q.pushed ++ [v] }

def popStep (q : SpscQueue T) : SpscQueue T :=
  match q.consumer with
  | .idle => { q with consumer := .loaded q.tail }
  | .loaded t => { q with consumer := if t = q.head then .idle else .reading t }
  | .reading t => { q with consumer := .storing t (q.buf t) }
  | .storing t v => { q with tail := next n t, consumer := .idle, popped := q.popped ++ [v] }

def step (a : SpscAction T) (q : SpscQueue T) : SpscQueue T :=
  match a with
  | .push v => q.pushStep n v
  | .pop => q.popStep n

end Steps

/-- The elements stored, oldest first. -/
def content (q : SpscQueue T) : List T := q.pushed.drop q.popped.length

/-- The next step of the producer reads `tail_` and makes `push` return false. -/
def PushFails (n : ℕ) (q : SpscQueue T) : Prop := ∃ h v, q.producer = .loaded h v ∧ next n h = q.tail

/-- The next step of the consumer reads `head_` and makes `pop` return false. -/
def PopFails (q : SpscQueue T) : Prop := ∃ t, q.consumer = .loaded t ∧ t = q.head

/-- The next step of the producer writes to cell `c`. -/
def Writes (q : SpscQueue T) (c : ℕ) : Prop := ∃ v, q.producer = .writing c v

/-- A pop has read `head_`, has not stored `tail_` yet, and `c` is its cell. -/
def Reads (q : SpscQueue T) (c : ℕ) : Prop := q.consumer = .reading c ∨ ∃ v, q.consumer = .storing c v

/-- The element that the next finished pop takes, and room for one more element. -/
def Nonempty (q : SpscQueue T) : Prop := q.popped.length < q.pushed.length
def Room (n : ℕ) (q : SpscQueue T) : Prop := q.pushed.length + 1 < q.popped.length + n

/-- What the producer knows at each point of a push. -/
def ProducerOk (n : ℕ) (q : SpscQueue T) : Prop :=
  match q.producer with
  | .idle => True
  | .loaded h _ => h = q.head
  | .writing h _ => h = q.head ∧ q.Room n
  | .storing h v => h = q.head ∧ q.Room n ∧ q.buf h = v

/-- What the consumer knows at each point of a pop. -/
def ConsumerOk (q : SpscQueue T) : Prop :=
  match q.consumer with
  | .idle => True
  | .loaded t => t = q.tail
  | .reading t => t = q.tail ∧ q.Nonempty
  | .storing t v => t = q.tail ∧ q.pushed[q.popped.length]? = some v

/-- The ring as a window of the pushed values. -/
structure Ring (n : ℕ) (q : SpscQueue T) : Prop where
  head : q.head = q.pushed.length % n
  tail : q.tail = q.popped.length % n
  order : q.popped <+: q.pushed
  bound : q.pushed.length < q.popped.length + n
  cells : ∀ i v, q.popped.length ≤ i → q.pushed[i]? = some v → q.buf (i % n) = v
  producer : q.ProducerOk n
  consumer : q.ConsumerOk

variable {n : ℕ} {q : SpscQueue T}

theorem next_eq {k : ℕ} (i : ℕ) : next (2 ^ k) i = (i + 1) % 2 ^ k := Nat.and_two_pow_sub_one_eq_mod _ _

/-- Two counts less than a turn apart share a cell only if they are equal. -/
theorem cell_inj {a b : ℕ} (hle : a ≤ b) (hlt : b < a + n) (h : a % n = b % n) : a = b := by
  have hdvd : n ∣ b - a := Nat.dvd_of_mod_eq_zero (Nat.sub_mod_eq_zero_of_mod_eq h.symm)
  have hzero := Nat.eq_zero_of_dvd_of_lt hdvd (by omega)
  omega

theorem Ring.init {k : ℕ} (buf : ℕ → T) : Ring (2 ^ k) (SpscQueue.init buf) := by
  refine ⟨(Nat.zero_mod _).symm, (Nat.zero_mod _).symm, List.nil_prefix, ?_, ?_, trivial, trivial⟩
  · simp [SpscQueue.init]
  · intro i v _ h
    simp [SpscQueue.init] at h

theorem Ring.le (h : Ring n q) : q.popped.length ≤ q.pushed.length := h.order.length_le

section Facts

theorem Ring.full_of_pushFails {k : ℕ} (h : Ring (2 ^ k) q) (hfail : q.PushFails (2 ^ k)) :
    q.content.length = 2 ^ k - 1 := by
  obtain ⟨hd, v, hpc, hnext⟩ := hfail
  have hok := h.producer
  simp only [ProducerOk, hpc] at hok
  have hle := h.le
  have hbound := h.bound
  rw [hok, next_eq, h.head, h.tail, Nat.mod_add_mod] at hnext
  have hturn : q.popped.length + 2 ^ k = q.pushed.length + 1 := by
    by_contra hne
    have heq := cell_inj (n := 2 ^ k) (a := q.popped.length) (b := q.pushed.length + 1)
      (by omega) (by omega) hnext.symm
    omega
  simp only [content, List.length_drop]
  omega

theorem Ring.empty_of_popFails (h : Ring n q) (hfail : q.PopFails) : q.content = [] := by
  obtain ⟨t, hpc, heq⟩ := hfail
  have hok := h.consumer
  simp only [ConsumerOk, hpc] at hok
  rw [hok, h.head, h.tail] at heq
  have hlen := cell_inj h.le h.bound heq
  rw [content, hlen, List.drop_length]

/-- The cell a push writes is never the one a pop is reading. -/
theorem Ring.write_ne_read (h : Ring n q) {c c' : ℕ} (hw : q.Writes c) (hr : q.Reads c') : c ≠ c' := by
  obtain ⟨v, hpc⟩ := hw
  have hprod := h.producer
  simp only [ProducerOk, hpc] at hprod
  obtain ⟨rfl, hroom⟩ := hprod
  have hcons := h.consumer
  have htail : c' = q.tail ∧ q.Nonempty := by
    rcases hr with hread | ⟨v', hstore⟩
    · simpa only [ConsumerOk, hread] using hcons
    · simp only [ConsumerOk, hstore] at hcons
      exact ⟨hcons.1, (List.getElem?_eq_some_iff.mp hcons.2).1⟩
  obtain ⟨rfl, hne⟩ := htail
  rw [h.head, h.tail]
  intro heq
  have hlen := cell_inj h.le h.bound heq.symm
  simp only [Nonempty, hlen] at hne
  omega

end Facts

section Invariant
variable {k : ℕ}

theorem pushStep_ring (h : Ring (2 ^ k) q) (v : T) : Ring (2 ^ k) (q.pushStep (2 ^ k) v) := by
  obtain ⟨hhead, htail, horder, hbound, hcells, hprod, hcons⟩ := h
  have hle := horder.length_le
  cases hpc : q.producer with
  | idle =>
    simp only [pushStep, hpc]
    exact ⟨hhead, htail, horder, hbound, hcells, rfl, hcons⟩
  | loaded hd x =>
    simp only [ProducerOk, hpc] at hprod
    simp only [pushStep, hpc]
    by_cases hfull : next (2 ^ k) hd = q.tail
    · rw [if_pos hfull]
      exact ⟨hhead, htail, horder, hbound, hcells, trivial, hcons⟩
    · rw [if_neg hfull]
      refine ⟨hhead, htail, horder, hbound, hcells, ⟨hprod, ?_⟩, hcons⟩
      -- the read of tail_ may be stale by the time of the write, but pops only make room
      by_contra hroom
      simp only [Room] at hroom
      apply hfull
      have hlen : q.pushed.length + 1 = q.popped.length + 2 ^ k := by omega
      rw [hprod, next_eq, hhead, htail, Nat.mod_add_mod, hlen, Nat.add_mod_right]
  | writing hd x =>
    simp only [ProducerOk, hpc] at hprod
    obtain ⟨rfl, hroom⟩ := hprod
    simp only [pushStep, hpc]
    refine ⟨hhead, htail, horder, hbound, ?_, ⟨rfl, hroom, Function.update_self _ _ _⟩, ?_⟩
    · intro i y hi hy
      change q.popped.length ≤ i at hi
      have hlt : i < q.pushed.length := (List.getElem?_eq_some_iff.mp hy).1
      have hne : i % 2 ^ k ≠ q.head := by
        rw [hhead]
        intro heq
        have := cell_inj hlt.le (by omega) heq
        omega
      simp only
      rw [Function.update_of_ne hne]
      exact hcells i y hi hy
    · exact hcons
  | storing hd x =>
    simp only [ProducerOk, hpc] at hprod
    obtain ⟨rfl, hroom, hbuf⟩ := hprod
    simp only [pushStep, hpc]
    simp only [Room] at hroom
    refine ⟨?_, htail, horder.trans (List.prefix_append _ _), ?_, ?_, trivial, ?_⟩
    · simp only [List.length_append, List.length_singleton]
      rw [next_eq, hhead, Nat.mod_add_mod]
    · simp only [List.length_append, List.length_singleton]
      omega
    · intro i y hi hy
      rcases Nat.lt_or_ge i q.pushed.length with hlt | hge
      · exact hcells i y hi (by rwa [List.getElem?_append_left hlt] at hy)
      · have hi' : i = q.pushed.length := by
          have := (List.getElem?_eq_some_iff.mp hy).1
          simp only [List.length_append, List.length_singleton] at this
          omega
        subst hi'
        have hxy : x = y := by simpa using hy
        rw [← hhead, ← hxy]
        exact hbuf
    · cases hc : q.consumer with
      | idle => exact trivial
      | loaded t => simpa only [ConsumerOk, hc] using hcons
      | reading t =>
        simp only [ConsumerOk, Nonempty, hc, List.length_append] at hcons ⊢
        exact ⟨hcons.1, by omega⟩
      | storing t y =>
        simp only [ConsumerOk, hc] at hcons ⊢
        rw [List.getElem?_append_left (List.getElem?_eq_some_iff.mp hcons.2).1]
        exact hcons

theorem prefix_snoc {a b : List T} {v : T} (h : a <+: b) (hv : b[a.length]? = some v) : a ++ [v] <+: b := by
  obtain ⟨c, rfl⟩ := h
  cases c with
  | nil => simp at hv
  | cons x c =>
    have hx : x = v := by simpa using hv
    rw [hx]
    exact ⟨c, by simp⟩

theorem popStep_ring (h : Ring (2 ^ k) q) : Ring (2 ^ k) (q.popStep (2 ^ k)) := by
  obtain ⟨hhead, htail, horder, hbound, hcells, hprod, hcons⟩ := h
  have hle := horder.length_le
  cases hpc : q.consumer with
  | idle =>
    simp only [popStep, hpc]
    exact ⟨hhead, htail, horder, hbound, hcells, hprod, rfl⟩
  | loaded t =>
    simp only [ConsumerOk, hpc] at hcons
    simp only [popStep, hpc]
    by_cases hempty : t = q.head
    · rw [if_pos hempty]
      exact ⟨hhead, htail, horder, hbound, hcells, hprod, trivial⟩
    · rw [if_neg hempty]
      refine ⟨hhead, htail, horder, hbound, hcells, hprod, hcons, ?_⟩
      -- pushes after the read of head_ only add elements
      by_contra hnone
      simp only [Nonempty] at hnone
      have hlen : q.popped.length = q.pushed.length := by omega
      exact hempty (by rw [hcons, hhead, htail, hlen])
  | reading t =>
    simp only [ConsumerOk, hpc] at hcons
    obtain ⟨rfl, hne⟩ := hcons
    have hget : q.pushed[q.popped.length]? = some q.pushed[q.popped.length] := List.getElem?_eq_getElem hne
    simp only [popStep, hpc]
    refine ⟨hhead, htail, horder, hbound, hcells, hprod, rfl, ?_⟩
    rw [htail, hcells _ _ le_rfl hget]
    exact hget
  | storing t x =>
    simp only [ConsumerOk, hpc] at hcons
    obtain ⟨rfl, hget⟩ := hcons
    simp only [popStep, hpc]
    refine ⟨hhead, ?_, prefix_snoc horder hget, ?_, ?_, ?_, trivial⟩
    · simp only [List.length_append, List.length_singleton]
      rw [next_eq, htail, Nat.mod_add_mod]
    · simp only [List.length_append, List.length_singleton]
      omega
    · intro i y hi hy
      simp only [List.length_append, List.length_singleton] at hi
      exact hcells i y (by omega) hy
    · cases hp : q.producer with
      | idle => exact trivial
      | loaded hd y => simpa only [ProducerOk, hp] using hprod
      | writing hd y =>
        simp only [ProducerOk, Room, hp, List.length_append] at hprod ⊢
        exact ⟨hprod.1, by omega⟩
      | storing hd y =>
        simp only [ProducerOk, Room, hp, List.length_append] at hprod ⊢
        exact ⟨hprod.1, by omega, hprod.2.2⟩

theorem step_ring (h : Ring (2 ^ k) q) (a : SpscAction T) : Ring (2 ^ k) (step (2 ^ k) a q) := by
  cases a with
  | push v => exact pushStep_ring h v
  | pop => exact popStep_ring h

theorem run_ring (buf : ℕ → T) (acts : List (SpscAction T)) :
    Ring (2 ^ k) (run (step (2 ^ k)) (SpscQueue.init buf) acts) := by
  have hall : Along (step (2 ^ k)) (fun _ _ => True) (SpscQueue.init buf) acts := along_true
  exact hall.invariant (Ring (2 ^ k)) (fun a q h _ => step_ring h a) (Ring.init buf)

end Invariant

section Refinement
variable {k : ℕ}

/-- The bounded queue the ring implements: an element is appended while there is room, the oldest
one is taken, or nothing happens. -/
inductive FifoStep (n : ℕ) : List T → List T → Prop
  | stutter (l : List T) : FifoStep n l l
  | enqueue (l : List T) (v : T) (h : l.length + 1 < n) : FifoStep n l (spscPush n v l)
  | dequeue (l : List T) (v : T) : FifoStep n (v :: l) l

/-- Every step of either side is a step of the bounded queue. -/
theorem step_refines (h : Ring (2 ^ k) q) (a : SpscAction T) :
    FifoStep (2 ^ k) q.content (step (2 ^ k) a q).content := by
  have hle := h.le
  cases a with
  | push v =>
    cases hpc : q.producer with
    | idle =>
      simp only [step, pushStep, hpc]
      exact .stutter _
    | loaded hd x =>
      simp only [step, pushStep, hpc]
      exact .stutter _
    | writing hd x =>
      simp only [step, pushStep, hpc]
      exact .stutter _
    | storing hd x =>
      have hprod := h.producer
      simp only [ProducerOk, Room, hpc] at hprod
      have hroom : q.content.length + 1 < 2 ^ k := by
        simp only [content, List.length_drop]
        omega
      have hpush : (step (2 ^ k) (.push v) q).content = spscPush (2 ^ k) x q.content := by
        rw [spscPush, if_pos hroom]
        simp only [step, pushStep, hpc, content]
        exact List.drop_append_of_le_length hle
      rw [hpush]
      exact .enqueue _ _ hroom
  | pop =>
    cases hpc : q.consumer with
    | idle =>
      simp only [step, popStep, hpc]
      exact .stutter _
    | loaded t =>
      simp only [step, popStep, hpc]
      exact .stutter _
    | reading t =>
      simp only [step, popStep, hpc]
      exact .stutter _
    | storing t x =>
      have hcons := h.consumer
      simp only [ConsumerOk, hpc] at hcons
      obtain ⟨hlt, hget⟩ := List.getElem?_eq_some_iff.mp hcons.2
      have hold : q.content = x :: q.pushed.drop (q.popped.length + 1) := by
        rw [content, List.drop_eq_getElem_cons hlt, hget]
      have hnew : (step (2 ^ k) .pop q).content = q.pushed.drop (q.popped.length + 1) := by
        simp only [step, popStep, hpc, content, List.length_append, List.length_singleton]
      rw [hold, hnew]
      exact .dequeue _ _

/-- In every interleaving of one producer and one consumer the pops return the pushed values in
order, at most `n - 1` elements are stored, a call fails only on a full or an empty ring, no write
hits the cell being read, and every step is a step of the bounded queue. -/
theorem run_refines (buf : ℕ → T) (acts : List (SpscAction T)) :
    let q := run (step (2 ^ k)) (SpscQueue.init buf) acts
    q.popped <+: q.pushed ∧ q.content.length ≤ 2 ^ k - 1 ∧
    (q.PushFails (2 ^ k) → q.content.length = 2 ^ k - 1) ∧ (q.PopFails → q.content = []) ∧
    (∀ c c', q.Writes c → q.Reads c' → c ≠ c') ∧
    ∀ a, FifoStep (2 ^ k) q.content (step (2 ^ k) a q).content := by
  intro q
  have h : Ring (2 ^ k) q := run_ring buf acts
  have hbound := h.bound
  refine ⟨h.order, ?_, h.full_of_pushFails, h.empty_of_popFails, fun _ _ => h.write_ne_read, step_refines h⟩
  simp only [content, List.length_drop]
  omega

end Refinement

section Sides
variable (n : ℕ)

theorem pushStep_frame (v : T) (q : SpscQueue T) :
    (q.pushStep n v).popped = q.popped ∧ (q.pushStep n v).consumer = q.consumer ∧
    q.pushed <+: (q.pushStep n v).pushed := by
  unfold pushStep
  split
  · exact ⟨rfl, rfl, List.prefix_refl _⟩
  · exact ⟨rfl, rfl, List.prefix_refl _⟩
  · exact ⟨rfl, rfl, List.prefix_refl _⟩
  · exact ⟨rfl, rfl, List.prefix_append _ _⟩

theorem popStep_pushed (q : SpscQueue T) : (q.popStep n).pushed = q.pushed := by
  unfold popStep
  split <;> rfl

variable {n}

theorem Ring.caught_up (h : Ring n q) (heq : q.tail = q.head) : q.popped.length = q.pushed.length := by
  rw [h.tail, h.head] at heq
  exact cell_inj h.le h.bound heq

theorem Ring.behind (h : Ring n q) (hne : q.tail ≠ q.head) : q.popped.length < q.pushed.length := by
  refine lt_of_le_of_ne h.le fun hlen => hne ?_
  rw [h.tail, h.head, hlen]

end Sides

end SpscQueue

end OmsFormal.Oms
