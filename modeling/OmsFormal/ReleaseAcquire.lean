import Mathlib.Order.Lattice
import Mathlib.Data.List.Basic
import Mathlib.Data.List.Infix
import Mathlib.Logic.Function.Basic
import Mathlib.Tactic.Common

/-!
# A release/acquire memory

Every location keeps the list of its stores, in the order in which they were
made, and every thread a view: for each location the last store it is bound to
know of. A load may return any store that its thread's view has not passed. A
release store hands the view of its thread to the acquire loads that read it; a
relaxed store hands over nothing but itself.
-/

namespace OmsFormal.ReleaseAcquire
set_option autoImplicit false

universe u v w

inductive StoreOrder where
  | relaxed
  | release
  deriving DecidableEq

inductive LoadOrder where
  | relaxed
  | acquire
  deriving DecidableEq

/-- A store to `l`, and the view it hands to the loads that acquire it. -/
structure Message {L : Type v} (V : L → Type w) (l : L) where
  value : V l
  view : L → ℕ

/-- The stores of each location, and the views into them. -/
structure Memory (T : Type u) {L : Type v} (V : L → Type w) where
  history : ∀ l, List (Message V l)
  view : T → L → ℕ
  seen : ∀ t l, view t l < (history l).length
  carried : ∀ l, ∀ msg ∈ history l, ∀ l', msg.view l' < (history l').length
  own : ∀ (l : L) (k : ℕ) (msg : Message V l), (history l)[k]? = some msg → msg.view l = k

/-- An access of a thread. The last argument of a load is the store it would return; it is
returned unless it does not exist or the view has passed it. -/
inductive Access (T : Type u) {L : Type v} (V : L → Type w) where
  | store (o : StoreOrder) (t : T) (l : L) (v : V l)
  | load (o : LoadOrder) (t : T) (l : L) (choice : ℕ)
  | handOff (t t' : T)

namespace Memory

variable {T : Type u} {L : Type v} {V : L → Type w}

def init (v : ∀ l, V l) : Memory T V where
  history l := [⟨v l, fun _ => 0⟩]
  view _ _ := 0
  seen _ _ := by simp
  carried l msg hmsg l' := by
    rw [List.mem_singleton.mp hmsg]
    simp
  own l k msg hmsg := by
    obtain ⟨hlt, rfl⟩ := List.getElem?_eq_some_iff.mp hmsg
    rw [List.length_singleton] at hlt
    simp only [List.getElem_singleton]
    omega

/-- The store that a load of `l` by `t` returns. -/
def index (m : Memory T V) (t : T) (l : L) (choice : ℕ) : ℕ :=
  max (m.view t l) (min choice ((m.history l).length - 1))

theorem index_lt (m : Memory T V) (t : T) (l : L) (choice : ℕ) :
    m.index t l choice < (m.history l).length := by
  have hseen := m.seen t l
  unfold index
  omega

theorem view_le_index (m : Memory T V) (t : T) (l : L) (choice : ℕ) :
    m.view t l ≤ m.index t l choice :=
  le_max_left _ _

def read (m : Memory T V) (t : T) (l : L) (choice : ℕ) : Message V l :=
  (m.history l).get ⟨m.index t l choice, m.index_lt t l choice⟩

theorem read_mem (m : Memory T V) (t : T) (l : L) (choice : ℕ) : m.read t l choice ∈ m.history l :=
  List.get_mem _ _

section Accesses
variable [DecidableEq L]

/-- The view of a thread after its store. -/
def storeView (m : Memory T V) (t : T) (l : L) : L → ℕ :=
  Function.update (m.view t) l (m.history l).length

/-- What a store leaves in the memory. -/
def message (m : Memory T V) (o : StoreOrder) (t : T) (l : L) (v : V l) : Message V l where
  value := v
  view :=
    match o with
    | .relaxed => Function.update (fun _ => 0) l (m.history l).length
    | .release => m.storeView t l

/-- The view of a thread after its load. -/
def loadView (m : Memory T V) (o : LoadOrder) (t : T) (l : L) (choice : ℕ) : L → ℕ :=
  let known := Function.update (m.view t) l (m.index t l choice)
  match o with
  | .relaxed => known
  | .acquire => known ⊔ (m.read t l choice).view

theorem storeView_lt (m : Memory T V) (t : T) (l : L) (msg : Message V l) (l' : L) :
    m.storeView t l l' < (Function.update m.history l (m.history l ++ [msg]) l').length := by
  by_cases hl : l' = l
  · subst hl
    simp [storeView]
  · rw [storeView, Function.update_of_ne hl, Function.update_of_ne hl]
    exact m.seen t l'

theorem length_le_update (m : Memory T V) (l : L) (msg : Message V l) (l' : L) :
    (m.history l').length ≤ (Function.update m.history l (m.history l ++ [msg]) l').length := by
  by_cases hl : l' = l
  · subst hl
    simp
  · rw [Function.update_of_ne hl]

theorem message_view_lt (m : Memory T V) (o : StoreOrder) (t : T) (l : L) (v : V l) (msg : Message V l)
    (l' : L) :
    (m.message o t l v).view l' <
      (Function.update m.history l (m.history l ++ [msg]) l').length := by
  cases o with
  | release => exact m.storeView_lt t l msg l'
  | relaxed =>
    by_cases hl : l' = l
    · subst hl
      simp [message]
    · have hpos := (Nat.zero_le _).trans_lt (m.seen t l')
      simpa [message, Function.update_of_ne hl] using hpos

@[simp] theorem message_own (m : Memory T V) (o : StoreOrder) (t : T) (l : L) (v : V l) :
    (m.message o t l v).view l = (m.history l).length := by
  cases o <;> simp [message, storeView]

theorem loadView_lt (m : Memory T V) (o : LoadOrder) (t : T) (l : L) (choice : ℕ) (l' : L) :
    m.loadView o t l choice l' < (m.history l').length := by
  have hknown : Function.update (m.view t) l (m.index t l choice) l' < (m.history l').length := by
    by_cases hl : l' = l
    · subst hl
      simpa using m.index_lt t l' choice
    · rw [Function.update_of_ne hl]
      exact m.seen t l'
  cases o with
  | relaxed => exact hknown
  | acquire => exact max_lt hknown (m.carried l _ (m.read_mem t l choice) l')

variable [DecidableEq T]

def store (m : Memory T V) (o : StoreOrder) (t : T) (l : L) (v : V l) : Memory T V where
  history := Function.update m.history l (m.history l ++ [m.message o t l v])
  view := Function.update m.view t (m.storeView t l)
  seen t' l' := by
    by_cases ht : t' = t
    · subst ht
      rw [Function.update_self]
      exact m.storeView_lt t' l _ l'
    · rw [Function.update_of_ne ht]
      exact (m.seen t' l').trans_le (m.length_le_update l _ l')
  carried l₁ msg hmsg l' := by
    have hold (h : msg ∈ m.history l₁) := (m.carried l₁ msg h l').trans_le
      (m.length_le_update l (m.message o t l v) l')
    by_cases hl : l₁ = l
    · subst hl
      rw [Function.update_self, List.mem_append, List.mem_singleton] at hmsg
      rcases hmsg with hmsg | rfl
      · exact hold hmsg
      · exact m.message_view_lt o t l₁ v _ l'
    · rw [Function.update_of_ne hl] at hmsg
      exact hold hmsg
  own l₁ k msg hmsg := by
    by_cases hl : l₁ = l
    · subst hl
      rw [Function.update_self, List.getElem?_append] at hmsg
      split at hmsg
      · exact m.own l₁ k msg hmsg
      · rename_i hlast
        obtain ⟨hlt, rfl⟩ := List.getElem?_eq_some_iff.mp hmsg
        rw [List.length_singleton] at hlt
        rw [List.getElem_singleton, message_own]
        omega
    · rw [Function.update_of_ne hl] at hmsg
      exact m.own l₁ k msg hmsg

def load (m : Memory T V) (o : LoadOrder) (t : T) (l : L) (choice : ℕ) : Memory T V where
  history := m.history
  view := Function.update m.view t (m.loadView o t l choice)
  seen t' l' := by
    by_cases ht : t' = t
    · subst ht
      rw [Function.update_self]
      exact m.loadView_lt o t' l choice l'
    · rw [Function.update_of_ne ht]
      exact m.seen t' l'
  carried := m.carried
  own := m.own

/-- `t'` learns all that `t` knows, as by any other release and acquire of the two. -/
def handOff (m : Memory T V) (t t' : T) : Memory T V where
  history := m.history
  view := Function.update m.view t' (m.view t' ⊔ m.view t)
  seen t₁ l := by
    by_cases ht : t₁ = t'
    · subst ht
      rw [Function.update_self]
      exact max_lt (m.seen t₁ l) (m.seen t l)
    · rw [Function.update_of_ne ht]
      exact m.seen t₁ l
  carried := m.carried
  own := m.own

/-- The values stored to a location, oldest first. -/
def values (m : Memory T V) (l : L) : List (V l) := (m.history l).map Message.value

omit [DecidableEq L] [DecidableEq T] in
theorem values_length (m : Memory T V) (l : L) : (m.values l).length = (m.history l).length :=
  List.length_map _

omit [DecidableEq L] [DecidableEq T] in
theorem getElem?_index (m : Memory T V) (t : T) (l : L) (choice : ℕ) :
    (m.values l)[m.index t l choice]? = some (m.read t l choice).value := by
  have hlt := m.index_lt t l choice
  rw [values, List.getElem?_map, List.getElem?_eq_getElem hlt]
  rfl

end Accesses

end Memory

namespace Access

variable {T : Type u} {L : Type v} {V : L → Type w} [DecidableEq T] [DecidableEq L]
variable {m : Memory T V} {a : Access T V} {flag data l : L}

def apply : Access T V → Memory T V → Memory T V
  | .store o t l v, m => m.store o t l v
  | .load o t l choice, m => m.load o t l choice
  | .handOff t t', m => m.handOff t t'

/-- The location the access writes. -/
def target : Access T V → Option L
  | .store _ _ l _ => some l
  | _ => none

theorem history_of_ne (h : a.target ≠ some l) : (a.apply m).history l = m.history l := by
  cases a with
  | store o t l' v =>
    have hne : l ≠ l' := fun heq => h (congrArg some heq.symm)
    exact Function.update_of_ne hne _ _
  | load o t l' choice => rfl
  | handOff t t' => rfl

theorem values_of_ne (h : a.target ≠ some l) : (a.apply m).values l = m.values l := by
  rw [Memory.values, history_of_ne h, Memory.values]

@[simp] theorem values_store (o : StoreOrder) (t : T) (v : V l) :
    ((store o t l v).apply m).values l = m.values l ++ [v] := by
  simp [apply, Memory.store, Memory.values, Memory.message]

/-- Nothing that has been stored is lost. -/
theorem values_mono (m : Memory T V) (a : Access T V) (l : L) : m.values l <+: (a.apply m).values l := by
  by_cases h : a.target = some l
  · cases a with
    | store o t l' v =>
      obtain rfl : l' = l := Option.some.inj h
      rw [values_store]
      exact List.prefix_append _ _
    | load o t l' choice => exact List.prefix_refl _
    | handOff t t' => exact List.prefix_refl _
  · rw [values_of_ne h]

theorem length_of_ne (h : a.target ≠ some l) :
    ((a.apply m).history l).length = (m.history l).length := by
  rw [history_of_ne h]

@[simp] theorem length_store (o : StoreOrder) (t : T) (v : V l) :
    (((store o t l v).apply m).history l).length = (m.history l).length + 1 := by
  simp [apply, Memory.store]

/-- No view ever goes back. -/
theorem view_le (m : Memory T V) (a : Access T V) (t : T) (l : L) : m.view t l ≤ (a.apply m).view t l := by
  cases a with
  | store o t' l' v =>
    by_cases ht : t = t'
    · subst ht
      by_cases hl : l = l'
      · subst hl
        simpa [apply, Memory.store, Memory.storeView] using (m.seen t l).le
      · simp [apply, Memory.store, Memory.storeView, Function.update_of_ne hl]
    · simp [apply, Memory.store, Function.update_of_ne ht]
  | load o t' l' choice =>
    by_cases ht : t = t'
    · subst ht
      have hknown : m.view t l ≤ Function.update (m.view t) l' (m.index t l' choice) l := by
        by_cases hl : l = l'
        · subst hl
          simpa using m.view_le_index t l choice
        · rw [Function.update_of_ne hl]
      simp only [apply, Memory.load, Function.update_self]
      cases o with
      | relaxed => exact hknown
      | acquire => exact hknown.trans (le_max_left _ _)
    · simp [apply, Memory.load, Function.update_of_ne ht]
  | handOff t₁ t₂ =>
    by_cases ht : t = t₂
    · subst ht
      simp [apply, Memory.handOff]
    · simp [apply, Memory.handOff, Function.update_of_ne ht]

/-- A thread knows of the store it has loaded. -/
theorem index_le_view (o : LoadOrder) (t : T) (choice : ℕ) :
    m.index t l choice ≤ ((load o t l choice).apply m).view t l := by
  simp only [apply, Memory.load, Function.update_self]
  cases o with
  | relaxed => simp [Memory.loadView]
  | acquire => simp [Memory.loadView]

theorem view_le_handOff (t t' : T) : m.view t l ≤ ((handOff t t').apply m).view t' l := by
  simp [apply, Memory.handOff]

/-- A thread that knows every store of a location goes on to know every one, unless others store. -/
theorem view_of_last {t : T} (h : m.view t l + 1 = (m.history l).length) (hne : a.target ≠ some l) :
    (a.apply m).view t l + 1 = ((a.apply m).history l).length := by
  have hmono := view_le m a t l
  have hseen := (a.apply m).seen t l
  have hlen := length_of_ne (m := m) hne
  omega

theorem view_store (o : StoreOrder) (t : T) (v : V l) :
    ((store o t l v).apply m).view t l + 1 = (((store o t l v).apply m).history l).length := by
  simp [apply, Memory.store, Memory.storeView]

end Access

section Publication
variable {T : Type u} {L : Type v} {V : L → Type w} {m : Memory T V} {flag data : L}

/-- The k-th store of the flag hands over at least the k-th store of the data. -/
def Memory.Published (m : Memory T V) (flag data : L) : Prop :=
  ∀ (k : ℕ) (msg : Message V flag), (m.history flag)[k]? = some msg → k ≤ msg.view data

theorem Memory.published_init (v : ∀ l, V l) : (Memory.init (T := T) v).Published flag data := by
  intro k msg hmsg
  have hlt := (List.getElem?_eq_some_iff.mp hmsg).1
  simp [Memory.init] at hlt
  omega

variable [DecidableEq T] [DecidableEq L] {a : Access T V}

/-- Publication lasts if whoever stores the flag releases it, and knows of one more store of the data
than there are of the flag. -/
theorem Memory.Published.apply (h : m.Published flag data) (hne : data ≠ flag)
    (hrelease : ∀ o t v, a = .store o t flag v → o = .release ∧ (m.history flag).length ≤ m.view t data) :
    (a.apply m).Published flag data := by
  intro k msg hmsg
  by_cases htarget : a.target = some flag
  · cases a with
    | store o t l v =>
      obtain rfl : l = flag := Option.some.inj htarget
      obtain ⟨rfl, hview⟩ := hrelease o t v rfl
      simp only [Access.apply, Memory.store, Function.update_self] at hmsg
      rw [List.getElem?_append] at hmsg
      split at hmsg
      · exact h k msg hmsg
      · rename_i hlast
        obtain ⟨hlt, rfl⟩ := List.getElem?_eq_some_iff.mp hmsg
        simp only [List.length_singleton] at hlt
        simp only [List.getElem_singleton, Memory.message, Memory.storeView, Function.update_of_ne hne]
        omega
    | load o t l choice => cases htarget
    | handOff t t' => cases htarget
  · rw [Access.history_of_ne htarget] at hmsg
    exact h k msg hmsg

/-- Whoever acquires the k-th store of the flag knows of the k-th store of the data. -/
theorem Memory.Published.acquired (h : m.Published flag data) (t : T) (choice : ℕ) :
    m.index t flag choice ≤ ((Access.load .acquire t flag choice).apply m).view t data := by
  have hlt := m.index_lt t flag choice
  have hmsg : (m.history flag)[m.index t flag choice]? = some (m.read t flag choice) :=
    List.getElem?_eq_getElem hlt
  simp only [Access.apply, Memory.load, Function.update_self, Memory.loadView]
  exact (h _ _ hmsg).trans (le_max_right _ _)

end Publication

section Links
variable {T : Type u} {L : Type v} {V : L → Type w} {m : Memory T V} {flag data l : L} {g : ℕ → ℕ} {t : T}

/-- The thread knows of every store of the location. -/
def Memory.Current (m : Memory T V) (t : T) (l : L) : Prop := m.view t l + 1 = (m.history l).length

/-- Whoever knows of the k-th store of the flag, be it a thread or a store, knows of store `g k` of
the data. -/
structure Memory.Linked (m : Memory T V) (g : ℕ → ℕ) (flag data : L) : Prop where
  threads : ∀ t, g (m.view t flag) ≤ m.view t data
  stores : ∀ l, ∀ msg ∈ m.history l, g (msg.view flag) ≤ msg.view data

theorem Memory.linked_init (v : ∀ l, V l) (hzero : g 0 = 0) :
    (Memory.init (T := T) v).Linked g flag data where
  threads t := hzero.le
  stores l msg hmsg := by
    rw [List.mem_singleton.mp hmsg]
    exact hzero.le

/-- Only what has been stored counts. -/
theorem Memory.Linked.congr {g' : ℕ → ℕ} (h : m.Linked g flag data)
    (heq : ∀ k < (m.history flag).length, g' k = g k) : m.Linked g' flag data where
  threads t := by
    rw [heq _ (m.seen t flag)]
    exact h.threads t
  stores l msg hmsg := by
    rw [heq _ (m.carried l msg hmsg flag)]
    exact h.stores l msg hmsg

theorem Memory.Current.index (h : m.Current t l) (choice : ℕ) : m.index t l choice = m.view t l := by
  have hlt := m.index_lt t l choice
  have hle := m.view_le_index t l choice
  have hlast : m.view t l + 1 = (m.history l).length := h
  omega

theorem Memory.own_read (m : Memory T V) (t : T) (l : L) (choice : ℕ) :
    (m.read t l choice).view l = m.index t l choice :=
  m.own l _ _ (List.getElem?_eq_getElem (m.index_lt t l choice))

variable [DecidableEq T] [DecidableEq L] {a : Access T V}

/-- Loading what one knows all of teaches nothing. -/
theorem Memory.Current.load (h : m.Current t l) (choice : ℕ) :
    (Access.load .relaxed t l choice).apply m = m := by
  have hview : m.loadView .relaxed t l choice = m.view t := by
    rw [loadView, h.index, Function.update_eq_self]
  simp only [Access.apply, Memory.load, hview, Function.update_eq_self]

theorem Memory.Current.apply (h : m.Current t l) (hne : a.target ≠ some l) : (a.apply m).Current t l :=
  Access.view_of_last h hne

theorem Memory.current_store (o : StoreOrder) (t : T) (v : V l) :
    ((Access.store o t l v).apply m).Current t l :=
  Access.view_store o t v

/-- An acquiring thread knows of the store it reads, and of no later one. -/
theorem Access.view_acquire (t : T) (l : L) (choice : ℕ) :
    ((load .acquire t l choice).apply m).view t l = m.index t l choice := by
  simp [apply, Memory.load, Memory.loadView, m.own_read t l choice]

omit [DecidableEq T] in
theorem Memory.view_le_known (m : Memory T V) (t : T) (l : L) (choice : ℕ) (l' : L) :
    m.view t l' ≤ Function.update (m.view t) l (m.index t l choice) l' := by
  by_cases hl : l' = l
  · subst hl
    rw [Function.update_self]
    exact m.view_le_index t l' choice
  · rw [Function.update_of_ne hl]

omit [DecidableEq T] in
/-- What a load of the flag itself teaches about it is in the store that it reads, or is no news. -/
theorem Memory.Linked.loadView (h : m.Linked g flag data) (hmono : Monotone g) (o : LoadOrder) (t : T)
    (l : L) (choice : ℕ) (hload : l = flag → o = .acquire ∨ m.Current t flag) :
    g (m.loadView o t l choice flag) ≤ m.loadView o t l choice data := by
  have hmsg := h.stores l _ (m.read_mem t l choice)
  have hknown (hsame : Function.update (m.view t) l (m.index t l choice) flag = m.view t flag) :
      g (Function.update (m.view t) l (m.index t l choice) flag) ≤
        Function.update (m.view t) l (m.index t l choice) data := by
    rw [hsame]
    exact (h.threads t).trans (m.view_le_known t l choice data)
  by_cases hl : l = flag
  · subst hl
    rcases hload rfl with rfl | hlast
    · have hread := m.own_read t l choice
      simp only [Memory.loadView, Pi.sup_apply, Function.update_self, hread, sup_idem]
      rw [← hread]
      exact hmsg.trans le_sup_right
    · have hsame : Function.update (m.view t) l (m.index t l choice) l = m.view t l := by
        rw [Function.update_self, hlast.index]
      cases o with
      | relaxed => exact hknown hsame
      | acquire =>
        simp only [Memory.loadView, Pi.sup_apply, hmono.map_sup]
        exact sup_le_sup (hknown hsame) hmsg
  · have hsame := Function.update_of_ne (Ne.symm hl) (m.index t l choice) (m.view t)
    cases o with
    | relaxed => exact hknown hsame
    | acquire =>
      simp only [Memory.loadView, Pi.sup_apply, hmono.map_sup]
      exact sup_le_sup (hknown hsame) hmsg

/-- A link lasts if the flag is stored by those who know what it stands for, with release order, and
loaded with acquire order unless there is nothing to learn. -/
theorem Memory.Linked.apply (h : m.Linked g flag data) (hmono : Monotone g) (hzero : g 0 = 0)
    (hne : data ≠ flag)
    (hstore : ∀ o t v, a = .store o t flag v → o = .release ∧ g (m.history flag).length ≤ m.view t data)
    (hload : ∀ o t choice, a = .load o t flag choice → o = .acquire ∨ m.Current t flag) :
    (a.apply m).Linked g flag data := by
  cases a with
  | store o t l v =>
    have hview : g (m.storeView t l flag) ≤ m.storeView t l data := by
      by_cases hl : l = flag
      · subst hl
        rw [storeView, Function.update_self, Function.update_of_ne hne]
        exact (hstore o t v rfl).2
      · refine le_trans ?_ (Access.view_le m (.store o t l v) t data |>.trans_eq ?_)
        · rw [storeView, Function.update_of_ne (Ne.symm hl)]
          exact h.threads t
        · simp [Access.apply, Memory.store]
    constructor
    · intro t'
      by_cases ht : t' = t
      · subst ht
        simpa [Access.apply, Memory.store] using hview
      · simpa [Access.apply, Memory.store, Function.update_of_ne ht] using h.threads t'
    · intro l' msg hmsg
      by_cases hl' : l' = l
      · subst hl'
        simp only [Access.apply, Memory.store, Function.update_self, List.mem_append,
          List.mem_singleton] at hmsg
        rcases hmsg with hold | rfl
        · exact h.stores l' msg hold
        · cases o with
          | release => exact hview
          | relaxed =>
            have hother : flag ≠ l' := by
              rintro rfl
              exact StoreOrder.noConfusion (hstore .relaxed t v rfl).1
            simp [message, Function.update_of_ne hother, hzero]
      · simp only [Access.apply, Memory.store, Function.update_of_ne hl'] at hmsg
        exact h.stores l' msg hmsg
  | load o t l choice =>
    refine ⟨fun t' => ?_, h.stores⟩
    by_cases ht : t' = t
    · subst ht
      simp only [Access.apply, Memory.load, Function.update_self]
      exact h.loadView hmono o t' l choice fun heq => hload o t' choice (heq ▸ rfl)
    · simpa [Access.apply, Memory.load, Function.update_of_ne ht] using h.threads t'
  | handOff t₁ t₂ =>
    refine ⟨fun t' => ?_, h.stores⟩
    by_cases ht : t' = t₂
    · subst ht
      simp only [Access.apply, Memory.handOff, Function.update_self, Pi.sup_apply]
      rw [hmono.map_sup]
      exact sup_le_sup (h.threads t') (h.threads t₁)
    · simpa [Access.apply, Memory.handOff, Function.update_of_ne ht] using h.threads t'

end Links

end OmsFormal.ReleaseAcquire
