import OmsFormal.GuardedRun
import OmsFormal.ReleaseAcquire

/-!
# Programs of threads in a release/acquire memory

A call is a program of loads and stores. Every thread runs its calls one after
the other, and the threads interleave access by access. With every store the
system logs the call that made it and what the call had touched before, so that
what can be in a location is read off the programs. Calls that do not overlap
and whose loads are fresh do what they do in a plain memory.
-/

namespace OmsFormal.ThreadPrograms
open GuardedRun ReleaseAcquire
set_option autoImplicit false

universe u v w x

inductive Program {L : Type v} (V : L → Type w) where
  | done
  | load (o : LoadOrder) (l : L) (next : V l → Program V)
  | store (o : StoreOrder) (l : L) (v : V l) (next : Program V)

/-- A load or a store of a call: of which location, and which of its stores. -/
inductive Touch (L : Type v) where
  | read (l : L) (k : ℕ)
  | wrote (l : L) (k : ℕ)

namespace Touch
variable {L : Type v}

def cell : Touch L → L
  | read l _ => l
  | wrote l _ => l

def index : Touch L → ℕ
  | read _ k => k
  | wrote _ k => k

/-- Later touches of a location are of later stores. -/
def Ordered (trace : List (Touch L)) : Prop :=
  trace.Pairwise fun x y => x.cell = y.cell → x.index ≤ y.index

end Touch

/-- A call under way: what is left of its program, and what it has touched. -/
structure Running (C : Type x) {L : Type v} (V : L → Type w) where
  call : C
  rest : Program V
  trace : List (Touch L)

/-- The call a store was made in, and what the call had touched before. -/
structure Entry (C : Type x) (L : Type v) where
  call : C
  trace : List (Touch L)

/-- The memory, the call each thread is in, and for each location whose stores it has had since the
start. -/
structure System (T : Type u) (C : Type x) {L : Type v} (V : L → Type w) where
  memory : Memory T V
  running : T → Option (Running C V)
  log : L → List (Entry C L)

/-- A thread begins a call, or makes its next access; the choice is the store a load would return. -/
inductive Action (T : Type u) (C : Type x) where
  | call (c : C)
  | move (t : T) (choice : ℕ)

variable {T : Type u} {C : Type x} {L : Type v} {V : L → Type w}

namespace System

def init (v : ∀ l, V l) : System T C V := ⟨Memory.init v, fun _ => none, fun _ => []⟩

variable [DecidableEq T] [DecidableEq L]
variable (thread : C → T) (program : C → Program V)

/-- A thread in a call begins no other one. -/
def begin (c : C) (s : System T C V) : System T C V :=
  match s.running (thread c) with
  | none => { s with running := Function.update s.running (thread c) (some ⟨c, program c, []⟩) }
  | some _ => s

/-- The thread makes the load its call is at. -/
def load (t : T) (r : Running C V) (o : LoadOrder) (l : L) (next : V l → Program V) (choice : ℕ)
    (s : System T C V) : System T C V :=
  { s with
    memory := (Access.load o t l choice).apply s.memory
    running := Function.update s.running t
      (some ⟨r.call, next (s.memory.read t l choice).value,
        r.trace ++ [.read l (s.memory.index t l choice)]⟩) }

/-- The thread makes the store its call is at. -/
def store (t : T) (r : Running C V) (o : StoreOrder) (l : L) (v : V l) (next : Program V)
    (s : System T C V) : System T C V where
  memory := (Access.store o t l v).apply s.memory
  running := Function.update s.running t
    (some ⟨r.call, next, r.trace ++ [.wrote l (s.memory.history l).length]⟩)
  log := Function.update s.log l (s.log l ++ [⟨r.call, r.trace⟩])

def move (t : T) (choice : ℕ) (s : System T C V) : System T C V :=
  match s.running t with
  | none => s
  | some r =>
    match r.rest with
    | .done => { s with running := Function.update s.running t none }
    | .load o l next => s.load t r o l next choice
    | .store o l v next => s.store t r o l v next

def step (a : Action T C) (s : System T C V) : System T C V :=
  match a with
  | .call c => s.begin thread program c
  | .move t choice => s.move t choice

end System

section Following

theorem getElem?_extend {α : Type*} {xs ys : List α} {k : ℕ} (h : xs <+: ys) (hk : k < xs.length) :
    ys[k]? = xs[k]? := by
  obtain ⟨rest, rfl⟩ := h
  exact List.getElem?_append_left hk

/-- Loading what the touches say, a program makes these touches and is left with another. -/
inductive Program.Follows (value : ∀ l, List (V l)) : Program V → List (Touch L) → Program V → Prop where
  | nil (p : Program V) : Follows value p [] p
  | read {o : LoadOrder} {l : L} {next : V l → Program V} {k : ℕ} {v : V l} {trace : List (Touch L)}
      {q : Program V} (hv : (value l)[k]? = some v) (h : Follows value (next v) trace q) :
      Follows value (.load o l next) (.read l k :: trace) q
  | wrote {o : StoreOrder} {l : L} {v : V l} {next : Program V} {k : ℕ} {trace : List (Touch L)}
      {q : Program V} (hv : (value l)[k]? = some v) (h : Follows value next trace q) :
      Follows value (.store o l v next) (.wrote l k :: trace) q

variable {value value' : ∀ l, List (V l)} {p q r : Program V} {trace trace' : List (Touch L)}

theorem Program.Follows.append (h : p.Follows value trace q) (h' : q.Follows value trace' r) :
    p.Follows value (trace ++ trace') r := by
  induction h with
  | nil p => exact h'
  | read hv _ ih => exact .read hv (ih h')
  | wrote hv _ ih => exact .wrote hv (ih h')

/-- What has been stored stays. -/
theorem Program.Follows.mono (h : p.Follows value trace q) (hle : ∀ l, value l <+: value' l) :
    p.Follows value' trace q := by
  have hget (l : L) (k : ℕ) (v : V l) (hv : (value l)[k]? = some v) : (value' l)[k]? = some v := by
    rw [getElem?_extend (hle l) (List.getElem?_eq_some_iff.mp hv).1]
    exact hv
  induction h with
  | nil p => exact .nil p
  | read hv _ ih => exact .read (hget _ _ _ hv) ih
  | wrote hv _ ih => exact .wrote (hget _ _ _ hv) ih

end Following

section Invariant
variable (thread : C → T) (program : C → Program V)

/-- A call under way has followed its program, and has read nothing that its thread had stored over. -/
structure Running.Ok (t : T) (r : Running C V) (s : System T C V) : Prop where
  mine : thread r.call = t
  follows : (program r.call).Follows s.memory.values r.trace r.rest
  known : ∀ x ∈ r.trace, x.index ≤ s.memory.view t x.cell
  ordered : Touch.Ordered r.trace
  own : ∀ l k (e : Entry C L), (s.log l)[k]? = some e → thread e.call = t →
    Touch.wrote l (k + 1) ∈ r.trace ∨ ∀ j, Touch.read l j ∈ r.trace → k + 1 ≤ j

/-- The store number `k + 1` of `l` is one its program makes after what it had touched. -/
structure Entry.Ok (l : L) (k : ℕ) (e : Entry C L) (s : System T C V) : Prop where
  follows : ∃ o v next, (s.memory.values l)[k + 1]? = some v ∧
    (program e.call).Follows s.memory.values e.trace (.store o l v next)
  known : ∀ x ∈ e.trace, x.cell = l → x.index ≤ k
  ordered : Touch.Ordered e.trace
  own : ∀ k' (e' : Entry C L), k' < k → (s.log l)[k']? = some e' → thread e'.call = thread e.call →
    Touch.wrote l (k' + 1) ∈ e.trace ∨ ∀ j, Touch.read l j ∈ e.trace → k' + 1 ≤ j

structure System.Ok (s : System T C V) : Prop where
  running : ∀ t (r : Running C V), s.running t = some r → r.Ok thread program t s
  entries : ∀ l k (e : Entry C L), (s.log l)[k]? = some e → e.Ok thread program l k s
  length : ∀ l, (s.memory.history l).length = (s.log l).length + 1
  known : ∀ l k (e : Entry C L), (s.log l)[k]? = some e → k + 1 ≤ s.memory.view (thread e.call) l

variable {thread : C → T} {program : C → Program V} {s s' : System T C V} {t : T} {r : Running C V}

theorem System.init_ok (v : ∀ l, V l) : (init v : System T C V).Ok thread program where
  running t r h := by cases h
  entries l k e h := by cases h
  length l := rfl
  known l k e h := by cases h

/-- Nothing stored is lost, and no view goes back. -/
structure System.Grows (s s' : System T C V) : Prop where
  values : ∀ l, s.memory.values l <+: s'.memory.values l
  view : ∀ t l, s.memory.view t l ≤ s'.memory.view t l
  log : ∀ l, s.log l <+: s'.log l

theorem System.Grows.refl (s : System T C V) : s.Grows s :=
  ⟨fun _ => List.prefix_refl _, fun _ _ => le_rfl, fun _ => List.prefix_refl _⟩

theorem Running.Ok.grow (h : r.Ok thread program t s) (hg : s.Grows s')
    (hlog : ∀ (l : L) (k : ℕ) (e : Entry C L), (s'.log l)[k]? = some e → thread e.call = t →
      (s.log l)[k]? = some e) :
    r.Ok thread program t s' where
  mine := h.mine
  follows := h.follows.mono hg.values
  known x hx := (h.known x hx).trans (hg.view _ _)
  ordered := h.ordered
  own l k e he hmine := h.own l k e (hlog l k e he hmine) hmine

theorem Entry.Ok.grow {l : L} {k : ℕ} {e : Entry C L} (h : e.Ok thread program l k s) (hg : s.Grows s')
    (hk : k < (s.log l).length) : e.Ok thread program l k s' where
  follows := by
    obtain ⟨o, v, next, hv, hfollows⟩ := h.follows
    refine ⟨o, v, next, ?_, hfollows.mono hg.values⟩
    rw [getElem?_extend (hg.values l) (List.getElem?_eq_some_iff.mp hv).1]
    exact hv
  known := h.known
  ordered := h.ordered
  own k' e' hlt he' := by
    rw [getElem?_extend (hg.log l) (hlt.trans hk)] at he'
    exact h.own k' e' hlt he'

theorem Touch.Ordered.append {trace : List (Touch L)} {x : Touch L} (h : Ordered trace)
    (hlast : ∀ y ∈ trace, y.cell = x.cell → y.index ≤ x.index) : Ordered (trace ++ [x]) := by
  refine List.pairwise_append.mpr ⟨h, List.pairwise_singleton _ _, fun y hy z hz => ?_⟩
  rw [List.mem_singleton.mp hz]
  exact hlast y hy

variable [DecidableEq T]

theorem System.Ok.begin_ok (h : s.Ok thread program) (c : C) :
    (s.begin thread program c).Ok thread program := by
  cases hrun : s.running (thread c) with
  | some r =>
    simp only [begin, hrun]
    exact h
  | none =>
    simp only [begin, hrun]
    refine ⟨fun t r hr => ?_, fun l k e he => ?_, h.length, h.known⟩
    · simp only [Function.update_apply] at hr
      split at hr
      · rename_i ht
        obtain rfl := Option.some.inj hr
        exact ⟨ht.symm, .nil _, fun x hx => absurd hx List.not_mem_nil, .nil,
          fun l k e he hmine => Or.inr fun j hj => absurd hj List.not_mem_nil⟩
      · have hok := h.running t r hr
        exact ⟨hok.mine, hok.follows, hok.known, hok.ordered, hok.own⟩
    · have hok := h.entries l k e he
      exact ⟨hok.follows, hok.known, hok.ordered, hok.own⟩

variable [DecidableEq L]

theorem System.load_grows (t : T) (r : Running C V) (o : LoadOrder) (l : L) (next : V l → Program V)
    (choice : ℕ) : s.Grows (s.load t r o l next choice) where
  values l' := Access.values_mono s.memory (.load o t l choice) l'
  view t' l' := Access.view_le s.memory (.load o t l choice) t' l'
  log _ := List.prefix_refl _

theorem System.store_grows (t : T) (r : Running C V) (o : StoreOrder) (l : L) (v : V l) (next : Program V) :
    s.Grows (s.store t r o l v next) where
  values l' := Access.values_mono s.memory (.store o t l v) l'
  view t' l' := Access.view_le s.memory (.store o t l v) t' l'
  log l' := by
    simp only [store, Function.update_apply]
    split
    · rename_i hl
      subst hl
      exact List.prefix_append _ _
    · exact List.prefix_refl _

theorem System.Ok.load_ok {o : LoadOrder} {l : L} {next : V l → Program V} (h : s.Ok thread program)
    (hrun : s.running t = some r) (hrest : r.rest = .load o l next) (choice : ℕ) :
    (s.load t r o l next choice).Ok thread program := by
  have hg := s.load_grows t r o l next choice
  have hok := h.running t r hrun
  refine ⟨fun t' r' hr' => ?_, fun l' k e he => ?_, h.length, fun l' k e he => ?_⟩
  · simp only [load, Function.update_apply] at hr'
    split at hr'
    · rename_i ht
      subst ht
      obtain rfl := Option.some.inj hr'
      refine ⟨hok.mine, ?_, fun x hx => ?_, hok.ordered.append fun y hy hcell => ?_,
        fun l' k e he hmine => ?_⟩
      · have hlast := hok.follows.mono hg.values
        rw [hrest] at hlast
        exact hlast.append (.read (s.memory.getElem?_index t' l choice) (.nil _))
      · rcases List.mem_append.mp hx with hold | hnew
        · exact (hok.known x hold).trans (hg.view _ _)
        · rw [List.mem_singleton.mp hnew]
          exact Access.index_le_view o t' choice
      · exact ((hok.known y hy).trans_eq (congrArg _ hcell)).trans (s.memory.view_le_index t' l choice)
      · rcases hok.own l' k e he hmine with hwrote | hread
        · exact Or.inl (List.mem_append_left _ hwrote)
        · refine Or.inr fun j hj => ?_
          rcases List.mem_append.mp hj with hold | hnew
          · exact hread j hold
          · obtain ⟨rfl, rfl⟩ := Touch.read.inj (List.mem_singleton.mp hnew)
            have hknown := h.known l' k e he
            rw [hmine] at hknown
            exact hknown.trans (s.memory.view_le_index t' l' choice)
    · exact (h.running t' r' hr').grow hg fun l k e he _ => he
  · exact (h.entries l' k e he).grow hg (List.getElem?_eq_some_iff.mp he).1
  · exact (h.known l' k e he).trans (hg.view _ _)

/-- The log has one entry more. -/
theorem System.log_store {o : StoreOrder} {l l' : L} {v : V l} {next : Program V} {k : ℕ} {e : Entry C L}
    (he : ((s.store t r o l v next).log l')[k]? = some e) :
    (s.log l')[k]? = some e ∨ l' = l ∧ k = (s.log l).length ∧ e = ⟨r.call, r.trace⟩ := by
  simp only [store, Function.update_apply] at he
  split at he
  · rename_i hl
    subst hl
    rw [List.getElem?_append] at he
    split at he
    · exact Or.inl he
    · obtain ⟨hlt, rfl⟩ := List.getElem?_eq_some_iff.mp he
      rw [List.length_singleton] at hlt
      exact Or.inr ⟨rfl, by omega, List.getElem_singleton _⟩
  · exact Or.inl he

theorem System.Ok.store_ok {o : StoreOrder} {l : L} {v : V l} {next : Program V} (h : s.Ok thread program)
    (hrun : s.running t = some r) (hrest : r.rest = .store o l v next) :
    (s.store t r o l v next).Ok thread program := by
  have hg := s.store_grows t r o l v next
  have hok := h.running t r hrun
  have hsize := h.length l
  have hview : (s.store t r o l v next).memory.view t l = (s.memory.history l).length := by
    have hlast := Access.view_store (m := s.memory) (l := l) o t v
    rw [Access.length_store] at hlast
    exact Nat.succ.inj hlast
  have hlast : ((s.store t r o l v next).memory.values l)[(s.memory.history l).length]? = some v := by
    simp only [store, Access.values_store]
    rw [← Memory.values_length, List.getElem?_concat_length]
  refine ⟨fun t' r' hr' => ?_, fun l' k e he => ?_, fun l' => ?_, fun l' k e he => ?_⟩
  · simp only [store, Function.update_apply] at hr'
    split at hr'
    · rename_i ht
      subst ht
      obtain rfl := Option.some.inj hr'
      refine ⟨hok.mine, ?_, fun x hx => ?_, hok.ordered.append fun y hy hcell => ?_,
        fun l' k e he hmine => ?_⟩
      · have hbefore := hok.follows.mono hg.values
        rw [hrest] at hbefore
        exact hbefore.append (.wrote hlast (.nil _))
      · rcases List.mem_append.mp hx with hold | hnew
        · exact (hok.known x hold).trans (hg.view _ _)
        · rw [List.mem_singleton.mp hnew]
          exact hview.ge
      · exact ((hok.known y hy).trans_eq (congrArg _ hcell)).trans (s.memory.seen t' l).le
      · rcases log_store he with hold | ⟨rfl, rfl, rfl⟩
        · rcases hok.own l' k e hold hmine with hwrote | hread
          · exact Or.inl (List.mem_append_left _ hwrote)
          · refine Or.inr fun j hj => ?_
            rcases List.mem_append.mp hj with hread' | hnew
            · exact hread j hread'
            · cases List.mem_singleton.mp hnew
        · refine Or.inl (List.mem_append_right _ ?_)
          rw [hsize]
          exact List.mem_singleton_self _
    · rename_i ht
      refine (h.running t' r' hr').grow hg fun l' k e he hmine => ?_
      rcases log_store he with hold | ⟨rfl, rfl, rfl⟩
      · exact hold
      · exact absurd (hmine.symm.trans hok.mine) ht
  · rcases log_store he with hold | ⟨rfl, rfl, rfl⟩
    · exact (h.entries l' k e hold).grow hg (List.getElem?_eq_some_iff.mp hold).1
    · refine ⟨⟨o, v, next, ?_, ?_⟩, fun x hx hcell => ?_, hok.ordered, fun k' e' hlt he' hmine => ?_⟩
      · rw [← hsize]
        exact hlast
      · rw [← hrest]
        exact hok.follows.mono hg.values
      · have hknown := (hok.known x hx).trans_lt (s.memory.seen t x.cell)
        rw [hcell] at hknown
        omega
      · rcases log_store he' with hold | ⟨-, rfl, -⟩
        · exact hok.own l' k' e' hold (hmine.trans hok.mine)
        · exact absurd hlt (lt_irrefl _)
  · by_cases hl : l' = l
    · subst hl
      simp [store, hsize]
    · have hother : (Access.store (V := V) o t l v).target ≠ some l' := fun heq =>
        hl (Option.some.inj heq).symm
      simp only [store, Function.update_of_ne hl, Access.length_of_ne hother, h.length l']
  · rcases log_store he with hold | ⟨rfl, rfl, rfl⟩
    · exact (h.known l' k e hold).trans (hg.view _ _)
    · simp only [hok.mine]
      omega

theorem System.Ok.move_ok (h : s.Ok thread program) (t : T) (choice : ℕ) :
    (s.move t choice).Ok thread program := by
  cases hrun : s.running t with
  | none =>
    simp only [move, hrun]
    exact h
  | some r =>
    cases hrest : r.rest with
    | done =>
      simp only [move, hrun, hrest]
      refine ⟨fun t' r' hr' => ?_, fun l k e he => ?_, h.length, h.known⟩
      · simp only [Function.update_apply] at hr'
        split at hr'
        · cases hr'
        · have hok := h.running t' r' hr'
          exact ⟨hok.mine, hok.follows, hok.known, hok.ordered, hok.own⟩
      · have hok := h.entries l k e he
        exact ⟨hok.follows, hok.known, hok.ordered, hok.own⟩
    | load o l next =>
      simp only [move, hrun, hrest]
      exact h.load_ok hrun hrest choice
    | store o l v next =>
      simp only [move, hrun, hrest]
      exact h.store_ok hrun hrest

theorem System.Ok.step_ok (h : s.Ok thread program) (a : Action T C) :
    (step thread program a s).Ok thread program := by
  cases a with
  | call c => exact h.begin_ok c
  | move t choice => exact h.move_ok t choice

theorem System.step_grows (s : System T C V) (a : Action T C) : s.Grows (step thread program a s) := by
  cases a with
  | call c =>
    simp only [step, begin]
    split
    · exact ⟨fun _ => List.prefix_refl _, fun _ _ => le_rfl, fun _ => List.prefix_refl _⟩
    · exact .refl s
  | move t choice =>
    simp only [step, move]
    split
    · exact .refl s
    · split
      · exact ⟨fun _ => List.prefix_refl _, fun _ _ => le_rfl, fun _ => List.prefix_refl _⟩
      · exact load_grows _ _ _ _ _ _
      · exact store_grows _ _ _ _ _ _

/-- What a location held at the start stays the first of its values. -/
theorem System.run_first (v : ∀ l, V l) (acts : List (Action T C)) (l : L) :
    ((run (step thread program) (init v) acts).memory.values l)[0]? = some (v l) := by
  have hall : Along (step thread program) (fun _ _ => True) (init v) acts := along_true
  have hfirst := hall.invariant (fun s => [v l] <+: s.memory.values l)
    (fun a s h _ => h.trans ((s.step_grows a).values l)) (List.prefix_refl _)
  rw [getElem?_extend hfirst (Nat.lt_succ_self 0)]
  rfl

theorem System.run_ok (v : ∀ l, V l) (acts : List (Action T C)) :
    (run (step thread program) (init v) acts).Ok thread program := by
  have hall : Along (step thread program) (fun _ _ => True) (init v) acts := along_true
  exact hall.invariant (System.Ok thread program) (fun a s h _ => h.step_ok a) (init_ok v)

end Invariant

section Serial
variable [DecidableEq L]

/-- What a program does in a plain memory. -/
def Program.exec : Program V → (∀ l, V l) → ∀ l, V l
  | .done, σ => σ
  | .load _ l next, σ => (next (σ l)).exec σ
  | .store _ l v next, σ => next.exec (Function.update σ l v)

/-- The last store of every location. -/
def Latest (m : Memory T V) (σ : ∀ l, V l) : Prop := ∀ l, (m.values l).getLast? = some (σ l)

omit [DecidableEq L] in
theorem latest_init (σ : ∀ l, V l) : Latest (Memory.init σ : Memory T V) σ := fun _ => rfl

variable {m : Memory T V} {σ : ∀ l, V l} {t : T} {l : L} {choice : ℕ}

omit [DecidableEq L] in
theorem Latest.read (h : Latest m σ) (hfresh : (m.history l).length ≤ choice + 1) :
    (m.read t l choice).value = σ l := by
  have hread := m.getElem?_index t l choice
  have hindex : m.index t l choice = (m.values l).length - 1 := by
    have hseen := m.seen t l
    rw [m.values_length, Memory.index]
    omega
  rw [hindex, ← List.getLast?_eq_getElem?, h l] at hread
  exact (Option.some.inj hread).symm

variable [DecidableEq T]

theorem Latest.store (h : Latest m σ) (o : StoreOrder) (t : T) (l : L) (v : V l) :
    Latest ((Access.store o t l v).apply m) (Function.update σ l v) := fun l' => by
  by_cases hl : l' = l
  · subst hl
    rw [Access.values_store, List.getLast?_concat, Function.update_self]
  · have hother : (Access.store (V := V) o t l v).target ≠ some l' := fun heq =>
      hl (Option.some.inj heq).symm
    rw [Access.values_of_ne hother, Function.update_of_ne hl]
    exact h l'

/-- Nobody begins while another call is under way, and what is loaded was stored last. -/
def Action.Serial (a : Action T C) (s : System T C V) : Prop :=
  match a with
  | .call _ => ∀ t, s.running t = none
  | .move _ choice => ∀ l, (s.memory.history l).length ≤ choice + 1

def Action.begun : Action T C → Option C
  | .call c => some c
  | .move _ _ => none

/-- What is left of the call under way, if there is one, leads to `σ`. -/
inductive System.Leads (σ : ∀ l, V l) (s : System T C V) : Prop where
  | idle (hnone : ∀ t, s.running t = none) (hlatest : Latest s.memory σ)
  | busy (t : T) (r : Running C V) (σ' : ∀ l, V l) (hrun : s.running t = some r)
      (hothers : ∀ t' ≠ t, s.running t' = none) (hlatest : Latest s.memory σ') (hrest : r.rest.exec σ' = σ)

variable {thread : C → T} {program : C → Program V} {s : System T C V}

theorem System.Leads.call (h : s.Leads σ) (c : C) (hserial : (Action.call c : Action T C).Serial s) :
    (s.begin thread program c).Leads ((program c).exec σ) := by
  cases h with
  | busy t r σ' hrun => exact absurd (hserial t) (by simp [hrun])
  | idle hnone hlatest =>
    simp only [begin, hnone (thread c)]
    exact .busy (thread c) ⟨c, program c, []⟩ σ (Function.update_self _ _ _)
      (fun t' ht => (Function.update_of_ne ht _ _).trans (hnone t')) hlatest rfl

theorem System.Leads.move (h : s.Leads σ) (t : T) (hserial : (Action.move t choice : Action T C).Serial s) :
    (s.move t choice).Leads σ := by
  cases h with
  | idle hnone hlatest =>
    simp only [System.move, hnone t]
    exact .idle hnone hlatest
  | busy t' r σ' hrun hothers hlatest hexec =>
    by_cases ht : t = t'
    · subst ht
      have hstill (x : Option (Running C V)) (t' : T) (ht : t' ≠ t) :
          Function.update s.running t x t' = none := (Function.update_of_ne ht _ _).trans (hothers t' ht)
      cases hrest : r.rest with
      | done =>
        rw [hrest, Program.exec] at hexec
        subst hexec
        simp only [System.move, hrun, hrest]
        refine .idle (fun t' => ?_) hlatest
        by_cases ht : t' = t
        · subst ht
          exact Function.update_self _ _ _
        · exact hstill none t' ht
      | load o l next =>
        rw [hrest, Program.exec, ← hlatest.read (hserial l)] at hexec
        simp only [System.move, hrun, hrest]
        exact .busy t _ σ' (Function.update_self _ _ _) (hstill _) hlatest hexec
      | store o l v next =>
        rw [hrest, Program.exec] at hexec
        simp only [System.move, hrun, hrest]
        exact .busy t _ _ (Function.update_self _ _ _) (hstill _) (hlatest.store o t l v) hexec
    · simp only [System.move, hothers t ht]
      exact .busy t' r σ' hrun hothers hlatest hexec

/-- Calls that do not overlap and load what was stored last do what they do in a plain memory. -/
theorem System.Leads.run {acts : List (Action T C)} (h : s.Leads σ)
    (hserial : Along (step thread program) Action.Serial s acts) :
    (GuardedRun.run (step thread program) s acts).Leads
      ((acts.filterMap Action.begun).foldl (fun σ c => (program c).exec σ) σ) := by
  induction acts generalizing s σ with
  | nil => exact h
  | cons a acts ih =>
    cases a with
    | call c => exact ih (h.call c hserial.1) hserial.2
    | move t choice => exact ih (h.move t hserial.1) hserial.2

theorem System.move_length (s : System T C V) (t : T) (choice : ℕ) (l : L) :
    ((s.move t choice).memory.history l).length ≤ (s.memory.history l).length + 1 := by
  simp only [System.move]
  split
  · exact Nat.le_succ _
  · split
    · exact Nat.le_succ _
    · exact Nat.le_succ _
    · rename_i o l' v next _
      by_cases hl : l = l'
      · subst hl
        exact (Access.length_store _ _ _).le
      · have hother : (Access.store (V := V) o t l' v).target ≠ some l := fun heq =>
          hl (Option.some.inj heq).symm
        exact (Access.length_of_ne hother).le.trans (Nat.le_succ _)

/-- Loads that ask for a late enough store load the last one. -/
theorem along_moves {n : ℕ} (h : ∀ l, (s.memory.history l).length + n ≤ choice + 1) :
    Along (System.step thread program) Action.Serial s (List.replicate n (.move t choice)) := by
  induction n generalizing s with
  | zero => trivial
  | succ n ih =>
    refine ⟨fun l => (Nat.le_add_right _ _).trans (h l), ih fun l => ?_⟩
    have hlength := s.move_length t choice l
    have hbound := h l
    simp only [System.step]
    omega

end Serial

end OmsFormal.ThreadPrograms
