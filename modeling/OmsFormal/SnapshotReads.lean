import OmsFormal.SnapshotSystem

/-!
# Snapshots read while they are written

The stamp is the first field that is loaded, with acquire order, so the thread then
knows of every field of its update. A reading may mix the fields of several updates,
but none of them is older than the update that left the stamp.
-/

namespace OmsFormal.Oms
open Sor ReleaseAcquire GuardedRun
set_option autoImplicit false

namespace SnapshotSystem

section Reader
variable {owner : ℕ → ℕ} {x x' : SnapshotSystem} {c : ReadCall} {ex handed : ℕ} {f : SnapshotField}
variable {reading : ExchangeSnapshot} {pick : SnapshotField → ℕ}

/-- A field that has been read: the update it is from is not older than the one of the stamp, and the
thread knows of it. -/
structure Sampled (x : SnapshotSystem) (handed ex : ℕ) (f : SnapshotField) (reading : ExchangeSnapshot)
    (pick : SnapshotField → ℕ) : Prop where
  value : ((x.log ex).map (ExchangeSnapshot.field · f))[pick f]? = some (reading.field f)
  stamped : pick .lastUpdateNs ≤ pick f
  known : pick f ≤ x.memory.view .exec (ex, f)
  handed : handed ≤ pick .lastUpdateNs

/-- What the other threads can do to the reader. -/
structure Grows (x x' : SnapshotSystem) : Prop where
  log : ∀ ex, x.log ex <+: x'.log ex
  view : ∀ l, x.memory.view .exec l ≤ x'.memory.view .exec l

theorem Grows.of_same (hmemory : x'.memory = x.memory) (hlog : x'.log = x.log) : x.Grows x' where
  log ex := by rw [hlog]
  view l := by rw [hmemory]

theorem Sampled.grow (h : Sampled x handed ex f reading pick) (hgrow : x.Grows x') :
    Sampled x' handed ex f reading pick := by
  refine ⟨?_, h.stamped, h.known.trans (hgrow.view _), h.handed⟩
  obtain ⟨hlt, hvalue⟩ := List.getElem?_eq_some_iff.mp h.value
  have hprefix := (hgrow.log ex).map (ExchangeSnapshot.field · f)
  rw [← hvalue]
  exact List.prefix_iff_getElem?.mp hprefix _ hlt

/-- The fields the call has loaded. -/
def Loaded (c : ReadCall) (ex : ℕ) (f : SnapshotField) : Prop :=
  ex < c.exchange ∨ ex = c.exchange ∧ f.loadRank < c.next.loadRank

/-- What the call has loaded, of the fields in `P`. -/
structure Gathered (x : SnapshotSystem) (c : ReadCall) (P : ℕ → SnapshotField → Prop) : Prop where
  sampled : ∀ ex f, P ex f → Sampled x (c.handed ex) ex f (c.readings ex) (c.picks ex)
  fenced : ∀ ex f, P ex .lastUpdateNs → c.picks ex .lastUpdateNs ≤ x.memory.view .exec (ex, f)
  later : ∀ q ∈ x.served, ∀ ex < kMaxExchanges, ∀ f, P ex f → q.picks ex f ≤ c.picks ex f

/-- The scan of the exchanges so far. -/
def scanned (c : ReadCall) : UInt64 × RoutingInputs :=
  (List.range c.exchange).foldl (BookSnapshotCache.keepFresher ⟨c.readings⟩ c.dir c.nowNs)
    (0, ⟨0, 0, false⟩)

structure ReadOk (x : SnapshotSystem) (c : ReadCall) : Prop where
  bound : c.exchange < kMaxExchanges
  best : c.best = scanned c
  gathered : Gathered x c (Loaded c)
  handed : ∀ ex, c.handed ex ≤ x.memory.view .exec (ex, .lastUpdateNs)

structure ServedOk (x : SnapshotSystem) (q : ServedCall) : Prop where
  inputs : q.inputs = (⟨q.readings⟩ : BookSnapshotCache).getRoutingInputs q.dir q.nowNs
  sampled : ∀ ex < kMaxExchanges, ∀ f, Sampled x (q.handed ex) ex f (q.readings ex) (q.picks ex)

structure Ok (owner : ℕ → ℕ) (x : SnapshotSystem) : Prop where
  written : x.Written owner
  handed : ∀ ex, x.handed ex ≤ x.memory.view .exec (ex, .lastUpdateNs)
  reading : ∀ c, x.reading = some c → ReadOk x c
  served : ∀ q ∈ x.served, ServedOk x q
  order : x.served.Pairwise ServedCall.NotAfter

theorem ReadOk.grow (h : ReadOk x c) (hgrow : x.Grows x') (hserved : x'.served = x.served) :
    ReadOk x' c where
  bound := h.bound
  best := h.best
  gathered :=
    { sampled := fun ex f hp => (h.gathered.sampled ex f hp).grow hgrow
      fenced := fun ex f hp => (h.gathered.fenced ex f hp).trans (hgrow.view _)
      later := by
        rw [hserved]
        exact h.gathered.later }
  handed ex := (h.handed ex).trans (hgrow.view _)

theorem ServedOk.grow {q : ServedCall} (h : ServedOk x q) (hgrow : x.Grows x') : ServedOk x' q where
  inputs := h.inputs
  sampled ex hex f := (h.sampled ex hex f).grow hgrow

/-- A step of the other threads. -/
theorem Ok.grow (h : Ok owner x) (hgrow : x.Grows x') (hwritten : x'.Written owner)
    (hhanded : ∀ ex, x'.handed ex ≤ x'.memory.view .exec (ex, .lastUpdateNs))
    (hreading : x'.reading = x.reading) (hserved : x'.served = x.served) : Ok owner x' where
  written := hwritten
  handed := hhanded
  reading c hc := (h.reading c (hreading ▸ hc)).grow hgrow hserved
  served q hq := (h.served q (hserved ▸ hq)).grow hgrow
  order := hserved ▸ h.order

/-- What a load adds to the loaded fields. -/
def LoadedAfter (c : ReadCall) (ex : ℕ) (f : SnapshotField) : Prop :=
  Loaded c ex f ∨ ex = c.exchange ∧ f = c.next

theorem afterLoad_grows (choice : ℕ) (c : ReadCall) (x : SnapshotSystem) :
    x.Grows (afterLoad choice c x) where
  log _ := List.prefix_refl _
  view l :=
    Access.view_le x.memory (.load c.next.loadOrder SnapshotThread.exec (c.exchange, c.next) choice) .exec l

/-- The stamp is loaded before any other field. -/
theorem stamp_loaded (h : c.next ≠ .lastUpdateNs) : Loaded c c.exchange .lastUpdateNs := by
  refine Or.inr ⟨rfl, ?_⟩
  cases hnext : c.next with
  | lastUpdateNs => exact absurd hnext h
  | _ => simp [SnapshotField.loadRank]

theorem next_not_loaded (c : ReadCall) : ¬ Loaded c c.exchange c.next := by
  rintro (hlt | ⟨-, hlt⟩)
  · exact absurd hlt (lt_irrefl _)
  · exact absurd hlt (lt_irrefl _)

theorem next_ne_stamp (h : Loaded c c.exchange f) : c.next ≠ .lastUpdateNs := by
  intro heq
  rcases h with hlt | ⟨-, hlt⟩
  · exact absurd hlt (lt_irrefl _)
  · rw [heq] at hlt
    exact absurd hlt (Nat.not_lt_zero _)

theorem loadField_picks (choice : ℕ) (m : SnapshotMemory) (h : ¬ (ex = c.exchange ∧ f = c.next)) :
    (loadField choice c m).picks ex f = c.picks ex f := by
  by_cases hex : ex = c.exchange
  · subst hex
    have hf : f ≠ c.next := fun heq => h ⟨rfl, heq⟩
    simp only [loadField, Function.update_self, Function.update_of_ne hf]
  · simp only [loadField, Function.update_of_ne hex]

theorem loadField_readings (choice : ℕ) (m : SnapshotMemory) (h : ¬ (ex = c.exchange ∧ f = c.next)) :
    ((loadField choice c m).readings ex).field f = (c.readings ex).field f := by
  by_cases hex : ex = c.exchange
  · subst hex
    have hf : f ≠ c.next := fun heq => h ⟨rfl, heq⟩
    simp only [loadField, Function.update_self]
    exact ExchangeSnapshot.field_setField_of_ne _ hf _
  · simp only [loadField, Function.update_of_ne hex]

theorem loadField_picks_next (choice : ℕ) (m : SnapshotMemory) :
    (loadField choice c m).picks c.exchange c.next = m.index .exec (c.exchange, c.next) choice := by
  simp only [loadField, Function.update_self]

theorem loadField_readings_next (choice : ℕ) (m : SnapshotMemory) :
    ((loadField choice c m).readings c.exchange).field c.next =
      (m.read .exec (c.exchange, c.next) choice).value := by
  simp only [loadField, Function.update_self, ExchangeSnapshot.field_setField_self]

/-- The stamp of an exchange is not loaded again. -/
theorem loadField_stamp (choice : ℕ) (m : SnapshotMemory) (h : Loaded c ex f) :
    (loadField choice c m).picks ex .lastUpdateNs = c.picks ex .lastUpdateNs := by
  apply loadField_picks
  rintro ⟨rfl, heq⟩
  exact next_ne_stamp h heq.symm

/-- With a stamp the thread learns of all fields of its update. -/
theorem stampLoad_view (h : x.Written owner) (hstamp : c.next = .lastUpdateNs) (choice : ℕ)
    (f : SnapshotField) :
    x.memory.index .exec (c.exchange, c.next) choice ≤
      (afterLoad choice c x).memory.view .exec (c.exchange, f) := by
  simp only [afterLoad, hstamp]
  by_cases hf : f = .lastUpdateNs
  · subst hf
    exact Access.index_le_view _ _ _
  · exact (h.published c.exchange f hf).acquired _ _

/-- A load keeps what was gathered and adds the field it loads: at least as new as what the thread
knew, and so as new as the stamp. -/
theorem loadField_gathered (h : ReadOk x c) (hx : Ok owner x) (choice : ℕ) :
    Gathered (afterLoad choice c x) (loadField choice c x.memory) (LoadedAfter c) := by
  have hgrow := afterLoad_grows choice c x
  have hindex := x.memory.view_le_index .exec (c.exchange, c.next) choice
  have hknown : x.memory.index .exec (c.exchange, c.next) choice ≤
      (afterLoad choice c x).memory.view .exec (c.exchange, c.next) :=
    Access.index_le_view _ _ _
  refine ⟨fun ex f hp => ?_, fun ex f hp => ?_, fun q hq ex hex f hp => ?_⟩
  · rcases hp with hp | ⟨rfl, rfl⟩
    · have hsampled := (h.gathered.sampled ex f hp).grow hgrow
      have hold : ¬ (ex = c.exchange ∧ f = c.next) := by
        rintro ⟨rfl, rfl⟩
        exact next_not_loaded c hp
      have hpick := loadField_picks choice x.memory hold
      have hstamp := loadField_stamp choice x.memory hp
      refine ⟨?_, ?_, ?_, ?_⟩
      · rw [hpick, loadField_readings choice x.memory hold]
        exact hsampled.value
      · rw [hpick, hstamp]
        exact hsampled.stamped
      · rw [hpick]
        exact hsampled.known
      · rw [hstamp]
        exact hsampled.handed
    · have hvalue := x.memory.getElem?_index .exec (c.exchange, c.next) choice
      obtain ⟨hlt, hget⟩ := List.getElem?_eq_some_iff.mp hvalue
      refine ⟨?_, ?_, ?_, ?_⟩
      · rw [loadField_picks_next, loadField_readings_next, ← hget]
        exact List.prefix_iff_getElem?.mp (hx.written.values c.exchange c.next) _ hlt
      · by_cases hstamp : c.next = .lastUpdateNs
        · rw [hstamp]
        · have hloaded := stamp_loaded hstamp
          rw [loadField_stamp choice x.memory hloaded, loadField_picks_next]
          exact (h.gathered.fenced c.exchange c.next hloaded).trans hindex
      · rw [loadField_picks_next]
        exact hknown
      · by_cases hstamp : c.next = .lastUpdateNs
        · rw [← hstamp, loadField_picks_next]
          rw [hstamp] at hindex ⊢
          exact (h.handed c.exchange).trans hindex
        · have hloaded := stamp_loaded hstamp
          rw [loadField_stamp choice x.memory hloaded]
          exact (h.gathered.sampled c.exchange .lastUpdateNs hloaded).handed
  · rcases hp with hp | ⟨rfl, hstamp⟩
    · rw [loadField_stamp choice x.memory hp]
      exact (h.gathered.fenced ex f hp).trans (hgrow.view _)
    · rw [hstamp, loadField_picks_next]
      exact stampLoad_view hx.written hstamp.symm choice f
  · rcases hp with hp | ⟨rfl, rfl⟩
    · have hold : ¬ (ex = c.exchange ∧ f = c.next) := by
        rintro ⟨rfl, rfl⟩
        exact next_not_loaded c hp
      rw [loadField_picks choice x.memory hold]
      exact h.gathered.later q hq ex hex f hp
    · rw [loadField_picks_next]
      exact ((hx.served q hq).sampled c.exchange hex c.next).known.trans hindex

theorem Gathered.advance {c' : ReadCall} {P P' : ℕ → SnapshotField → Prop} (h : Gathered x c P)
    (hgrow : x.Grows x') (hserved : x'.served = x.served) (hhanded : c'.handed = c.handed)
    (hreadings : c'.readings = c.readings) (hpicks : c'.picks = c.picks) (himp : ∀ ex f, P' ex f → P ex f) :
    Gathered x' c' P' := by
  refine ⟨fun ex f hp => ?_, fun ex f hp => ?_, fun q hq ex hex f hp => ?_⟩
  · rw [hhanded, hreadings, hpicks]
    exact (h.sampled ex f (himp ex f hp)).grow hgrow
  · rw [hpicks]
    exact (h.fenced ex f (himp ex _ hp)).trans (hgrow.view _)
  · rw [hpicks]
    exact h.later q (hserved ▸ hq) ex hex f (himp ex f hp)

theorem nextLoad_rank {g : SnapshotField} (h : f.nextLoad = some g) (f' : SnapshotField)
    (hlt : f'.loadRank < g.loadRank) : f'.loadRank < f.loadRank ∨ f' = f := by
  cases f <;> cases h <;> cases f' <;> simp [SnapshotField.loadRank] at hlt ⊢

theorem lastLoad_rank (h : f.nextLoad = none) (f' : SnapshotField) :
    f'.loadRank < f.loadRank ∨ f' = f := by
  cases f <;> cases h
  cases f' <;> simp [SnapshotField.loadRank]

theorem scanned_loadField (choice : ℕ) (m : SnapshotMemory) :
    scanned (loadField choice c m) = scanned c := by
  refine List.foldl_ext _ _ _ fun best ex hex => ?_
  have hne : ex ≠ c.exchange := (List.mem_range.mp hex).ne
  simp only [BookSnapshotCache.keepFresher, loadField, Function.update_of_ne hne]

theorem scanned_consider (h : c.best = scanned c) : (consider c).best = scanned (consider c) := by
  simp only [consider, scanned, List.range_succ, List.foldl_append, List.foldl_cons, List.foldl_nil]
  rw [h]
  rfl

/-- The scan of all exchanges is the one of `get_routing_inputs`. -/
theorem scanned_all (hall : c.exchange + 1 = kMaxExchanges)
    (hbest : (consider c).best = scanned (consider c)) :
    (serve (consider c)).inputs =
      (⟨c.readings⟩ : BookSnapshotCache).getRoutingInputs c.dir c.nowNs := by
  have hexchange : (consider c).exchange = kMaxExchanges := hall
  simp only [serve, hbest, scanned, hexchange]
  rfl

theorem request_ok (h : Ok owner x) (dir : OrderDir) (nowNs : UInt64) : Ok owner (request dir nowNs x) := by
  have hwritten : (request dir nowNs x).Written owner := step_written h.written (.request dir nowNs)
  simp only [request] at hwritten ⊢
  split at hwritten
  · exact h
  · refine ⟨hwritten, h.handed, fun c hc => ?_, fun q hq => (h.served q hq).grow (.of_same rfl rfl), h.order⟩
    cases hc
    have hnone (ex : ℕ) (f : SnapshotField) : ¬ (ex < 0 ∨ ex = 0 ∧ f.loadRank < 0) := by omega
    exact ⟨(by decide : 0 < kMaxExchanges), rfl, ⟨fun ex f hp => absurd hp (hnone ex f),
      fun ex f hp => absurd hp (hnone ex _), fun q _ ex _ f hp => absurd hp (hnone ex f)⟩, h.handed⟩

/-- The call goes on, with the field it has loaded. -/
theorem Ok.readOn (h : Ok owner x) (hc : ReadOk x c) (choice : ℕ) {c' : ReadCall}
    (hwritten : ({ afterLoad choice c x with reading := some c' } : SnapshotSystem).Written owner)
    (hbound : c'.exchange < kMaxExchanges) (hbest : c'.best = scanned c')
    (hhanded : c'.handed = c.handed) (hreadings : c'.readings = (loadField choice c x.memory).readings)
    (hpicks : c'.picks = (loadField choice c x.memory).picks)
    (hloaded : ∀ ex f, Loaded c' ex f → LoadedAfter c ex f) :
    Ok owner { afterLoad choice c x with reading := some c' } := by
  have hgrow := afterLoad_grows choice c x
  refine ⟨hwritten, fun ex => (h.handed ex).trans (hgrow.view _), fun c₁ hc₁ => ?_,
    fun q hq => ((h.served q hq).grow hgrow).grow (.of_same rfl rfl), h.order⟩
  cases hc₁
  refine ⟨hbound, hbest, (loadField_gathered hc h choice).advance (.of_same rfl rfl) rfl hhanded hreadings
    hpicks hloaded, fun ex => ?_⟩
  rw [hhanded]
  exact (hc.handed ex).trans (hgrow.view _)

theorem execStep_ok (h : Ok owner x) (choice : ℕ) : Ok owner (execStep choice x) := by
  have hwritten : (execStep choice x).Written owner := step_written h.written (.execStep choice)
  cases hreading : x.reading with
  | none =>
    simp only [execStep, hreading]
    exact h
  | some c =>
    have hread := h.reading c hreading
    have hbest : (loadField choice c x.memory).best = scanned (loadField choice c x.memory) := by
      rw [scanned_loadField]
      exact hread.best
    simp only [execStep, hreading] at hwritten ⊢
    cases hnext : c.next.nextLoad with
    | some f =>
      simp only [hnext] at hwritten ⊢
      refine h.readOn hread choice hwritten hread.bound hbest rfl rfl rfl fun ex f' hp => ?_
      rcases hp with hlt | ⟨heq, hlt⟩
      · exact Or.inl (Or.inl hlt)
      · rcases nextLoad_rank hnext f' hlt with hlt | rfl
        · exact Or.inl (Or.inr ⟨heq, hlt⟩)
        · exact Or.inr ⟨heq, rfl⟩
    | none =>
      have hcomplete (ex : ℕ) (f : SnapshotField) (hex : ex < c.exchange + 1) : LoadedAfter c ex f := by
        rcases Nat.lt_succ_iff_lt_or_eq.mp hex with hlt | rfl
        · exact Or.inl (Or.inl hlt)
        · rcases lastLoad_rank hnext f with hlt | rfl
          · exact Or.inl (Or.inr ⟨rfl, hlt⟩)
          · exact Or.inr ⟨rfl, rfl⟩
      simp only [hnext] at hwritten ⊢
      split at hwritten
      · rename_i hmore
        rw [if_pos hmore]
        refine h.readOn hread choice hwritten hmore (scanned_consider hbest) rfl rfl rfl fun ex f hp => ?_
        rcases hp with hlt | ⟨-, hlt⟩
        · exact hcomplete ex f hlt
        · exact absurd hlt (Nat.not_lt_zero _)
      · rename_i hlast
        rw [if_neg hlast]
        have hgathered := loadField_gathered hread h choice
        have hgrow := afterLoad_grows choice c x
        have hall : c.exchange + 1 = kMaxExchanges := by
          have hbound := hread.bound
          omega
        refine ⟨hwritten, fun ex => (h.handed ex).trans (hgrow.view _), fun c' hc' => (by cases hc'),
          fun q hq => ?_, ?_⟩
        · rcases List.mem_append.mp hq with hq | hq
          · exact ((h.served q hq).grow hgrow).grow (.of_same rfl rfl)
          · obtain rfl := List.mem_singleton.mp hq
            refine ⟨?_, fun ex hex f =>
              (hgathered.sampled ex f (hcomplete ex f (hall ▸ hex))).grow (.of_same rfl rfl)⟩
            exact scanned_all hall (scanned_consider hbest)
        · refine List.pairwise_append.mpr ⟨h.order, List.pairwise_singleton _ _, fun q hq q' hq' => ?_⟩
          obtain rfl := List.mem_singleton.mp hq'
          exact fun ex hex f => hgathered.later q hq ex hex f (hcomplete ex f (hall ▸ hex))

theorem handOff_ok (h : Ok owner x) (t t' : SnapshotThread) : Ok owner (handOff owner t t' x) := by
  have hgrow : x.Grows (handOff owner t t' x) :=
    ⟨fun _ => List.prefix_refl _, fun l => Access.view_le x.memory (.handOff t t') .exec l⟩
  refine h.grow hgrow (step_written h.written (.handOff t t')) (fun ex => ?_) rfl rfl
  simp only [handOff]
  split
  · rename_i hfeed
    obtain ⟨rfl, rfl⟩ := hfeed
    have hwriter := h.written.writer ex .lastUpdateNs
    have hview := Access.view_le_handOff (m := x.memory) (l := ((ex, .lastUpdateNs) : SnapshotCell))
      (.feed (owner ex)) .exec
    rw [Memory.values_length]
    omega
  · exact (h.handed ex).trans (hgrow.view _)

theorem step_ok (h : Ok owner x) (a : SnapshotAction) : Ok owner (step owner a x) := by
  have hwritten := step_written h.written a
  cases a with
  | update ex s =>
    have hgrow : x.Grows (beginUpdate owner ex s x) := by
      unfold beginUpdate
      split
      · refine ⟨fun ex' => ?_, fun _ => le_rfl⟩
        by_cases hex : ex' = ex
        · subst hex
          simp
        · simp [Function.update_of_ne hex]
      · exact .of_same rfl rfl
    have hhanded : (beginUpdate owner ex s x).handed = x.handed := by
      unfold beginUpdate
      split <;> rfl
    refine h.grow hgrow hwritten (fun ex' => ?_) ?_ ?_
    · exact (congrFun hhanded ex').trans_le ((h.handed ex').trans (hgrow.view _))
    · simp only [step, beginUpdate]
      split <;> rfl
    · simp only [step, beginUpdate]
      split <;> rfl
  | feedStep n =>
    cases hcall : x.updates n with
    | none =>
      simp only [step, feedStep_of_none hcall]
      exact h
    | some c =>
      simp only [step, feedStep, hcall] at hwritten ⊢
      have hview := Access.view_le x.memory (.store c.next.storeOrder (.feed n) (c.exchange, c.next)
        (c.snapshot.field c.next)) .exec
      exact h.grow ⟨fun _ => List.prefix_refl _, hview⟩ hwritten
        (fun ex => (h.handed ex).trans (hview _)) rfl rfl
  | request dir nowNs => exact request_ok h dir nowNs
  | execStep choice => exact execStep_ok h choice
  | handOff t t' => exact handOff_ok h t t'

theorem init_ok : Ok owner init where
  written := init_written
  handed _ := le_rfl
  reading _ h := by cases h
  served _ h := by cases h
  order := List.Pairwise.nil

theorem run_ok (owner : ℕ → ℕ) (acts : List SnapshotAction) : Ok owner (run (step owner) init acts) := by
  have hall : Along (step owner) (fun _ _ => True) init acts := along_true
  exact hall.invariant (Ok owner) (fun a _ hx _ => step_ok hx a) init_ok

end Reader

section Served
variable {log : ℕ → List ExchangeSnapshot} {q : ServedCall}

/-- A call that has returned, seen from the updates there were. -/
structure Faithful (log : ℕ → List ExchangeSnapshot) (q : ServedCall) : Prop where
  inputs : q.inputs = (⟨q.readings⟩ : BookSnapshotCache).getRoutingInputs q.dir q.nowNs
  value : ∀ ex < kMaxExchanges, ∀ f,
    ((log ex).map (ExchangeSnapshot.field · f))[q.picks ex f]? = some ((q.readings ex).field f)
  stamped : ∀ ex < kMaxExchanges, ∀ f, q.picks ex .lastUpdateNs ≤ q.picks ex f
  handed : ∀ ex < kMaxExchanges, q.handed ex ≤ q.picks ex .lastUpdateNs

theorem ServedOk.faithful {x : SnapshotSystem} (h : ServedOk x q) : Faithful x.log q where
  inputs := h.inputs
  value ex hex f := (h.sampled ex hex f).value
  stamped ex hex f := (h.sampled ex hex f).stamped
  handed ex hex := (h.sampled ex hex .lastUpdateNs).handed

theorem Faithful.logged (h : Faithful log q) {ex : ℕ} (hex : ex < kMaxExchanges) (f : SnapshotField) :
    ∃ s, (log ex)[q.picks ex f]? = some s ∧ s.field f = (q.readings ex).field f := by
  have hvalue := h.value ex hex f
  rw [List.getElem?_map] at hvalue
  exact Option.map_eq_some_iff.mp hvalue

theorem ext_field {s s' : ExchangeSnapshot} (h : ∀ f, s.field f = s'.field f) : s = s' := by
  have hvol : s.volFactor = s'.volFactor := h .volFactor
  have himb : s.bookImbalance = s'.bookImbalance := h .bookImbalance
  have hmid : s.midPriceUsd = s'.midPriceUsd := h .midPriceUsd
  have hstamp : s.lastUpdateNs = s'.lastUpdateNs := h .lastUpdateNs
  cases s
  cases s'
  simp only at hvol himb hmid hstamp
  rw [hvol, himb, hmid, hstamp]

/-- A reading whose stamp is of the last update is that update. -/
theorem Faithful.untorn (h : Faithful log q) {ex : ℕ} (hex : ex < kMaxExchanges)
    (hlast : (log ex).length = q.picks ex .lastUpdateNs + 1) :
    (log ex)[q.picks ex .lastUpdateNs]? = some (q.readings ex) := by
  obtain ⟨s, hs, -⟩ := h.logged hex .lastUpdateNs
  rw [hs]
  refine congrArg some (ext_field fun f => ?_)
  obtain ⟨s', hs', hfield⟩ := h.logged hex f
  have hlt := (List.getElem?_eq_some_iff.mp hs').1
  have hle := h.stamped ex hex f
  have hsame : q.picks ex f = q.picks ex .lastUpdateNs := by omega
  rw [hsame, hs] at hs'
  cases hs'
  exact hfield

/-- However updates, readings and hand-offs interleave and whatever stores the loads return, a call
routes on what it read of the updates: no field is from an earlier update than its stamp, no stamp
from an earlier one than was handed over, nothing from an earlier one than in the call before, and a
reading mixes updates only if one began after that of its stamp. -/
theorem reads_published (owner : ℕ → ℕ) (acts : List SnapshotAction) :
    let x := run (step owner) init acts
    (∀ q ∈ x.served, Faithful x.log q ∧ ∀ ex < kMaxExchanges,
      (x.log ex).length = q.picks ex .lastUpdateNs + 1 →
        (x.log ex)[q.picks ex .lastUpdateNs]? = some (q.readings ex)) ∧
    x.served.Pairwise ServedCall.NotAfter := by
  have hx := run_ok owner acts
  refine ⟨fun q hq => ?_, hx.order⟩
  have hfaithful := (hx.served q hq).faithful
  exact ⟨hfaithful, fun ex hex => hfaithful.untorn hex⟩

/-- The stamps of every exchange never go back. -/
def Stamped (log : ℕ → List ExchangeSnapshot) : Prop :=
  ∀ ex < kMaxExchanges, (log ex).Pairwise fun s s' => s.lastUpdateNs ≤ s'.lastUpdateNs

theorem Stamped.le (h : Stamped log) {ex i j : ℕ} (hex : ex < kMaxExchanges) (hij : i ≤ j)
    {s s' : ExchangeSnapshot} (hs : (log ex)[i]? = some s) (hs' : (log ex)[j]? = some s') :
    s.lastUpdateNs.toNat ≤ s'.lastUpdateNs.toNat := by
  obtain ⟨hi, rfl⟩ := List.getElem?_eq_some_iff.mp hs
  obtain ⟨hj, rfl⟩ := List.getElem?_eq_some_iff.mp hs'
  rcases hij.lt_or_eq with hlt | rfl
  · exact UInt64.le_iff_toNat_le.mp (List.pairwise_iff_getElem.mp (h ex hex) i j hi hj hlt)
  · exact le_rfl

theorem current_mono {s s' : ExchangeSnapshot} {nowNs : UInt64} (h : s.Current nowNs)
    (hle : s.lastUpdateNs.toNat ≤ s'.lastUpdateNs.toNat) : s'.Current nowNs :=
  ⟨h.1.trans_le hle, h.2.trans_le (Nat.add_le_add_right hle _)⟩

/-- What a field was read from is stamped no earlier than the reading. -/
theorem Faithful.source (h : Faithful log q) (hlog : Stamped log) {ex : ℕ} (hex : ex < kMaxExchanges)
    (f : SnapshotField) :
    ∃ s ∈ log ex, s.field f = (q.readings ex).field f ∧
      (q.readings ex).lastUpdateNs.toNat ≤ s.lastUpdateNs.toNat := by
  obtain ⟨s, hs, hfield⟩ := h.logged hex f
  obtain ⟨s', hs', hstamp⟩ := h.logged hex .lastUpdateNs
  have hle := hlog.le hex (h.stamped ex hex f) hs' hs
  have hsame : s'.lastUpdateNs = (q.readings ex).lastUpdateNs := hstamp
  exact ⟨s, List.mem_of_getElem? hs, hfield, hsame ▸ hle⟩

/-- A reading is stamped no earlier than what was handed over. -/
theorem Faithful.handedOver (h : Faithful log q) (hlog : Stamped log) {ex : ℕ} (hex : ex < kMaxExchanges)
    {s : ExchangeSnapshot} (hs : (log ex)[q.handed ex]? = some s) :
    s.lastUpdateNs.toNat ≤ (q.readings ex).lastUpdateNs.toNat := by
  obtain ⟨s', hs', hstamp⟩ := h.logged hex .lastUpdateNs
  have hsame : s'.lastUpdateNs = (q.readings ex).lastUpdateNs := hstamp
  exact hsame ▸ hlog.le hex (h.handed ex hex) hs hs'

/-- No stamp that was read is later than the clock. -/
def OnTime (q : ServedCall) : Prop :=
  ∀ ex < kMaxExchanges, (q.readings ex).lastUpdateNs.toNat ≤ q.nowNs.toNat

theorem OnTime.fresh (h : OnTime q) {ex : ℕ} (hex : ex < kMaxExchanges)
    (hcurrent : (q.readings ex).Current q.nowNs) : (q.readings ex).fresh q.nowNs = true :=
  ((q.readings ex).fresh_iff q.nowNs).mpr ⟨hcurrent, Or.inl (h ex hex)⟩

/-- The reading that is routed on is as late as all others. -/
theorem OnTime.latest (h : OnTime q) {i ex : ℕ} (hex : ex < kMaxExchanges)
    (hi : (⟨q.readings⟩ : BookSnapshotCache).Freshest q.nowNs i) :
    (q.readings ex).lastUpdateNs.toNat ≤ (q.readings i).lastUpdateNs.toNat := by
  by_cases hcurrent : (q.readings ex).Current q.nowNs
  · exact UInt64.le_iff_toNat_le.mp (hi.later ex hex (h.fresh hex hcurrent))
  · have hnewer := (((q.readings i).fresh_iff q.nowNs).mp hi.fresh).1.2
    unfold ExchangeSnapshot.Current at hcurrent
    omega

/-- Where stamps do not go back, fresh inputs are all from current updates, however torn the reading;
and unless a stamp has overtaken the clock, a current update that was handed over makes the inputs
fresh, and they are from updates as late as all that was handed over. -/
theorem served_current (owner : ℕ → ℕ) (acts : List SnapshotAction)
    (hlog : Stamped (run (step owner) init acts).log) :
    let x := run (step owner) init acts
    ∀ q ∈ x.served,
      (q.inputs.dataFresh = true → ∃ ex < kMaxExchanges, ∃ s ∈ x.log ex, ∃ s' ∈ x.log ex,
        s.Current q.nowNs ∧ s'.Current q.nowNs ∧
        q.inputs = ⟨s.volFactor, (s'.inputs q.dir).bookImbalance, true⟩ ∧
        (OnTime q → ∀ ex < kMaxExchanges, ∀ s₀, (x.log ex)[q.handed ex]? = some s₀ →
          s₀.lastUpdateNs ≤ s.lastUpdateNs ∧ s₀.lastUpdateNs ≤ s'.lastUpdateNs)) ∧
      (OnTime q → ∀ ex < kMaxExchanges, ∀ s₀, (x.log ex)[q.handed ex]? = some s₀ →
        s₀.Current q.nowNs → q.inputs.dataFresh = true) := by
  intro x q hq
  have h := ((run_ok owner acts).served q hq).faithful
  constructor
  · intro hfresh
    rw [h.inputs] at hfresh
    obtain ⟨i, hi⟩ := BookSnapshotCache.dataFresh_iff.mp hfresh
    have hcurrent := (((q.readings i).fresh_iff q.nowNs).mp hi.fresh).1
    obtain ⟨s, hs, hvol, hle⟩ := h.source hlog hi.bound .volFactor
    obtain ⟨s', hs', himb, hle'⟩ := h.source hlog hi.bound .bookImbalance
    have hsvol : s.volFactor = (q.readings i).volFactor := hvol
    have hsimb : s'.bookImbalance = (q.readings i).bookImbalance := himb
    refine ⟨i, hi.bound, s, hs, s', hs', current_mono hcurrent hle, current_mono hcurrent hle', ?_,
      fun htime ex hex s₀ hs₀ => ?_⟩
    · have hsigned : (s'.inputs q.dir).bookImbalance = ((q.readings i).inputs q.dir).bookImbalance := by
        simp only [ExchangeSnapshot.inputs, hsimb]
      rw [h.inputs, BookSnapshotCache.getRoutingInputs_freshest hi, hsvol, hsigned]
      rfl
    · have hlatest := (h.handedOver hlog hex hs₀).trans (htime.latest hex hi)
      exact ⟨UInt64.le_iff_toNat_le.mpr (hlatest.trans hle), UInt64.le_iff_toNat_le.mpr (hlatest.trans hle')⟩
  · intro htime ex hex s₀ hs₀ hcurrent
    have hnow := htime.fresh hex (current_mono hcurrent (h.handedOver hlog hex hs₀))
    rw [h.inputs]
    exact BookSnapshotCache.dataFresh_iff.mpr (BookSnapshotCache.exists_freshest hex hnow)

/-- A first update is stored and handed over, of a second one only the volatility is stored, and the
call reads the newest there is of everything. -/
def Sample.tornActs : List SnapshotAction :=
  .update 0 ⟨1 / 2, 1 / 4, 100, 1000⟩ :: List.replicate 4 (.feedStep 0) ++
    .handOff (.feed 0) .exec :: .update 0 ⟨3 / 4, -1 / 4, 101, 1500⟩ :: .feedStep 0 ::
    .request .buy 2000 :: List.replicate 20 (.execStep 9)

theorem served_current_torn :
    (run (step fun _ => 0) init Sample.tornActs).served.map ServedCall.inputs = [⟨3 / 4, 1 / 4, true⟩] ∧
    ∀ q ∈ (run (step fun _ => 0) init Sample.tornActs).served, ∃ ex < kMaxExchanges,
      ∃ s ∈ (run (step fun _ => 0) init Sample.tornActs).log ex,
      ∃ s' ∈ (run (step fun _ => 0) init Sample.tornActs).log ex,
        s.Current q.nowNs ∧ s'.Current q.nowNs ∧
        q.inputs = ⟨s.volFactor, (s'.inputs q.dir).bookImbalance, true⟩ := by
  have hlog : Stamped (run (step fun _ => 0) init Sample.tornActs).log := by
    unfold Stamped
    decide +kernel
  have hfresh : ∀ q ∈ (run (step fun _ => 0) init Sample.tornActs).served,
      q.inputs.dataFresh = true := by decide +kernel
  refine ⟨by decide +kernel, fun q hq => ?_⟩
  obtain ⟨ex, hex, s, hs, s', hs', hcurrent, hcurrent', hinputs, -⟩ :=
    (served_current (fun _ => 0) Sample.tornActs hlog q hq).1 (hfresh q hq)
  exact ⟨ex, hex, s, hs, s', hs', hcurrent, hcurrent', hinputs⟩

end Served

end SnapshotSystem

end OmsFormal.Oms
