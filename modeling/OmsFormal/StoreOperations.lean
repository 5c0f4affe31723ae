import OmsFormal.OrderStore

/-!
# The operations of the order store

Each way a handler touches the store, with the two facts every later argument
needs: it is local to one parent, and it keeps the structural invariant.
-/

namespace OmsFormal.Oms.OMSOrderPool
open Sor FreeStack
set_option autoImplicit false

variable {pool : OMSOrderPool} {idle : ℕ → Prop} {p : ℕ}

theorem inUse_of_parentFree {pool' : OMSOrderPool} (h : pool'.parentFree = pool.parentFree) (q : ℕ) :
    pool'.ParentInUse q ↔ pool.ParentInUse q := by
  simp only [ParentInUse, h]

theorem childInUse_of_childFree {pool' : OMSOrderPool} (h : pool'.childFree = pool.childFree) (c : ℕ) :
    pool'.ChildInUse c ↔ pool.ChildInUse c := by
  simp only [ChildInUse, h]

section Counters

/-- The records in use and both free lists are the same. -/
structure SameRecords (pool pool' : OMSOrderPool) : Prop where
  parents : ∀ q, pool.ParentInUse q → pool'.parents q = pool.parents q
  children : ∀ c, pool.ChildInUse c → pool'.children c = pool.children c
  parentFree : pool'.parentFree = pool.parentFree
  childFree : pool'.childFree = pool.childFree

theorem SameRecords.isLocal {pool' : OMSOrderPool} (h : SameRecords pool pool') (p : ℕ) :
    Local p pool pool' := by
  have huse (c : ℕ) : pool'.ChildInUse c ↔ pool.ChildInUse c := childInUse_of_childFree h.childFree c
  refine ⟨fun q _ => inUse_of_parentFree h.parentFree q, fun q _ hu => h.parents q hu, ?_, ?_⟩
  · intro c hc _
    exact ⟨(huse c).mpr hc, h.children c hc⟩
  · intro c hc hn
    rw [h.children c ((huse c).mp hc)] at hn
    exact ⟨(huse c).mp hc, hn⟩

theorem SameRecords.storeInv {pool' : OMSOrderPool} (h : SameRecords pool pool')
    (hinv : StoreInv idle pool) : StoreInv idle pool' := by
  -- no parent is touched, so each one is seen from its neighbour
  have hloc (q : ℕ) := h.isLocal (q + 1)
  refine ⟨h.parentFree ▸ hinv.parentFree, h.childFree ▸ hinv.childFree, ?_, ?_⟩
  · intro q
    exact (hloc q).parentOk (hinv.ok q) (Nat.ne_of_lt (Nat.lt_succ_self q))
  · intro q hu hn
    have hu' := (inUse_of_parentFree h.parentFree q).mp hu
    exact (hloc q).alive (hinv.ok q) (Nat.ne_of_lt (Nat.lt_succ_self q)) hu' (hinv.alive q hu' hn)

theorem SameRecords.modifyFree (hfree : ¬ pool.ParentInUse p) (f : ParentOrder → ParentOrder) :
    SameRecords pool (pool.modifyParent p f) :=
  ⟨fun q hu => Function.update_of_ne (fun he : q = p => hfree (he ▸ hu)) _ _, fun _ _ => rfl, rfl, rfl⟩

theorem SameRecords.modifyFreeChild {c : ℕ} (hfree : ¬ pool.ChildInUse c)
    (f : ChildOrderState → ChildOrderState) : SameRecords pool (pool.modifyChild c f) :=
  ⟨fun _ _ => rfl, fun x hx => Function.update_of_ne (fun he : x = c => hfree (he ▸ hx)) _ _, rfl, rfl⟩

end Counters

section ModifyParent
variable {f : ParentOrder → ParentOrder}

theorem modifyParent_local (pool : OMSOrderPool) (p : ℕ) (f : ParentOrder → ParentOrder) :
    Local p pool (pool.modifyParent p f) := by
  refine ⟨fun q _ => Iff.rfl, ?_, fun c hc _ => ⟨hc, rfl⟩, fun c hc hn => ⟨hc, hn⟩⟩
  intro q hq _
  exact Function.update_of_ne hq _ _

theorem modifyParent_parentOk (hf : ParentOrder.SameSlots (pool.parents p) (f (pool.parents p)))
    (hok : pool.ParentOk p) : (pool.modifyParent p f).ParentOk p := by
  have hids := hf.childIds
  constructor <;>
    simp only [modifyParent_parents, modifyParent_children, Function.update_self, hf.parentId,
      hf.instrId, hids]
  · exact hok.parentId
  · exact hok.instr
  · exact fun hu => hf.packed (hok.packed hu)
  · exact hok.nodup
  · exact hok.owned
  · exact hok.owner
  · exact hok.childId
  · exact hok.settled

theorem modifyParent_alive (hf : ParentOrder.SameSlots (pool.parents p) (f (pool.parents p)))
    (h : pool.Alive p) : (pool.modifyParent p f).Alive p := by
  obtain ⟨c, hc, hw⟩ := h
  refine ⟨c, ?_, hw⟩
  simp only [modifyParent_parents, Function.update_self, hf.childIds]
  exact hc

/-- A change of a parent's own numbers. -/
theorem modifyParent_storeInv (hf : ParentOrder.SameSlots (pool.parents p) (f (pool.parents p)))
    (hinv : StoreInv idle pool) : StoreInv idle (pool.modifyParent p f) :=
  (modifyParent_local pool p f).storeInv hinv hinv.parentFree hinv.childFree
    (modifyParent_parentOk hf (hinv.ok p))
    (fun hu hn => modifyParent_alive hf (hinv.alive p hu hn)) (fun _ _ h => h)

end ModifyParent

section ModifyChild
variable {c : ℕ} {f : ChildOrderState → ChildOrderState}

theorem modifyChild_local (hc : (pool.children c).parentId = p)
    (hf : (f (pool.children c)).parentId = (pool.children c).parentId) :
    Local p pool (pool.modifyChild c f) := by
  refine ⟨fun q _ => Iff.rfl, fun q _ _ => rfl, ?_, ?_⟩
  · intro x hx hn
    refine ⟨hx, Function.update_of_ne ?_ _ _⟩
    rintro rfl
    exact hn hc
  · intro x hx hn
    refine ⟨hx, ?_⟩
    by_cases hxc : x = c
    · subst hxc
      rwa [modifyChild_children, Function.update_self, hf] at hn
    · rwa [modifyChild_children, Function.update_of_ne hxc] at hn

/-- A report for child `c` may end it, so its parent may be left without a working child. -/
theorem modifyChild_storeInv (hc : (pool.children c).parentId = p)
    (hparent : (f (pool.children c)).parentId = (pool.children c).parentId)
    (hchild : (f (pool.children c)).childId = (pool.children c).childId)
    (hset : (f (pool.children c)).state.working = true ∨ (f (pool.children c)).state.terminal = true)
    (hinv : StoreInv idle pool) : StoreInv (fun q => idle q ∨ q = p) (pool.modifyChild c f) := by
  have hok := hinv.ok p
  have hsame (x : ℕ) : (Function.update pool.children c (f (pool.children c)) x).parentId =
      (pool.children x).parentId := by
    by_cases hxc : x = c
    · subst hxc
      rw [Function.update_self, hparent]
    · rw [Function.update_of_ne hxc]
  refine (modifyChild_local hc hparent).storeInv hinv hinv.parentFree hinv.childFree ?_
    (fun _ hn => absurd (Or.inr rfl) hn) (fun _ _ h => Or.inl h)
  constructor <;> simp only [modifyChild_parents, modifyChild_children, hsame]
  · exact hok.parentId
  · exact hok.instr
  · exact hok.packed
  · exact hok.nodup
  · exact hok.owned
  · exact hok.owner
  · intro x hx hxp
    by_cases hxc : x = c
    · subst hxc
      rw [Function.update_self, hchild]
      exact hok.childId x hx hxp
    · rw [Function.update_of_ne hxc]
      exact hok.childId x hx hxp
  · intro x hx hxp
    by_cases hxc : x = c
    · subst hxc
      rw [Function.update_self]
      exact hset
    · rw [Function.update_of_ne hxc]
      exact hok.settled x hx hxp

end ModifyChild

section Attach

/-- A freshly allocated child put into the next slot of parent `p`. -/
def attachChild (p cid : ℕ) (rest : List ℕ) (child : ChildOrderState) (pool : OMSOrderPool) :
    OMSOrderPool :=
  { pool with
    childFree := rest
    children := Function.update pool.children cid child
    parents := Function.update pool.parents p
      ((pool.parents p).addChild (pool.parents p).childCount cid) }

variable {cid : ℕ} {rest : List ℕ} {child : ChildOrderState}

theorem attach_childInUse (p : ℕ) (child : ChildOrderState) (hinv : StoreInv idle pool)
    (hfree : pool.childFree = cid :: rest) (x : ℕ) :
    (pool.attachChild p cid rest child).ChildInUse x ↔ x = cid ∨ pool.ChildInUse x := by
  have hvalid := hinv.childFree
  rw [hfree] at hvalid
  have h := inUse_tail_iff hvalid x
  rw [← hfree] at h
  exact h

theorem attach_fresh (hfree : pool.childFree = cid :: rest) : ¬ pool.ChildInUse cid := by
  intro h
  rw [ChildInUse, hfree] at h
  exact not_inUse_head h

theorem attach_local (child : ChildOrderState) (hinv : StoreInv idle pool)
    (hfree : pool.childFree = cid :: rest)
    (hparent : child.parentId = p) : Local p pool (pool.attachChild p cid rest child) := by
  have hfresh := attach_fresh hfree
  refine ⟨fun q _ => Iff.rfl, fun q hq _ => Function.update_of_ne hq _ _, ?_, ?_⟩
  · intro x hx _
    have hne : x ≠ cid := fun he => hfresh (he ▸ hx)
    exact ⟨(attach_childInUse p child hinv hfree x).mpr (Or.inr hx), Function.update_of_ne hne _ _⟩
  · intro x hx hn
    have hne : x ≠ cid := by
      rintro rfl
      exact hn (by simpa [attachChild] using hparent)
    refine ⟨((attach_childInUse p child hinv hfree x).mp hx).resolve_left hne, ?_⟩
    simpa [attachChild, Function.update_of_ne hne] using hn

theorem attach_childIds (cid : ℕ) (rest : List ℕ) (child : ChildOrderState) (hok : pool.ParentOk p)
    (hu : pool.ParentInUse p)
    (hroom : (pool.parents p).childCount < ParentOrder.kMaxChildrenPerParent) :
    ((pool.attachChild p cid rest child).parents p).childIds =
      (pool.parents p).childIds ++ [cid] := by
  simp only [attachChild, Function.update_self]
  exact ParentOrder.addChild_childIds (hok.packed hu) hroom cid

theorem attach_parentOk (hinv : StoreInv idle pool) (hu : pool.ParentInUse p)
    (hfree : pool.childFree = cid :: rest)
    (hroom : (pool.parents p).childCount < ParentOrder.kMaxChildrenPerParent)
    (hparent : child.parentId = p) (hchild : child.childId = cid)
    (hworking : child.state.working = true) : (pool.attachChild p cid rest child).ParentOk p := by
  have hok := hinv.ok p
  have hfresh := attach_fresh hfree
  have hids := attach_childIds cid rest child hok hu hroom
  have hold {x : ℕ} (hx : pool.ChildInUse x) :
      (pool.attachChild p cid rest child).children x = pool.children x :=
    Function.update_of_ne (fun he : x = cid => hfresh (he ▸ hx)) _ _
  have hnew : (pool.attachChild p cid rest child).children cid = child := Function.update_self _ _ _
  have huse := attach_childInUse p child hinv hfree
  refine ⟨?_, ?_, ?_, ?_, ?_, ?_, ?_, ?_⟩
  · intro _
    simpa [attachChild, ParentOrder.addChild] using hok.parentId hu
  · intro _
    simpa [attachChild, ParentOrder.addChild] using hok.instr hu
  · intro _
    simpa [attachChild] using ParentOrder.addChild_packed (hok.packed hu) hroom cid
  · intro _
    rw [hids]
    refine List.nodup_append.mpr ⟨hok.nodup hu, List.nodup_singleton cid, ?_⟩
    rintro x hx y hy rfl
    rw [List.mem_singleton.mp hy] at hx
    exact hfresh (hok.owned hu cid hx).1
  · intro _ x hx
    rw [hids] at hx
    rcases List.mem_append.mp hx with hx | hx
    · obtain ⟨hxu, hxp⟩ := hok.owned hu x hx
      exact ⟨(huse x).mpr (Or.inr hxu), by rw [hold hxu]; exact hxp⟩
    · rw [List.mem_singleton.mp hx]
      exact ⟨(huse cid).mpr (Or.inl rfl), by rw [hnew]; exact hparent⟩
  · intro x hx hxp
    refine ⟨hu, ?_⟩
    rw [hids]
    rcases (huse x).mp hx with rfl | hxu
    · exact List.mem_append.mpr (Or.inr (List.mem_singleton.mpr rfl))
    · rw [hold hxu] at hxp
      exact List.mem_append.mpr (Or.inl (hok.owner x hxu hxp).2)
  · intro x hx hxp
    rcases (huse x).mp hx with rfl | hxu
    · rw [hnew]
      exact hchild
    · rw [hold hxu] at hxp ⊢
      exact hok.childId x hxu hxp
  · intro x hx hxp
    rcases (huse x).mp hx with rfl | hxu
    · rw [hnew]
      exact Or.inl hworking
    · rw [hold hxu] at hxp ⊢
      exact hok.settled x hxu hxp

theorem attach_alive (hok : pool.ParentOk p) (hu : pool.ParentInUse p)
    (hroom : (pool.parents p).childCount < ParentOrder.kMaxChildrenPerParent)
    (hworking : child.state.working = true) : (pool.attachChild p cid rest child).Alive p := by
  refine ⟨cid, ?_, ?_⟩
  · rw [attach_childIds cid rest child hok hu hroom]
    exact List.mem_append.mpr (Or.inr (List.mem_singleton.mpr rfl))
  · simpa [attachChild] using hworking

/-- After one dispatched child the parent is no longer idle. -/
theorem attach_storeInv (child : ChildOrderState) (hinv : StoreInv idle pool) (hu : pool.ParentInUse p)
    (hfree : pool.childFree = cid :: rest)
    (hroom : (pool.parents p).childCount < ParentOrder.kMaxChildrenPerParent)
    (hparent : child.parentId = p) (hchild : child.childId = cid)
    (hworking : child.state.working = true) :
    StoreInv (fun q => idle q ∧ q ≠ p) (pool.attachChild p cid rest child) := by
  have hvalid := hinv.childFree
  rw [hfree] at hvalid
  exact (attach_local child hinv hfree hparent).storeInv hinv hinv.parentFree hvalid.tail
    (attach_parentOk hinv hu hfree hroom hparent hchild hworking)
    (fun _ _ => attach_alive (hinv.ok p) hu hroom hworking) (fun q hq h => ⟨h, hq⟩)

end Attach

section Release

/-- The store after a reroute has freed all children of `p`. -/
def clearChildren (p : ℕ) (pool : OMSOrderPool) : OMSOrderPool :=
  { pool with
    childFree := (pool.parents p).childIds.reverse ++ pool.childFree
    parents := Function.update pool.parents p { pool.parents p with childCount := 0, childMask := 0 } }

/-- The store after a filled parent and all its children were freed. -/
def retire (p : ℕ) (rec : ParentOrder) (pool : OMSOrderPool) : OMSOrderPool :=
  { pool with
    childFree := (pool.parents p).childIds.reverse ++ pool.childFree
    parentFree := p :: pool.parentFree
    parents := Function.update pool.parents p rec }

theorem released_iff (hinv : StoreInv idle pool) (hu : pool.ParentInUse p) {free : List ℕ}
    (hfree : free = (pool.parents p).childIds.reverse ++ pool.childFree) (c : ℕ) :
    InUse kMaxTotalChildren free c ↔ pool.ChildInUse c ∧ (pool.children c).parentId ≠ p := by
  rw [hfree, inUse_append_iff, List.mem_reverse]
  constructor
  · rintro ⟨hc, hn⟩
    exact ⟨hc, fun hcp => hn ((hinv.ok p).owner c hc hcp).2⟩
  · rintro ⟨hc, hn⟩
    exact ⟨hc, fun hmem => hn ((hinv.ok p).owned hu c hmem).2⟩

theorem released_valid (hinv : StoreInv idle pool) (hu : pool.ParentInUse p) :
    Valid kMaxTotalChildren ((pool.parents p).childIds.reverse ++ pool.childFree) := by
  apply hinv.childFree.append
  · exact List.nodup_reverse.mpr ((hinv.ok p).nodup hu)
  · intro c hc
    exact ((hinv.ok p).owned hu c (List.mem_reverse.mp hc)).1

theorem clear_local (hinv : StoreInv idle pool) (hu : pool.ParentInUse p) :
    Local p pool (pool.clearChildren p) := by
  have huse (c : ℕ) : (pool.clearChildren p).ChildInUse c ↔ _ := released_iff hinv hu rfl c
  exact ⟨fun q _ => Iff.rfl, fun q hq _ => Function.update_of_ne hq _ _,
    fun c hc hn => ⟨(huse c).mpr ⟨hc, hn⟩, rfl⟩, fun c hc _ => (huse c).mp hc⟩

theorem clear_childIds (pool : OMSOrderPool) (p : ℕ) :
    ((pool.clearChildren p).parents p).childIds = [] := by
  simp only [clearChildren, Function.update_self]
  exact ParentOrder.childIds_eq_nil (ParentOrder.cleared_packed _) rfl

theorem clear_storeInv (hinv : StoreInv idle pool) (hu : pool.ParentInUse p) :
    StoreInv (fun q => idle q ∨ q = p) (pool.clearChildren p) := by
  have huse (c : ℕ) : (pool.clearChildren p).ChildInUse c ↔ _ := released_iff hinv hu rfl c
  have hids := clear_childIds pool p
  have hnone (c : ℕ) (hc : (pool.clearChildren p).ChildInUse c)
      (hcp : ((pool.clearChildren p).children c).parentId = p) : False := ((huse c).mp hc).2 hcp
  refine (clear_local hinv hu).storeInv hinv hinv.parentFree (released_valid hinv hu) ?_
    (fun _ hn => absurd (Or.inr rfl) hn) (fun _ _ h => Or.inl h)
  refine ⟨?_, ?_, ?_, ?_, ?_, fun c hc hcp => (hnone c hc hcp).elim,
    fun c hc hcp => (hnone c hc hcp).elim, fun c hc hcp => (hnone c hc hcp).elim⟩
  · intro _
    simpa [clearChildren] using (hinv.ok p).parentId hu
  · intro _
    simpa [clearChildren] using (hinv.ok p).instr hu
  · intro _
    simpa [clearChildren] using ParentOrder.cleared_packed (pool.parents p)
  · intro _
    rw [hids]
    exact List.nodup_nil
  · intro _ c hc
    rw [hids] at hc
    simp at hc

theorem retire_parentInUse (pool : OMSOrderPool) (p : ℕ) (rec : ParentOrder) (q : ℕ) :
    (pool.retire p rec).ParentInUse q ↔ pool.ParentInUse q ∧ q ≠ p := inUse_cons_iff q

theorem retire_gone (pool : OMSOrderPool) (p : ℕ) (rec : ParentOrder) :
    ¬ (pool.retire p rec).ParentInUse p := fun h => ((retire_parentInUse pool p rec p).mp h).2 rfl

theorem retire_local (hinv : StoreInv idle pool) (hu : pool.ParentInUse p) (rec : ParentOrder) :
    Local p pool (pool.retire p rec) := by
  have huse (c : ℕ) : (pool.retire p rec).ChildInUse c ↔ _ := released_iff hinv hu rfl c
  refine ⟨?_, fun q hq _ => Function.update_of_ne hq _ _,
    fun c hc hn => ⟨(huse c).mpr ⟨hc, hn⟩, rfl⟩, fun c hc _ => (huse c).mp hc⟩
  intro q hq
  rw [retire_parentInUse]
  exact ⟨fun h => h.1, fun h => ⟨h, hq⟩⟩

theorem retire_storeInv (hinv : StoreInv (fun q => idle q ∨ q = p) pool) (hu : pool.ParentInUse p)
    (rec : ParentOrder) : StoreInv idle (pool.retire p rec) := by
  have huse (c : ℕ) : (pool.retire p rec).ChildInUse c ↔ _ := released_iff hinv hu rfl c
  have hgone := retire_gone pool p rec
  have hnone (c : ℕ) (hc : (pool.retire p rec).ChildInUse c)
      (hcp : ((pool.retire p rec).children c).parentId = p) : False := ((huse c).mp hc).2 hcp
  refine (retire_local hinv hu rec).storeInv hinv (hinv.parentFree.cons hu) (released_valid hinv hu) ?_
    (fun h => absurd h hgone) (fun q hq h => h.resolve_right hq)
  exact ⟨fun h => absurd h hgone, fun h => absurd h hgone, fun h => absurd h hgone,
    fun h => absurd h hgone, fun h => absurd h hgone, fun c hc hcp => (hnone c hc hcp).elim,
    fun c hc hcp => (hnone c hc hcp).elim, fun c hc hcp => (hnone c hc hcp).elim⟩

end Release

section OpenParent

/-- A freshly allocated parent without children. -/
def openParent (p : ℕ) (rest : List ℕ) (rec : ParentOrder) (pool : OMSOrderPool) : OMSOrderPool :=
  { pool with parentFree := rest, parents := Function.update pool.parents p rec }

variable {rest : List ℕ} {rec : ParentOrder}

theorem open_parentInUse (hinv : StoreInv idle pool) (hfree : pool.parentFree = p :: rest) (q : ℕ) :
    (pool.openParent p rest rec).ParentInUse q ↔ q = p ∨ pool.ParentInUse q := by
  have hvalid := hinv.parentFree
  rw [hfree] at hvalid
  have h := inUse_tail_iff hvalid q
  rw [← hfree] at h
  exact h

theorem open_fresh (hfree : pool.parentFree = p :: rest) : ¬ pool.ParentInUse p := by
  intro h
  rw [ParentInUse, hfree] at h
  exact not_inUse_head h

theorem open_local (hinv : StoreInv idle pool) (hfree : pool.parentFree = p :: rest) :
    Local p pool (pool.openParent p rest rec) := by
  refine ⟨?_, fun q hq _ => Function.update_of_ne hq _ _, fun c hc _ => ⟨hc, rfl⟩,
    fun c hc hn => ⟨hc, hn⟩⟩
  intro q hq
  rw [open_parentInUse hinv hfree]
  exact ⟨fun h => h.resolve_left hq, Or.inr⟩

theorem open_storeInv (hinv : StoreInv idle pool) (hfree : pool.parentFree = p :: rest)
    (hid : rec.parentId = p) (hinstr : rec.instrId < kMaxInstruments) (hcount : rec.childCount = 0)
    (hmask : rec.childMask = 0) :
    StoreInv (fun q => idle q ∨ q = p) (pool.openParent p rest rec) := by
  have hvalid := hinv.parentFree
  rw [hfree] at hvalid
  have hrec : (pool.openParent p rest rec).parents p = rec := Function.update_self _ _ _
  have hpacked : rec.Packed := by
    refine ⟨by rw [hcount]; exact Nat.zero_le _, ?_⟩
    intro slot
    simp [ParentOrder.hasChild, hmask, hcount]
  have hids := ParentOrder.childIds_eq_nil hpacked hcount
  have hnone (c : ℕ) (hc : pool.ChildInUse c) : (pool.children c).parentId ≠ p :=
    fun hcp => open_fresh hfree ((hinv.ok p).owner c hc hcp).1
  refine (open_local hinv hfree).storeInv hinv hvalid.tail hinv.childFree ?_
    (fun _ hn => absurd (Or.inr rfl) hn) (fun _ _ h => Or.inl h)
  refine ⟨?_, ?_, ?_, ?_, ?_, fun c hc hcp => absurd hcp (hnone c hc),
    fun c hc hcp => absurd hcp (hnone c hc), fun c hc hcp => absurd hcp (hnone c hc)⟩
  · intro _
    rw [hrec]
    exact hid
  · intro _
    rw [hrec]
    exact hinstr
  · intro _
    rw [hrec]
    exact hpacked
  · intro _
    rw [hrec, hids]
    exact List.nodup_nil
  · intro _ c hc
    rw [hrec, hids] at hc
    simp at hc

end OpenParent

end OmsFormal.Oms.OMSOrderPool
