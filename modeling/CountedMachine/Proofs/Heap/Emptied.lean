import CountedMachine.Proofs.Heap.Clean

/-! # What is left of a clean heap

Suppose those who hold references from outside hold simple objects only, which refer to nothing and are in
no scope (`Simple`). When nothing is in the making and no scope is being filled, a clean heap has no other
objects (`Clean.held`). So its count of live objects is the number of the objects held from outside, all
scopes with room for members have been collected, and giving the references back leaves nothing
(`Clean.unrefAll_simple`). -/

namespace CountedMachine.Heap

variable {h h' : Heap} {R : Multiset ObjId} {r : ObjId} {c : Slot} {v : Value} {n : Nat}

/-- **The objects refer to nothing** and are in no scope. -/
def Simple (h : Heap) (R : Multiset ObjId) : Prop :=
  ∀ {x c}, x ∈ R → h.slot? x = some c → c.obj.owned = [] ∧ c.obj.scope? = none

theorem Simple.mono {S : Multiset ObjId} (hR : Simple h R) (hle : S ≤ R) : Simple h S :=
  fun hx hc => hR (Multiset.mem_of_le hle hx) hc

theorem Simple.onward (hR : Simple h R) (ho : Onward h h') : Simple h' R := fun {x c'} hx hc' => by
  obtain ⟨c, hc, e⟩ := ho.objs hc'
  rw [e]
  exact hR hx hc

namespace Clean

section
variable (hc : Clean h [] ∅ [] n) (hs : Sound h R []) (hR : Simple h R)
include hc hs hR

/-- **There are no objects but those held from outside.** -/
theorem held (hr : h.slot? r = some c) : r ∈ R :=
  hc.graded.held hs hc.swept hc.books (fun hx hslot => by
    obtain ⟨howned, hscope⟩ := hR hx hslot
    exact ⟨by rw [Object.refs, howned]; rfl, hscope⟩) hr

/-- **All scopes with room for members have been collected.** -/
theorem scopesCollected_eq : h.stats.scopesCollected = n := by
  refine hc.books.collected hc.consistent fun {g s} hg => List.eq_nil_iff_forall_not_mem.mpr fun m hm => ?_
  obtain ⟨cm, hcm⟩ := hs.grouped.live hg m hm
  have hnone := (hR (hc.held hs hR hcm) hcm).2
  rw [hs.grouped.scope?_of_mem hg hm hcm] at hnone
  cases hnone

end

end Clean

/-- The number of slots in use is the number of indices at which there is an object. -/
theorem occupied_eq_card (h : Heap) :
    h.occupied = ((Finset.range h.slots.size).filter fun i => (h.slot? ⟨i⟩).isSome = true).card := by
  have hslots : h.slots.toList = (List.range h.slots.size).map fun i => h.slot? ⟨i⟩ := by
    refine List.ext_getElem (by simp) fun i hi _ => ?_
    have hlt : i < h.slots.size := by simpa using hi
    simp [slot?, hlt]
  rw [occupied, ← Array.countP_toList, hslots, List.countP_map, ← Nat.count_eq_card_filter_range, Nat.count]
  exact List.countP_congr fun i _ => by simp

/-- **The live objects are counted by those who hold them.** -/
theorem Clean.live_eq (hc : Clean h [] ∅ [] n) (hs : Sound h R []) (hR : Simple h R) (hnodup : R.Nodup) :
    h.stats.live = Multiset.card R := by
  have hset : (Finset.range h.slots.size).filter (fun i => (h.slot? ⟨i⟩).isSome = true) =
      R.toFinset.image ObjId.index := by
    ext i
    simp only [Finset.mem_image, Multiset.mem_toFinset, Finset.mem_filter, Finset.mem_range]
    constructor
    · rintro ⟨-, hi⟩
      obtain ⟨c, hslot⟩ := Option.isSome_iff_exists.mp hi
      exact ⟨⟨i⟩, hc.held hs hR hslot, rfl⟩
    · rintro ⟨x, hx, rfl⟩
      obtain ⟨c, hslot⟩ := hs.counted.live x (Multiset.mem_add.mpr (Or.inl hx))
      exact ⟨lt_size_of_slot? hslot, by rw [hslot]; rfl⟩
  rw [hc.consistent.live, occupied_eq_card, hset,
    Finset.card_image_of_injective _ fun x y e => by cases x; cases y; simpa using e,
    Multiset.toFinset_card_of_nodup hnodup]

/-! ## Giving back what is held -/

/-- A simple object is given back. -/
theorem unref_simple (hr : h.slot? r = some c) (hpos : 0 < c.rc) (howned : c.obj.owned = [])
    (hscope : c.obj.scope? = none) : ∃ h', h.unref (.obj r) = .ok h' := by
  have hlt := lt_size_of_slot? hr
  set h₁ := h.setSlot r (some { c with rc := c.rc - 1 }) with hdef
  have hr₁ : h₁.slot? r = some { c with rc := c.rc - 1 } := by rw [hdef, slot?_setSlot _ _ _ _ hlt, if_pos rfl]
  simp only [unref, decObj_eq hr hpos, bind, Except.bind, ← hdef]
  split
  · -- the object is the only one to be freed
    have hone : h₁.reclaimOne r [] = .ok (h₁.vacate r, []) := by
      simp only [reclaimOne, scopeOf_eq hr₁, hscope, dissolve, evict_eq hr₁, bind, Except.bind, howned,
        List.foldlM_nil]
      rfl
    refine ⟨h₁.vacate r, ?_⟩
    rw [reclaim, List.length_singleton, reclaimLoop, hone]
    simp [bind, Except.bind, reclaimLoop]
  · exact ⟨h₁, rfl⟩

/-- **Giving back all that is held** leaves nothing. -/
theorem Clean.unrefAll_simple : ∀ {vs : List Value} {h : Heap}, Clean h [] ∅ [] n → Sound h (refsOf vs) [] →
    Simple h (refsOf vs) → ∃ h', h.unrefAll vs = .ok h' ∧ h'.stats.live = 0
  | [], h, hc, hs, hR => ⟨h, rfl, hc.live_eq hs hR Multiset.nodup_zero⟩
  | v :: vs, h, hc, hs, hR => by
    obtain ⟨h₁, e₁⟩ : ∃ h₁, h.unref v = .ok h₁ := by
      cases v with
      | obj r =>
        have hr : r ∈ refsOf (.obj r :: vs) := by
          rw [refsOf_cons, refsOf_obj]
          simp
        obtain ⟨c, hslot⟩ := hs.counted.live r (Multiset.mem_add.mpr (Or.inl hr))
        have hpos : 0 < c.rc := by
          rw [hs.counted.exact hslot]
          exact Multiset.count_pos.mpr (Multiset.mem_add.mpr (Or.inl hr))
        obtain ⟨howned, hscope⟩ := hR hr hslot
        exact unref_simple hslot hpos howned hscope
      | _ => exact ⟨h, rfl⟩
    rw [refsOf_cons] at hs hR
    have hs₁ : Sound h₁ (refsOf vs) [] := by
      have he : Ensures True (h.unref v) _ := hs.ensures_unref
      exact (he.result e₁).1
    have hR₁ : Simple h₁ (refsOf vs) :=
      Simple.onward (Simple.mono hR (Multiset.le_add_left _ _)) (hc.swept.toSteady.onward_unref e₁)
    obtain ⟨h', e', hlive⟩ := unrefAll_simple (hc.unref e₁) hs₁ hR₁
    refine ⟨h', ?_, hlive⟩
    rw [Heap.unrefAll, List.foldlM_cons, e₁]
    exact e'

end CountedMachine.Heap
