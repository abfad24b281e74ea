import CountedMachine.Proofs.Heap.Sealing

/-! # Histories of a heap

A `History` is a sequence of operations whose user keeps to the rules: references that are given up
are held, references that an object takes in are handed over, a closure is filled once, before its
scope is sealed, and joins one scope. Every such heap is well-accounted (`History.accounted`).

Giving up a reference then does what it should unless a scope is overtaken on the way
(`unref_releases`): when the count of a scope lags behind, the scope is discarded by the first of
several reports of one cascade, and the reports of the other members find them freed. A scope lags
behind when a member is referenced again after the scope has counted its report, as
`unref_overtaken` shows. -/

namespace CountedMachine.Heap

/-- **The heap is well-accounted** for the references `R` from outside: references point at live
objects, counts are exact, and the members of a sealed scope are live closures whose captures of
each other, and no others, are weak. -/
structure Accounted (h : Heap) (R : Multiset ObjId) : Prop extends Counted h R where
  members : ∀ {g s}, h.scopeAt g = some s → s.isSealed = true → ∀ m ∈ s.members,
    ∃ rc k, h.slot? m = some ⟨rc, .closure k⟩ ∧ WeakExactly k s.members

theorem Sound.accounted {h : Heap} {R : Multiset ObjId} (hs : Sound h R []) : Accounted h R := by
  refine ⟨hs.counted, fun {g s} hg hsealed m hm => ?_⟩
  obtain ⟨rc, k, hr, hk⟩ := hs.grouped.member hg hm
  have hw := hs.marked m rc k hr (by simp)
  have hsib : h.siblings k = s.members := by simp [siblings, hk, hg, hsealed]
  exact ⟨rc, k, hr, hsib ▸ hw⟩

/-- **The heaps that operations lead to**, with the references their user holds. -/
inductive History : Heap → Multiset ObjId → Prop
  | empty : History .empty 0
  | allocate {h R} {obj : Object} : History h (obj.refs + R) → Fresh obj →
    History (h.allocate obj).1 R
  | acquire {h h' R r} : History h R → h.inc (.obj r) = .ok h' → History h' (r ::ₘ R)
  | release {h h' R r} : History h R → r ∈ R → h.release (.obj r) = .ok h' →
    History h' (R.erase r)
  | drop {h h' R r} : History h R → h.drop (.obj r) = .ok h' → History h' R
  | unref {h h' R r} : History h R → r ∈ R → h.unref (.obj r) = .ok h' → History h' (R.erase r)
  | openScope {h R} (size : Nat) : History h R → History (h.openScope size).1 R
  | fill {h h' R r rc k u vs} : History h (refsOf vs + R) →
    h.slot? r = some ⟨rc, .closure k⟩ → k.caps = [] → h.Unsealed k →
    h.put r (.closure { k with unit := u, caps := vs }) = .ok h' → History h' R
  | enrol {h h' R g m rc k} : History h R → h.slot? m = some ⟨rc, .closure k⟩ → k.scope = none →
    h.enrol g m = .ok h' → History h' R
  | sealScope {h h' R g} : History h R → h.sealScope g = .ok h' → History h' R

variable {h h' : Heap} {R : Multiset ObjId} {r : ObjId}

theorem sound_empty : Sound .empty 0 [] := by
  have hslot : ∀ x, Heap.empty.slot? x = none := fun x => by simp [slot?, Heap.empty]
  have hscope : ∀ g, Heap.empty.scopeAt g = none := fun g => by simp [scopeAt, Heap.empty]
  refine ⟨⟨fun r hr => ?_, fun hr => ?_⟩, ⟨fun hr => ?_, fun hg => ?_, fun hg => ?_⟩,
    fun r rc k hr => ?_, ⟨List.nodup_nil, fun r hr => ?_⟩⟩
  · simp [held, Heap.empty] at hr
  · rw [hslot] at hr
    cases hr
  · rw [hslot] at hr
    cases hr
  · rw [hscope] at hg
    cases hg
  · rw [hscope] at hg
    cases hg
  · rw [hslot] at hr
    cases hr
  · cases hr

/-- **Every heap with a history is sound.** -/
theorem History.sound (hist : History h R) : Sound h R [] := by
  induction hist with
  | empty => exact sound_empty
  | allocate _ hobj ih => exact ih.allocate hobj
  | acquire _ e ih => exact ih.inc e
  | release _ hm e ih => exact ih.release hm e
  | drop _ e ih => exact ih.drop e
  | unref _ hm e ih => exact ih.unref hm e
  | openScope size _ ih => exact ih.openScope size
  | fill _ hr hcaps hopen e ih => exact ih.fill hr hcaps hopen e
  | enrol _ hr hk e ih => exact ih.enrol hr hk e
  | sealScope _ e ih => exact ih.sealScope e

theorem History.accounted (hist : History h R) : Accounted h R := hist.sound.accounted

theorem History.of_eq (hist : History h R) (S : Multiset ObjId) (e : R = S) : History h S :=
  e ▸ hist

/-! ## Giving up the last reference -/

/-- Giving up a reference to `r` starts a cascade in which a scope is overtaken. -/
def Overtakes (h : Heap) (r : ObjId) : Prop :=
  ∃ h₁, h.decObj r = .ok (h₁, 0) ∧ Overtaken h₁ [r]

/-- The count of no sealed scope is below the number of its referenced members. -/
def NoLag (h : Heap) : Prop :=
  ∀ g s, h.scopeAt g = some s → s.isSealed = true → s.referenced h.rcOrZero ≤ s.rc

theorem Sound.pending {c : Slot} (hs : Sound h R []) (hr : h.slot? r = some c) (h0 : c.rc = 0) :
    Pending h R [r] :=
  ⟨hs, atZero_singleton hr h0, by simp⟩

/-- A reference more or less to `r` is covered by its report. -/
theorem NoLag.ahead {c : Slot} (hlag : h.NoLag) (hr : h.slot? r = some c) (hpos : 0 < c.rc) :
    Ahead (h.setSlot r (some { c with rc := c.rc - 1 })) [r] := by
  intro g s hg hsealed
  refine le_trans ?_ (hlag g s hg hsealed)
  rw [expected, Scope.referenced, ← List.countP_eq_length_filter]
  refine List.countP_mono_left fun m _ hm => ?_
  simp only [decide_eq_true_eq, List.mem_singleton] at hm ⊢
  rw [rcOrZero, slot?_setSlot_of hr] at hm
  split_ifs at hm with e
  · rw [e, rcOrZero, hr]
    exact hpos
  · exact hm.resolve_right e

/-- **Releasing is safe unless a scope is overtaken.** Giving up a reference that the user holds
returns a heap that is well-accounted for the other references exactly when no scope is overtaken
in its cascade; otherwise a member that waits for its turn has been freed. Nothing is overtaken as
long as no scope lags behind. -/
theorem unref_releases (hist : History h R) (hr : r ∈ R) :
    ((∃ h', h.unref (.obj r) = .ok h' ∧ Accounted h' (R.erase r)) ↔ ¬ h.Overtakes r) ∧
      (h.Overtakes r → ∃ n, h.unref (.obj r) = .error (.freedObject n)) ∧
      (h.NoLag → ¬ h.Overtakes r) := by
  obtain ⟨c, hc, hpos, ed, hs⟩ := hist.sound.dec hr
  set h₁ := h.setSlot r (some { c with rc := c.rc - 1 }) with hh₁
  have hc₁ : h₁.slot? r = some { c with rc := c.rc - 1 } := by
    rw [hh₁, slot?_setSlot_of hc, if_pos rfl]
  have hover : h.Overtakes r ↔ c.rc - 1 = 0 ∧ Overtaken h₁ [r] := by
    refine ⟨fun hover => ?_, fun hover => ⟨h₁, by rw [ed, hover.1], hover.2⟩⟩
    obtain ⟨h₂, e₂, ho⟩ := hover
    rw [ed] at e₂
    obtain ⟨rfl, h0⟩ := Prod.mk.inj (Except.ok.inj e₂)
    exact ⟨h0, ho⟩
  have hfuel : h₁.busy + [r].length ≤ h₁.slots.size + [r].length :=
    Nat.add_le_add_right (busy_le_size h₁) _
  have hrun : h.unref (.obj r) = if c.rc - 1 = 0 then h₁.reclaim [r] else .ok h₁ := by
    simp only [Heap.unref, ed, bind, Except.bind]
    rfl
  have hfail : h.Overtakes r → ∃ n, h.unref (.obj r) = .error (.freedObject n) := by
    intro ho
    obtain ⟨h0, ho⟩ := hover.mp ho
    rw [hrun, if_pos h0]
    exact reclaimLoop_overtaken ho _ (hs.pending hc₁ h0) hfuel
  refine ⟨⟨fun hok ho => ?_, fun ho => ?_⟩, hfail, fun hlag ho => ?_⟩
  · obtain ⟨h', e, -⟩ := hok
    obtain ⟨n, e'⟩ := hfail ho
    rw [e] at e'
    cases e'
  · have hret : ∃ h', h.unref (.obj r) = .ok h' := by
      rw [hrun]
      split_ifs with h0
      · refine reclaimLoop_ok _ (hs.pending hc₁ h0) (fun m hm => ?_) hfuel fun ho' =>
          ho (hover.mpr ⟨h0, ho'⟩)
        exact ⟨_, List.mem_singleton.mp hm ▸ hc₁⟩
      · exact ⟨h₁, rfl⟩
    obtain ⟨h', e⟩ := hret
    exact ⟨h', e, (hist.sound.unref hr e).accounted⟩
  · obtain ⟨h0, ho⟩ := hover.mp ho
    exact not_overtaken ho (hs.pending hc₁ h0) (hlag.ahead hc hpos)

/-- Two closures in a sealed scope, the second with a reference. -/
def pairHeap : Heap where
  slots := #[some ⟨0, .closure { Closure.blank with scope := some ⟨0⟩ }⟩,
    some ⟨1, .closure { Closure.blank with scope := some ⟨0⟩ }⟩]
  scopes := #[some ⟨2, 1, [⟨0⟩, ⟨1⟩], true⟩]
  stats := ⟨2, 0, 2, 0⟩

theorem history_pairHeap : History pairHeap {⟨1⟩} := by
  have h₁ := History.empty.of_eq ((Object.closure .blank).refs + 0) rfl
  have h₂ := (h₁.allocate ⟨rfl, fun _ => rfl⟩).of_eq ((Object.closure .blank).refs + 0) rfl
  have h₃ := (h₂.allocate ⟨rfl, fun _ => rfl⟩).acquire (r := ⟨1⟩) rfl
  have h₄ := (h₃.openScope 2).enrol (g := ⟨0⟩) (m := ⟨0⟩) rfl rfl rfl
  exact (h₄.enrol (g := ⟨0⟩) (m := ⟨1⟩) rfl rfl rfl).sealScope (g := ⟨0⟩) rfl

theorem noLag_pairHeap : pairHeap.NoLag := by
  rintro ⟨_ | g⟩ s hg hsealed
  · cases hg
    decide
  · simp [scopeAt, pairHeap] at hg

/-- The last reference to the pair frees both closures. -/
theorem unref_pairHeap : ∃ h', pairHeap.unref (.obj ⟨1⟩) = .ok h' ∧ Accounted h' 0 := by
  have hspec := unref_releases history_pairHeap (Multiset.mem_singleton_self _)
  exact hspec.1.mpr (hspec.2.2 noLag_pairHeap)

/-- **A scope can lag behind:** when the first closure is acquired after the scope has been sealed,
a cons cell that holds the last references to both closures cannot be released. -/
theorem unref_overtaken : ¬ ∀ (h : Heap) (R : Multiset ObjId) (r : ObjId), History h R → r ∈ R →
    ∃ h', h.unref (.obj r) = .ok h' ∧ Accounted h' (R.erase r) := by
  intro hall
  have h₁ := history_pairHeap.acquire (r := ⟨0⟩) rfl
  have h₂ := h₁.of_eq ((Object.cons (.obj ⟨0⟩) (.obj ⟨1⟩)).refs + 0) rfl
  have h₃ := (h₂.allocate trivial).acquire (r := ⟨2⟩) rfl
  obtain ⟨h', e, -⟩ := hall _ _ ⟨2⟩ h₃ (Multiset.mem_cons_self _ _)
  cases e

end CountedMachine.Heap
