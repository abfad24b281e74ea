import CountedMachine.Proofs.Heap.Operations

/-! # What a cascade frees

In a heap without recursive scopes, giving up a reference frees an object when all its references go,
and an object's references go with the objects that hold them. `Doomed` is the least set of objects
that arises so: counts may be shared and cells may close cycles, and an object on a cycle is not in it
unless the cycle hangs on the reference that is given up.

The cascade frees exactly these objects, in whatever order it comes to them
(`unref_frees_exactly`): on the way every object freed or waiting is doomed (`Draining.doomed`), and at
the end every doomed object has been freed (`Draining.freed_of_doomed`). The counts of all other objects
drop by the references that went. -/

namespace CountedMachine.Heap

/-- No live object belongs to a scope. -/
def Scopeless (h : Heap) : Prop := ∀ {r c}, h.slot? r = some c → c.obj.scope? = none

/-- **The objects that go with a reference to `r`**, one of the references `R` from outside: `r`
itself when it has no other reference, and every object with references when each of them is the one to
`r` or comes from an object that goes. -/
inductive Doomed (h : Heap) (R : Multiset ObjId) (r : ObjId) : ObjId → Prop
  | last {c : Slot} : h.slot? r = some c → c.rc = 1 → Doomed h R r r
  | orphan {x : ObjId} : x ∈ R + h.held → x ∉ R.erase r →
    (∀ y c, h.slot? y = some c → x ∈ c.obj.refs → Doomed h R r y) → Doomed h R r x

/-- The references that the objects in `D` hold. -/
def refsFrom (h : Heap) (D : List ObjId) : Multiset ObjId := (D.map fun y => slotRefs (h.slot? y)).sum

/-- **The objects in `D` have been freed, and nothing else has happened to the objects.** The latest
one freed comes first. -/
structure Freed (h h' : Heap) (D : List ObjId) : Prop where
  nodup : D.Nodup
  live : ∀ {x}, x ∈ D → ∃ c, h.slot? x = some c
  gone : ∀ {x}, x ∈ D → h'.slot? x = none
  dead : ∀ {x}, h.slot? x = none → h'.slot? x = none
  kept : ∀ {x c}, h.slot? x = some c → x ∉ D → ∃ c', h'.slot? x = some c' ∧ c'.obj = c.obj
  held : h'.held + h.refsFrom D = h.held
  free : h'.free = D ++ h.free
  scopes : h'.scopes = h.scopes

variable {h h' h₁ : Heap} {R : Multiset ObjId} {r x : ObjId} {c : Slot} {D work : List ObjId}

theorem mem_held_of_refs (hr : h.slot? r = some c) (hx : x ∈ c.obj.refs) : x ∈ h.held := by
  rw [← held_vacate hr]
  exact Multiset.mem_add.mpr (Or.inr hx)

theorem exists_holder (hx : x ∈ h.held) : ∃ y c, h.slot? y = some c ∧ x ∈ c.obj.refs := by
  rw [held, ← Multiset.sum_coe] at hx
  obtain ⟨m, hm, hxm⟩ := Multiset.mem_join.mp hx
  obtain ⟨o, ho, rfl⟩ := List.mem_map.mp (Multiset.mem_coe.mp hm)
  obtain ⟨i, hi⟩ := Array.mem_iff_getElem?.mp (Array.mem_toList_iff.mp ho)
  cases o with
  | none => simp [slotRefs] at hxm
  | some c => exact ⟨⟨i⟩, c, by simp [slot?, hi], hxm⟩

/-! ## Freeing one object -/

theorem Sheds.sameObjs {new : List ObjId} (hd : Sheds h h' [] new) : SameObjs h h' := by
  intro y
  cases hy : h.slot? y with
  | none => rw [hd.dead hy]
  | some c =>
    obtain ⟨c', hy'⟩ := hd.kept hy (by simp)
    obtain ⟨c₀, hy₀, ho, -⟩ := hd.back hy'
    obtain rfl : c = c₀ := Option.some.inj (hy.symm.trans hy₀)
    simp [hy', ho]

/-- **Freeing an object at zero** gives up what it held, and nothing else. -/
theorem Counted.dissolve (hc : Counted h R) (hr : h.slot? r = some c) (h0 : c.rc = 0)
    (work : List ObjId) :
    ∃ h' new, Heap.dissolve (h, work) r = .ok (h', new ++ work) ∧ Counted h' R ∧
      Sheds h h' [r] new ∧ h'.held + c.obj.refs = h.held ∧ h'.free = r :: h.free ∧
      h'.scopes = h.scopes := by
  have hc₁ : Counted (h.vacate r) (refsOf c.obj.owned + R) := add_comm R c.obj.refs ▸ hc.vacate hr h0
  obtain ⟨h', new, e, hc', hd, hsc, hf⟩ := hc₁.letGoAll c.obj.owned work
  refine ⟨h', new, ?_, hc', by simpa using (sheds_vacate hr h0).trans hd (by simp), ?_, hf, hsc⟩
  · rw [Heap.dissolve, evict_eq hr]
    exact e
  · rw [held_congr hd.size hd.sameObjs, held_vacate hr]

theorem Freed.back (hf : Freed h h' D) {c' : Slot} (hx : h'.slot? x = some c') :
    x ∉ D ∧ ∃ c, h.slot? x = some c ∧ c'.obj = c.obj := by
  have hD : x ∉ D := fun hD => by rw [hf.gone hD] at hx; cases hx
  cases hc : h.slot? x with
  | none => rw [hf.dead hc] at hx; cases hx
  | some c =>
    obtain ⟨c₁, hx₁, ho⟩ := hf.kept hc hD
    rw [hx] at hx₁
    cases hx₁
    exact ⟨hD, c, rfl, ho⟩

/-- One object more has been freed. -/
theorem Freed.cons {new : List ObjId} {h₂ : Heap} (hf : Freed h h₁ D) (hr : h₁.slot? r = some c)
    (hd : Sheds h₁ h₂ [r] new) (hheld : h₂.held + c.obj.refs = h₁.held)
    (hfree : h₂.free = r :: h₁.free) (hsc : h₂.scopes = h₁.scopes) : Freed h h₂ (r :: D) := by
  obtain ⟨hrD, c₀, hr₀, hobj⟩ := hf.back hr
  refine ⟨List.nodup_cons.mpr ⟨hrD, hf.nodup⟩, fun {y} hy => ?_, fun {y} hy => ?_,
    fun hy => hd.dead (hf.dead hy), fun {y cy} hy hn => ?_, ?_, ?_, hsc.trans hf.scopes⟩
  · rcases List.mem_cons.mp hy with rfl | hy
    · exact ⟨c₀, hr₀⟩
    · exact hf.live hy
  · rcases List.mem_cons.mp hy with rfl | hy
    · exact hd.gone (by simp)
    · exact hd.dead (hf.gone hy)
  · rw [List.mem_cons, not_or] at hn
    obtain ⟨c₁, hy₁, ho₁⟩ := hf.kept hy hn.2
    obtain ⟨c₂, hy₂⟩ := hd.kept hy₁ (by simpa using hn.1)
    obtain ⟨c₁', hy₁', ho₂, -⟩ := hd.back hy₂
    rw [hy₁] at hy₁'
    cases hy₁'
    exact ⟨c₂, hy₂, ho₂.trans ho₁⟩
  · have hslot : slotRefs (h.slot? r) = c.obj.refs := by rw [hr₀, hobj]; rfl
    rw [refsFrom, List.map_cons, List.sum_cons, hslot, ← add_assoc, hheld]
    exact hf.held
  · rw [hfree, hf.free]
    rfl

/-! ## The cascade -/

/-- **The cascade under way:** the objects in `D` have been freed, and exactly those whose counts have
dropped to zero wait. -/
structure Draining (h : Heap) (R : Multiset ObjId) (r : ObjId) (h' : Heap) (work D : List ObjId) :
    Prop where
  freed : Freed h h' D
  counted : Counted h' (R.erase r)
  waits : ∀ {x}, x ∈ work ↔
    (∃ c, h.slot? x = some c ∧ 0 < c.rc) ∧ ∃ c', h'.slot? x = some c' ∧ c'.rc = 0
  nodup : work.Nodup
  before : ∀ {x}, x ∈ D → Doomed h R r x

/-- An object that has lost all its references is doomed. -/
theorem Draining.doomed (hc : Counted h R) (hd : Draining h R r h' work D) (hx : x ∈ work) :
    Doomed h R r x := by
  obtain ⟨⟨c, hxc, hpos⟩, c', hxc', h0⟩ := hd.waits.mp hx
  have hnone := hd.counted.notMem hxc' h0
  rw [Multiset.mem_add, not_or] at hnone
  refine .orphan (Multiset.count_pos.mp (hc.exact hxc ▸ hpos)) hnone.1 fun y cy hy hxy => ?_
  by_contra hn
  obtain ⟨cy', hy', ho⟩ := hd.freed.kept hy fun hD => hn (hd.before hD)
  exact hnone.2 (mem_held_of_refs hy' (ho ▸ hxy))

/-- A count drops by the references that have gone. -/
theorem Draining.rc_eq (hc : Counted h R) (hr : r ∈ R) (hd : Draining h R r h' work D) {c' : Slot}
    (hx : h.slot? x = some c) (hx' : h'.slot? x = some c') :
    c'.rc + (h.refsFrom D).count x + (if x = r then 1 else 0) = c.rc := by
  rw [hc.exact hx, hd.counted.exact hx', ← hd.freed.held]
  simp only [Multiset.count_add]
  have hR : R.count x = (R.erase r).count x + if x = r then 1 else 0 := by
    conv_lhs => rw [← Multiset.cons_erase hr]
    rw [Multiset.count_cons]
  omega

/-- **One round** frees the next object that waits. -/
theorem Draining.step (hc : Counted h R) (hs : h.Scopeless) (hr : r ∈ R)
    (hd : Draining h R r h' (x :: work) D) :
    ∃ h₁ new, h'.reclaimOne x work = .ok (h₁, new ++ work) ∧
      Draining h R r h₁ (new ++ work) (x :: D) ∧
      h₁.busy + (new ++ work).length + 1 = h'.busy + (x :: work).length := by
  obtain ⟨-, c, hx, h0⟩ := hd.waits.mp (List.mem_cons_self ..)
  obtain ⟨hxD, c₀, hx₀, hobj⟩ := hd.freed.back hx
  obtain ⟨hxw, hnd⟩ := List.nodup_cons.mp hd.nodup
  obtain ⟨h₁, new, e, hc₁, hsh, hheld, hfree, hsc⟩ := hd.counted.dissolve hx h0 work
  have hscope : h'.scopeOf x = .ok none := by rw [scopeOf_eq hx, hobj, hs hx₀]
  refine ⟨h₁, new, ?_, ⟨hd.freed.cons hx hsh hheld hfree hsc, hc₁, fun {y} => ?_, ?_, fun hy => ?_⟩, ?_⟩
  · rw [Heap.reclaimOne, hscope]
    exact e
  · -- what waits is what waited, but for the object freed, and what has just dropped to zero
    rw [List.mem_append]
    constructor
    · rintro (hy | hy)
      · obtain ⟨⟨c₁, hy₁, hpos⟩, hy₂⟩ := hsh.fresh hy
        obtain ⟨-, c₀, hy₀, -⟩ := hd.freed.back hy₁
        have := hd.rc_eq hc hr hy₀ hy₁
        exact ⟨⟨c₀, hy₀, by omega⟩, hy₂⟩
      · obtain ⟨hy₀, c₁, hy₁, hz⟩ := hd.waits.mp (List.mem_cons_of_mem x hy)
        obtain ⟨c₂, hy₂⟩ := hsh.kept hy₁ (by simpa using fun e : y = x => hxw (e ▸ hy))
        obtain ⟨c₁', hy₁', -, hle⟩ := hsh.back hy₂
        rw [hy₁] at hy₁'
        cases hy₁'
        exact ⟨hy₀, c₂, hy₂, by omega⟩
    · rintro ⟨hy₀, c₂, hy₂, hz⟩
      obtain ⟨c₁, hy₁, -, hle⟩ := hsh.back hy₂
      rcases Nat.eq_zero_or_pos c₁.rc with hz₁ | hpos
      · refine Or.inr ((List.mem_cons.mp (hd.waits.mpr ⟨hy₀, c₁, hy₁, hz₁⟩)).resolve_left ?_)
        rintro rfl
        rw [hsh.gone (by simp)] at hy₂
        cases hy₂
      · exact Or.inl (hsh.all hy₁ hpos hy₂ hz)
  · refine List.nodup_append.mpr ⟨hsh.nodup, hnd, fun a ha b hb e => ?_⟩
    obtain ⟨⟨c₁, ha₁, hpos⟩, -⟩ := hsh.fresh ha
    obtain ⟨-, c₁', hb₁, hz⟩ := hd.waits.mp (List.mem_cons_of_mem x hb)
    rw [e, hb₁] at ha₁
    cases ha₁
    omega
  · rcases List.mem_cons.mp hy with rfl | hy
    · exact hd.doomed hc (List.mem_cons_self ..)
    · exact hd.before hy
  · have := hsh.busy
    simp only [List.length_append, List.length_cons]
    omega

/-- **The whole cascade** ends, with nothing left that waits. -/
theorem Draining.run (hc : Counted h R) (hs : h.Scopeless) (hr : r ∈ R) : ∀ (fuel : Nat) {h' : Heap}
    {work D : List ObjId}, Draining h R r h' work D → h'.busy + work.length ≤ fuel →
      ∃ h₁ D₁, reclaimLoop fuel h' work = .ok h₁ ∧ Draining h R r h₁ [] D₁
  | fuel, h', [], D, hd, _ => ⟨h', D, by simp [reclaimLoop], hd⟩
  | 0, h', x :: work, D, _, hf => by simp at hf
  | fuel + 1, h', x :: work, D, hd, hf => by
    obtain ⟨h₁, new, e, hd₁, hlen⟩ := hd.step hc hs hr
    obtain ⟨h₂, D₂, e₂, hd₂⟩ := Draining.run hc hs hr fuel hd₁ (by omega)
    exact ⟨h₂, D₂, by simp only [reclaimLoop, e, bind, Except.bind]; exact e₂, hd₂⟩

/-- **Nothing doomed is left** when nothing waits. -/
theorem Draining.freed_of_doomed (hc : Counted h R) (hr : r ∈ R) (hd : Draining h R r h' [] D)
    (hx : Doomed h R r x) : x ∈ D := by
  have lost : ∀ {y c c'}, h.slot? y = some c → 0 < c.rc → h'.slot? y = some c' → c'.rc ≠ 0 := by
    intro y c c' hy hpos hy' h0
    exact List.not_mem_nil (hd.waits.mpr ⟨⟨c, hy, hpos⟩, c', hy', h0⟩)
  induction hx with
  | @last c hrc h1 =>
    by_contra hD
    obtain ⟨c', hr', -⟩ := hd.freed.kept hrc hD
    have := hd.rc_eq hc hr hrc hr'
    rw [if_pos rfl] at this
    exact lost hrc (by omega) hr' (by omega)
  | @orphan y hy hnR _ ih =>
    by_contra hD
    obtain ⟨c, hyc⟩ := hc.live y hy
    obtain ⟨c', hyc', -⟩ := hd.freed.kept hyc hD
    have hpos : 0 < c.rc := hc.exact hyc ▸ Multiset.count_pos.mpr hy
    have hpos' : 0 < (R.erase r + h'.held).count y := by
      rw [← hd.counted.exact hyc']
      exact Nat.pos_of_ne_zero (lost hyc hpos hyc')
    obtain ⟨z, cz, hz, hyz⟩ := exists_holder
      ((Multiset.mem_add.mp (Multiset.count_pos.mp hpos')).resolve_left hnR)
    obtain ⟨hzD, cz₀, hz₀, ho⟩ := hd.freed.back hz
    exact hzD (ih z cz₀ hz₀ (ho ▸ hyz))

theorem unref_eq_letGo (h : Heap) (r : ObjId) :
    h.unref (.obj r) = (letGo (h, []) (.obj r)).bind fun p => p.1.reclaim p.2 := by
  simp only [unref, letGo, bind, Except.bind, pure, Except.pure]
  cases h.decObj r with
  | error f => rfl
  | ok p =>
    show (if p.2 = 0 then _ else _) = Heap.reclaim p.1 (if p.2 = 0 then _ else _)
    split_ifs
    · rfl
    · simp [reclaim, reclaimLoop]

/-- The cascade begins with the object whose reference is given up, if that was its last one. -/
theorem Counted.draining (hc : Counted h R) (hr : r ∈ R) :
    ∃ h' work, Heap.letGo (h, []) (.obj r) = .ok (h', work) ∧ Draining h R r h' work [] := by
  obtain ⟨h', new, e, hc', hd, hsc, hf⟩ := hc.letGo hr []
  have hsame := hd.sameObjs
  refine ⟨h', new, by simpa using e, ⟨⟨List.nodup_nil, fun hx => ?_, fun hx => ?_, hd.dead,
    fun {x c} hx _ => ?_, ?_, hf, hsc⟩, hc', fun {x} => ⟨hd.fresh, ?_⟩, hd.nodup, fun hx => ?_⟩⟩
  · simp at hx
  · simp at hx
  · obtain ⟨rc, o⟩ := c
    obtain ⟨rc', hx'⟩ := hsame.symm.back hx
    exact ⟨_, hx', rfl⟩
  · simpa [refsFrom] using held_congr hd.size hsame
  · rintro ⟨⟨c, hx, hpos⟩, c', hx', h0⟩
    exact hd.all hx hpos hx' h0
  · simp at hx

/-- **Without scopes a cascade frees exactly what goes with the reference.** In a heap whose counts
are exact and whose objects are in no scope, giving up a reference from outside returns a heap from
which exactly the doomed objects have been freed; every other object is as it was, but for its count,
which has dropped by its references from freed objects, and by one for the object whose reference was
given up. -/
theorem unref_frees_exactly (hc : Counted h R) (hs : h.Scopeless) (hr : r ∈ R) :
    ∃ h' D, h.unref (.obj r) = .ok h' ∧ Freed h h' D ∧ (∀ x, x ∈ D ↔ Doomed h R r x) ∧
      ∀ x c, h.slot? x = some c → x ∉ D → ∃ c', h'.slot? x = some c' ∧ c'.obj = c.obj ∧
        c'.rc + (h.refsFrom D).count x + (if x = r then 1 else 0) = c.rc := by
  obtain ⟨h₁, work, e₁, hd₁⟩ := hc.draining hr
  obtain ⟨h', D, e', hd⟩ := Draining.run hc hs hr (h₁.slots.size + work.length) hd₁
    (Nat.add_le_add_right (busy_le_size h₁) _)
  refine ⟨h', D, ?_, hd.freed, fun x => ⟨hd.before, hd.freed_of_doomed hc hr⟩, fun x c hx hD => ?_⟩
  · rw [unref_eq_letGo, e₁]
    exact e'
  · obtain ⟨c', hx', ho⟩ := hd.freed.kept hx hD
    exact ⟨c', hx', ho, hd.rc_eq hc hr hx hx'⟩

/-- A pair of a text and of a cell that holds itself. -/
def knotHeap : Heap where
  slots := #[some ⟨1, .cons (.obj ⟨1⟩) (.obj ⟨2⟩)⟩, some ⟨1, .str "a"⟩, some ⟨2, .cell (.obj ⟨2⟩)⟩]
  stats := ⟨3, 0, 3, 0⟩

theorem counted_knotHeap : Counted knotHeap {⟨0⟩} := by
  have hheld : ({⟨0⟩} + knotHeap.held : Multiset ObjId) = {⟨0⟩, ⟨1⟩, ⟨2⟩, ⟨2⟩} := by decide
  refine ⟨fun r hm => ?_, fun {r c} hr => ?_⟩
  · rw [hheld] at hm
    fin_cases hm <;> exact ⟨_, rfl⟩
  · rw [hheld]
    obtain ⟨_ | _ | _ | i⟩ := r
    · cases hr; decide
    · cases hr; decide
    · cases hr; decide
    · simp [slot?, knotHeap] at hr

/-- Releasing the pair frees the pair and the text; the cell stays, on its reference to itself. -/
theorem unref_knotHeap :
    ∃ h' D, knotHeap.unref (.obj ⟨0⟩) = .ok h' ∧ Freed knotHeap h' D ∧
      (∀ x, x ∈ D ↔ Doomed knotHeap {⟨0⟩} ⟨0⟩ x) ∧ D = [⟨1⟩, ⟨0⟩] ∧ h'.rcOrZero ⟨2⟩ = 1 := by
  have hscopeless : knotHeap.Scopeless := by
    rintro ⟨_ | _ | _ | i⟩ c hr
    · cases hr; rfl
    · cases hr; rfl
    · cases hr; rfl
    · simp [slot?, knotHeap] at hr
  obtain ⟨h', D, e, hf, hD, -⟩ := unref_frees_exactly counted_knotHeap hscopeless
    (Multiset.mem_singleton_self _)
  refine ⟨h', D, e, hf, hD, ?_, ?_⟩
  · cases e
    simpa [knotHeap] using hf.free.symm
  · cases e
    rfl

end CountedMachine.Heap
