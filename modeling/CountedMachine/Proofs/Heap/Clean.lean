import CountedMachine.Proofs.Heap.Layers

/-! # Heaps in which nothing is forgotten

A heap is `Clean` when its tallies are right, no object at zero is forgotten, the account of scopes is right
and references go down. Four numbers or lists go with it: the objects that have yet to report, those that
are set apart because they are in the making, the scopes that are being filled, and the number of scopes
with room for members opened so far.

Every operation keeps a heap clean, under conditions on objects that are made or changed. `Tame` says what
most operations leave alone: closures, and the scopes that are being filled. -/

namespace CountedMachine.Heap

variable {h h' h₁ h₂ : Heap} {R : Multiset ObjId} {P Q : Set ObjId} {r : ObjId} {c : Slot} {v : Value}
  {vs : List Value} {g : ScopeId} {s : Scope} {gs : List ScopeId} {due due' : List ObjId} {n : Nat} {o : Object}

/-- **Nothing is forgotten in the heap**, while `due` have yet to report, `P` are in the making and `gs` are
being filled; `n` scopes with room for members have been opened. -/
structure Clean (h : Heap) (due : List ObjId) (P : Set ObjId) (gs : List ScopeId) (n : Nat) : Prop where
  consistent : Consistent h
  swept : Swept h due
  books : Books h gs n
  graded : Graded h P

theorem clean_empty : Clean .empty [] ∅ [] 0 := ⟨consistent_empty, swept_empty, books_empty, graded_empty⟩

namespace Clean

theorem mono (hc : Clean h due P gs n) (hd : ∀ x ∈ due, x ∈ due') : Clean h due' P gs n :=
  ⟨hc.consistent, hc.swept.mono hd, hc.books, hc.graded⟩

/-- Nothing is due: more may be. -/
theorem grow (hc : Clean h [] P gs n) (due : List ObjId) : Clean h due P gs n := hc.mono (by simp)

theorem shrink (hc : Clean h due P gs n) (hsub : Q ⊆ P)
    (hrefs : ∀ {x c}, x ∈ P → x ∉ Q → h.slot? x = some c → c.obj.refs = 0) : Clean h due Q gs n :=
  ⟨hc.consistent, hc.swept, hc.books, hc.graded.shrink hsub hrefs⟩

/-! ### References -/

theorem inc (hc : Clean h due P gs n) (hd : ∀ x ∈ due, v = .obj x ∨ x ∈ due') (e : h.inc v = .ok h') :
    Clean h' due' P gs n :=
  have ho := onward_inc e
  ⟨(hc.consistent.inc v).result e, hc.swept.inc hd e, hc.books.onward ho, hc.graded.onward ho⟩

/-- Nothing is due, and nothing becomes due. -/
theorem inc_nil (hc : Clean h [] P gs n) (e : h.inc v = .ok h') : Clean h' [] P gs n := hc.inc (by simp) e

theorem incAll : ∀ {vs : List Value} {h : Heap}, Clean h [] P gs n → h.incAll vs = .ok h' →
    Clean h' [] P gs n
  | [], h, hc, e => by
    obtain rfl : h = h' := Except.ok.inj e
    exact hc
  | v :: vs, h, hc, e => by
    rw [Heap.incAll, List.foldlM_cons] at e
    obtain ⟨h₁, e₁, e⟩ := bind_ok e
    exact incAll (hc.inc_nil e₁) e

theorem release (hc : Clean h [] P gs n) (e : h.release v = .ok h') : Clean h' v.asObj?.toList P gs n :=
  have ho := onward_release e
  ⟨(hc.consistent.release v).result e, hc.swept.release e, hc.books.onward ho, hc.graded.onward ho⟩

theorem unref (hc : Clean h [] P gs n) (e : h.unref v = .ok h') : Clean h' [] P gs n :=
  have ho := hc.swept.toSteady.onward_unref e
  ⟨(hc.consistent.unref v).result e, hc.swept.unref e, hc.books.onward ho, hc.graded.onward ho⟩

theorem unrefAll : ∀ {vs : List Value} {h : Heap}, Clean h [] P gs n → h.unrefAll vs = .ok h' →
    Clean h' [] P gs n
  | [], h, hc, e => by
    obtain rfl : h = h' := Except.ok.inj e
    exact hc
  | v :: vs, h, hc, e => by
    rw [Heap.unrefAll, List.foldlM_cons] at e
    obtain ⟨h₁, e₁, e⟩ := bind_ok e
    exact unrefAll (hc.unref e₁) e

theorem drop (hc : Clean h due P gs n) (hd : ∀ x ∈ due, v = .obj x) (e : h.drop v = .ok h') :
    Clean h' [] P gs n :=
  have ho := hc.swept.onward_drop hd e
  ⟨(hc.consistent.drop v).result e, hc.swept.drop hd e, hc.books.onward ho, hc.graded.onward ho⟩

/-! ### Objects -/

theorem gains_of (hc : Clean h due P gs n) (o : Object) : ∃ r, (h.allocate o).2 = .obj r ∧
    Gains h (h.allocate o).1 r o := by
  obtain ⟨r, hr, hv, hslot, -, hsc, -⟩ := allocate_spec hc.swept.arena o
  exact ⟨r, hv, hr, hslot, hsc⟩

/-- **A new object** that is in no scope and refers to nothing in the making. -/
theorem allocate (hc : Clean h due P gs n) (hs : Sound h (o.refs + R) []) (ho : o.scope? = none)
    (hP : ∀ y ∈ o.refs, y ∉ P) :
    Clean (h.allocate o).1 ((h.allocate o).2.asObj?.toList ++ due) P gs n := by
  obtain ⟨r, -, hg⟩ := hc.gains_of o
  exact ⟨(hc.consistent.allocate o).1, hc.swept.allocate ho, hc.books.of_scopes hg.scopes,
    hc.graded.gains hs hg hP⟩

/-- A new object without references. -/
theorem allocate_plain (hc : Clean h due P gs n) (hs : Sound h R []) (hrefs : o.refs = 0)
    (ho : o.scope? = none) :
    Clean (h.allocate o).1 ((h.allocate o).2.asObj?.toList ++ due) P gs n :=
  hc.allocate (R := R) (by rwa [hrefs, zero_add]) ho (by simp [hrefs])

/-- **A new object in the making.** -/
theorem allocate_apart (hc : Clean h due P gs n) (hs : Sound h R []) (ho : o.scope? = none) {r : ObjId}
    (hr : (h.allocate o).2 = .obj r) : Clean (h.allocate o).1 (r :: due) (insert r P) gs n := by
  obtain ⟨x, hx, hg⟩ := hc.gains_of o
  cases hr.symm.trans hx
  have hsw := hc.swept.allocate ho
  rw [hr] at hsw
  exact ⟨(hc.consistent.allocate o).1, hsw, hc.books.of_scopes hg.scopes, hc.graded.gains_apart hs hg⟩

/-- Overwriting an object by one in the same scope that has no references that it did not have, or is in the
making. -/
theorem put (hc : Clean h due P gs n) (hr : h.slot? r = some c) (ho : o.scope? = c.obj.scope?)
    (hrefs : r ∈ P ∨ o.refs = 0) (e : h.put r o = .ok h') : Clean h' due P gs n := by
  have hsw := hc.swept.put hr ho e
  have hcon := (hc.consistent.put r o).result e
  rw [put_eq hr] at e
  obtain rfl := Except.ok.inj e
  refine ⟨hcon, hsw, hc.books.of_scopes rfl, hc.graded.of_back (fun {x c'} hx hxP => ?_)
    fun hg hs => ⟨_, hg, hs, rfl⟩⟩
  rw [slot?_setSlot_of hr] at hx
  split_ifs at hx with ex
  · cases hx
    refine ⟨c, ex ▸ hr, fun y hy => ?_⟩
    rw [hrefs.resolve_left fun hrP => hxP (ex ▸ hrP)] at hy
    cases Multiset.notMem_zero y hy
  · exact ⟨c', hx, fun y hy => hy⟩

/-- **An object in the making is complete.** -/
theorem complete (hc : Clean h due P gs n) (hr : h.slot? r = some c) (hP : r ∈ P)
    (hscope : c.obj.scope? = none) (ho : o.scope? = none) (hrefs : ∀ y ∈ o.refs, y ∉ P)
    (e : h.put r o = .ok h') : Clean h' due (P \ {r}) gs n := by
  have hsw := hc.swept.put hr (ho.trans hscope.symm) e
  have hcon := (hc.consistent.put r o).result e
  rw [put_eq hr] at e
  obtain rfl := Except.ok.inj e
  refine ⟨hcon, hsw, hc.books.of_scopes rfl, hc.graded.complete hr hP (fun hg hm => ?_) hrefs⟩
  have := hc.swept.grouped.scope?_of_mem hg hm hr
  rw [hscope] at this
  cases this

/-! ### Scopes -/

theorem openScope (hc : Clean h due P gs n) (size : Nat) : Clean (h.openScope size).1 due P
    ((h.openScope size).2 :: gs) (n + if 0 < size then 1 else 0) := by
  refine ⟨hc.consistent.openScope size, hc.swept.openScope size, hc.books.openScope size,
    hc.graded.of_back (fun hx _ => ⟨_, hx, fun _ hy => hy⟩) fun {g s} hg hs => ?_⟩
  rw [scopeAt_openScope] at hg
  split_ifs at hg
  · cases hg
    cases hs
  · exact ⟨s, hg, hs, rfl⟩

/-- **A closure in the making joins a scope.** -/
theorem enrol {rc : Nat} {k : Closure} (hc : Clean h due P gs n) (hr : h.slot? r = some ⟨rc, .closure k⟩)
    (hk : k.scope = none) (hP : r ∈ P) (e : h.enrol g r = .ok h') : Clean h' due P gs n := by
  have hsw := hc.swept.enrol hr hk e
  have hb := hc.books.enrol hr e
  have hcon := (hc.consistent.enrol g r).result e
  obtain ⟨s, hg, hopen, rfl⟩ := enrol_eq hr e
  refine ⟨hcon, hsw, hb, hc.graded.of_back (fun {x c'} hx hxP => ?_) fun {g' s'} hg' hs => ?_⟩
  · rw [slot?_setSlot_of (h := h.setScope g _) hr] at hx
    split_ifs at hx with ex
    · exact absurd (ex ▸ hP) hxP
    · exact ⟨c', hx, fun y hy => hy⟩
  · change (h.setScope g _).scopeAt g' = _ at hg'
    rw [scopeAt_setScope hg] at hg'
    split_ifs at hg'
    · cases hg'
      simp [hopen] at hs
    · exact ⟨s', hg', hs, rfl⟩

/-- **The scope that is being filled is sealed**: its members are complete. -/
theorem sealScope (hc : Clean h [] {m | m ∈ s.members} (g :: gs) n) (hg : h.scopeAt g = some s)
    (e : h.sealScope g = .ok h') : Clean h' [] ∅ gs n :=
  ⟨(hc.consistent.sealScope g).result e, hc.swept.sealScope e, hc.books.sealScope hc.swept.toSteady e,
    hc.graded.sealScope hc.swept.toSteady hg e⟩

end Clean

/-! ## What stays -/

/-- **Closures are left alone**, and so are the scopes that are being filled. -/
structure Tame (h h' : Heap) : Prop where
  closures : ∀ {x rc' k}, h'.slot? x = some ⟨rc', .closure k⟩ → ∃ rc, h.slot? x = some ⟨rc, .closure k⟩
  used : ∀ {g s'}, h'.scopeAt g = some s' → ∃ s, h.scopeAt g = some s ∧ s'.members = s.members
  filling : ∀ {g s}, h.scopeAt g = some s → s.isSealed = false → ∃ s', h'.scopeAt g = some s' ∧
    s'.members = s.members ∧ s'.isSealed = false

namespace Tame

theorem refl (h : Heap) : Tame h h := ⟨fun hx => ⟨_, hx⟩, fun hg => ⟨_, hg, rfl⟩, fun hg ho => ⟨_, hg, rfl, ho⟩⟩

theorem trans (a : Tame h h₁) (b : Tame h₁ h₂) : Tame h h₂ where
  closures hx := by
    obtain ⟨rc₁, hx₁⟩ := b.closures hx
    exact a.closures hx₁
  used hg := by
    obtain ⟨s₁, hg₁, e₁⟩ := b.used hg
    obtain ⟨s, hg₀, e⟩ := a.used hg₁
    exact ⟨s, hg₀, e₁.trans e⟩
  filling hg ho := by
    obtain ⟨s₁, hg₁, e₁, ho₁⟩ := a.filling hg ho
    obtain ⟨s₂, hg₂, e₂, ho₂⟩ := b.filling hg₁ ho₁
    exact ⟨s₂, hg₂, e₂.trans e₁, ho₂⟩

theorem of_scopes (hsc : h'.scopes = h.scopes)
    (hx : ∀ {x rc' k}, h'.slot? x = some ⟨rc', .closure k⟩ → ∃ rc, h.slot? x = some ⟨rc, .closure k⟩) :
    Tame h h' :=
  ⟨hx, fun hg => ⟨_, scopeAt_congr hsc _ ▸ hg, rfl⟩, fun {g _} hg ho => ⟨_, (scopeAt_congr hsc g).trans hg, rfl, ho⟩⟩

theorem allocate (ha : Arena h) (ho : ∀ k, o ≠ .closure k) : Tame h (h.allocate o).1 := by
  obtain ⟨r, -, -, hslot, -, hsc, -⟩ := allocate_spec ha o
  refine .of_scopes hsc fun {x rc' k} hx => ?_
  rw [hslot] at hx
  split_ifs at hx
  · cases hx
    exact absurd rfl (ho k)
  · exact ⟨rc', hx⟩

theorem put (hr : h.slot? r = some c) (ho : ∀ k, o ≠ .closure k) (e : h.put r o = .ok h') : Tame h h' := by
  rw [put_eq hr] at e
  obtain rfl := Except.ok.inj e
  refine .of_scopes rfl fun {x rc' k} hx => ?_
  rw [slot?_setSlot_of hr] at hx
  split_ifs at hx
  · cases hx
    exact absurd rfl (ho k)
  · exact ⟨rc', hx⟩

end Tame

theorem Onward.tame (ho : Onward h h') : Tame h h' where
  closures {x rc' k} hx := by
    obtain ⟨⟨rc, o⟩, hc, e⟩ := ho.objs hx
    obtain rfl : Object.closure k = o := e
    exact ⟨rc, hc⟩
  used hg := by
    obtain ⟨s, hg₀, -, hm, -⟩ := ho.used hg
    exact ⟨s, hg₀, hm⟩
  filling {g s} hg hopen := by
    cases hg' : h'.scopeAt g with
    | none => simp [(ho.spent hg hg').1] at hopen
    | some s' =>
      obtain ⟨s₀, hg₀, -, hm, hs⟩ := ho.used hg'
      cases hg.symm.trans hg₀
      exact ⟨s', rfl, hm, hs.trans hopen⟩

end CountedMachine.Heap
