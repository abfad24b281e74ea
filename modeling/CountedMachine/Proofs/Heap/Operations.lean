import CountedMachine.Proofs.Heap.Overtaking

/-! # The operations keep the heap sound

Each operation of the heap that returns leaves a sound heap. Allocating an object and filling a
closure move references from outside into the heap, taking and giving up a reference changes the
outside, and opening, joining and sealing a scope leave it alone: sealing takes the captures of
siblings out of the heap and gives them up in one go. -/

namespace CountedMachine.Heap

variable {h h' : Heap} {R : Multiset ObjId} {r : ObjId} {c : Slot} {ds : List ObjId}

theorem isMember_nil : isMember [] = fun _ => false := by
  funext v
  cases v <;> rfl

theorem weakExactly_nil {k : Closure} : WeakExactly k [] ↔ ∀ i, k.weak.getD i false = false := by
  have hany : ∀ o : Option Value, o.any (fun _ => false) = false := by
    intro o
    cases o <;> rfl
  simp [WeakExactly, isMember_nil, hany]

/-! ## Counts -/

/-- The heaps hold the same objects, whatever their counts. -/
def SameObjs (h h' : Heap) : Prop := ∀ x, (h'.slot? x).map (·.obj) = (h.slot? x).map (·.obj)

theorem SameObjs.symm (ho : SameObjs h h') : SameObjs h' h := fun x => (ho x).symm

theorem SameObjs.back (ho : SameObjs h h') {x : ObjId} {rc : Nat} {o : Object}
    (hx : h'.slot? x = some ⟨rc, o⟩) : ∃ rc', h.slot? x = some ⟨rc', o⟩ := by
  have := ho x
  rw [hx] at this
  cases hx' : h.slot? x with
  | none => rw [hx'] at this; cases this
  | some c =>
    obtain ⟨rc', o'⟩ := c
    rw [hx'] at this
    cases this
    exact ⟨rc', rfl⟩

theorem held_congr (hsize : h'.slots.size = h.slots.size) (ho : SameObjs h h') :
    h'.held = h.held := by
  have hfactor : slotRefs = (fun o : Option Object => (o.map Object.refs).getD 0) ∘
      fun o : Option Slot => o.map (·.obj) := by
    funext o
    cases o <;> rfl
  unfold held
  rw [hfactor, ← List.map_map, ← List.map_map]
  congr 2
  refine List.ext_getElem (by simpa using hsize) fun i h₁ h₂ => ?_
  simp only [List.length_map, Array.length_toList] at h₁ h₂
  have := ho ⟨i⟩
  simpa [slot?, h₁, h₂] using this

theorem Grouped.of_objs (hg : Grouped h ds) (hsc : h'.scopes = h.scopes) (ho : SameObjs h h') :
    Grouped h' ds := by
  have hat : ∀ g, h'.scopeAt g = h.scopeAt g := fun g => by simp only [scopeAt, hsc]
  refine ⟨fun hx hk hn => ?_, fun hgs => hg.distinct (hat _ ▸ hgs), fun hgs hm => ?_⟩
  · obtain ⟨rc', hx'⟩ := ho.back hx
    rw [hat]
    exact hg.home hx' hk hn
  · obtain ⟨rc, k, hx, hk⟩ := hg.member (hat _ ▸ hgs) hm
    obtain ⟨rc', hx'⟩ := ho.symm.back hx
    exact ⟨rc', k, hx', hk⟩

theorem Marked.of_objs (hm : Marked h ds) (hsc : h'.scopes = h.scopes) (ho : SameObjs h h') :
    Marked h' ds := by
  intro x rc k hx hn
  obtain ⟨rc', hx'⟩ := ho.back hx
  rw [siblings_congr hsc]
  exact hm x rc' k hx' hn

/-- Scopes and marks look at objects, not at their counts. -/
theorem Sound.of_objs {R' : Multiset ObjId} (hs : Sound h R ds) (hsc : h'.scopes = h.scopes)
    (ho : SameObjs h h') (hc : Counted h' R') (ha : Arena h') : Sound h' R' ds :=
  ⟨hc, hs.grouped.of_objs hsc ho, hs.marked.of_objs hsc ho, ha⟩

theorem objs_recount (hr : h.slot? r = some c) (n : Nat) :
    SameObjs h (h.setSlot r (some { c with rc := n })) := by
  intro x
  rw [slot?_setSlot h r x _ (lt_size_of_slot? hr)]
  split_ifs with e
  · rw [e, hr]
    rfl
  · rfl

theorem live_of_incObj (e : h.incObj r = .ok h') : ∃ c, h.slot? r = some c := by
  cases hr : h.slot? r with
  | none => simp [incObj, slot, hr, bind, Except.bind] at e
  | some c => exact ⟨c, rfl⟩

/-- **Taking a reference.** -/
theorem Sound.inc (hs : Sound h R []) (e : h.inc (.obj r) = .ok h') : Sound h' (r ::ₘ R) [] := by
  obtain ⟨c, hr⟩ := live_of_incObj e
  rw [Heap.inc, incObj_eq hr] at e
  cases e
  exact hs.of_objs rfl (objs_recount hr _) (hs.counted.inc hr) (hs.arena.setSlot hr _)

theorem Sound.dec (hs : Sound h R []) (hm : r ∈ R) :
    ∃ c, h.slot? r = some c ∧ 0 < c.rc ∧
      h.decObj r = .ok (h.setSlot r (some { c with rc := c.rc - 1 }), c.rc - 1) ∧
      Sound (h.setSlot r (some { c with rc := c.rc - 1 })) (R.erase r) [] := by
  obtain ⟨c, hr⟩ := hs.counted.live r (Multiset.mem_add.mpr (Or.inl hm))
  have hpos := hs.counted.pos hr hm
  exact ⟨c, hr, hpos, decObj_eq hr hpos,
    hs.of_objs rfl (objs_recount hr _) (hs.counted.dec hr hm) (hs.arena.setSlot hr _)⟩

/-- **Giving up a reference** without freeing. -/
theorem Sound.release (hs : Sound h R []) (hm : r ∈ R) (e : h.release (.obj r) = .ok h') :
    Sound h' (R.erase r) [] := by
  obtain ⟨c, hr, hpos, ed, hs'⟩ := hs.dec hm
  simp only [Heap.release, ed, bind, Except.bind, pure, Except.pure] at e
  cases e
  exact hs'

theorem Sound.reclaim {work : List ObjId} (hs : Sound h R []) (hz : AtZero h work)
    (e : h.reclaim work = .ok h') : Sound h' R [] ∧ ∀ {rest}, AtZero h rest → AtZero h' rest :=
  reclaimLoop_sound _ hs hz e

theorem atZero_singleton (hr : h.slot? r = some c) (h0 : c.rc = 0) : AtZero h [r] := by
  intro m hm c' hc'
  obtain rfl := List.mem_singleton.mp hm
  rw [hr] at hc'
  cases hc'
  exact h0

/-- **Freeing a value that nobody owns.** -/
theorem Sound.drop (hs : Sound h R []) (e : h.drop (.obj r) = .ok h') : Sound h' R [] := by
  cases hr : h.slot? r with
  | none => simp [Heap.drop, rc, slot, hr, Except.map, bind, Except.bind] at e
  | some c =>
    simp only [Heap.drop, rc, slot, hr, Except.map, bind, Except.bind] at e
    split_ifs at e with h0
    · exact (hs.reclaim (atZero_singleton hr h0) e).1
    · cases e
      exact hs

/-- **Giving up a reference** and freeing what nobody references then. -/
theorem Sound.unref (hs : Sound h R []) (hm : r ∈ R) (e : h.unref (.obj r) = .ok h') :
    Sound h' (R.erase r) [] := by
  obtain ⟨c, hr, hpos, ed, hs'⟩ := hs.dec hm
  simp only [Heap.unref, ed, bind, Except.bind] at e
  split_ifs at e with h0
  · refine (hs'.reclaim (atZero_singleton (c := { c with rc := c.rc - 1 }) ?_ h0) e).1
    rw [slot?_setSlot h r r _ (lt_size_of_slot? hr), if_pos rfl]
  · cases e
    exact hs'

/-! ## New objects -/

/-- An object as it is allocated: a closure is in no scope and has no weak captures. -/
def Fresh : Object → Prop
  | .closure k => k.scope = none ∧ ∀ i, k.weak.getD i false = false
  | _ => True

/-- What allocation does: an unused slot is filled. -/
theorem allocate_spec (ha : Arena h) (obj : Object) :
    ∃ r, h.slot? r = none ∧ (h.allocate obj).2 = .obj r ∧
      (∀ x, (h.allocate obj).1.slot? x = if x = r then some ⟨0, obj⟩ else h.slot? x) ∧
      (h.allocate obj).1.held = h.held + obj.refs ∧ (h.allocate obj).1.scopes = h.scopes ∧
      Arena (h.allocate obj).1 := by
  rcases hf : h.free with _ | ⟨r, free⟩
  · refine ⟨⟨h.slots.size⟩, ?_, ?_, fun x => ?_, ?_, ?_, ?_⟩
    · simp [slot?]
    · simp [allocate, hf]
    · obtain ⟨x⟩ := x
      simp only [allocate, hf, slot?, Array.getElem?_push, ObjId.mk.injEq]
      split_ifs <;> rfl
    · simp [allocate, hf, held, slotRefs]
    · simp [allocate, hf]
    · simpa [allocate, hf] using (⟨by simp, by simp⟩ : Arena _)
  · have hnone := ha.empty r (by simp [hf])
    have hlt : r.index < h.slots.size := by
      rcases Nat.lt_or_ge r.index h.slots.size with hlt | hge
      · exact hlt
      · simp [Array.getElem?_eq_none hge] at hnone
    have hr : h.slot? r = none := by simp [slot?, hnone]
    refine ⟨r, hr, ?_, fun x => ?_, ?_, ?_, ?_⟩
    · simp [allocate, hf]
    · simp only [allocate, hf]
      exact slot?_setSlot h r x (some ⟨0, obj⟩) hlt
    · have := held_setSlot h (some ⟨0, obj⟩) hlt
      rw [hr] at this
      simp only [allocate, hf]
      exact (add_zero _).symm.trans this
    · simp [allocate, hf]
    · obtain ⟨hmem, hnd⟩ := List.nodup_cons.mp (hf ▸ ha.nodup)
      simp only [allocate, hf]
      refine ⟨hnd, fun y hy => ?_⟩
      have hne : r.index ≠ y.index := fun e => by
        obtain ⟨r⟩ := r
        obtain ⟨y⟩ := y
        cases e
        exact hmem hy
      have := ha.empty y (by rw [hf]; exact List.mem_cons_of_mem r hy)
      simpa [Array.getElem?_setIfInBounds, hne] using this

/-- **Allocating an object** moves the references it holds into the heap. -/
theorem Sound.allocate {obj : Object} (hs : Sound h (obj.refs + R) []) (hobj : Fresh obj) :
    Sound (h.allocate obj).1 R [] := by
  obtain ⟨r, hr, -, hslot, hheld, hsc, ha⟩ := allocate_spec hs.arena obj
  generalize (h.allocate obj).1 = h' at *
  have hsum : R + h'.held = obj.refs + R + h.held := by
    rw [hheld, ← add_assoc, add_right_comm, add_comm R, add_right_comm]
  have hne : ∀ {x c}, h.slot? x = some c → x ≠ r := by
    rintro x c hx rfl
    rw [hr] at hx
    cases hx
  have hkeep : ∀ {x c}, h.slot? x = some c → h'.slot? x = some c := fun {x c} hx => by
    rw [hslot, if_neg (hne hx), hx]
  have hat : ∀ g, h'.scopeAt g = h.scopeAt g := fun g => by simp only [scopeAt, hsc]
  refine ⟨⟨fun x hx => ?_, fun {x c} hx => ?_⟩, ⟨fun {x rc k g} hx hg hn => ?_,
    fun hg => hs.grouped.distinct (hat _ ▸ hg), fun hg hm => ?_⟩, fun x rc k hx hn => ?_, ha⟩
  · rw [hsum] at hx
    obtain ⟨c, hc⟩ := hs.counted.live x hx
    exact ⟨c, hkeep hc⟩
  · rw [hsum]
    rw [hslot] at hx
    split_ifs at hx with e
    · cases hx
      refine (Multiset.count_eq_zero.mpr fun hm => ?_).symm
      obtain ⟨c, hc⟩ := hs.counted.live x hm
      exact hne hc e
    · exact hs.counted.exact hx
  · rw [hat]
    rw [hslot] at hx
    split_ifs at hx with e
    · cases hx
      rw [hobj.1] at hg
      cases hg
    · exact hs.grouped.home hx hg (by simp)
  · obtain ⟨rc, k, hx, hk⟩ := hs.grouped.member (hat _ ▸ hg) hm
    exact ⟨rc, k, hkeep hx, hk⟩
  · rw [siblings_congr hsc]
    rw [hslot] at hx
    split_ifs at hx with e
    · cases hx
      rw [siblings, hobj.1]
      exact weakExactly_nil.mpr hobj.2
    · exact hs.marked x rc k hx (by simp)

/-! ## Scopes in the making -/

theorem scopeAt_openScope (n : Nat) (g : ScopeId) :
    (h.openScope n).1.scopeAt g = if g = ⟨h.scopes.size⟩ then some (.new n) else h.scopeAt g := by
  obtain ⟨g⟩ := g
  simp only [openScope, scopeAt, Array.getElem?_push, ScopeId.mk.injEq]
  split_ifs <;> rfl

theorem lt_size_of_scopeAt {g : ScopeId} {s : Scope} (hg : h.scopeAt g = some s) :
    g.index < h.scopes.size := by
  rcases Nat.lt_or_ge g.index h.scopes.size with hlt | hge
  · exact hlt
  · simp [scopeAt, Array.getElem?_eq_none hge] at hg

/-- **Opening a scope.** -/
theorem Sound.openScope (hs : Sound h R []) (n : Nat) : Sound (h.openScope n).1 R [] := by
  have hne : ∀ {g s}, h.scopeAt g = some s → g ≠ ⟨h.scopes.size⟩ := by
    rintro g s hg rfl
    exact absurd (lt_size_of_scopeAt hg) (lt_irrefl _)
  have hback : ∀ {g s m}, (h.openScope n).1.scopeAt g = some s → m ∈ s.members →
      h.scopeAt g = some s := by
    intro g s m hg hm
    rw [scopeAt_openScope] at hg
    split_ifs at hg
    · cases hg
      simp [Scope.new] at hm
    · exact hg
  refine ⟨⟨hs.counted.live, hs.counted.exact⟩, ⟨fun {x rc k g} hx hg hn => ?_, fun {g s} hg => ?_,
    fun hg hm => hs.grouped.member (hback hg hm) hm⟩, fun x rc k hx hn => ?_,
    ⟨hs.arena.nodup, hs.arena.empty⟩⟩
  · obtain ⟨s, hg', hm⟩ := hs.grouped.home hx hg (by simp)
    exact ⟨s, by rw [scopeAt_openScope, if_neg (hne hg'), hg'], hm⟩
  · rcases hmem : s.members with _ | ⟨m, ms⟩
    · exact List.nodup_nil
    · rw [← hmem]
      exact hs.grouped.distinct (hback hg (m := m) (by simp [hmem]))
  · have hsib : (h.openScope n).1.siblings k = h.siblings k := by
      rcases hk : k.scope with _ | g
      · simp [siblings, hk]
      · obtain ⟨s, hg, -⟩ := hs.grouped.home hx hk (by simp)
        simp [siblings, hk, scopeAt_openScope, hne hg]
    rw [hsib]
    exact hs.marked x rc k hx (by simp)

theorem slot?_setSlot_of (hr : h.slot? r = some c) (c' : Slot) (x : ObjId) :
    (h.setSlot r (some c')).slot? x = if x = r then some c' else h.slot? x :=
  slot?_setSlot h r x _ (lt_size_of_slot? hr)

/-- A closure may be overwritten by one in the same scope. -/
theorem Grouped.rewrite {rc rc' : Nat} {k k' : Closure} (hg : Grouped h ds)
    (hr : h.slot? r = some ⟨rc, .closure k⟩) (hk : k'.scope = k.scope) :
    Grouped (h.setSlot r (some ⟨rc', .closure k'⟩)) ds := by
  refine ⟨fun {x rcx kx g} hx hgx hn => ?_, fun hgs => hg.distinct hgs, fun {g s m} hgs hm => ?_⟩
  · rw [slot?_setSlot_of hr] at hx
    split_ifs at hx with e
    · cases hx
      exact hg.home (e ▸ hr) (hk ▸ hgx) hn
    · exact hg.home hx hgx hn
  · obtain ⟨rcm, km, hx, hkm⟩ := hg.member hgs hm
    rw [slot?_setSlot_of hr]
    split_ifs with e
    · subst e
      rw [hr] at hx
      cases hx
      exact ⟨rc', k', rfl, hk.trans hkm⟩
    · exact ⟨rcm, km, hx, hkm⟩

/-- The marks of a closure are looked at when it is overwritten. -/
theorem Marked.rewrite {rc rc' : Nat} {k k' : Closure} (hm : Marked h ds)
    (hr : h.slot? r = some ⟨rc, .closure k⟩) (hk : WeakExactly k' (h.siblings k')) :
    Marked (h.setSlot r (some ⟨rc', .closure k'⟩)) ds := by
  intro x rcx kx hx hn
  rw [siblings_congr (scopes_setSlot h r _)]
  rw [slot?_setSlot_of hr] at hx
  split_ifs at hx with e
  · cases hx
    exact hk
  · exact hm x rcx kx hx hn

theorem ownedCaps_of_unmarked {k : Closure} (hk : ∀ i, k.weak.getD i false = false) :
    k.ownedCaps = k.caps := by
  simp only [Closure.ownedCaps, hk]
  simp

/-- The scope of the closure, if any, is not sealed. -/
def Unsealed (h : Heap) (k : Closure) : Prop :=
  ∀ g s, k.scope = some g → h.scopeAt g = some s → s.isSealed = false

theorem siblings_of_unsealed {k : Closure} (hk : h.Unsealed k) : h.siblings k = [] := by
  unfold siblings
  rcases hsc : k.scope with _ | g
  · rfl
  · rcases hg : h.scopeAt g with _ | s
    · simp [hg]
    · simp [hg, hk g s hsc hg]

/-- **Filling a closure** moves the references to its captures into the heap. -/
theorem Sound.fill {rc : Nat} {k : Closure} {u : UnitId} {vs : List Value}
    (hs : Sound h (refsOf vs + R) []) (hr : h.slot? r = some ⟨rc, .closure k⟩)
    (hcaps : k.caps = []) (hopen : h.Unsealed k)
    (e : h.put r (.closure { k with unit := u, caps := vs }) = .ok h') : Sound h' R [] := by
  have hmarks : ∀ i, k.weak.getD i false = false := by
    have := hs.marked r rc k hr (by simp)
    rwa [siblings_of_unsealed hopen, weakExactly_nil] at this
  rw [put_eq hr] at e
  cases e
  refine ⟨hs.counted.put hr ?_, hs.grouped.rewrite hr rfl, hs.marked.rewrite hr ?_,
    hs.arena.setSlot hr _⟩
  · simp only [Object.refs, Object.owned]
    rw [ownedCaps_of_unmarked hmarks,
      ownedCaps_of_unmarked (k := { k with unit := u, caps := vs }) hmarks, hcaps, refsOf_nil,
      add_zero, add_comm]
  · have : h.siblings { k with unit := u, caps := vs } = h.siblings k := rfl
    rw [this, siblings_of_unsealed hopen]
    exact weakExactly_nil.mpr hmarks

theorem scopeAt_of_scope {g : ScopeId} {s : Scope} (e : h.scope g = .ok s) :
    h.scopeAt g = some s := by
  unfold scope at e
  split at e
  · next s' hs' =>
    cases e
    simp [scopeAt, hs']
  · cases e

theorem enrol_cases {s s' : Scope} {m : ObjId} (e : s.enrol m = .ok s') :
    s.isSealed = false ∧ s' = { s with members := s.members ++ [m] } := by
  unfold Scope.enrol at e
  split_ifs at e with h1 h2
  cases e
  exact ⟨by simpa using h1, rfl⟩

/-- What joining a scope does. -/
theorem enrol_eq {g : ScopeId} {m : ObjId} {rc : Nat} {k : Closure}
    (hr : h.slot? m = some ⟨rc, .closure k⟩) (e : h.enrol g m = .ok h') :
    ∃ s, h.scopeAt g = some s ∧ s.isSealed = false ∧
      h' = (h.setScope g (some { s with members := s.members ++ [m] })).setSlot m
        (some ⟨rc, .closure { k with scope := some g }⟩) := by
  unfold enrol at e
  cases hsc : h.scope g with
  | error f => simp [hsc, bind, Except.bind] at e
  | ok s =>
    cases hen : s.enrol m with
    | error f => simp [hsc, hen, bind, Except.bind] at e
    | ok s' =>
      obtain ⟨hopen, rfl⟩ := enrol_cases hen
      refine ⟨s, scopeAt_of_scope hsc, hopen, ?_⟩
      generalize hs' : ({ s with members := s.members ++ [m] } : Scope) = s' at *
      have hr₁ : (h.setScope g (some s')).slot? m = some ⟨rc, .closure k⟩ := hr
      simp only [hsc, hen, get_eq hr₁, put_eq hr₁, bind, Except.bind] at e
      cases e
      rfl

/-- **Joining a scope**, for a closure that is in none. -/
theorem Sound.enrol {g : ScopeId} {m : ObjId} {rc : Nat} {k : Closure} (hs : Sound h R [])
    (hr : h.slot? m = some ⟨rc, .closure k⟩) (hk : k.scope = none) (e : h.enrol g m = .ok h') :
    Sound h' R [] := by
  obtain ⟨s, hg, hopen, rfl⟩ := enrol_eq hr e
  have hat := scopeAt_setScope hg (some { s with members := s.members ++ [m] })
  generalize hh₁ : h.setScope g (some { s with members := s.members ++ [m] }) = h₁ at *
  have hslots : ∀ x, h₁.slot? x = h.slot? x := fun x => by rw [← hh₁]; rfl
  have hr₁ : h₁.slot? m = some ⟨rc, .closure k⟩ := (hslots m).trans hr
  have hc₁ : Counted h₁ R := by
    rw [← hh₁]
    exact ⟨hs.counted.live, hs.counted.exact⟩
  have ha₁ : Arena h₁ := by
    rw [← hh₁]
    exact ⟨hs.arena.nodup, hs.arena.empty⟩
  have hslot := slot?_setSlot_of hr₁ ⟨rc, .closure { k with scope := some g }⟩
  have hnew : ∀ {g' s'}, h.scopeAt g' = some s' → m ∉ s'.members := by
    intro g' s' hg' hm
    have := hs.grouped.scope?_of_mem hg' hm hr
    simp [Object.scope?, hk] at this
  have hsib : ∀ k', h₁.siblings k' = h.siblings k' := by
    intro k'
    rcases hsc : k'.scope with _ | g'
    · simp [siblings, hsc]
    · by_cases eg : g' = g
      · simp [siblings, hsc, hat, eg, hg, hopen]
      · simp [siblings, hsc, hat, eg]
  refine ⟨hc₁.put hr₁ rfl, ⟨fun {x rcx kx g'} hx hgx hn => ?_, fun {g' s'} hgs => ?_,
    fun {g' s' x} hgs hm => ?_⟩, fun x rcx kx hx hn => ?_, ha₁.setSlot hr₁ _⟩
  · show ∃ s', h₁.scopeAt g' = some s' ∧ _
    rw [hat]
    rw [hslot, hslots] at hx
    split_ifs at hx with ex
    · cases hx
      cases hgx
      exact ⟨_, if_pos rfl, by simp [ex]⟩
    · obtain ⟨s', hg', hmem⟩ := hs.grouped.home hx hgx hn
      split_ifs with eg
      · rw [eg, hg] at hg'
        cases hg'
        exact ⟨_, rfl, List.mem_append_left _ hmem⟩
      · exact ⟨s', hg', hmem⟩
  · have hgs : h₁.scopeAt g' = some s' := hgs
    rw [hat] at hgs
    split_ifs at hgs with eg
    · cases hgs
      refine List.nodup_append.mpr ⟨hs.grouped.distinct hg, by simp, fun a ha b hb => ?_⟩
      rintro rfl
      exact hnew hg (List.mem_singleton.mp hb ▸ ha)
    · exact hs.grouped.distinct hgs
  · have hgs : h₁.scopeAt g' = some s' := hgs
    rw [hat] at hgs
    rw [hslot, hslots]
    split_ifs at hgs with eg
    · cases hgs
      rcases List.mem_append.mp hm with hm | hm
      · rw [if_neg (fun ex : x = m => hnew hg (ex ▸ hm)), eg]
        exact hs.grouped.member hg hm
      · exact ⟨rc, _, if_pos (List.mem_singleton.mp hm), by rw [eg]⟩
    · rw [if_neg (fun ex : x = m => hnew hgs (ex ▸ hm))]
      exact hs.grouped.member hgs hm
  · rw [siblings_congr (scopes_setSlot h₁ m _), hsib]
    rw [hslot, hslots] at hx
    split_ifs at hx with ex
    · cases hx
      have hw := hs.marked m rc k hr (by simp)
      have h0 : h.siblings k = [] := by simp [siblings, hk]
      have h1 : h.siblings { k with scope := some g } = [] := by simp [siblings, hg, hopen]
      rw [h0] at hw
      rw [h1]
      exact hw
    · exact hs.marked x rcx kx hx hn

/-! ## Later heaps -/

/-- **The objects of a heap are still there later**, whatever their counts. -/
def Extends (h h' : Heap) : Prop :=
  ∀ r c, h.slot? r = some c → ∃ n, h'.slot? r = some ⟨n, c.obj⟩

theorem Extends.refl (h : Heap) : Extends h h := fun _ c hr => ⟨c.rc, hr⟩

theorem Extends.trans {k : Heap} (a : Extends h k) (b : Extends k h') : Extends h h' := fun r c hr => by
  obtain ⟨n, hn⟩ := a r c hr
  obtain ⟨m, hm⟩ := b r _ hn
  exact ⟨m, hm⟩

theorem extends_allocate (ha : Arena h) (obj : Object) : Extends h (h.allocate obj).1 := by
  obtain ⟨r, hr, -, hslot, -⟩ := allocate_spec ha obj
  intro q c hq
  refine ⟨c.rc, ?_⟩
  rw [hslot, if_neg (by rintro rfl; rw [hr] at hq; cases hq), hq]

/-- Taking a reference. -/
theorem extends_inc {v : Value} (ha : Arena h) (e : h.inc v = .ok h') : Extends h h' ∧ Arena h' := by
  cases v with
  | obj r =>
    obtain ⟨c, hr⟩ := live_of_incObj e
    obtain rfl := Except.ok.inj ((incObj_eq hr).symm.trans e)
    refine ⟨fun x d hx => ?_, ha.setSlot hr _⟩
    rw [slot?_setSlot_of hr]
    split_ifs with hxr
    · rw [hxr, hr] at hx
      cases hx
      exact ⟨_, rfl⟩
    · exact ⟨d.rc, hx⟩
  | _ =>
    obtain rfl := Except.ok.inj e
    exact ⟨.refl h, ha⟩

end CountedMachine.Heap
