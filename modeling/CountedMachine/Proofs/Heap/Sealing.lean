import CountedMachine.Proofs.Heap.Operations

/-! # Sealing a scope

The members of the scope are taken one after the other: the references to siblings among its
captures are given up, and these captures are marked. While this goes on the marks of the members
that are done fit the scope to be and those of the others the open scope (`Sealing`). -/

namespace CountedMachine.Heap

variable {h h' : Heap} {R : Multiset ObjId} {ms done : List ObjId}

/-! ## Giving up references of a kind -/

/-- Giving up references lowers the counts by their numbers, and does nothing else. -/
structure Lowers (h h' : Heap) (refs : Multiset ObjId) : Prop where
  slot : ∀ x, h'.slot? x = (h.slot? x).map fun c => { c with rc := c.rc - refs.count x }
  scopes : h'.scopes = h.scopes
  free : h'.free = h.free
  size : h'.slots.size = h.slots.size

theorem Lowers.sameObjs {refs : Multiset ObjId} (hl : Lowers h h' refs) : SameObjs h h' := by
  intro x
  rw [hl.slot x, Option.map_map]
  rfl

theorem release_lowers : ∀ {h : Heap} (vs : List Value),
    (∀ x, (refsOf vs).count x ≤ h.rcOrZero x) →
      ∃ h', vs.foldlM Heap.release h = .ok h' ∧ Lowers h h' (refsOf vs)
  | h, [], _ => ⟨h, rfl, fun x => by cases h.slot? x <;> simp [refsOf_nil], rfl, rfl, rfl⟩
  | h, v :: vs, hle => by
    have hnext : ∃ h₁, h.release v = .ok h₁ ∧ Lowers h h₁ (refsOf [v]) := by
      cases v with
      | obj r =>
        have hpos : 0 < h.rcOrZero r := by
          have := hle r
          rw [refsOf_cons, refsOf_obj, Multiset.count_add, Multiset.count_singleton_self] at this
          omega
        cases hr : h.slot? r with
        | none => simp [rcOrZero, hr] at hpos
        | some c =>
          have hrc : 0 < c.rc := by simpa [rcOrZero, hr] using hpos
          refine ⟨h.setSlot r (some { c with rc := c.rc - 1 }), ?_, fun x => ?_, rfl, rfl,
            size_setSlot h r _⟩
          · rw [Heap.release, decObj_eq hr hrc]
            rfl
          rw [slot?_setSlot_of hr, refsOf_obj, Multiset.count_singleton]
          split_ifs with e
          · rw [e, hr]
            rfl
          · simp
      | _ => exact ⟨h, rfl, fun x => by cases h.slot? x <;> simp [refsOf, Value.asObj?], rfl, rfl, rfl⟩
    obtain ⟨h₁, e₁, hl₁⟩ := hnext
    have hle₁ : ∀ x, (refsOf vs).count x ≤ h₁.rcOrZero x := by
      intro x
      have := hle x
      rw [refsOf_cons, Multiset.count_add] at this
      have hrc : h₁.rcOrZero x = h.rcOrZero x - (refsOf [v]).count x := by
        rw [rcOrZero, hl₁.slot, rcOrZero]
        cases h.slot? x <;> simp
      omega
    obtain ⟨h₂, e₂, hl₂⟩ := release_lowers vs hle₁
    refine ⟨h₂, by rw [List.foldlM_cons, e₁]; exact e₂, fun x => ?_, hl₂.scopes.trans hl₁.scopes,
      hl₂.free.trans hl₁.free, hl₂.size.trans hl₁.size⟩
    rw [hl₂.slot, hl₁.slot, Option.map_map, refsOf_cons v vs, Multiset.count_add]
    cases h.slot? x <;> simp [Nat.sub_sub]

/-! ## One member -/

/-- The members in `done` have been marked for a scope with members `ms`. -/
structure Sealing (h : Heap) (R : Multiset ObjId) (ms done : List ObjId) : Prop where
  counted : Counted h R
  grouped : Grouped h []
  marked : Marked h done
  arena : Arena h
  weakened : ∀ {m rc k}, m ∈ done → h.slot? m = some ⟨rc, .closure k⟩ → WeakExactly k ms

theorem refsOf_filter (p : Value → Bool) : ∀ vs : List Value,
    refsOf (vs.filter p) + refsOf (vs.filter fun v => !p v) = refsOf vs
  | [] => rfl
  | v :: vs => by
    have ih := refsOf_filter p vs
    cases hp : p v
    · rw [List.filter_cons_of_neg (by simp [hp]), List.filter_cons_of_pos (by simp [hp]),
        refsOf_cons v vs, refsOf_cons v (vs.filter _), ← ih, add_left_comm]
    · rw [List.filter_cons_of_pos hp, List.filter_cons_of_neg (by simp [hp]),
        refsOf_cons v vs, refsOf_cons v (vs.filter _), ← ih, add_assoc]

theorem filter_zipIdx {α : Type} (p : α → Bool) : ∀ (l : List α) (q : Nat → Bool) (n : Nat),
    (∀ i, q (n + i) = l[i]?.any p) →
      ((l.zipIdx n).filter fun x => !q x.2).map (·.1) = l.filter fun x => !p x
  | [], q, n, _ => rfl
  | a :: l, q, n, hq => by
    have h0 : q n = p a := by simpa using hq 0
    have ih := filter_zipIdx p l q (n + 1) fun i => by
      rw [Nat.add_assoc, Nat.add_comm 1]
      simpa using hq (i + 1)
    rw [List.zipIdx_cons, List.filter_cons, List.filter_cons, h0]
    cases hp : p a <;> simp [ih]

/-- The captures that still hold a reference are those of other objects. -/
theorem ownedCaps_of_weakExactly {k : Closure} (hk : WeakExactly k ms) :
    k.ownedCaps = k.caps.filter fun v => !isMember ms v :=
  filter_zipIdx (isMember ms) k.caps (fun i => k.weak.getD i false) 0 fun i => by
    rw [Nat.zero_add]
    exact hk i

theorem weakExactly_map (k : Closure) (ms : List ObjId) :
    WeakExactly { k with weak := k.caps.map (isMember ms) } ms := by
  intro i
  show (k.caps.map (isMember ms)).getD i false = k.caps[i]?.any (isMember ms)
  rw [List.getD_eq_getElem?_getD, List.getElem?_map]
  cases k.caps[i]? <;> rfl

/-- **Marking one member.** -/
theorem Sealing.weaken {m : ObjId} {rc : Nat} {k : Closure} (hs : Sealing h R ms done)
    (hr : h.slot? m = some ⟨rc, .closure k⟩) (hm : m ∉ done) (hopen : h.siblings k = []) :
    ∃ h', weaken ms h m = .ok h' ∧ Sealing h' R ms (m :: done) ∧ h'.scopes = h.scopes := by
  have hmarks : ∀ i, k.weak.getD i false = false := by
    have := hs.marked m rc k hr hm
    rwa [hopen, weakExactly_nil] at this
  -- the captures of siblings are references in the heap, so the counts cover them
  have hin : refsOf k.caps + ((h.vacate m).held) = h.held := by
    rw [← held_vacate hr, add_comm]
    simp only [Object.refs, Object.owned, ownedCaps_of_unmarked hmarks]
  have hsplit := refsOf_filter (isMember ms) k.caps
  have hle : ∀ x, (refsOf (k.caps.filter (isMember ms))).count x ≤ h.rcOrZero x := by
    intro x
    by_cases hx : (refsOf (k.caps.filter (isMember ms))).count x = 0
    · omega
    · have hmem : x ∈ R + h.held := by
        rw [← hin, ← hsplit]
        simp only [Multiset.mem_add]
        exact Or.inr (Or.inl (Or.inl (Multiset.count_ne_zero.mp hx)))
      obtain ⟨c, hc⟩ := hs.counted.live x hmem
      rw [rcOrZero, hc, Option.map_some, Option.getD_some, hs.counted.exact hc, ← hin, ← hsplit]
      simp only [Multiset.count_add]
      omega
  obtain ⟨h₁, e₁, hl⟩ := release_lowers _ hle
  set sib := refsOf (k.caps.filter (isMember ms)) with hsib
  set k' : Closure := { k with weak := k.caps.map (isMember ms) } with hk'
  have hr₁ : h₁.slot? m = some ⟨rc - sib.count m, .closure k⟩ := by
    rw [hl.slot, hr]
    rfl
  have hslot := slot?_setSlot_of hr₁ ⟨rc - sib.count m, .closure k'⟩
  have hown : k'.ownedCaps = k.caps.filter fun v => !isMember ms v :=
    ownedCaps_of_weakExactly (weakExactly_map k ms)
  have hheld : (h₁.setSlot m (some ⟨rc - sib.count m, .closure k'⟩)).held + sib = h.held := by
    have := held_setSlot h₁ (some ⟨rc - sib.count m, .closure k'⟩) (lt_size_of_slot? hr₁)
    rw [hr₁, held_congr hl.size hl.sameObjs] at this
    simp only [slotRefs, Object.refs, Object.owned, ownedCaps_of_unmarked hmarks, hown] at this
    rw [← hsplit, ← add_assoc] at this
    exact add_right_cancel this
  refine ⟨h₁.setSlot m (some ⟨rc - sib.count m, .closure k'⟩), ?_,
    ⟨⟨fun x hx => ?_, fun {x c} hx => ?_⟩, ?_, fun x rcx kx hx hn => ?_, ?_,
      fun {x rcx kx} hx hk => ?_⟩, hl.scopes⟩
  · simp only [Heap.weaken, get_eq hr, e₁, put_eq hr₁, bind, Except.bind]
    rfl
  · have hx' : x ∈ R + h.held := by
      rw [← hheld]
      rcases Multiset.mem_add.mp hx with hx | hx <;> simp [hx]
    obtain ⟨c, hc⟩ := hs.counted.live x hx'
    rw [hslot]
    split_ifs
    · exact ⟨_, rfl⟩
    · exact ⟨_, by rw [hl.slot, hc]; rfl⟩
  · have hsum : ∀ y, (R + h.held).count y - sib.count y =
        (R + (h₁.setSlot m (some ⟨rc - sib.count m, .closure k'⟩)).held).count y := by
      intro y
      rw [← hheld]
      simp only [Multiset.count_add]
      omega
    rw [hslot] at hx
    split_ifs at hx with e
    · cases hx
      rw [← hsum, e, ← hs.counted.exact hr]
    · rw [hl.slot] at hx
      cases hc : h.slot? x with
      | none => rw [hc] at hx; cases hx
      | some cx =>
        rw [hc] at hx
        cases hx
        rw [← hsum, ← hs.counted.exact hc]
  · exact (hs.grouped.of_objs hl.scopes hl.sameObjs).rewrite hr₁ rfl
  · rw [hslot] at hx
    rw [List.mem_cons, not_or] at hn
    rw [if_neg hn.1] at hx
    exact (hs.marked.of_objs hl.scopes hl.sameObjs) x rcx kx hx hn.2
  · refine (hs.arena.of_slots hl.free hl.size fun x hx => ?_).setSlot hr₁ _
    rw [hl.slot, hx]
    rfl
  · rw [hslot] at hk
    split_ifs at hk with e
    · cases hk
      exact weakExactly_map k ms
    · obtain ⟨rc', hk'⟩ := hl.sameObjs.back hk
      exact hs.weakened ((List.mem_cons.mp hx).resolve_left e) hk'

/-! ## The whole scope -/

theorem Sealing.weakenAll {g : ScopeId} {s : Scope} : ∀ {h : Heap} (todo done : List ObjId),
    Sealing h R s.members done → h.scopeAt g = some s → s.isSealed = false →
    (∀ m ∈ todo, m ∈ s.members) → todo.Nodup → (∀ m ∈ todo, m ∉ done) →
      ∃ h', todo.foldlM (Heap.weaken s.members) h = .ok h' ∧
        Sealing h' R s.members (todo.reverse ++ done) ∧ h'.scopes = h.scopes
  | h, [], done, hs, _, _, _, _, _ => ⟨h, rfl, hs, rfl⟩
  | h, m :: todo, done, hs, hg, hopen, hmem, hnd, hnew => by
    obtain ⟨hm, hnd⟩ := List.nodup_cons.mp hnd
    obtain ⟨rc, k, hr, hk⟩ := hs.grouped.member hg (hmem m (by simp))
    have hsib : h.siblings k = [] := siblings_of_unsealed fun g' s' hg' hs' => by
      rw [hk] at hg'
      cases hg'
      rw [hg] at hs'
      cases hs'
      exact hopen
    obtain ⟨h₁, e₁, hs₁, hsc₁⟩ := hs.weaken hr (hnew m (by simp)) hsib
    obtain ⟨h₂, e₂, hs₂, hsc₂⟩ := Sealing.weakenAll todo (m :: done) hs₁
      (by simpa only [scopeAt, hsc₁] using hg) hopen (fun x hx => hmem x (by simp [hx])) hnd
      (fun x hx hd => by
        rcases List.mem_cons.mp hd with rfl | hd
        · exact hm hx
        · exact hnew x (by simp [hx]) hd)
    refine ⟨h₂, by rw [List.foldlM_cons, e₁]; exact e₂, ?_, hsc₂.trans hsc₁⟩
    simpa using hs₂

theorem scopes_release {v : Value} (e : h.release v = .ok h') : h'.scopes = h.scopes := by
  cases v with
  | obj r =>
    cases hr : h.slot? r with
    | none => simp [Heap.release, decObj, slot, hr, bind, Except.bind] at e
    | some c =>
      simp only [Heap.release, decObj, slot, hr, bind, Except.bind] at e
      split_ifs at e
      cases e
      rfl
  | _ => cases e; rfl

theorem scopes_foldlM {α : Type} {f : Heap → α → Except Fault Heap}
    (hf : ∀ {h h' a}, f h a = .ok h' → h'.scopes = h.scopes) : ∀ {h h' : Heap} (l : List α),
      l.foldlM f h = .ok h' → h'.scopes = h.scopes
  | h, h', [], e => by cases e; rfl
  | h, h', a :: l, e => by
    rw [List.foldlM_cons] at e
    cases ha : f h a with
    | error x => rw [ha] at e; cases e
    | ok h₁ =>
      rw [ha] at e
      exact (scopes_foldlM hf l e).trans (hf ha)

theorem scopes_weaken {m : ObjId} (e : weaken ms h m = .ok h') : h'.scopes = h.scopes := by
  unfold weaken at e
  cases hr : h.slot? m with
  | none => simp [get, slot, hr, Except.map, bind, Except.bind] at e
  | some c =>
    rw [get_eq hr] at e
    obtain ⟨rc, o⟩ := c
    cases o with
    | closure k =>
      simp only [bind, Except.bind] at e
      split at e
      · cases e
      · next h₁ e₁ =>
        have h₁s := scopes_foldlM scopes_release _ e₁
        cases hr₁ : h₁.slot? m with
        | none => simp [put, slot, hr₁, bind, Except.bind] at e
        | some c₁ =>
          rw [put_eq hr₁] at e
          cases e
          exact h₁s
    | _ => cases e

theorem noteZeros_spec (f : ObjId → Nat) : ∀ (n : Nat) {s s' : Scope} {d : Decision},
    Scope.noteZeros f n s = (s', d) → s'.members = s.members ∧ s'.isSealed = s.isSealed ∧
      (d = .discard → s.referenced f = 0)
  | 0, s, s', d, e => by cases e; exact ⟨rfl, rfl, fun h => by cases h⟩
  | n + 1, s, s', d, e => by
    rw [Scope.noteZeros] at e
    have hm := noteZero_members s f
    have hsl := noteZero_isSealed s f
    have hd := noteZero_discard_iff s f
    rcases hn : s.noteZero f with ⟨s₁, _ | _⟩
    · rw [hn] at e hm hsl
      obtain ⟨hm', hsl', hd'⟩ := noteZeros_spec f n e
      refine ⟨hm'.trans hm, hsl'.trans hsl, fun he => ?_⟩
      have := hd' he
      rwa [Scope.referenced, hm] at this
    · rw [hn] at e hm hsl hd
      cases e
      exact ⟨hm, hsl, fun _ => (hd.mp rfl).2.2⟩

/-- The marks fit once the scope is sealed. -/
theorem Sealing.sound {g : ScopeId} {s s' : Scope} (hs : Sealing h R s.members done)
    (hdone : ∀ m, m ∈ done ↔ m ∈ s.members) (hg : h.scopeAt g = some s)
    (hm : s'.members = s.members) (hsealed : s'.isSealed = true) :
    Sound (h.setScope g (some s')) R [] := by
  refine ⟨⟨hs.counted.live, hs.counted.exact⟩, hs.grouped.rescope hg hm, fun x rc k hx hn => ?_,
    ⟨hs.arena.nodup, hs.arena.empty⟩⟩
  have hx : h.slot? x = some ⟨rc, .closure k⟩ := hx
  by_cases hmem : x ∈ s.members
  · have hk : k.scope = some g := hs.grouped.scope?_of_mem hg hmem hx
    have hsib : (h.setScope g (some s')).siblings k = s.members := by
      simp [siblings, hk, scopeAt_setScope hg, hsealed, hm]
    rw [hsib]
    exact hs.weakened ((hdone x).mpr hmem) hx
  · have hk : k.scope ≠ some g := by
      intro hk
      obtain ⟨s₀, h₀, hx₀⟩ := hs.grouped.home hx hk (by simp)
      rw [hg] at h₀
      cases h₀
      exact hmem hx₀
    rw [siblings_setScope hg _ hk]
    exact hs.marked x rc k hx fun hd => hmem ((hdone x).mp hd)

/-- Reclaiming objects at zero one after the other. -/
theorem Sound.reclaimEach : ∀ {h h' : Heap} (work : List ObjId), Sound h R [] → AtZero h work →
    work.foldlM (fun h r => h.reclaim [r]) h = .ok h' → Sound h' R []
  | h, h', [], hs, _, e => by cases e; exact hs
  | h, h', r :: work, hs, hz, e => by
    rw [List.foldlM_cons] at e
    cases e₁ : h.reclaim [r] with
    | error f => rw [e₁] at e; cases e
    | ok h₁ =>
      rw [e₁] at e
      have hz₁ : AtZero h [r] := fun m hm => hz m (by simp [List.mem_singleton.mp hm])
      obtain ⟨hs₁, hrest⟩ := hs.reclaim hz₁ e₁
      exact Sound.reclaimEach work hs₁ (hrest fun m hm => hz m (by simp [hm])) e

theorem close_cases {s s' : Scope} {f : ObjId → Nat} {d : Decision} (e : s.close f = .ok (s', d)) :
    s.isSealed = false ∧ s'.members = s.members ∧ s'.isSealed = true ∧
      (d = .discard → ∀ m ∈ s.members, f m = 0) := by
  unfold Scope.close at e
  split_ifs at e with h1 h2
  obtain ⟨hm, hsl, hd⟩ := noteZeros_spec f _ (Except.ok.inj e)
  exact ⟨by simpa using h1, hm, hsl, fun he => (referenced_eq_zero_iff _ f).mp (hd he)⟩

/-- **Sealing a scope.** -/
theorem Sound.sealScope {g : ScopeId} (hs : Sound h R []) (e : h.sealScope g = .ok h') :
    Sound h' R [] := by
  unfold Heap.sealScope at e
  cases hsc : h.scope g with
  | error f => simp [hsc, bind, Except.bind] at e
  | ok s =>
    have hg := scopeAt_of_scope hsc
    simp only [hsc, bind, Except.bind] at e
    split at e
    · cases e
    · next h₁ e₁ =>
      have hsc₁ := scopes_foldlM scopes_weaken _ e₁
      have hg₁ : h₁.scopeAt g = some s := by simpa only [scopeAt, hsc₁] using hg
      rw [scope_eq hg₁] at e
      cases hcl : s.close h₁.rcOrZero with
      | error f => simp [hcl] at e
      | ok p =>
        obtain ⟨s', d⟩ := p
        obtain ⟨hopen, hm, hsealed, hz⟩ := close_cases hcl
        obtain ⟨h₂, e₂, hs₂, -⟩ := Sealing.weakenAll s.members []
          ⟨hs.counted, hs.grouped, hs.marked, hs.arena, fun hm => by simp at hm⟩ hg hopen
          (fun _ h => h) (hs.grouped.distinct hg) (by simp)
        rw [e₁] at e₂
        cases e₂
        have hs₃ := hs₂.sound (by simp) hg₁ hm hsealed
        cases d with
        | keep =>
          simp only [hcl] at e
          cases e
          exact hs₃
        | discard =>
          have hat := scopeAt_setScope hg₁ (some s')
          obtain ⟨h₄, new, e₄, hs₄, hd, -⟩ := hs₃.dismantle (s := s') (by rw [hat, if_pos rfl])
            (fun m hmem => hz rfl m (hm ▸ hmem)) []
          simp only [hcl, e₄, List.append_nil] at e
          refine Sound.reclaimEach new hs₄ (fun m hm c hc => ?_) e
          obtain ⟨-, c', hc', h0⟩ := hd.fresh hm
          rw [hc] at hc'
          cases hc'
          exact h0

end CountedMachine.Heap
