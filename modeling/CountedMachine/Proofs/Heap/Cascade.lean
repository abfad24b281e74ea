import CountedMachine.Proofs.Heap.Accounting

/-! # The cascade of frees

Working off the objects at zero keeps the heap sound: an object at zero has no references, so it
can be freed, and the references it held become outside ones that are given up one after the other.
Objects whose counts reach zero on the way are new on the work list (`Sheds`). -/

namespace CountedMachine.Heap

/-- Some objects, those in `D`, have been freed and counts have dropped; those in `new` have dropped
to zero. -/
structure Sheds (h h' : Heap) (D new : List ObjId) : Prop extends Shrinks h h' D where
  fresh : ∀ {x}, x ∈ new →
    (∃ c, h.slot? x = some c ∧ 0 < c.rc) ∧ ∃ c', h'.slot? x = some c' ∧ c'.rc = 0
  all : ∀ {x c c'}, h.slot? x = some c → 0 < c.rc → h'.slot? x = some c' → c'.rc = 0 → x ∈ new
  nodup : new.Nodup
  busy : h'.busy + new.length = h.busy
  size : h'.slots.size = h.slots.size

theorem Sheds.refl (h : Heap) : Sheds h h [] [] where
  toShrinks := .refl h
  fresh hx := by simp at hx
  all hx hpos hx' h0 := by rw [hx] at hx'; cases hx'; omega
  nodup := List.nodup_nil
  busy := by simp
  size := rfl

theorem Sheds.trans {h₁ h₂ h₃ : Heap} {D₁ D₂ n₁ n₂ : List ObjId} (a : Sheds h₁ h₂ D₁ n₁)
    (b : Sheds h₂ h₃ D₂ n₂) (hD : ∀ x ∈ n₁, x ∉ D₂) : Sheds h₁ h₃ (D₁ ++ D₂) (n₂ ++ n₁) where
  toShrinks := a.toShrinks.trans b.toShrinks
  fresh {x} hx := by
    rcases List.mem_append.mp hx with hx | hx
    · obtain ⟨⟨c₂, hx₂, hpos⟩, hx₃⟩ := b.fresh hx
      obtain ⟨c₁, hx₁, -, hle⟩ := a.back hx₂
      exact ⟨⟨c₁, hx₁, by omega⟩, hx₃⟩
    · obtain ⟨hx₁, c₂, hx₂, h0⟩ := a.fresh hx
      obtain ⟨c₃, hx₃⟩ := b.kept hx₂ (hD x hx)
      obtain ⟨c₂', hx₂', -, hle⟩ := b.back hx₃
      rw [hx₂] at hx₂'
      cases hx₂'
      exact ⟨hx₁, c₃, hx₃, by omega⟩
  all {x c₁ c₃} hx₁ hpos hx₃ h0 := by
    obtain ⟨c₂, hx₂, -, -⟩ := b.back hx₃
    rcases Nat.eq_zero_or_pos c₂.rc with h2 | h2
    · exact List.mem_append.mpr (Or.inr (a.all hx₁ hpos hx₂ h2))
    · exact List.mem_append.mpr (Or.inl (b.all hx₂ h2 hx₃ h0))
  nodup := by
    refine List.nodup_append.mpr ⟨b.nodup, a.nodup, fun x hx y hy e => ?_⟩
    obtain ⟨⟨c₂, hx₂, hpos⟩, -⟩ := b.fresh hx
    obtain ⟨-, c₂', hy₂, h0⟩ := a.fresh hy
    rw [e, hy₂] at hx₂
    cases hx₂
    omega
  busy := by
    have := a.busy
    have := b.busy
    simp only [List.length_append]
    omega
  size := b.size.trans a.size

/-- Only the slots matter. -/
theorem Sheds.of_slots {h₁ h₂ h₁' h₂' : Heap} {D new : List ObjId} (a : Sheds h₁ h₂ D new)
    (e₁ : h₁'.slots = h₁.slots) (e₂ : h₂'.slots = h₂.slots) : Sheds h₁' h₂' D new := by
  have q₁ : ∀ x, h₁'.slot? x = h₁.slot? x := fun x => by simp only [slot?, e₁]
  have q₂ : ∀ x, h₂'.slot? x = h₂.slot? x := fun x => by simp only [slot?, e₂]
  have b₁ : h₁'.busy = h₁.busy := by simp only [Heap.busy, e₁]
  have b₂ : h₂'.busy = h₂.busy := by simp only [Heap.busy, e₂]
  constructor
  · constructor
    · simpa only [q₁, q₂] using @a.back
    · simpa only [q₁, q₂] using @a.kept
    · simpa only [q₂] using @a.gone
  · simpa only [q₁, q₂] using @a.fresh
  · simpa only [q₁, q₂] using @a.all
  · exact a.nodup
  · rw [b₁, b₂, a.busy]
  · rw [e₁, e₂, a.size]

/-! ## Giving up references -/

variable {h h' : Heap} {R : Multiset ObjId} {r : ObjId} {c : Slot} {ds work : List ObjId}

theorem busy_recount (hr : h.slot? r = some c) (n : Nat) :
    (h.setSlot r (some { c with rc := n })).busy + (if 0 < c.rc then 1 else 0) =
      h.busy + if 0 < n then 1 else 0 := by
  have := sum_setSlot (fun o => if o.any (0 < ·.rc) then 1 else 0) h (some { c with rc := n })
    (lt_size_of_slot? hr)
  rw [hr] at this
  unfold busy
  simpa using this

theorem busy_vacate (hr : h.slot? r = some c) (h0 : c.rc = 0) : (h.vacate r).busy = h.busy := by
  have := sum_setSlot (fun o => if o.any (0 < ·.rc) then 1 else 0) h none (lt_size_of_slot? hr)
  rw [hr] at this
  show (h.setSlot r none).busy = h.busy
  unfold busy
  simpa [h0] using this

theorem sheds_dec (hr : h.slot? r = some c) (hpos : 0 < c.rc) :
    Sheds h (h.setSlot r (some { c with rc := c.rc - 1 })) []
      (if c.rc - 1 = 0 then [r] else []) := by
  have hslot := fun x => slot?_setSlot h r x (some { c with rc := c.rc - 1 }) (lt_size_of_slot? hr)
  have hbusy := busy_recount hr (c.rc - 1)
  refine ⟨⟨fun {x c'} hx => ?_, fun {x cx} hx _ => ?_, fun hx => by simp at hx⟩, fun {x} hx => ?_,
    fun {x cx c'} hx hp hx' h0 => ?_, ?_, ?_, by simp⟩
  · rw [hslot] at hx
    split_ifs at hx with e
    · cases hx
      exact ⟨c, e ▸ hr, rfl, Nat.sub_le _ _⟩
    · exact ⟨c', hx, rfl, le_rfl⟩
  · rw [hslot]
    split_ifs
    · exact ⟨_, rfl⟩
    · exact ⟨cx, hx⟩
  · split_ifs at hx with h1
    · obtain rfl := List.mem_singleton.mp hx
      exact ⟨⟨c, hr, hpos⟩, _, by rw [hslot, if_pos rfl], h1⟩
    · simp at hx
  · rw [hslot] at hx'
    split_ifs at hx' with e
    · cases hx'
      rw [if_pos h0, e]
      exact List.mem_singleton_self r
    · rw [hx] at hx'
      cases hx'
      omega
  · split_ifs <;> simp
  · rw [if_pos hpos] at hbusy
    split_ifs with h1
    · rw [if_neg (by omega)] at hbusy
      simp
      omega
    · rw [if_pos (by omega)] at hbusy
      simp
      omega

/-- Giving up a reference drops one count. -/
theorem Counted.letGo {x : ObjId} (hc : Counted h R) (hx : x ∈ R) (work : List ObjId) :
    ∃ h' new, letGo (h, work) (.obj x) = .ok (h', new ++ work) ∧ Counted h' (R.erase x) ∧
      Sheds h h' [] new ∧ h'.scopes = h.scopes ∧ h'.free = h.free := by
  obtain ⟨c, hr⟩ := hc.live x (Multiset.mem_add.mpr (Or.inl hx))
  have hpos := hc.pos hr hx
  refine ⟨_, _, ?_, hc.dec hr hx, sheds_dec hr hpos, rfl, rfl⟩
  simp only [Heap.letGo, decObj_eq hr hpos, bind, Except.bind, pure, Except.pure]
  split_ifs <;> rfl

/-- Giving up the references to some values, one after the other. -/
theorem Counted.letGoAll : ∀ {h : Heap} (vs : List Value) (work : List ObjId),
    Counted h (refsOf vs + R) →
      ∃ h' new, vs.foldlM Heap.letGo (h, work) = .ok (h', new ++ work) ∧ Counted h' R ∧
        Sheds h h' [] new ∧ h'.scopes = h.scopes ∧ h'.free = h.free
  | h, [], work, hc => ⟨h, [], rfl, by simpa [refsOf_nil] using hc, .refl h, rfl, rfl⟩
  | h, v :: vs, work, hc => by
    have hnext : ∃ h₁ n₁, Heap.letGo (h, work) v = .ok (h₁, n₁ ++ work) ∧
        Counted h₁ (refsOf vs + R) ∧ Sheds h h₁ [] n₁ ∧ h₁.scopes = h.scopes ∧
        h₁.free = h.free := by
      cases v with
      | obj x =>
        rw [refsOf_cons, refsOf_obj, add_assoc, Multiset.singleton_add] at hc
        simpa using hc.letGo (Multiset.mem_cons_self x _) work
      | _ => exact ⟨h, [], rfl, hc, .refl h, rfl, rfl⟩
    obtain ⟨h₁, n₁, e₁, hc₁, hd₁, hsc₁, hf₁⟩ := hnext
    obtain ⟨h₂, n₂, e₂, hc₂, hd₂, hsc₂, hf₂⟩ := Counted.letGoAll vs (n₁ ++ work) hc₁
    refine ⟨h₂, n₂ ++ n₁, ?_, hc₂, hd₁.trans hd₂ (by simp), hsc₂.trans hsc₁, hf₂.trans hf₁⟩
    rw [List.foldlM_cons, e₁, List.append_assoc]
    exact e₂

theorem Sound.letGoAll (vs : List Value) (work : List ObjId) (hs : Sound h (refsOf vs + R) ds) :
    ∃ h' new, vs.foldlM Heap.letGo (h, work) = .ok (h', new ++ work) ∧ Sound h' R ds ∧
      Sheds h h' [] new ∧ h'.scopes = h.scopes := by
  obtain ⟨h', new, e, hc, hd, hsc, hf⟩ := hs.counted.letGoAll vs work
  exact ⟨h', new, e, ⟨hc, hs.grouped.shrink hsc hd.toShrinks (fun _ _ => by simp) fun hm _ => hm,
    hs.marked.shrink hsc hd.toShrinks fun hm _ => hm, hs.arena.of_slots hf hd.size fun _ => hd.dead⟩, hd, hsc⟩

/-! ## Freeing objects -/

theorem Sound.exempt (hs : Sound h R ds) (ds' : List ObjId) (hsub : ∀ d ∈ ds, d ∈ ds') :
    Sound h R ds' :=
  ⟨hs.counted, ⟨fun hr hc hn => hs.grouped.home hr hc fun hd => hn (hsub _ hd),
    hs.grouped.distinct, hs.grouped.member⟩,
    fun r rc c hr hn => hs.marked r rc c hr fun hd => hn (hsub _ hd), hs.arena⟩

theorem sheds_vacate (hr : h.slot? r = some c) (h0 : c.rc = 0) : Sheds h (h.vacate r) [r] [] where
  back {x c'} hx := by
    rw [slot?_vacate hr] at hx
    split_ifs at hx
    exact ⟨c', hx, rfl, le_rfl⟩
  kept {x cx} hx hn := ⟨cx, by rw [slot?_vacate hr, if_neg (by simpa using hn), hx]⟩
  gone {x} hx := by rw [slot?_vacate hr, if_pos (by simpa using hx)]
  fresh hx := by simp at hx
  all {x cx c'} hx hpos hx' hz := by
    rw [slot?_vacate hr] at hx'
    split_ifs at hx'
    rw [hx] at hx'
    cases hx'
    omega
  nodup := List.nodup_nil
  busy := by simpa using busy_vacate hr h0
  size := size_setSlot h r none

/-- **Freeing an object at zero** that is in no scope, or exempt. -/
theorem Sound.dissolve (hs : Sound h R (r :: ds)) (hr : h.slot? r = some c) (h0 : c.rc = 0)
    (hout : ∀ {g s}, h.scopeAt g = some s → r ∉ s.members) (work : List ObjId) :
    ∃ h' new, dissolve (h, work) r = .ok (h', new ++ work) ∧ Sound h' R ds ∧ Sheds h h' [r] new ∧
      h'.scopes = h.scopes := by
  have hsh := sheds_vacate hr h0
  have hgone : ∀ {d cd}, d ∈ r :: ds → (h.vacate r).slot? d = some cd → d ∈ ds := by
    intro d cd hd hslot
    rw [slot?_vacate hr] at hslot
    split_ifs at hslot with e
    exact (List.mem_cons.mp hd).resolve_left e
  have hs₁ : Sound (h.vacate r) (refsOf c.obj.owned + R) ds :=
    ⟨add_comm R c.obj.refs ▸ hs.counted.vacate hr h0,
      hs.grouped.shrink rfl hsh.toShrinks
        (fun hg hm hmem => hout hg (List.mem_singleton.mp hmem ▸ hm)) hgone,
      hs.marked.shrink rfl hsh.toShrinks hgone, hs.arena.vacate hr⟩
  obtain ⟨h', new, e, hs', hd, hsc⟩ := hs₁.letGoAll c.obj.owned work
  refine ⟨h', new, ?_, hs', by simpa using hsh.trans hd (by simp), hsc⟩
  rw [Heap.dissolve, evict_eq hr]
  exact e

/-- Freeing the members of a scope that has been given up. -/
theorem Sound.dissolveAll : ∀ {h : Heap} (ms work : List ObjId), ms.Nodup → Sound h R ms →
    (∀ m ∈ ms, ∃ c, h.slot? m = some c ∧ c.rc = 0) →
    (∀ {g s m}, h.scopeAt g = some s → m ∈ ms → m ∉ s.members) →
      ∃ h' new, ms.foldlM Heap.dissolve (h, work) = .ok (h', new ++ work) ∧ Sound h' R [] ∧
        Sheds h h' ms new ∧ h'.scopes = h.scopes
  | h, [], work, _, hs, _, _ => ⟨h, [], rfl, hs, .refl h, rfl⟩
  | h, m :: ms, work, hnd, hs, hz, hout => by
    obtain ⟨hm, hnd⟩ := List.nodup_cons.mp hnd
    obtain ⟨c, hr, h0⟩ := hz m (by simp)
    obtain ⟨h₁, n₁, e₁, hs₁, hd₁, hsc₁⟩ := hs.dissolve hr h0 (fun hg => hout hg (by simp)) work
    have hat : ∀ g, h₁.scopeAt g = h.scopeAt g := fun g => by simp only [scopeAt, hsc₁]
    have hz₁ : ∀ m' ∈ ms, ∃ c, h₁.slot? m' = some c ∧ c.rc = 0 := by
      intro m' hm'
      obtain ⟨c', hr', h0'⟩ := hz m' (by simp [hm'])
      have hne : m' ∉ [m] := by
        simp only [List.mem_singleton]
        rintro rfl
        exact hm hm'
      obtain ⟨c₁, hr₁⟩ := hd₁.kept hr' hne
      obtain ⟨c₀, hr₀, -, hle⟩ := hd₁.back hr₁
      rw [hr'] at hr₀
      cases hr₀
      exact ⟨c₁, hr₁, by omega⟩
    obtain ⟨h₂, n₂, e₂, hs₂, hd₂, hsc₂⟩ := Sound.dissolveAll ms (n₁ ++ work) hnd hs₁ hz₁
      (fun hg hm' => hout (hat _ ▸ hg) (by simp [hm']))
    refine ⟨h₂, n₂ ++ n₁, ?_, hs₂, hd₁.trans hd₂ fun x hx hxm => ?_, hsc₂.trans hsc₁⟩
    · rw [List.foldlM_cons, e₁, List.append_assoc]
      exact e₂
    · -- a member has count zero already, so it is not one of those that have just reached it
      obtain ⟨⟨cx, hcx, hpos⟩, -⟩ := hd₁.fresh hx
      obtain ⟨cx', hcx', h0'⟩ := hz x (by simp [hxm])
      rw [hcx] at hcx'
      cases hcx'
      omega

/-! ## Scopes -/

theorem scope_eq {g : ScopeId} {s : Scope} (hg : h.scopeAt g = some s) : h.scope g = .ok s := by
  have : h.scopes[g.index]? = some (some s) := by
    simpa [scopeAt, Option.join_eq_some_iff] using hg
  simp [scope, this]

theorem scopeAt_setScope {g : ScopeId} {s : Scope} (hg : h.scopeAt g = some s) (o : Option Scope)
    (g' : ScopeId) : (h.setScope g o).scopeAt g' = if g' = g then o else h.scopeAt g' := by
  have hlt : g.index < h.scopes.size := by
    rcases Nat.lt_or_ge g.index h.scopes.size with hlt | hge
    · exact hlt
    · simp [scopeAt, Array.getElem?_eq_none hge] at hg
  obtain ⟨g⟩ := g
  obtain ⟨g'⟩ := g'
  simp only [scopeAt, setScope, Array.getElem?_setIfInBounds, ScopeId.mk.injEq]
  by_cases e : g = g'
  · subst e
    simp [hlt]
  · simp [e, Ne.symm e]

theorem scopeOf_eq (hr : h.slot? r = some c) : h.scopeOf r = .ok c.obj.scope? := by
  simp only [scopeOf, get_eq hr, bind, Except.bind]
  cases c.obj <;> rfl

theorem exists_closure {o : Object} {g : ScopeId} (ho : o.scope? = some g) :
    ∃ k, o = .closure k ∧ k.scope = some g := by
  cases o with
  | closure k => exact ⟨k, rfl, ho⟩
  | _ => cases ho

theorem Grouped.mem_of_scope? (hg : Grouped h []) (hr : h.slot? r = some c) {g : ScopeId}
    (hc : c.obj.scope? = some g) : ∃ s, h.scopeAt g = some s ∧ r ∈ s.members := by
  obtain ⟨rc, o⟩ := c
  obtain ⟨k, rfl, hk⟩ := exists_closure hc
  exact hg.home hr hk (by simp)

theorem Grouped.scope?_of_mem (hg : Grouped h ds) {g : ScopeId} {s : Scope}
    (hgs : h.scopeAt g = some s) (hm : r ∈ s.members) (hr : h.slot? r = some c) :
    c.obj.scope? = some g := by
  obtain ⟨rc, k, hr', hk⟩ := hg.member hgs hm
  rw [hr] at hr'
  cases hr'
  exact hk

/-- A scope may change as long as its members stay the same. -/
theorem Grouped.rescope (hgr : Grouped h ds) {g : ScopeId} {s s' : Scope}
    (hg : h.scopeAt g = some s) (hm : s'.members = s.members) :
    Grouped (h.setScope g (some s')) ds := by
  have hat := scopeAt_setScope hg (some s')
  have hback : ∀ {g₁ s₁}, (h.setScope g (some s')).scopeAt g₁ = some s₁ →
      ∃ s₀, h.scopeAt g₁ = some s₀ ∧ s₁.members = s₀.members := by
    intro g₁ s₁ h₁
    rw [hat] at h₁
    split_ifs at h₁ with e
    · cases h₁
      exact ⟨s, e ▸ hg, hm⟩
    · exact ⟨s₁, h₁, rfl⟩
  refine ⟨fun {r rc c g₁} hr hc hn => ?_, fun h₁ => ?_, fun h₁ hmem => ?_⟩
  · obtain ⟨s₀, h₀, hmem⟩ := hgr.home hr hc hn
    rw [hat]
    split_ifs with e
    · rw [e, hg] at h₀
      cases h₀
      exact ⟨s', rfl, hm ▸ hmem⟩
    · exact ⟨s₀, h₀, hmem⟩
  · obtain ⟨s₀, h₀, e⟩ := hback h₁
    exact e ▸ hgr.distinct h₀
  · obtain ⟨s₀, h₀, e⟩ := hback h₁
    exact hgr.member h₀ (e ▸ hmem)

theorem siblings_setScope {g : ScopeId} {s : Scope} (hg : h.scopeAt g = some s) (o : Option Scope)
    {k : Closure} (hk : k.scope ≠ some g) : (h.setScope g o).siblings k = h.siblings k := by
  rcases hc : k.scope with _ | g₁
  · simp [siblings, hc]
  · have e : g₁ ≠ g := fun e => hk (e ▸ hc)
    simp [siblings, hc, scopeAt_setScope hg, e]

/-- A scope whose members and seal stay the same may change its count. -/
theorem Sound.rescope (hs : Sound h R ds) {g : ScopeId} {s s' : Scope} (hg : h.scopeAt g = some s)
    (hm : s'.members = s.members) (hsealed : s'.isSealed = s.isSealed) :
    Sound (h.setScope g (some s')) R ds := by
  refine ⟨⟨hs.counted.live, hs.counted.exact⟩, hs.grouped.rescope hg hm, fun r rc c hr hn => ?_,
    ⟨hs.arena.nodup, hs.arena.empty⟩⟩
  have hsib : (h.setScope g (some s')).siblings c = h.siblings c := by
    by_cases hc : c.scope = some g
    · simp [siblings, hc, scopeAt_setScope hg, hg, hm, hsealed]
    · exact siblings_setScope hg _ hc
  rw [hsib]
  exact hs.marked r rc c hr hn

/-- Giving up a scope exempts its members. -/
theorem Sound.unscope (hs : Sound h R []) {g : ScopeId} {s : Scope} (hg : h.scopeAt g = some s) :
    Sound (h.setScope g none) R s.members := by
  have hat := scopeAt_setScope hg none
  have hback : ∀ {g₁ s₁}, (h.setScope g none).scopeAt g₁ = some s₁ → h.scopeAt g₁ = some s₁ := by
    intro g₁ s₁ h₁
    rw [hat] at h₁
    split_ifs at h₁
    exact h₁
  have hne : ∀ {r rc c}, h.slot? r = some ⟨rc, .closure c⟩ → r ∉ s.members → c.scope ≠ some g := by
    intro r rc c hr hn hc
    obtain ⟨s₀, h₀, hmem⟩ := hs.grouped.home hr hc (by simp)
    rw [hg] at h₀
    cases h₀
    exact hn hmem
  refine ⟨⟨hs.counted.live, hs.counted.exact⟩, ⟨fun {r rc c g₁} hr hc hn => ?_,
    fun h₁ => hs.grouped.distinct (hback h₁), fun h₁ => hs.grouped.member (hback h₁)⟩,
    fun r rc c hr hn => ?_, ⟨hs.arena.nodup, hs.arena.empty⟩⟩
  · obtain ⟨s₀, h₀, hmem⟩ := hs.grouped.home hr hc (by simp)
    refine ⟨s₀, ?_, hmem⟩
    rw [hat, if_neg (fun e : g₁ = g => hne hr hn (e ▸ hc)), h₀]
  · rw [siblings_setScope hg none (hne hr hn)]
    exact hs.marked r rc c hr (by simp)

theorem Sound.restat (hs : Sound h R ds) (st : HeapCounts) : Sound { h with stats := st } R ds :=
  ⟨⟨hs.counted.live, hs.counted.exact⟩,
    ⟨hs.grouped.home, hs.grouped.distinct, hs.grouped.member⟩, hs.marked,
    ⟨hs.arena.nodup, hs.arena.empty⟩⟩

/-- **Discarding a scope** whose members are all at zero. -/
theorem Sound.dismantle (hs : Sound h R []) {g : ScopeId} {s : Scope} (hg : h.scopeAt g = some s)
    (hz : ∀ m ∈ s.members, h.rcOrZero m = 0) (work : List ObjId) :
    ∃ h' new, h.dismantle g work = .ok (h', new ++ work) ∧ Sound h' R [] ∧
      Sheds h h' s.members new ∧ ∀ g', h'.scopeAt g' = if g' = g then none else h.scopeAt g' := by
  have hat := scopeAt_setScope hg none
  have hzero : ∀ m ∈ s.members, ∃ c, h.slot? m = some c ∧ c.rc = 0 := by
    intro m hm
    obtain ⟨rc, k, hr, -⟩ := hs.grouped.member hg hm
    exact ⟨_, hr, by simpa [rcOrZero, hr] using hz m hm⟩
  have hout : ∀ {g' s' m}, (h.setScope g none).scopeAt g' = some s' → m ∈ s.members →
      m ∉ s'.members := by
    intro g' s' m h' hm hm'
    rw [hat] at h'
    split_ifs at h' with e
    obtain ⟨rc, k, hr, hk⟩ := hs.grouped.member hg hm
    obtain ⟨rc', k', hr', hk'⟩ := hs.grouped.member h' hm'
    rw [hr] at hr'
    cases hr'
    exact e (Option.some.inj (hk'.symm.trans hk))
  obtain ⟨h', new, e, hs', hd, hsc⟩ := Sound.dissolveAll s.members work (hs.grouped.distinct hg)
    ((hs.unscope hg).restat { h.stats with scopesCollected := h.stats.scopesCollected + 1 })
    hzero hout
  refine ⟨h', new, ?_, hs', hd.of_slots rfl rfl, fun g' => ?_⟩
  · rw [Heap.dismantle, scope_eq hg]
    exact e
  · rw [← hat]
    simp only [scopeAt, hsc]

end CountedMachine.Heap
