import CountedMachine.Proofs.Heap.Effects
import CountedMachine.Proofs.Heap.Watching

/-! # Scopes that do not count too many members

A sealed scope keeps a lower estimate of its referenced members. `Within` says that it is one: no sealed
scope counts more members than are referenced or have yet to report that they are not. This needs no
exact counts, only scopes and an arena in order (`Steady`), and every operation of the heap keeps it when
it returns. Giving up a reference without freeing is the one operation after which a report is still to
come.

A scope with such an estimate is discarded as soon as the last of its members reports
(`Within.waits`). -/

namespace CountedMachine.Heap

variable {h h' : Heap} {r : ObjId} {c : Slot} {v : Value} {work work' due D new : List ObjId}
  {g : ScopeId} {s : Scope}

/-! ## Freeing that succeeds -/

theorem decObj_cases {n : Nat} (e : h.decObj r = .ok (h', n)) : ∃ c, h.slot? r = some c ∧ 0 < c.rc ∧
    h' = h.setSlot r (some { c with rc := c.rc - 1 }) ∧ n = c.rc - 1 := by
  cases hr : h.slot? r with
  | none => simp [decObj, slot, hr, bind, Except.bind] at e
  | some c =>
    rcases Nat.eq_zero_or_pos c.rc with h0 | hpos
    · simp [decObj, slot, hr, h0, bind, Except.bind] at e
    · rw [decObj_eq hr hpos] at e
      obtain ⟨rfl, rfl⟩ := Prod.mk.inj (Except.ok.inj e)
      exact ⟨c, rfl, hpos, rfl, rfl⟩

theorem evict_cases {o : Object} (e : h.evict r = .ok (h', o)) :
    ∃ c, h.slot? r = some c ∧ h' = h.vacate r ∧ o = c.obj := by
  cases hr : h.slot? r with
  | none =>
    rw [slot?] at hr
    rcases hs : h.slots[r.index]? with _ | _ | c
    · simp [evict, hs] at e
    · simp [evict, hs] at e
    · simp [hs] at hr
  | some c =>
    rw [evict_eq hr] at e
    obtain ⟨rfl, rfl⟩ := Prod.mk.inj (Except.ok.inj e)
    exact ⟨c, rfl, rfl, rfl⟩

theorem letGo_sheds (e : letGo (h, work) v = .ok (h', work')) : ∃ new, work' = new ++ work ∧
    Sheds h h' [] new ∧ h'.scopes = h.scopes ∧ h'.free = h.free := by
  cases v with
  | obj r =>
    obtain ⟨⟨h₁, n⟩, hd, e⟩ := bind_ok e
    obtain ⟨c, hr, hpos, rfl, rfl⟩ := decObj_cases hd
    obtain ⟨rfl, rfl⟩ := Prod.mk.inj (Except.ok.inj e)
    refine ⟨_, ?_, sheds_dec hr hpos, rfl, rfl⟩
    split_ifs <;> rfl
  | _ =>
    obtain ⟨rfl, rfl⟩ := Prod.mk.inj (Except.ok.inj e)
    exact ⟨[], rfl, .refl _, rfl, rfl⟩

/-- Giving up references one after the other. -/
theorem letGoAll_sheds : ∀ {vs : List Value} {h : Heap} {work : List ObjId},
    vs.foldlM letGo (h, work) = .ok (h', work') → ∃ new, work' = new ++ work ∧ Sheds h h' [] new ∧
      h'.scopes = h.scopes ∧ h'.free = h.free
  | [], h, work, e => by
    obtain ⟨rfl, rfl⟩ := Prod.mk.inj (Except.ok.inj e)
    exact ⟨[], rfl, .refl _, rfl, rfl⟩
  | v :: vs, h, work, e => by
    rw [List.foldlM_cons] at e
    obtain ⟨⟨h₁, work₁⟩, e₁, e⟩ := bind_ok e
    obtain ⟨n₁, rfl, hd₁, hsc₁, hf₁⟩ := letGo_sheds e₁
    obtain ⟨n₂, rfl, hd₂, hsc₂, hf₂⟩ := letGoAll_sheds e
    exact ⟨n₂ ++ n₁, by simp, hd₁.trans hd₂ (by simp), hsc₂.trans hsc₁, hf₂.trans hf₁⟩

/-- Freeing an object at zero. -/
theorem dissolve_sheds (ha : Arena h) (hz : ∀ {c}, h.slot? r = some c → c.rc = 0)
    (e : dissolve (h, work) r = .ok (h', work')) : ∃ new, work' = new ++ work ∧ Sheds h h' [r] new ∧
      h'.scopes = h.scopes ∧ Arena h' := by
  obtain ⟨⟨h₁, o⟩, he, e⟩ := bind_ok e
  obtain ⟨c, hr, rfl, rfl⟩ := evict_cases he
  obtain ⟨new, rfl, hd, hsc, hf⟩ := letGoAll_sheds e
  exact ⟨new, rfl, by simpa using (sheds_vacate hr (hz hr)).trans hd (by simp), hsc,
    (ha.vacate hr).of_slots hf hd.size fun _ => hd.dead⟩

/-- Freeing objects at zero one after the other. -/
theorem dissolveAll_sheds : ∀ {ms : List ObjId} {h : Heap} {work : List ObjId}, Arena h → ms.Nodup →
    AtZero h ms → ms.foldlM dissolve (h, work) = .ok (h', work') → ∃ new, work' = new ++ work ∧
      Sheds h h' ms new ∧ h'.scopes = h.scopes ∧ Arena h'
  | [], h, work, ha, _, _, e => by
    obtain ⟨rfl, rfl⟩ := Prod.mk.inj (Except.ok.inj e)
    exact ⟨[], rfl, .refl _, rfl, ha⟩
  | m :: ms, h, work, ha, hnd, hz, e => by
    obtain ⟨hm, hnd⟩ := List.nodup_cons.mp hnd
    rw [List.foldlM_cons] at e
    obtain ⟨⟨h₁, work₁⟩, e₁, e⟩ := bind_ok e
    obtain ⟨n₁, rfl, hd₁, hsc₁, ha₁⟩ := dissolve_sheds ha (hz m (by simp) _) e₁
    have hz₁ : AtZero h₁ ms := (show AtZero h ms from fun m hm => hz m (by simp [hm])).shrink hd₁.toShrinks
    obtain ⟨n₂, rfl, hd₂, hsc₂, ha₂⟩ := dissolveAll_sheds ha₁ hnd hz₁ e
    refine ⟨n₂ ++ n₁, by simp, hd₁.trans hd₂ fun x hx hxm => ?_, hsc₂.trans hsc₁, ha₂⟩
    -- an object at zero has not just reached it
    obtain ⟨⟨c, hc, hpos⟩, -⟩ := hd₁.fresh hx
    have := hz x (by simp [hxm]) c hc
    omega

/-- Giving up a scope exempts its members. -/
theorem Grouped.unscope (hgr : Grouped h []) (hg : h.scopeAt g = some s) :
    Grouped (h.setScope g none) s.members := by
  have hat := scopeAt_setScope hg none
  have hback : ∀ {g₁ s₁}, (h.setScope g none).scopeAt g₁ = some s₁ → h.scopeAt g₁ = some s₁ := by
    intro g₁ s₁ h₁
    rw [hat] at h₁
    split_ifs at h₁
    exact h₁
  refine ⟨fun {r rc k g₁} hr hk hn => ?_, fun h₁ => hgr.distinct (hback h₁),
    fun h₁ => hgr.member (hback h₁)⟩
  obtain ⟨s₀, h₀, hmem⟩ := hgr.home hr hk (by simp)
  refine ⟨s₀, ?_, hmem⟩
  rw [hat, if_neg, h₀]
  rintro rfl
  exact hn (Option.some.inj (h₀.symm.trans hg) ▸ hmem)

theorem atZero_of_rcOrZero (hz : ∀ m ∈ work, h.rcOrZero m = 0) : AtZero h work := by
  intro m hm c hc
  simpa [rcOrZero, hc] using hz m hm

/-- **Discarding a scope** whose members are all at zero. -/
theorem dismantle_sheds (hgr : Grouped h []) (ha : Arena h) (hg : h.scopeAt g = some s)
    (hz : ∀ m ∈ s.members, h.rcOrZero m = 0) (e : h.dismantle g work = .ok (h', work')) :
    ∃ new, work' = new ++ work ∧ Sheds h h' s.members new ∧ Grouped h' [] ∧ Arena h' ∧
      ∀ g', h'.scopeAt g' = if g' = g then none else h.scopeAt g' := by
  have hat := scopeAt_setScope hg none
  rw [dismantle, scope_eq hg] at e
  obtain ⟨h₁, hslots, hfree, hsc₁, e⟩ : ∃ h₁ : Heap, h₁.slots = h.slots ∧ h₁.free = h.free ∧
      h₁.scopes = (h.setScope g none).scopes ∧ s.members.foldlM dissolve (h₁, work) = .ok (h', work') :=
    ⟨{ h.setScope g none with
      stats := { h.stats with scopesCollected := h.stats.scopesCollected + 1 } }, rfl, rfl, rfl, e⟩
  have hslot₁ : h₁.slot? = h.slot? := by
    funext x
    rw [slot?, slot?, hslots]
  have hgr₁ : Grouped h₁ s.members := (hgr.unscope hg).of_objs hsc₁ fun x => by rw [hslot₁]; rfl
  have ha₁ : Arena h₁ := ⟨hfree ▸ ha.nodup, fun x hx => hslots ▸ ha.empty x (hfree ▸ hx)⟩
  obtain ⟨new, rfl, hd, hsc, ha'⟩ := dissolveAll_sheds ha₁ (hgr.distinct hg)
    (atZero_of_rcOrZero fun m hm => by rw [rcOrZero, hslot₁]; exact hz m hm) e
  refine ⟨new, rfl, hd.of_slots hslots.symm rfl, ?_, ha', fun g' => ?_⟩
  · refine hgr₁.shrink hsc hd.toShrinks (fun {g' s' m} hg' hm' hm => ?_) fun {d c} hd' hc => ?_
    · -- the members of the scope are in no other one
      rw [scopeAt_congr hsc₁, hat] at hg'
      split_ifs at hg' with e'
      obtain ⟨rc, k, hr, hk⟩ := hgr.member hg hm
      obtain ⟨rc', k', hr', hk'⟩ := hgr.member hg' hm'
      cases hr.symm.trans hr'
      exact e' (Option.some.inj (hk'.symm.trans hk))
    · rw [hd.gone hd'] at hc
      cases hc
  · rw [← hat, scopeAt_congr hsc, scopeAt_congr hsc₁]

/-- **Working off one object at zero.** -/
theorem reclaimOne_reclaims (hgr : Grouped h []) (ha : Arena h) (hr : h.slot? r = some c) (h0 : c.rc = 0)
    (e : h.reclaimOne r work = .ok (h', work')) :
    ∃ D new, work' = new ++ work ∧ Grouped h' [] ∧ Arena h' ∧ Reclaims h h' r D new := by
  rw [reclaimOne, scopeOf_eq hr] at e
  rcases hc : c.obj.scope? with _ | g
  · -- an object in no scope is freed
    rw [hc] at e
    have hout : ∀ {g s}, h.scopeAt g = some s → r ∉ s.members := by
      intro g s hg hm
      have := hgr.scope?_of_mem hg hm hr
      rw [hc] at this
      cases this
    obtain ⟨new, rfl, hd, hsc, ha'⟩ := dissolve_sheds ha (fun hr' => by
      cases hr.symm.trans hr'
      exact h0) e
    have hno : ∀ s, ¬ h.Discards r s := by
      rintro s ⟨g, hg, -⟩
      rw [scopeOf_eq hr, hc] at hg
      cases hg
    refine ⟨[r], new, rfl, hgr.shrink hsc hd.toShrinks
      (fun hg hm hmem => hout hg (List.mem_singleton.mp hmem ▸ hm)) (by simp), ha', hd,
      fun hm => Or.inl (List.mem_singleton.mp hm), fun hd' => absurd hd' (hno _), fun {g s'} hg => ?_⟩
    have hg' : h.scopeAt g = some s' := by simpa only [scopeAt, hsc] using hg
    exact ⟨s', hg', by rw [if_neg (hout hg')]⟩
  · -- a member of a scope reports to it
    rw [hc] at e
    obtain ⟨s, hg, hmem⟩ := hgr.mem_of_scope? hr hc
    have hout : ∀ {g' s'}, g' ≠ g → h.scopeAt g' = some s' → r ∉ s'.members := by
      intro g' s' hne hg' hm
      have := hgr.scope?_of_mem hg' hm hr
      rw [hc] at this
      exact hne (Option.some.inj this).symm
    have hdis := discards_iff hr hc hg
    have hgr₁ := hgr.rescope hg (noteZero_members s h.rcOrZero)
    have hat := scopeAt_setScope hg (some (s.noteZero h.rcOrZero).1)
    change h.noteZero g work = _ at e
    rw [noteZero, scope_eq hg] at e
    rcases hn : s.noteZero h.rcOrZero with ⟨s', _ | _⟩
    · rw [hn] at hgr₁ hat
      simp only [hn, bind, Except.bind] at e
      obtain ⟨rfl, rfl⟩ := Prod.mk.inj (Except.ok.inj e)
      refine ⟨[], [], rfl, hgr₁, ⟨ha.nodup, ha.empty⟩, (Sheds.refl h).of_slots rfl rfl,
        fun hm => by simp at hm, fun hd _ => ?_, fun {g₁ s₁} h₁ => ?_⟩
      · rw [hdis, hn] at hd
        cases hd.2
      · rw [hat] at h₁
        split_ifs at h₁ with e
        · cases h₁
          exact ⟨s, e ▸ hg, by rw [if_pos hmem, hn]⟩
        · exact ⟨s₁, h₁, by rw [if_neg (hout e h₁)]⟩
    · rw [hn] at hgr₁ hat
      simp only [hn, bind, Except.bind] at e
      have hm' : s'.members = s.members := by rw [← noteZero_members s h.rcOrZero, hn]
      have hzero : ∀ m ∈ s'.members, h.rcOrZero m = 0 := by
        have := (noteZero_discard_iff s h.rcOrZero).mp (by rw [hn])
        rw [hm']
        exact (referenced_eq_zero_iff s h.rcOrZero).mp this.2.2
      obtain ⟨new, rfl, hd, hgr', ha', hat'⟩ := dismantle_sheds (h := h.setScope g (some s')) hgr₁
        ⟨ha.nodup, ha.empty⟩ (by rw [hat, if_pos rfl]) hzero e
      rw [hm'] at hd
      refine ⟨s.members, new, rfl, hgr', ha', hd.of_slots rfl rfl, fun hm => Or.inr ⟨s, ?_, hm⟩,
        fun hd hm => ?_, fun {g₁ s₁} h₁ => ?_⟩
      · rw [hdis, hn]
        exact ⟨rfl, rfl⟩
      · rw [hdis] at hd
        exact hd.1 ▸ hm
      · rw [hat'] at h₁
        split_ifs at h₁ with e
        rw [hat, if_neg e] at h₁
        exact ⟨s₁, h₁, by rw [if_neg (hout e h₁)]⟩

/-! ## Lower estimates -/

/-- **No sealed scope counts more members than are referenced or have yet to report.** -/
def Within (h : Heap) (due : List ObjId) : Prop :=
  ∀ {g s}, h.scopeAt g = some s → s.isSealed = true → s.rc ≤ h.expected due s

/-- **Scopes and arena are in order, and no scope counts too many members.** -/
structure Steady (h : Heap) (due : List ObjId) : Prop where
  grouped : Grouped h []
  arena : Arena h
  within : Within h due

/-- Different objects at zero that have yet to report. -/
structure Backlog (h : Heap) (work : List ObjId) : Prop extends Steady h work where
  atZero : AtZero h work
  nodup : work.Nodup

theorem expected_mono {due' : List ObjId} (hm : ∀ m ∈ s.members, 0 < h.rcOrZero m ∨ m ∈ due →
    0 < h'.rcOrZero m ∨ m ∈ due') : h.expected due s ≤ h'.expected due' s :=
  List.countP_mono_left fun m hmem hx => by
    simp only [decide_eq_true_eq] at hx ⊢
    exact hm m hmem hx

theorem expected_nil (h : Heap) (s : Scope) : h.expected [] s = s.referenced h.rcOrZero := by
  simp [expected, Scope.referenced, List.countP_eq_length_filter]

/-- A member that stays in the heap is referenced still, or has just reached zero. -/
theorem Sheds.expected_le (hd : Sheds h h' D new) (hlive : ∀ m ∈ s.members, ∃ c, h'.slot? m = some c)
    (work : List ObjId) : h.expected work s ≤ h'.expected (new ++ work) s := by
  refine expected_mono fun m hm hx => ?_
  obtain ⟨c', hc'⟩ := hlive m hm
  rcases hx with hx | hx
  · obtain ⟨c, hc, -, -⟩ := hd.back hc'
    have hpos : 0 < c.rc := by simpa [rcOrZero, hc] using hx
    rcases Nat.eq_zero_or_pos c'.rc with h0 | h0
    · exact Or.inr (List.mem_append_left _ (hd.all hc hpos hc' h0))
    · exact Or.inl (by simpa [rcOrZero, hc'] using h0)
  · exact Or.inr (List.mem_append_right _ hx)

theorem Grouped.live {ds : List ObjId} (hgr : Grouped h ds) (hg : h.scopeAt g = some s) :
    ∀ m ∈ s.members, ∃ c, h.slot? m = some c := fun _ hm => by
  obtain ⟨rc, k, hr, -⟩ := hgr.member hg hm
  exact ⟨_, hr⟩

/-- One report less is to come when an object leaves the list. -/
theorem Backlog.expected_cons (hb : Backlog h (r :: work)) (hg : h.scopeAt g = some s) :
    h.expected (r :: work) s = h.expected work s + if r ∈ s.members then 1 else 0 := by
  have hrc : h.rcOrZero r = 0 := by
    cases hr : h.slot? r with
    | none => simp [rcOrZero, hr]
    | some c => simpa [rcOrZero, hr] using hb.atZero r (by simp) c hr
  have hmem := (List.nodup_cons.mp hb.nodup).1
  refine countP_insert (fun x => ?_) ?_ (hb.grouped.distinct hg)
  · simp only [List.mem_cons, decide_eq_true_eq]
    exact or_left_comm
  · simp [hrc, hmem]

/-- The estimates stay below when an object reports. -/
theorem Backlog.within_step (hb : Backlog h (r :: work)) (hgr' : Grouped h' [])
    (hre : Reclaims h h' r D new) : Within h' (new ++ work) := by
  intro g s' hg' hsealed
  obtain ⟨s, hg, e⟩ := hre.noted hg'
  have hcons := hb.expected_cons hg
  split_ifs at e hcons with hm
  · subst e
    rw [noteZero_isSealed] at hsealed
    have hle := hb.within hg hsealed
    have hlive := hgr'.live hg'
    rw [noteZero_members] at hlive
    have hmono := hre.toSheds.expected_le hlive work
    have heq : h'.expected (new ++ work) (s.noteZero h.rcOrZero).1 = h'.expected (new ++ work) s := by
      rw [expected, expected, noteZero_members]
    rw [heq]
    unfold Scope.noteZero
    split_ifs with h1 h2 h3
    · simp [hsealed] at h1
    · show s.rc - 1 ≤ _
      omega
    · exact Nat.zero_le _
    · show s.referenced h.rcOrZero ≤ _
      rw [← expected_nil]
      exact (expected_mono fun m _ hx => hx.imp_right (by simp)).trans hmono
  · subst e
    have hle := hb.within hg hsealed
    have hmono := hre.toSheds.expected_le (hgr'.live hg') work
    omega

/-- **One object reports.** -/
theorem Backlog.step (hb : Backlog h (r :: work)) (hgr' : Grouped h' []) (ha' : Arena h')
    (hre : Reclaims h h' r D new) : Backlog h' (new ++ work) := by
  refine ⟨⟨hgr', ha', hb.within_step hgr' hre⟩, hre.atZero hb.atZero, ?_⟩
  refine List.nodup_append.mpr ⟨hre.nodup, (List.nodup_cons.mp hb.nodup).2, fun x hx y hy e => ?_⟩
  obtain ⟨⟨c, hc, hpos⟩, -⟩ := hre.fresh hx
  have := hb.atZero x (e ▸ List.mem_cons_of_mem r hy) c hc
  omega

/-- One round of a cascade in front of other objects at zero. -/
theorem Backlog.round {rest : List ObjId} (hb : Backlog h (r :: (work ++ rest)))
    (e : h.reclaimOne r work = .ok (h', work')) : ∃ D new, work' = new ++ work ∧
      Backlog h' (work' ++ rest) ∧ Reclaims h h' r D new := by
  cases hr : h.slot? r with
  | none =>
    rw [reclaimOne_dead hr] at e
    cases e
  | some c =>
    obtain ⟨D, new, rfl, hgr', ha', hre⟩ := reclaimOne_reclaims hb.grouped hb.arena hr
      (hb.atZero r (by simp) c hr) e
    refine ⟨D, new, rfl, ?_, hre⟩
    rw [List.append_assoc]
    exact hb.step hgr' ha' hre

/-- **A cascade that ends** leaves the other objects to report. -/
theorem Backlog.run : ∀ (fuel : Nat) {h : Heap} {work rest : List ObjId}, Backlog h (work ++ rest) →
    reclaimLoop fuel h work = .ok h' → Backlog h' rest
  | fuel, h, [], rest, hb, e => by
    obtain rfl : h = h' := by simpa [reclaimLoop] using e
    exact hb
  | 0, h, r :: work, rest, hb, e => by simp [reclaimLoop] at e
  | fuel + 1, h, r :: work, rest, hb, e => by
    rw [reclaimLoop] at e
    obtain ⟨⟨h₁, work₁⟩, e₁, e⟩ := bind_ok e
    obtain ⟨D, new, -, hb₁, -⟩ := hb.round e₁
    exact Backlog.run fuel hb₁ e

/-- Objects that are there in the end were there all the time, and so were those worked off. -/
theorem Backlog.live : ∀ (fuel : Nat) {h : Heap} {work rest : List ObjId}, Backlog h (work ++ rest) →
    reclaimLoop fuel h work = .ok h' → (∀ x ∈ rest, h'.slot? x ≠ none) →
      ∀ x ∈ work ++ rest, h.slot? x ≠ none
  | fuel, h, [], rest, hb, e, hl => by
    obtain rfl : h = h' := by simpa [reclaimLoop] using e
    exact hl
  | 0, h, r :: work, rest, hb, e, hl => by simp [reclaimLoop] at e
  | fuel + 1, h, r :: work, rest, hb, e, hl => by
    rw [reclaimLoop] at e
    obtain ⟨⟨h₁, work₁⟩, e₁, e⟩ := bind_ok e
    obtain ⟨D, new, rfl, hb₁, hre⟩ := hb.round e₁
    have hl₁ := Backlog.live fuel hb₁ e hl
    intro x hx hnone
    rcases List.mem_cons.mp hx with rfl | hx
    · rw [reclaimOne_dead hnone] at e₁
      cases e₁
    · exact hl₁ x (by simpa using Or.inr (List.mem_append.mp hx)) (hre.dead hnone)

/-- One object at zero is reclaimed. -/
theorem Backlog.reclaim {rest : List ObjId} (hb : Backlog h ([r] ++ rest)) (e : h.reclaim [r] = .ok h') :
    Backlog h' rest :=
  Backlog.run _ hb e

theorem Backlog.each_live : ∀ {h : Heap} {work : List ObjId}, Backlog h work →
    work.foldlM (fun h r => h.reclaim [r]) h = .ok h' → ∀ x ∈ work, h.slot? x ≠ none
  | h, [], _, _ => by simp
  | h, r :: work, hb, e => by
    rw [List.foldlM_cons] at e
    obtain ⟨h₁, e₁, e⟩ := bind_ok e
    have hb : Backlog h ([r] ++ work) := hb
    exact Backlog.live _ hb e₁ (Backlog.each_live (hb.reclaim e₁) e)

/-- Reclaiming objects at zero one after the other. -/
theorem Backlog.each : ∀ {h : Heap} {work : List ObjId}, Backlog h work →
    work.foldlM (fun h r => h.reclaim [r]) h = .ok h' → Steady h' []
  | h, [], hb, e => by
    obtain rfl : h = h' := Except.ok.inj e
    exact hb.toSteady
  | h, r :: work, hb, e => by
    rw [List.foldlM_cons] at e
    obtain ⟨h₁, e₁, e⟩ := bind_ok e
    exact Backlog.each (Backlog.reclaim hb e₁) e

/-! ## Operations that free nothing -/

/-- **The second heap has the same objects in the same scopes.** -/
structure Keeps (h h' : Heap) : Prop where
  homes : ∀ x, (h'.slot? x).map (·.obj.scope?) = (h.slot? x).map (·.obj.scope?)
  scopes : h'.scopes = h.scopes
  free : h'.free = h.free
  size : h'.slots.size = h.slots.size

theorem Keeps.refl (h : Heap) : Keeps h h := ⟨fun _ => rfl, rfl, rfl, rfl⟩

theorem Keeps.trans {h₁ h₂ h₃ : Heap} (a : Keeps h₁ h₂) (b : Keeps h₂ h₃) : Keeps h₁ h₃ :=
  ⟨fun x => (b.homes x).trans (a.homes x), b.scopes.trans a.scopes, b.free.trans a.free,
    b.size.trans a.size⟩

theorem keeps_setSlot {c' : Slot} (hr : h.slot? r = some c) (hc : c'.obj.scope? = c.obj.scope?) :
    Keeps h (h.setSlot r (some c')) := by
  refine ⟨fun x => ?_, rfl, rfl, by simp [setSlot]⟩
  rw [slot?_setSlot_of hr]
  split_ifs with e
  · rw [e, hr]
    exact congrArg some hc
  · rfl

theorem Keeps.slot?_eq_some (hk : Keeps h h') (hr : h.slot? r = some c) :
    ∃ c', h'.slot? r = some c' ∧ c'.obj.scope? = c.obj.scope? := by
  have := hk.homes r
  rw [hr] at this
  obtain ⟨c', hc', e⟩ := Option.map_eq_some_iff.mp this
  exact ⟨c', hc', e⟩

theorem Keeps.symm (hk : Keeps h h') : Keeps h' h :=
  ⟨fun x => (hk.homes x).symm, hk.scopes.symm, hk.free.symm, hk.size.symm⟩

theorem Grouped.keeps {ds : List ObjId} (hgr : Grouped h ds) (hk : Keeps h h') : Grouped h' ds := by
  refine ⟨fun {r rc k g} hr hg hn => ?_, fun {g s} hg => ?_, fun {g s m} hg hm => ?_⟩
  · obtain ⟨⟨rc₀, o⟩, hr₀, ho⟩ := hk.symm.slot?_eq_some hr
    obtain ⟨k₀, rfl, hk₀⟩ := exists_closure (o := o) (ho.trans hg)
    rw [scopeAt_congr hk.scopes]
    exact hgr.home hr₀ hk₀ hn
  · exact hgr.distinct (scopeAt_congr hk.scopes g ▸ hg)
  · obtain ⟨rc₀, k₀, hr₀, hk₀⟩ := hgr.member (scopeAt_congr hk.scopes g ▸ hg) hm
    obtain ⟨⟨rc, o⟩, hr, ho⟩ := hk.slot?_eq_some hr₀
    obtain ⟨k, rfl, hk'⟩ := exists_closure (o := o) (ho.trans hk₀)
    exact ⟨rc, k, hr, hk'⟩

theorem Arena.keeps (ha : Arena h) (hk : Keeps h h') : Arena h' := by
  refine ha.of_slots hk.free hk.size fun x hx => ?_
  have := hk.homes x
  rw [hx] at this
  simpa using this

/-- Counts may change as long as the members of sealed scopes that were counted on still are. -/
theorem Steady.keeps {due' : List ObjId} (hs : Steady h due) (hk : Keeps h h')
    (hm : ∀ {g s m}, h.scopeAt g = some s → s.isSealed = true → m ∈ s.members →
      0 < h.rcOrZero m ∨ m ∈ due → 0 < h'.rcOrZero m ∨ m ∈ due') : Steady h' due' := by
  refine ⟨hs.grouped.keeps hk, hs.arena.keeps hk, fun {g s} hg hsealed => ?_⟩
  have hg := scopeAt_congr hk.scopes g ▸ hg
  exact (hs.within hg hsealed).trans (expected_mono fun m hmem => hm hg hsealed hmem)

theorem rcOrZero_setSlot {c' : Slot} (hr : h.slot? r = some c) (x : ObjId) :
    (h.setSlot r (some c')).rcOrZero x = if x = r then c'.rc else h.rcOrZero x := by
  rw [rcOrZero, slot?_setSlot_of hr, rcOrZero]
  split_ifs <;> rfl

/-- Overwriting an object by one in the same scope. -/
theorem Steady.put {o : Object} (hs : Steady h due) (hr : h.slot? r = some c)
    (ho : o.scope? = c.obj.scope?) (e : h.put r o = .ok h') : Steady h' due := by
  rw [put_eq hr] at e
  obtain rfl := Except.ok.inj e
  refine hs.keeps (keeps_setSlot hr ho) fun _ _ _ hx => ?_
  rw [rcOrZero_setSlot hr]
  split_ifs with e
  · subst e
    simpa [rcOrZero, hr] using hx
  · exact hx

theorem keeps_inc (e : h.inc v = .ok h') : Keeps h h' := by
  cases v with
  | obj r =>
    obtain ⟨c, hr⟩ := live_of_incObj e
    rw [Heap.inc, incObj_eq hr] at e
    obtain rfl := Except.ok.inj e
    exact keeps_setSlot hr rfl
  | _ =>
    obtain rfl := Except.ok.inj e
    exact .refl h

theorem keeps_incAll : ∀ {vs : List Value} {h : Heap}, h.incAll vs = .ok h' → Keeps h h'
  | [], h, e => by
    obtain rfl : h = h' := Except.ok.inj e
    exact .refl h
  | v :: vs, h, e => by
    rw [Heap.incAll, List.foldlM_cons] at e
    obtain ⟨h₁, e₁, e⟩ := bind_ok e
    exact (keeps_inc e₁).trans (keeps_incAll e)

/-- **Taking a reference**: a report that is to come about the object is called off. -/
theorem Steady.inc {due' : List ObjId} (hs : Steady h due) (hd : ∀ x ∈ due, v = .obj x ∨ x ∈ due')
    (e : h.inc v = .ok h') : Steady h' due' := by
  have hk := keeps_inc e
  cases v with
  | obj r =>
    obtain ⟨c, hr⟩ := live_of_incObj e
    rw [Heap.inc, incObj_eq hr] at e
    obtain rfl := Except.ok.inj e
    refine hs.keeps hk fun {_ _ m} _ _ _ hx => ?_
    rw [rcOrZero_setSlot hr]
    split_ifs with e
    · exact Or.inl (Nat.succ_pos _)
    · exact hx.imp_right fun hx => (hd m hx).resolve_left fun e' => e (Value.obj.inj e').symm
  | _ =>
    obtain rfl := Except.ok.inj e
    exact hs.keeps (.refl h) fun _ _ _ hx => hx.imp_right fun hx => (hd _ hx).resolve_left (by simp)

theorem Steady.incAll : ∀ {vs : List Value} {h : Heap}, Steady h [] → h.incAll vs = .ok h' →
    Steady h' []
  | [], h, hs, e => by
    obtain rfl : h = h' := Except.ok.inj e
    exact hs
  | v :: vs, h, hs, e => by
    rw [Heap.incAll, List.foldlM_cons] at e
    obtain ⟨h₁, e₁, e⟩ := bind_ok e
    exact Steady.incAll (hs.inc (by simp) e₁) e

/-- Lowering a count. -/
theorem Steady.dec {n : Nat} (hs : Steady h []) (e : h.decObj r = .ok (h', n)) :
    Steady h' (if n = 0 then [r] else []) ∧ ∃ c, h'.slot? r = some c ∧ c.rc = n := by
  obtain ⟨c, hr, hpos, rfl, rfl⟩ := decObj_cases e
  refine ⟨hs.keeps (keeps_setSlot hr rfl) fun {_ _ m} _ _ _ hx => ?_, { c with rc := c.rc - 1 }, ?_, rfl⟩
  · have hx : 0 < h.rcOrZero m := by simpa using hx
    rw [rcOrZero_setSlot hr]
    split_ifs with e h0
    · exact Or.inr (by simp [e])
    · exact Or.inl (Nat.pos_of_ne_zero h0)
    · exact Or.inl hx
    · exact Or.inl hx
  · rw [slot?_setSlot_of hr, if_pos rfl]

/-- **Giving up a reference** without freeing: the object has yet to report. -/
theorem Steady.release (hs : Steady h []) (e : h.release v = .ok h') : Steady h' v.asObj?.toList := by
  cases v with
  | obj r =>
    obtain ⟨⟨h₁, n⟩, hd, e⟩ := bind_ok e
    obtain rfl : h₁ = h' := Except.ok.inj e
    obtain ⟨hs₁, -⟩ := hs.dec hd
    refine hs₁.keeps (.refl _) fun _ _ _ hx => hx.imp_right fun hx => ?_
    split_ifs at hx
    · exact hx
    · cases hx
  | _ =>
    obtain rfl := Except.ok.inj e
    exact hs

theorem Steady.backlog (hs : Steady h [r]) (hr : h.slot? r = some c) (h0 : c.rc = 0) :
    Backlog h [r] :=
  ⟨hs, atZero_singleton hr h0, by simp⟩

/-- **Giving up a reference** and freeing what nobody references then. -/
theorem Steady.unref (hs : Steady h []) (e : h.unref v = .ok h') : Steady h' [] := by
  cases v with
  | obj r =>
    obtain ⟨⟨h₁, n⟩, hd, e⟩ := bind_ok e
    obtain ⟨hs₁, c, hr, hn⟩ := hs.dec hd
    dsimp only at e
    split_ifs at e hs₁ with h0
    · exact (Backlog.reclaim (hs₁.backlog hr (hn.trans h0)) e).toSteady
    · obtain rfl := Except.ok.inj e
      exact hs₁
  | _ =>
    obtain rfl := Except.ok.inj e
    exact hs

/-- **Freeing a value that nobody owns:** if a report is to come about it, this is the report. -/
theorem Steady.drop (hs : Steady h due) (hd : ∀ x ∈ due, v = .obj x) (e : h.drop v = .ok h') :
    Steady h' [] := by
  cases v with
  | obj r =>
    cases hr : h.slot? r with
    | none => simp [Heap.drop, rc, slot, hr, Except.map, bind, Except.bind] at e
    | some c =>
      simp only [Heap.drop, rc, slot, hr, Except.map, bind, Except.bind] at e
      split_ifs at e with h0
      · have hs₁ : Steady h [r] := hs.keeps (.refl h) fun _ _ _ hx => hx.imp_right fun hx => by
          simp [Value.obj.inj (hd _ hx)]
        exact (Backlog.reclaim (hs₁.backlog hr h0) e).toSteady
      · obtain rfl := Except.ok.inj e
        refine hs.keeps (.refl h) fun _ _ _ hx => Or.inl (hx.elim id fun hx => ?_)
        rw [← Value.obj.inj (hd _ hx)]
        simpa [rcOrZero, hr, Nat.pos_iff_ne_zero] using h0
  | _ =>
    obtain rfl := Except.ok.inj e
    exact hs.keeps (.refl h) fun _ _ _ hx => hx.imp_right fun hx => by cases hd _ hx

/-- **Allocating** an object that is in no scope. -/
theorem Steady.allocate {o : Object} (hs : Steady h due) (ho : o.scope? = none) :
    Steady (h.allocate o).1 due := by
  obtain ⟨r, hr, -, hslot, -, hsc, ha⟩ := allocate_spec hs.arena o
  generalize (h.allocate o).1 = h' at *
  have hne : ∀ {x c}, h.slot? x = some c → x ≠ r := by
    rintro x c hx rfl
    rw [hr] at hx
    cases hx
  have hat := scopeAt_congr hsc
  refine ⟨⟨fun {x rc k g} hx hg hn => ?_, fun hg => hs.grouped.distinct (hat _ ▸ hg),
    fun {g s m} hg hm => ?_⟩, ha, fun {g s} hg hsealed => ?_⟩
  · rw [hslot] at hx
    split_ifs at hx with e
    · cases hx
      cases hg.symm.trans ho
    · rw [hat]
      exact hs.grouped.home hx hg hn
  · obtain ⟨rc, k, hx, hk⟩ := hs.grouped.member (hat g ▸ hg) hm
    exact ⟨rc, k, by rw [hslot, if_neg (hne hx), hx], hk⟩
  · rw [hat] at hg
    refine (hs.within hg hsealed).trans (expected_mono fun m hm hx => ?_)
    obtain ⟨c, hc⟩ := hs.grouped.live hg m hm
    rwa [rcOrZero, hslot, if_neg (hne hc)]

/-! ## Scopes in the making -/

theorem Steady.openScope (hs : Steady h due) (n : Nat) : Steady (h.openScope n).1 due := by
  have hne : ∀ {g s}, h.scopeAt g = some s → g ≠ ⟨h.scopes.size⟩ := by
    rintro g s hg rfl
    exact absurd (lt_size_of_scopeAt hg) (lt_irrefl _)
  have hback : ∀ {g s}, (h.openScope n).1.scopeAt g = some s →
      h.scopeAt g = some s ∨ s = .new n := by
    intro g s hg
    rw [scopeAt_openScope] at hg
    split_ifs at hg
    · exact Or.inr (Option.some.inj hg).symm
    · exact Or.inl hg
  refine ⟨⟨fun {x rc k g} hx hg hn => ?_, fun {g s} hg => ?_, fun {g s m} hg hm => ?_⟩,
    ⟨hs.arena.nodup, hs.arena.empty⟩, fun {g s} hg hsealed => ?_⟩
  · obtain ⟨s, hg', hm⟩ := hs.grouped.home hx hg hn
    exact ⟨s, by rw [scopeAt_openScope, if_neg (hne hg'), hg'], hm⟩
  · rcases hback hg with hg | rfl
    · exact hs.grouped.distinct hg
    · exact List.nodup_nil
  · rcases hback hg with hg | rfl
    · exact hs.grouped.member hg hm
    · cases hm
  · rcases hback hg with hg | rfl
    · exact hs.within hg hsealed
    · cases hsealed

/-- **Joining a scope**, for a closure that is in none. -/
theorem Steady.enrol {rc : Nat} {k : Closure} (hs : Steady h due)
    (hr : h.slot? r = some ⟨rc, .closure k⟩) (hk : k.scope = none) (e : h.enrol g r = .ok h') :
    Steady h' due := by
  obtain ⟨s, hg, hopen, rfl⟩ := enrol_eq hr e
  have hat := scopeAt_setScope hg (some { s with members := s.members ++ [r] })
  have hslot : ∀ x, ((h.setScope g (some { s with members := s.members ++ [r] })).setSlot r
      (some ⟨rc, .closure { k with scope := some g }⟩)).slot? x =
        if x = r then some ⟨rc, .closure { k with scope := some g }⟩ else h.slot? x :=
    slot?_setSlot_of (h := h.setScope g _) hr _
  have hnew : ∀ {g' s'}, h.scopeAt g' = some s' → r ∉ s'.members := by
    intro g' s' hg' hm
    have := hs.grouped.scope?_of_mem hg' hm hr
    simp [Object.scope?, hk] at this
  generalize hh₁ : (h.setScope g (some { s with members := s.members ++ [r] })).setSlot r
    (some ⟨rc, .closure { k with scope := some g }⟩) = h₁ at *
  have hat₁ : ∀ g', h₁.scopeAt g' = if g' = g then some { s with members := s.members ++ [r] }
      else h.scopeAt g' := fun g' => by rw [← hat, ← hh₁]; rfl
  refine ⟨⟨fun {x rcx kx g'} hx hgx hn => ?_, fun {g' s'} hgs => ?_, fun {g' s' x} hgs hm => ?_⟩, ?_,
    fun {g' s'} hgs hsealed => ?_⟩
  · rw [hat₁]
    rw [hslot] at hx
    split_ifs at hx with ex
    · cases hx
      cases hgx
      exact ⟨_, if_pos rfl, by simp [ex]⟩
    · obtain ⟨s', hg', hmem⟩ := hs.grouped.home hx hgx hn
      split_ifs with eg
      · rw [eg, hg] at hg'
        cases hg'
        exact ⟨_, rfl, List.mem_append_left _ hmem⟩
      · exact ⟨s', hg', hmem⟩
  · rw [hat₁] at hgs
    split_ifs at hgs with eg
    · cases hgs
      refine List.nodup_append.mpr ⟨hs.grouped.distinct hg, by simp, fun a ha b hb => ?_⟩
      rintro rfl
      exact hnew hg (List.mem_singleton.mp hb ▸ ha)
    · exact hs.grouped.distinct hgs
  · rw [hat₁] at hgs
    rw [hslot]
    split_ifs at hgs with eg
    · cases hgs
      rcases List.mem_append.mp hm with hm | hm
      · rw [if_neg (fun ex : x = r => hnew hg (ex ▸ hm)), eg]
        exact hs.grouped.member hg hm
      · exact ⟨rc, _, if_pos (List.mem_singleton.mp hm), by rw [eg]⟩
    · rw [if_neg (fun ex : x = r => hnew hgs (ex ▸ hm))]
      exact hs.grouped.member hgs hm
  · rw [← hh₁]
    exact Arena.setSlot (h := h.setScope g _) ⟨hs.arena.nodup, hs.arena.empty⟩ hr _
  · rw [hat₁] at hgs
    split_ifs at hgs with eg
    · cases hgs
      simp [hopen] at hsealed
    · refine (hs.within hgs hsealed).trans (expected_mono fun m hm hx => ?_)
      rwa [rcOrZero, hslot, if_neg (fun ex : m = r => hnew hgs (ex ▸ hm))]

/-- Giving up references to some objects does not touch the others. -/
theorem keeps_release {ms : List ObjId} (hv : isMember ms v = true) (e : h.release v = .ok h') :
    Keeps h h' ∧ ∀ x, x ∉ ms → h'.rcOrZero x = h.rcOrZero x := by
  cases v with
  | obj r =>
    obtain ⟨⟨h₁, n⟩, hd, e⟩ := bind_ok e
    obtain rfl : h₁ = h' := Except.ok.inj e
    obtain ⟨c, hr, -, rfl, -⟩ := decObj_cases hd
    refine ⟨keeps_setSlot hr rfl, fun x hx => ?_⟩
    rw [rcOrZero_setSlot hr, if_neg]
    rintro rfl
    exact hx (by simpa [isMember] using hv)
  | _ => cases hv

/-- What is done to the heap one value after the other. -/
theorem keeps_foldlM {α : Type} {ms : List ObjId} {f : Heap → α → Except Fault Heap} :
    ∀ {l : List α} {h : Heap}, (∀ a ∈ l, ∀ {h h'}, f h a = .ok h' →
      Keeps h h' ∧ ∀ x, x ∉ ms → h'.rcOrZero x = h.rcOrZero x) → l.foldlM f h = .ok h' →
      Keeps h h' ∧ ∀ x, x ∉ ms → h'.rcOrZero x = h.rcOrZero x
  | [], h, _, e => by
    obtain rfl : h = h' := Except.ok.inj e
    exact ⟨.refl h, fun _ _ => rfl⟩
  | a :: l, h, hf, e => by
    rw [List.foldlM_cons] at e
    obtain ⟨h₁, e₁, e⟩ := bind_ok e
    obtain ⟨hk₁, hrc₁⟩ := hf a (by simp) e₁
    obtain ⟨hk₂, hrc₂⟩ := keeps_foldlM (fun a ha => hf a (by simp [ha])) e
    exact ⟨hk₁.trans hk₂, fun x hx => (hrc₂ x hx).trans (hrc₁ x hx)⟩

theorem keeps_weaken {ms : List ObjId} (e : weaken ms h r = .ok h') :
    Keeps h h' ∧ ∀ x, x ∉ ms → h'.rcOrZero x = h.rcOrZero x := by
  obtain ⟨o, ho, e⟩ := bind_ok e
  obtain ⟨c, hr, rfl⟩ := get_cases ho
  cases hc : c.obj with
  | closure k =>
    rw [hc] at e
    obtain ⟨h₁, e₁, e⟩ := bind_ok e
    obtain ⟨hk₁, hrc₁⟩ : Keeps h h₁ ∧ ∀ x, x ∉ ms → h₁.rcOrZero x = h.rcOrZero x :=
      keeps_foldlM (fun v hv _ _ e => keeps_release (List.mem_filter.mp hv).2 e) e₁
    obtain ⟨c₁, hr₁, hc₁⟩ := hk₁.slot?_eq_some hr
    rw [put_eq hr₁] at e
    obtain rfl := Except.ok.inj e
    refine ⟨hk₁.trans (keeps_setSlot hr₁ ?_), fun x hx => ?_⟩
    · rw [hc₁, hc]
      rfl
    · rw [rcOrZero_setSlot hr₁, ← hrc₁ x hx]
      split_ifs with ex
      · simp [ex, rcOrZero, hr₁]
      · rfl
  | _ =>
    rw [hc] at e
    cases e

/-- A scope that outlives its sealing counts no more members than are referenced. -/
theorem close_keep_le {s' : Scope} {f : ObjId → Nat} (hnd : s.members.Nodup)
    (e : s.close f = .ok (s', .keep)) : s'.rc ≤ s.referenced f := by
  obtain ⟨hopen, hm, -, -⟩ := close_cases e
  have hfull : s.members.length = s.size := by
    unfold Scope.close at e
    split_ifs at e with h1 h2
    simpa using h2
  rcases hms : s.members with _ | ⟨m, ms⟩
  · -- a scope without members
    have hsize : s.size = 0 := by rw [← hfull, hms]; rfl
    simp [Scope.close, hopen, hms, hsize, Scope.noteZeros] at e
    simp [← e]
  · obtain ⟨s₁, d, e₁, -, hkeep⟩ := Scope.close_spec hopen hfull (by simp [hms]) hnd f
    rw [e] at e₁
    cases e₁
    obtain ⟨hm, hstep⟩ := hkeep rfl
    have := hstep.le
    rwa [Scope.referenced, hm] at this

/-- **What sealing a scope does:** the scope is kept, or it is discarded and its members have released
others that are worked off. -/
theorem Steady.sealScope_cases (hs : Steady h []) (e : h.sealScope g = .ok h') :
    ∃ s h₁ s' d, h.scope g = .ok s ∧ s.members.foldlM (weaken s.members) h = .ok h₁ ∧
      h₁.scope g = .ok s ∧ s.close h₁.rcOrZero = .ok (s', d) ∧
      ((d = .keep ∧ h' = h₁.setScope g (some s') ∧ Steady h' []) ∨
        d = .discard ∧ ∃ h₂ work, (h₁.setScope g (some s')).dismantle g [] = .ok (h₂, work) ∧
          Backlog h₂ work ∧ work.foldlM (fun h r => h.reclaim [r]) h₂ = .ok h') := by
  obtain ⟨s, hsc, e⟩ := bind_ok e
  have hg := scopeAt_of_scope hsc
  obtain ⟨h₁, e₁, e⟩ := bind_ok e
  obtain ⟨hk, hrc⟩ := keeps_foldlM (f := weaken s.members) (fun _ _ _ _ e => keeps_weaken e) e₁
  have hg₁ : h₁.scopeAt g = some s := (scopeAt_congr hk.scopes g).trans hg
  rw [scope_eq hg₁] at e
  change (s.close h₁.rcOrZero >>= _) = _ at e
  obtain ⟨⟨s', d⟩, hcl, e⟩ := bind_ok e
  obtain ⟨hopen, hm, hsealed, hz⟩ := close_cases hcl
  refine ⟨s, h₁, s', d, hsc, e₁, scope_eq hg₁, hcl, ?_⟩
  -- the scope that is sealed is not among those that were sealed before
  have hs₁ : Steady h₁ [] := hs.keeps hk fun {g' s' m} hg' hsealed' hmem hx => by
    have hx : 0 < h.rcOrZero m := by simpa using hx
    refine Or.inl ((hrc m fun hmem' => ?_).symm ▸ hx)
    obtain ⟨_, k₁, hr₁, hk₁⟩ := hs.grouped.member hg hmem'
    obtain ⟨_, k₂, hr₂, hk₂⟩ := hs.grouped.member hg' hmem
    cases hr₁.symm.trans hr₂
    obtain rfl := Option.some.inj (hk₁.symm.trans hk₂)
    cases hg.symm.trans hg'
    rw [hopen] at hsealed'
    cases hsealed'
  have hat := scopeAt_setScope hg₁ (some s')
  have hgr₂ := hs₁.grouped.rescope hg₁ hm
  have ha₂ : Arena (h₁.setScope g (some s')) := ⟨hs₁.arena.nodup, hs₁.arena.empty⟩
  cases d with
  | keep =>
    obtain rfl := Except.ok.inj e
    refine Or.inl ⟨rfl, rfl, hgr₂, ha₂, fun {g' s₁} hg' hsealed' => ?_⟩
    rw [hat] at hg'
    split_ifs at hg'
    · cases hg'
      have := close_keep_le (hs₁.grouped.distinct hg₁) hcl
      rw [← expected_nil, expected, ← hm] at this
      exact this
    · exact hs₁.within hg' hsealed'
  | discard =>
    obtain ⟨⟨h₂, work⟩, e₂, e⟩ := bind_ok e
    have hzero : ∀ m ∈ s'.members, h₁.rcOrZero m = 0 := fun m hmem => hz rfl m (hm ▸ hmem)
    obtain ⟨new, rfl, hd, hgr₃, ha₃, hat₃⟩ := dismantle_sheds hgr₂ ha₂ (by rw [hat, if_pos rfl])
      hzero e₂
    refine Or.inr ⟨rfl, h₂, _, e₂, ⟨⟨hgr₃, ha₃, fun {g' s₁} hg' hsealed' => ?_⟩,
      fun m hm c hc => ?_, ?_⟩, e⟩
    · have hlive := hgr₃.live hg'
      rw [hat₃] at hg'
      split_ifs at hg' with eg
      rw [hat, if_neg eg] at hg'
      exact (hs₁.within hg' hsealed').trans (hd.expected_le hlive [])
    · rw [List.append_nil] at hm
      obtain ⟨-, c', hc', h0⟩ := hd.fresh hm
      rw [hc] at hc'
      cases hc'
      exact h0
    · rw [List.append_nil]
      exact hd.nodup

/-- **Sealing a scope.** -/
theorem Steady.sealScope (hs : Steady h []) (e : h.sealScope g = .ok h') : Steady h' [] := by
  obtain ⟨s, h₁, s', d, -, -, -, -, ⟨-, -, hs'⟩ | ⟨-, h₂, work, -, hb, e₂⟩⟩ := hs.sealScope_cases e
  · exact hs'
  · exact hb.each e₂

end CountedMachine.Heap
