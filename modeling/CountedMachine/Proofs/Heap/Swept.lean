import CountedMachine.Proofs.Heap.Estimates

/-! # Nothing is left lying about

An object that nobody references is freed when it reports, so at any time the objects at zero are those that
have yet to report and the members of scopes. And as a scope is discarded when the last of its members
reports, a sealed scope with members waits for one of them. Together with the estimates of `Steady` this is
`Swept`, and every operation of the heap that returns keeps it. -/

namespace CountedMachine.Heap

variable {h h' : Heap} {r : ObjId} {c : Slot} {v : Value} {work work' due due' D new rest : List ObjId}
  {g : ScopeId} {s : Scope}

/-- **No object at zero is forgotten:** it has yet to report, or it belongs to a scope, and a sealed scope with
members waits for reports. -/
structure Swept (h : Heap) (due : List ObjId) : Prop extends Steady h due where
  stray : ∀ {r c}, h.slot? r = some c → c.rc = 0 → c.obj.scope? = none → r ∈ due
  awake : ∀ {g s}, h.scopeAt g = some s → s.isSealed = true → s.members ≠ [] → 0 < s.rc

theorem swept_empty : Swept .empty [] where
  grouped := ⟨fun hr => by simp [slot?, empty] at hr, fun hg => by simp [scopeAt, empty] at hg,
    fun hg => by simp [scopeAt, empty] at hg⟩
  arena := ⟨List.nodup_nil, by simp [empty]⟩
  within hg := by simp [scopeAt, empty] at hg
  stray hr := by simp [slot?, empty] at hr
  awake hg := by simp [scopeAt, empty] at hg

/-- More objects may have yet to report. -/
theorem Swept.mono (hs : Swept h due) (hd : ∀ x ∈ due, x ∈ due') : Swept h due' where
  toSteady := hs.toSteady.keeps (.refl h) fun _ _ _ hx => hx.imp_right (hd _)
  stray hr h0 hc := hd _ (hs.stray hr h0 hc)
  awake := hs.awake

/-- Every member of a scope that is left at zero has reported. -/
theorem noteZero_pos (f : ObjId → Nat) (hsealed : s.isSealed = true)
    (hkeep : (s.noteZero f).2 ≠ .discard) : 0 < (s.noteZero f).1.rc := by
  unfold Scope.noteZero at hkeep ⊢
  split_ifs at hkeep ⊢ with h1 h2 h3
  · simp [hsealed] at h1
  · show 0 < s.rc - 1
    omega
  · exact absurd rfl hkeep
  · exact Nat.pos_of_ne_zero h3

/-! ## Freeing -/

/-- An object outside all scopes is gone when it has been worked off. -/
theorem slot?_reclaimOne (ha : Arena h) (hr : h.slot? r = some c) (h0 : c.rc = 0)
    (hc : c.obj.scope? = none) (e : h.reclaimOne r work = .ok (h', work')) : h'.slot? r = none := by
  rw [reclaimOne, scopeOf_eq hr, hc] at e
  obtain ⟨new, -, hd, -⟩ := dissolve_sheds ha (fun hr' => by
    cases hr.symm.trans hr'
    exact h0) e
  exact hd.gone (List.mem_singleton_self r)

/-- **One object reports**, while those in `rest` have yet to do so. -/
theorem Swept.reclaimOne (hs : Swept h (r :: (work ++ rest))) (hb : Backlog h (r :: (work ++ rest)))
    (e : h.reclaimOne r work = .ok (h', work')) : Swept h' (work' ++ rest) := by
  obtain ⟨D, new, rfl, hb', hre⟩ := hb.round e
  have hlive : ∃ c, h.slot? r = some c := by
    cases hr : h.slot? r with
    | none =>
      rw [reclaimOne_dead hr] at e
      cases e
    | some c => exact ⟨c, rfl⟩
  obtain ⟨c, hr⟩ := hlive
  have h0 := hb.atZero r (by simp) c hr
  refine ⟨hb'.toSteady, fun {x c'} hx hx0 hxc => ?_, fun {g s'} hg' hsealed hne => ?_⟩
  · obtain ⟨c₀, hx₀, ho, -⟩ := hre.back hx
    rcases Nat.eq_zero_or_pos c₀.rc with hz | hpos
    · rcases List.mem_cons.mp (hs.stray hx₀ hz (ho ▸ hxc)) with rfl | hmem
      · cases hr.symm.trans hx₀
        rw [slot?_reclaimOne hs.arena hr h0 (ho ▸ hxc) e] at hx
        cases hx
      · simp only [List.append_assoc]
        exact List.mem_append_right _ hmem
    · exact List.mem_append_left _ (List.mem_append_left _ (hre.all hx₀ hpos hx hx0))
  · obtain ⟨s, hg, rfl⟩ := hre.noted hg'
    split_ifs at hsealed hne ⊢ with hm
    · rw [noteZero_isSealed] at hsealed
      refine noteZero_pos _ hsealed fun hdis => ?_
      have hscope := hs.grouped.scope?_of_mem hg hm hr
      have hD := hre.discarded (s := s) ⟨g, by rw [scopeOf_eq hr, hscope], hg, hdis⟩ hm
      obtain ⟨cr, hcr⟩ := hb'.grouped.live hg' r (by rw [if_pos hm, noteZero_members]; exact hm)
      rw [hre.gone hD] at hcr
      cases hcr
    · exact hs.awake hg hsealed hne

/-- A cascade that ends. -/
theorem Swept.run : ∀ (fuel : Nat) {h : Heap} {work rest : List ObjId}, Swept h (work ++ rest) →
    Backlog h (work ++ rest) → reclaimLoop fuel h work = .ok h' → Swept h' rest
  | fuel, h, [], rest, hs, _, e => by
    obtain rfl : h = h' := by simpa [reclaimLoop] using e
    exact hs
  | 0, h, r :: work, rest, _, _, e => by simp [reclaimLoop] at e
  | fuel + 1, h, r :: work, rest, hs, hb, e => by
    rw [reclaimLoop] at e
    obtain ⟨⟨h₁, work₁⟩, e₁, e⟩ := bind_ok e
    obtain ⟨-, -, -, hb₁, -⟩ := hb.round e₁
    exact Swept.run fuel (hs.reclaimOne hb e₁) hb₁ e

theorem Swept.reclaim (hs : Swept h ([r] ++ rest)) (hb : Backlog h ([r] ++ rest)) (e : h.reclaim [r] = .ok h') :
    Swept h' rest :=
  Swept.run _ hs hb e

theorem Swept.each : ∀ {h : Heap} {work : List ObjId}, Swept h work → Backlog h work →
    work.foldlM (fun h r => h.reclaim [r]) h = .ok h' → Swept h' []
  | h, [], hs, _, e => by
    obtain rfl : h = h' := Except.ok.inj e
    exact hs
  | h, r :: work, hs, hb, e => by
    rw [List.foldlM_cons] at e
    obtain ⟨h₁, e₁, e⟩ := bind_ok e
    exact Swept.each (Swept.reclaim hs hb e₁) (Backlog.reclaim hb e₁) e

/-! ## Counts -/

/-- Counts may change as long as objects that reach zero have yet to report. -/
theorem Swept.keeps (hs : Swept h due) (hk : Keeps h h') (hst : Steady h' due')
    (hz : ∀ {x}, h'.rcOrZero x = 0 → (∃ c, h'.slot? x = some c) → h.rcOrZero x = 0 ∧ x ∉ due ∨ x ∈ due') :
    Swept h' due' where
  toSteady := hst
  stray {x c'} hx h0 hc := by
    refine (hz (by simp [rcOrZero, hx, h0]) ⟨c', hx⟩).resolve_left fun ⟨hx0, hn⟩ => ?_
    obtain ⟨c₀, hx₀, ho⟩ := hk.symm.slot?_eq_some hx
    exact hn (hs.stray hx₀ (by simpa [rcOrZero, hx₀] using hx0) (ho.trans hc))
  awake hg := hs.awake (scopeAt_congr hk.scopes _ ▸ hg)

/-- **Taking a reference**: the object need not report any more. -/
theorem Swept.inc (hs : Swept h due) (hd : ∀ x ∈ due, v = .obj x ∨ x ∈ due') (e : h.inc v = .ok h') :
    Swept h' due' := by
  refine hs.keeps (keeps_inc e) (hs.toSteady.inc hd e) fun {x} hx0 hl => ?_
  by_cases hx : x ∈ due
  · refine Or.inr ((hd x hx).resolve_left fun hv => ?_)
    subst hv
    obtain ⟨c, hr⟩ := live_of_incObj e
    rw [Heap.inc, incObj_eq hr] at e
    obtain rfl := Except.ok.inj e
    rw [rcOrZero_setSlot hr, if_pos rfl] at hx0
    exact absurd hx0 (Nat.succ_ne_zero _)
  · refine Or.inl ⟨?_, hx⟩
    cases v with
    | obj r =>
      obtain ⟨c, hr⟩ := live_of_incObj e
      rw [Heap.inc, incObj_eq hr] at e
      obtain rfl := Except.ok.inj e
      rw [rcOrZero_setSlot hr] at hx0
      split_ifs at hx0
      exact hx0
    | _ =>
      obtain rfl := Except.ok.inj e
      exact hx0

/-- Lowering a count. -/
theorem Swept.dec {n : Nat} (hs : Swept h []) (e : h.decObj r = .ok (h', n)) :
    Swept h' (if n = 0 then [r] else []) := by
  obtain ⟨hst, -⟩ := hs.toSteady.dec e
  obtain ⟨c, hr, hpos, rfl, rfl⟩ := decObj_cases e
  refine hs.keeps (keeps_setSlot hr rfl) hst fun {x} hx0 _ => ?_
  rw [rcOrZero_setSlot hr] at hx0
  split_ifs at hx0 with ex
  · exact Or.inr (by rw [if_pos hx0, ex]; simp)
  · exact Or.inl ⟨hx0, by simp⟩

/-- **Giving up a reference** without freeing: the object has yet to report. -/
theorem Swept.release (hs : Swept h []) (e : h.release v = .ok h') : Swept h' v.asObj?.toList := by
  cases v with
  | obj r =>
    obtain ⟨⟨h₁, n⟩, hd, e⟩ := bind_ok e
    obtain rfl : h₁ = h' := Except.ok.inj e
    refine (hs.dec hd).mono fun x hx => ?_
    split_ifs at hx
    · exact hx
    · cases hx
  | _ =>
    obtain rfl := Except.ok.inj e
    exact hs

/-- **Giving up a reference** and freeing what nobody references then. -/
theorem Swept.unref (hs : Swept h []) (e : h.unref v = .ok h') : Swept h' [] := by
  cases v with
  | obj r =>
    obtain ⟨⟨h₁, n⟩, hd, e⟩ := bind_ok e
    have hs₁ := hs.dec hd
    obtain ⟨-, c, hr, hn⟩ := hs.toSteady.dec hd
    dsimp only at e
    split_ifs at e hs₁ with h0
    · exact Swept.reclaim hs₁ (hs₁.toSteady.backlog hr (hn.trans h0)) e
    · obtain rfl := Except.ok.inj e
      exact hs₁
  | _ =>
    obtain rfl := Except.ok.inj e
    exact hs

/-- **Freeing a value that nobody owns:** if a report is to come about it, this is the report. -/
theorem Swept.drop (hs : Swept h due) (hd : ∀ x ∈ due, v = .obj x) (e : h.drop v = .ok h') : Swept h' [] := by
  cases v with
  | obj r =>
    cases hr : h.slot? r with
    | none => simp [Heap.drop, rc, slot, hr, Except.map, bind, Except.bind] at e
    | some c =>
      have hdue : ∀ x ∈ due, x ∈ [r] := fun x hx => by simp [Value.obj.inj (hd x hx)]
      have hst := hs.toSteady.drop hd e
      simp only [Heap.drop, rc, slot, hr, Except.map, bind, Except.bind] at e
      split_ifs at e with h0
      · have hs₁ := hs.mono hdue
        exact Swept.reclaim hs₁ (hs₁.toSteady.backlog hr h0) e
      · obtain rfl := Except.ok.inj e
        refine hs.keeps (.refl h) hst fun {x} hx0 _ => Or.inl ⟨hx0, fun hx => h0 ?_⟩
        obtain rfl := List.mem_singleton.mp (hdue x hx)
        simpa [rcOrZero, hr] using hx0
  | _ =>
    have hst := hs.toSteady.drop hd e
    obtain rfl := Except.ok.inj e
    exact hs.keeps (.refl h) hst fun {x} hx0 _ => Or.inl ⟨hx0, fun hx => by cases hd x hx⟩

/-! ## Objects -/

/-- **Allocating** an object that is in no scope: it has yet to report, unless somebody takes it. -/
theorem Swept.allocate {o : Object} (hs : Swept h due) (ho : o.scope? = none) :
    Swept (h.allocate o).1 ((h.allocate o).2.asObj?.toList ++ due) := by
  have hst := hs.toSteady.allocate ho
  obtain ⟨r, hr, hv, hslot, -, hsc, -⟩ := allocate_spec hs.arena o
  rw [hv]
  refine ⟨hst.keeps (.refl _) fun _ _ _ hx => hx.imp_right (List.mem_append_right _), fun {x c} hx h0 hc => ?_,
    fun hg => hs.awake (scopeAt_congr hsc _ ▸ hg)⟩
  rw [hslot] at hx
  split_ifs at hx with ex
  · exact List.mem_append_left _ (by simp [ex, Value.asObj?])
  · exact List.mem_append_right _ (hs.stray hx h0 hc)

/-- Overwriting an object by one in the same scope. -/
theorem Swept.put {o : Object} (hs : Swept h due) (hr : h.slot? r = some c)
    (ho : o.scope? = c.obj.scope?) (e : h.put r o = .ok h') : Swept h' due := by
  have hst := hs.toSteady.put hr ho e
  rw [put_eq hr] at e
  obtain rfl := Except.ok.inj e
  refine ⟨hst, fun {x c'} hx h0 hc => ?_, hs.awake⟩
  rw [slot?_setSlot_of hr] at hx
  split_ifs at hx with ex
  · cases hx
    exact ex ▸ hs.stray hr h0 (ho.symm.trans hc)
  · exact hs.stray hx h0 hc

/-! ## Scopes -/

theorem Swept.openScope (hs : Swept h due) (n : Nat) : Swept (h.openScope n).1 due where
  toSteady := hs.toSteady.openScope n
  stray := hs.stray
  awake {g s} hg hsealed hne := by
    rw [scopeAt_openScope] at hg
    split_ifs at hg
    · cases hg
      cases hsealed
    · exact hs.awake hg hsealed hne

/-- **Joining a scope**, for a closure that is in none. -/
theorem Swept.enrol {rc : Nat} {k : Closure} (hs : Swept h due) (hr : h.slot? r = some ⟨rc, .closure k⟩)
    (hk : k.scope = none) (e : h.enrol g r = .ok h') : Swept h' due := by
  have hst := hs.toSteady.enrol hr hk e
  obtain ⟨s, hg, hopen, rfl⟩ := enrol_eq hr e
  have hat := scopeAt_setScope hg (some { s with members := s.members ++ [r] })
  refine ⟨hst, fun {x c} hx h0 hc => ?_, fun {g' s'} hg' hsealed hne => ?_⟩
  · rw [slot?_setSlot_of (h := h.setScope g _) hr] at hx
    split_ifs at hx
    · cases hx
      cases hc
    · exact hs.stray hx h0 hc
  · change (h.setScope g _).scopeAt g' = _ at hg'
    rw [hat] at hg'
    split_ifs at hg'
    · cases hg'
      simp [hopen] at hsealed
    · exact hs.awake hg' hsealed hne

/-- **Sealing a scope.** -/
theorem Swept.sealScope (hs : Swept h []) (e : h.sealScope g = .ok h') : Swept h' [] := by
  obtain ⟨s, h₁, s', d, hsc, e₁, hsc₁, hcl, hcases⟩ := hs.toSteady.sealScope_cases e
  have hg := scopeAt_of_scope hsc
  have hg₁ := scopeAt_of_scope hsc₁
  obtain ⟨hk, hrc⟩ := keeps_foldlM (f := weaken s.members) (fun _ _ _ _ e => keeps_weaken e) e₁
  obtain ⟨hopen, hm, hsealed, hz⟩ := close_cases hcl
  have hat := scopeAt_setScope hg₁ (some s')
  -- members may have reached zero on the way, and members belong to a scope
  have hstray : ∀ {x c}, h₁.slot? x = some c → c.rc = 0 → c.obj.scope? = none → False := by
    intro x c hx h0 hc
    obtain ⟨c₀, hx₀, ho⟩ := hk.symm.slot?_eq_some hx
    have hmem : x ∉ s.members := fun hmem => by
      have := hs.grouped.scope?_of_mem hg hmem hx₀
      rw [ho, hc] at this
      cases this
    have hx0 := hrc x hmem
    have := hs.stray hx₀ (by simpa [rcOrZero, hx, hx₀, h0] using hx0.symm) (ho.trans hc)
    cases this
  have hawake : ∀ {g' s₁}, g' ≠ g → h₁.scopeAt g' = some s₁ → s₁.isSealed = true → s₁.members ≠ [] →
      0 < s₁.rc := fun _ hg' => hs.awake (scopeAt_congr hk.scopes _ ▸ hg')
  rcases hcases with ⟨rfl, rfl, hst⟩ | ⟨rfl, h₂, work, e₂, hb, e₃⟩
  · refine ⟨hst, fun hx h0 hc => (hstray hx h0 hc).elim, fun {g' s₁} hg' hsl hne => ?_⟩
    rw [hat] at hg'
    split_ifs at hg' with eg
    · cases hg'
      have hfull : s.members.length = s.size := by
        unfold Scope.close at hcl
        split_ifs at hcl with h1 h2
        simpa using h2
      obtain ⟨s₂, d, hcl₂, -, hkeep⟩ := Scope.close_spec hopen hfull (hm ▸ hne)
        (hs.grouped.distinct hg) h₁.rcOrZero
      rw [hcl] at hcl₂
      cases hcl₂
      exact (hkeep rfl).2.pos
    · exact hawake eg hg' hsl hne
  · have hzero : ∀ m ∈ s'.members, h₁.rcOrZero m = 0 := fun m hmem => hz rfl m (hm ▸ hmem)
    have hgr₁ : Grouped h₁ [] := hs.grouped.keeps hk
    have hgr₂ := hgr₁.rescope hg₁ hm
    have ha₁ : Arena h₁ := hs.arena.keeps hk
    obtain ⟨new, rfl, hd, hgr₃, ha₃, hat₃⟩ := dismantle_sheds (h := h₁.setScope g (some s')) hgr₂
      ⟨ha₁.nodup, ha₁.empty⟩ (by rw [hat, if_pos rfl]) hzero e₂
    refine Swept.each ⟨hb.toSteady, fun {x c} hx h0 hc => ?_, fun {g' s₁} hg' hsl hne => ?_⟩ hb e₃
    · obtain ⟨c₀, hx₀, ho, -⟩ := hd.back hx
      rcases Nat.eq_zero_or_pos c₀.rc with hz₀ | hpos
      · exact (hstray hx₀ hz₀ (ho ▸ hc)).elim
      · exact List.mem_append_left _ (hd.all hx₀ hpos hx h0)
    · rw [hat₃] at hg'
      split_ifs at hg' with eg
      rw [hat, if_neg eg] at hg'
      exact hawake eg hg' hsl hne

end CountedMachine.Heap
