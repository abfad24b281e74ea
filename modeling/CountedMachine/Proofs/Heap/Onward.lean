import CountedMachine.Proofs.Heap.Arena
import CountedMachine.Proofs.Heap.Swept

/-! # Scopes that are opened, and scopes that are collected

Taking and giving up references makes no new objects and no new scopes, and a scope goes only when it is
sealed and has members (`Onward`). So of the scopes with room for members that have been opened, those that
are not in use any more have been collected, and `Books` keeps the account: a scope in use that is sealed is
full, and one that is not sealed is among those that somebody is still filling. -/

namespace CountedMachine.Heap

variable {h h' h₁ h₂ : Heap} {r : ObjId} {c : Slot} {v : Value} {work work' : List ObjId} {g : ScopeId}
  {s : Scope} {gs : List ScopeId} {n : Nat}

/-! ## Going on with fewer objects -/

/-- **The second heap has no objects that the first does not have**, and of the scopes of the first only
sealed ones with members may be gone. -/
structure Onward (h h' : Heap) : Prop where
  objs : ∀ {x c'}, h'.slot? x = some c' → ∃ c, h.slot? x = some c ∧ c'.obj = c.obj
  size : h'.scopes.size = h.scopes.size
  used : ∀ {g s'}, h'.scopeAt g = some s' → ∃ s, h.scopeAt g = some s ∧ s'.size = s.size ∧
    s'.members = s.members ∧ s'.isSealed = s.isSealed
  spent : ∀ {g s}, h.scopeAt g = some s → h'.scopeAt g = none → s.isSealed = true ∧ s.members ≠ []

namespace Onward

theorem refl (h : Heap) : Onward h h :=
  ⟨fun hx => ⟨_, hx, rfl⟩, rfl, fun hg => ⟨_, hg, rfl, rfl, rfl⟩, fun hg hn => by simp [hg] at hn⟩

theorem trans (a : Onward h h₁) (b : Onward h₁ h₂) : Onward h h₂ where
  objs hx := by
    obtain ⟨c₁, h₁x, e₁⟩ := b.objs hx
    obtain ⟨c, hx, e⟩ := a.objs h₁x
    exact ⟨c, hx, e₁.trans e⟩
  size := b.size.trans a.size
  used hg := by
    obtain ⟨s₁, hg₁, hsize₁, hm₁, hsealed₁⟩ := b.used hg
    obtain ⟨s, hg, hsize, hm, hsealed⟩ := a.used hg₁
    exact ⟨s, hg, hsize₁.trans hsize, hm₁.trans hm, hsealed₁.trans hsealed⟩
  spent {g s} hg hn := by
    cases hg₁ : h₁.scopeAt g with
    | none => exact a.spent hg hg₁
    | some s₁ =>
      obtain ⟨s₀, hg₀, -, hm, hsealed⟩ := a.used hg₁
      cases hg.symm.trans hg₀
      rw [← hm, ← hsealed]
      exact b.spent hg₁ hn

/-- The scopes are the same. -/
theorem of_scopes (hobjs : ∀ {x c'}, h'.slot? x = some c' → ∃ c, h.slot? x = some c ∧ c'.obj = c.obj)
    (hsc : h'.scopes = h.scopes) : Onward h h' where
  objs := hobjs
  size := congrArg Array.size hsc
  used hg := ⟨_, scopeAt_congr hsc _ ▸ hg, rfl, rfl, rfl⟩
  spent hg hn := by simp [scopeAt_congr hsc, hg] at hn

theorem recount (hr : h.slot? r = some c) (n : Nat) : Onward h (h.setSlot r (some { c with rc := n })) := by
  refine .of_scopes (fun {x c'} hx => ?_) rfl
  rw [slot?_setSlot_of hr] at hx
  split_ifs at hx with e
  · cases hx
    exact ⟨c, e ▸ hr, rfl⟩
  · exact ⟨c', hx, rfl⟩

end Onward

theorem size_setScope (h : Heap) (g : ScopeId) (o : Option Scope) :
    (h.setScope g o).scopes.size = h.scopes.size := by
  simp [setScope]

/-- A scope may change its count. -/
theorem onward_rescope {s' : Scope} (hg : h.scopeAt g = some s) (hsize : s'.size = s.size)
    (hm : s'.members = s.members) (hsealed : s'.isSealed = s.isSealed) :
    Onward h (h.setScope g (some s')) := by
  have hat := scopeAt_setScope hg (some s')
  refine ⟨fun hx => ⟨_, hx, rfl⟩, size_setScope h g _, fun {g₁ s₁} h₁ => ?_, fun {g₁ s₁} h₁ hn => ?_⟩
  · rw [hat] at h₁
    split_ifs at h₁ with e
    · cases h₁
      exact ⟨s, e ▸ hg, hsize, hm, hsealed⟩
    · exact ⟨s₁, h₁, rfl, rfl, rfl⟩
  · rw [hat] at hn
    split_ifs at hn
    simp [h₁] at hn

theorem noteZero_size (s : Scope) (f : ObjId → Nat) : (s.noteZero f).1.size = s.size := by
  unfold Scope.noteZero
  split_ifs <;> rfl

/-- A scope with members is discarded. -/
theorem onward_dismantle (hgr : Grouped h []) (ha : Arena h) (hg : h.scopeAt g = some s)
    (hsealed : s.isSealed = true) (hne : s.members ≠ []) (hz : ∀ m ∈ s.members, h.rcOrZero m = 0)
    (e : h.dismantle g work = .ok (h', work')) : Onward h h' := by
  obtain ⟨_, -, hd, -, -, hat⟩ := dismantle_sheds hgr ha hg hz e
  rw [dismantle, scope_eq hg] at e
  have hsc := scopes_foldlM_pair (f := dissolve) (fun _ _ _ => scopes_dissolve) _ e
  refine ⟨fun hx => ?_, ?_, fun {g₁ s₁} h₁ => ?_, fun {g₁ s₁} h₁ hn => ?_⟩
  · obtain ⟨c, hc, ho, -⟩ := hd.back hx
    exact ⟨c, hc, ho⟩
  · exact (congrArg Array.size hsc).trans (size_setScope h g none)
  · rw [hat] at h₁
    split_ifs at h₁
    exact ⟨s₁, h₁, rfl, rfl, rfl⟩
  · rw [hat] at hn
    split_ifs at hn with e'
    · cases (e' ▸ h₁).symm.trans hg
      exact ⟨hsealed, hne⟩
    · simp [h₁] at hn

/-- **One object reports.** -/
theorem onward_reclaimOne (hgr : Grouped h []) (ha : Arena h) (hr : h.slot? r = some c) (h0 : c.rc = 0)
    (e : h.reclaimOne r work = .ok (h', work')) : Onward h h' := by
  rw [reclaimOne, scopeOf_eq hr] at e
  rcases hc : c.obj.scope? with _ | g
  · rw [hc] at e
    obtain ⟨_, -, hd, hsc, -⟩ := dissolve_sheds ha (fun hr' => by
      cases hr.symm.trans hr'
      exact h0) e
    refine .of_scopes (fun hx => ?_) hsc
    obtain ⟨c, hc, ho, -⟩ := hd.back hx
    exact ⟨c, hc, ho⟩
  · rw [hc] at e
    obtain ⟨s, hg, hmem⟩ := hgr.mem_of_scope? hr hc
    have honce := onward_rescope hg (noteZero_size s h.rcOrZero) (noteZero_members s h.rcOrZero)
      (noteZero_isSealed s h.rcOrZero)
    have hgr₁ := hgr.rescope hg (noteZero_members s h.rcOrZero)
    have hat := scopeAt_setScope hg (some (s.noteZero h.rcOrZero).1)
    have hm := noteZero_members s h.rcOrZero
    have hsl := noteZero_isSealed s h.rcOrZero
    have hiff := noteZero_discard_iff s h.rcOrZero
    change h.noteZero g work = _ at e
    rw [noteZero, scope_eq hg] at e
    rcases hn : s.noteZero h.rcOrZero with ⟨s', _ | _⟩
    · rw [hn] at honce
      simp only [hn, bind, Except.bind] at e
      obtain ⟨rfl, rfl⟩ := Prod.mk.inj (Except.ok.inj e)
      exact honce
    · rw [hn] at honce hgr₁ hat hm hsl hiff
      simp only [hn, bind, Except.bind] at e
      obtain ⟨hsealed, -, hzero⟩ := hiff.mp rfl
      refine honce.trans (onward_dismantle (s := s') hgr₁ ⟨ha.nodup, ha.empty⟩ (by rw [hat, if_pos rfl])
        (hsl.trans hsealed) (hm ▸ List.ne_nil_of_mem hmem) (fun m hmem' => ?_) e)
      exact (referenced_eq_zero_iff s h.rcOrZero).mp hzero m (hm ▸ hmem')

/-- A cascade that ends. -/
theorem Backlog.onward : ∀ (fuel : Nat) {h : Heap} {work rest : List ObjId}, Backlog h (work ++ rest) →
    reclaimLoop fuel h work = .ok h' → Onward h h'
  | fuel, h, [], rest, _, e => by
    obtain rfl : h = h' := by simpa [reclaimLoop] using e
    exact .refl h
  | 0, h, r :: work, rest, _, e => by simp [reclaimLoop] at e
  | fuel + 1, h, r :: work, rest, hb, e => by
    rw [reclaimLoop] at e
    obtain ⟨⟨h₁, work₁⟩, e₁, e⟩ := bind_ok e
    obtain ⟨-, -, -, hb₁, -⟩ := hb.round e₁
    cases hr : h.slot? r with
    | none =>
      rw [reclaimOne_dead hr] at e₁
      cases e₁
    | some c =>
      exact (onward_reclaimOne hb.grouped hb.arena hr (hb.atZero r (by simp) c hr) e₁).trans
        (Backlog.onward fuel hb₁ e)

theorem Backlog.onward_each : ∀ {h : Heap} {work : List ObjId}, Backlog h work →
    work.foldlM (fun h r => h.reclaim [r]) h = .ok h' → Onward h h'
  | h, [], _, e => by
    obtain rfl : h = h' := Except.ok.inj e
    exact .refl h
  | h, r :: work, hb, e => by
    rw [List.foldlM_cons] at e
    obtain ⟨h₁, e₁, e⟩ := bind_ok e
    have hb : Backlog h ([r] ++ work) := hb
    exact (Backlog.onward _ hb e₁).trans (Backlog.onward_each (hb.reclaim e₁) e)

/-! ## References -/

theorem onward_inc (e : h.inc v = .ok h') : Onward h h' := by
  cases v with
  | obj r =>
    obtain ⟨c, hr⟩ := live_of_incObj e
    rw [Heap.inc, incObj_eq hr] at e
    obtain rfl := Except.ok.inj e
    exact .recount hr _
  | _ =>
    obtain rfl := Except.ok.inj e
    exact .refl h

theorem onward_incAll : ∀ {vs : List Value} {h : Heap}, h.incAll vs = .ok h' → Onward h h'
  | [], h, e => by
    obtain rfl : h = h' := Except.ok.inj e
    exact .refl h
  | v :: vs, h, e => by
    rw [Heap.incAll, List.foldlM_cons] at e
    obtain ⟨h₁, e₁, e⟩ := bind_ok e
    exact (onward_inc e₁).trans (onward_incAll e)

theorem onward_dec (e : h.decObj r = .ok (h', n)) : Onward h h' := by
  obtain ⟨c, hr, -, rfl, -⟩ := decObj_cases e
  exact .recount hr _

theorem onward_release (e : h.release v = .ok h') : Onward h h' := by
  cases v with
  | obj r =>
    obtain ⟨⟨h₁, n⟩, hd, e⟩ := bind_ok e
    obtain rfl : h₁ = h' := Except.ok.inj e
    exact onward_dec hd
  | _ =>
    obtain rfl := Except.ok.inj e
    exact .refl h

theorem Steady.onward_unref (hs : Steady h []) (e : h.unref v = .ok h') : Onward h h' := by
  cases v with
  | obj r =>
    obtain ⟨⟨h₁, n⟩, hd, e⟩ := bind_ok e
    obtain ⟨hs₁, c, hr, hn⟩ := hs.dec hd
    dsimp only at e
    split_ifs at e hs₁ with h0
    · have hb : Backlog h₁ ([r] ++ []) := hs₁.backlog hr (hn.trans h0)
      exact (onward_dec hd).trans (hb.onward _ e)
    · obtain rfl := Except.ok.inj e
      exact onward_dec hd
  | _ =>
    obtain rfl := Except.ok.inj e
    exact .refl h

theorem Steady.onward_unrefAll : ∀ {vs : List Value} {h : Heap}, Steady h [] → h.unrefAll vs = .ok h' →
    Onward h h'
  | [], h, _, e => by
    obtain rfl : h = h' := Except.ok.inj e
    exact .refl h
  | v :: vs, h, hs, e => by
    rw [Heap.unrefAll, List.foldlM_cons] at e
    obtain ⟨h₁, e₁, e⟩ := bind_ok e
    exact (hs.onward_unref e₁).trans (Steady.onward_unrefAll (hs.unref e₁) e)

theorem Swept.onward_drop {due : List ObjId} (hs : Swept h due) (hd : ∀ x ∈ due, v = .obj x)
    (e : h.drop v = .ok h') : Onward h h' := by
  cases v with
  | obj r =>
    cases hr : h.slot? r with
    | none => simp [Heap.drop, rc, slot, hr, Except.map, bind, Except.bind] at e
    | some c =>
      simp only [Heap.drop, rc, slot, hr, Except.map, bind, Except.bind] at e
      split_ifs at e with h0
      · have hs₁ : Swept h [r] := hs.mono fun x hx => by simp [Value.obj.inj (hd x hx)]
        have hb : Backlog h ([r] ++ []) := hs₁.toSteady.backlog hr h0
        exact hb.onward _ e
      · obtain rfl := Except.ok.inj e
        exact .refl h
  | _ =>
    obtain rfl := Except.ok.inj e
    exact .refl h

/-! ## The account -/

/-- The scope has room for members, or had. -/
def roomy (o : Option Scope) : Bool := o.all fun s => 0 < s.size

/-- **The account of scopes:** `n` scopes with room for members have been opened; of the scopes in use those
that are sealed are full, and the others are among `gs`. -/
structure Books (h : Heap) (gs : List ScopeId) (n : Nat) : Prop where
  opened : h.scopes.countP roomy = n
  full : ∀ {g s}, h.scopeAt g = some s → s.isSealed = true → s.members.length = s.size
  filling : ∀ {g s}, h.scopeAt g = some s → s.isSealed = false → g ∈ gs

theorem books_empty : Books .empty [] 0 :=
  ⟨rfl, fun hg => by simp [scopeAt, empty] at hg, fun hg => by simp [scopeAt, empty] at hg⟩

theorem scopeAt_eq_some : h.scopeAt g = some s ↔ h.scopes[g.index]? = some (some s) := by
  simp [scopeAt, Option.join_eq_some_iff]

theorem countP_roomy_congr (hsize : h'.scopes.size = h.scopes.size)
    (hroom : ∀ g, roomy (h'.scopeAt g) = roomy (h.scopeAt g)) :
    h'.scopes.countP roomy = h.scopes.countP roomy := by
  have hmap : h'.scopes.map roomy = h.scopes.map roomy := by
    refine Array.ext (by simpa using hsize) fun i hi' hi => ?_
    have := hroom ⟨i⟩
    simp only [Array.size_map] at hi hi'
    simpa [scopeAt, hi, hi'] using this
  have hid : ∀ xs : Array (Option Scope), xs.countP roomy = (xs.map roomy).countP id := fun xs => by
    rw [Array.countP_map]
    rfl
  rw [hid, hid, hmap]

theorem Books.onward (hb : Books h gs n) (ho : Onward h h') : Books h' gs n where
  opened := by
    rw [← hb.opened]
    refine countP_roomy_congr ho.size fun g => ?_
    cases hg' : h'.scopeAt g with
    | some s' =>
      obtain ⟨s, hg, hsize, -⟩ := ho.used hg'
      rw [hg]
      simp [roomy, hsize]
    | none =>
      cases hg : h.scopeAt g with
      | none => rfl
      | some s =>
        obtain ⟨hsealed, hne⟩ := ho.spent hg hg'
        have hpos := List.length_pos_of_ne_nil hne
        rw [hb.full hg hsealed] at hpos
        simp [roomy, hpos]
  full hg hsealed := by
    obtain ⟨s, hg₀, hsize, hm, hs⟩ := ho.used hg
    rw [hm, hsize]
    exact hb.full hg₀ (hs ▸ hsealed)
  filling hg hopen := by
    obtain ⟨s, hg₀, -, -, hs⟩ := ho.used hg
    exact hb.filling hg₀ (hs ▸ hopen)

theorem Books.of_scopes (hb : Books h gs n) (hsc : h'.scopes = h.scopes) : Books h' gs n where
  opened := by rw [hsc, hb.opened]
  full hg := hb.full (scopeAt_congr hsc _ ▸ hg)
  filling hg := hb.filling (scopeAt_congr hsc _ ▸ hg)

theorem Books.openScope (hb : Books h gs n) (size : Nat) :
    Books (h.openScope size).1 ((h.openScope size).2 :: gs) (n + if 0 < size then 1 else 0) where
  opened := by
    show (h.scopes.push (some (.new size))).countP roomy = _
    rw [Array.countP_push, hb.opened]
    simp [roomy, Scope.new]
  full {g s} hg hsealed := by
    rw [scopeAt_openScope] at hg
    split_ifs at hg
    · cases hg
      cases hsealed
    · exact hb.full hg hsealed
  filling {g s} hg hopen := by
    rw [scopeAt_openScope] at hg
    split_ifs at hg with e
    · exact e ▸ List.mem_cons_self
    · exact List.mem_cons_of_mem _ (hb.filling hg hopen)

theorem Books.enrol {rc : Nat} {k : Closure} (hb : Books h gs n) (hr : h.slot? r = some ⟨rc, .closure k⟩)
    (e : h.enrol g r = .ok h') : Books h' gs n := by
  obtain ⟨s, hg, hopen, rfl⟩ := enrol_eq hr e
  have hat := scopeAt_setScope hg (some { s with members := s.members ++ [r] })
  refine ⟨?_, fun {g' s'} hg' hsealed => ?_, fun {g' s'} hg' ho => ?_⟩
  · rw [← hb.opened]
    refine countP_roomy_congr (size_setScope h g _) fun g' => ?_
    show roomy ((h.setScope g _).scopeAt g') = _
    rw [hat]
    split_ifs with e'
    · rw [e', hg]
      rfl
    · rfl
  · change (h.setScope g _).scopeAt g' = _ at hg'
    rw [hat] at hg'
    split_ifs at hg'
    · cases hg'
      simp [hopen] at hsealed
    · exact hb.full hg' hsealed
  · change (h.setScope g _).scopeAt g' = _ at hg'
    rw [hat] at hg'
    split_ifs at hg' with e'
    · exact e' ▸ hb.filling hg hopen
    · exact hb.filling hg' ho

theorem noteZeros_size (f : ObjId → Nat) : ∀ (m : Nat) (s : Scope), (s.noteZeros f m).1.size = s.size
  | 0, s => rfl
  | m + 1, s => by
    have h := noteZero_size s f
    rw [Scope.noteZeros]
    rcases hn : s.noteZero f with ⟨s₁, _ | _⟩
    · rw [hn] at h
      exact (noteZeros_size f m s₁).trans h
    · rw [hn] at h
      exact h

/-- What closing a scope leaves of it. -/
theorem close_full {s' : Scope} {f : ObjId → Nat} {d : Decision} (e : s.close f = .ok (s', d)) :
    s.members.length = s.size ∧ s'.size = s.size ∧ (d = .discard → s.members ≠ []) := by
  unfold Scope.close at e
  split_ifs at e with h1 h2
  have hfull : s.members.length = s.size := by simpa using h2
  have e := Except.ok.inj e
  refine ⟨hfull, ?_, ?_⟩
  · rw [show s' = _ from (congrArg Prod.fst e).symm, noteZeros_size]
  · rintro rfl hnil
    rw [hnil] at e
    simp [Scope.noteZeros] at e

/-- **Sealing the scope that is being filled.** -/
theorem Books.sealScope (hb : Books h (g :: gs) n) (hs : Steady h []) (e : h.sealScope g = .ok h') :
    Books h' gs n := by
  obtain ⟨s, h₁, s', d, hsc, e₁, hsc₁, hcl, hcases⟩ := hs.sealScope_cases e
  have hg₁ := scopeAt_of_scope hsc₁
  obtain ⟨hk, -⟩ := keeps_foldlM (f := weaken s.members) (fun _ _ _ _ e => keeps_weaken e) e₁
  obtain ⟨-, hm, hsealed, hz⟩ := close_cases hcl
  obtain ⟨hfull, hsize, hne⟩ := close_full hcl
  have hb₁ : Books h₁ (g :: gs) n := hb.of_scopes hk.scopes
  have hat := scopeAt_setScope hg₁ (some s')
  have hb₂ : Books (h₁.setScope g (some s')) gs n := by
    refine ⟨?_, fun {g' t} hg' ht => ?_, fun {g' t} hg' ht => ?_⟩
    · rw [← hb₁.opened]
      refine countP_roomy_congr (size_setScope h₁ g _) fun g' => ?_
      rw [hat]
      split_ifs with e'
      · rw [e', hg₁]
        simp [roomy, hsize]
      · rfl
    · rw [hat] at hg'
      split_ifs at hg'
      · cases hg'
        rw [hm, hsize, hfull]
      · exact hb₁.full hg' ht
    · rw [hat] at hg'
      split_ifs at hg' with e'
      · cases hg'
        simp [hsealed] at ht
      · exact (List.mem_cons.mp (hb₁.filling hg' ht)).resolve_left e'
  rcases hcases with ⟨rfl, rfl, -⟩ | ⟨rfl, h₂, work, e₂, hbl, e₃⟩
  · exact hb₂
  · have hgr₁ : Grouped h₁ [] := hs.grouped.keeps hk
    have ha₁ : Arena h₁ := hs.arena.keeps hk
    refine (hb₂.onward (onward_dismantle (s := s') (hgr₁.rescope hg₁ hm) ⟨ha₁.nodup, ha₁.empty⟩
      (by rw [hat, if_pos rfl]) hsealed (hm ▸ hne rfl) (fun m hmem => ?_) e₂)).onward (hbl.onward_each e₃)
    exact hz rfl m (hm ▸ hmem)

/-- **All scopes with room for members have been collected** when no scope in use has members and nobody is
filling one. -/
theorem Books.collected (hb : Books h [] n) (hc : Consistent h)
    (hnone : ∀ {g s}, h.scopeAt g = some s → s.members = []) : h.stats.scopesCollected = n := by
  rw [hc.collected, ← hb.opened]
  refine Array.countP_congr fun o ho => ?_
  cases o with
  | none => rfl
  | some s =>
    obtain ⟨i, hi⟩ := Array.mem_iff_getElem?.mp ho
    have hg : h.scopeAt ⟨i⟩ = some s := scopeAt_eq_some.mpr hi
    cases hsealed : s.isSealed with
    | true =>
      have := hb.full hg hsealed
      rw [hnone hg] at this
      simp [roomy, ← this]
    | false => cases hb.filling hg hsealed

end CountedMachine.Heap
