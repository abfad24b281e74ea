import CountedMachine.Proofs.Heap.Cascade

/-! # When a cascade fails

A scope is discarded when all its members are at zero. The members are freed together then, and one
of them may still be waiting on the work list: its count has reached zero too, but the scope's own
count was so low that the scope did not wait for its report. `Overtaken` says that this happens
somewhere in a cascade. It is the only way in which a cascade fails: without it the heap is sound
afterwards (`reclaimLoop_ok`), with it the waiting member is looked up in vain
(`reclaimLoop_overtaken`).

It cannot happen when no scope's own count is below the number of its referenced members
(`not_overtaken`). -/

namespace CountedMachine.Heap

variable {h h' : Heap} {R : Multiset ObjId} {r : ObjId} {c : Slot} {work rest : List ObjId}

theorem noteZero_members (s : Scope) (f : ObjId → Nat) : (s.noteZero f).1.members = s.members := by
  unfold Scope.noteZero; split_ifs <;> rfl

theorem noteZero_isSealed (s : Scope) (f : ObjId → Nat) :
    (s.noteZero f).1.isSealed = s.isSealed := by
  unfold Scope.noteZero; split_ifs <;> rfl

theorem noteZero_discard_iff (s : Scope) (f : ObjId → Nat) :
    (s.noteZero f).2 = .discard ↔ s.isSealed = true ∧ s.rc ≤ 1 ∧ s.referenced f = 0 := by
  unfold Scope.noteZero
  split_ifs with h1 h2 h3
  · simp at h1; simp [h1]
  · simp; omega
  · simp at h1; simp [h1, h3]; omega
  · simp [h3]

theorem referenced_eq_zero_iff (s : Scope) (f : ObjId → Nat) :
    s.referenced f = 0 ↔ ∀ m ∈ s.members, f m = 0 := by
  simp [Scope.referenced, List.filter_eq_nil_iff]

/-- Working off `r` discards the scope `s`. -/
def Discards (h : Heap) (r : ObjId) (s : Scope) : Prop :=
  ∃ g, h.scopeOf r = .ok (some g) ∧ h.scopeAt g = some s ∧ (s.noteZero h.rcOrZero).2 = .discard

/-- **A scope is discarded while another of its members waits**, now or later in the cascade. -/
inductive Overtaken : Heap → List ObjId → Prop
  | now {h : Heap} {r m : ObjId} {work : List ObjId} {s : Scope} :
    h.Discards r s → m ∈ s.members → m ∈ work → Overtaken h (r :: work)
  | later {h h' : Heap} {r : ObjId} {work work' : List ObjId} :
    h.reclaimOne r work = .ok (h', work') → Overtaken h' work' → Overtaken h (r :: work)

/-! ## One object at zero -/

/-- Working off `r` has freed the objects in `D` and dropped those in `new` to zero. -/
structure Reclaims (h h' : Heap) (r : ObjId) (D new : List ObjId) : Prop extends
    Sheds h h' D new where
  freed : ∀ {m}, m ∈ D → m = r ∨ ∃ s, h.Discards r s ∧ m ∈ s.members
  discarded : ∀ {s m}, h.Discards r s → m ∈ s.members → m ∈ D
  noted : ∀ {g s'}, h'.scopeAt g = some s' → ∃ s, h.scopeAt g = some s ∧
    s' = if r ∈ s.members then (s.noteZero h.rcOrZero).1 else s

theorem discards_iff {g : ScopeId} {s₀ : Scope} (hr : h.slot? r = some c)
    (hc : c.obj.scope? = some g) (hg : h.scopeAt g = some s₀) (s : Scope) :
    h.Discards r s ↔ s = s₀ ∧ (s₀.noteZero h.rcOrZero).2 = .discard := by
  refine ⟨fun ⟨g', h₁, h₂, h₃⟩ => ?_, fun ⟨e, hd⟩ => ⟨g, by rw [scopeOf_eq hr, hc], e ▸ hg, e ▸ hd⟩⟩
  rw [scopeOf_eq hr, hc] at h₁
  cases h₁
  rw [hg] at h₂
  cases h₂
  exact ⟨rfl, h₃⟩

/-- An object outside all scopes is freed. -/
theorem Sound.reclaimOne_alone (hs : Sound h R []) (hr : h.slot? r = some c) (h0 : c.rc = 0)
    (hc : c.obj.scope? = none) (work : List ObjId) :
    ∃ h' D new, h.reclaimOne r work = .ok (h', new ++ work) ∧ Sound h' R [] ∧
      Reclaims h h' r D new := by
  have hout : ∀ {g s}, h.scopeAt g = some s → r ∉ s.members := by
    intro g s hg hm
    have := hs.grouped.scope?_of_mem hg hm hr
    rw [hc] at this
    cases this
  have hno : ∀ s, ¬ h.Discards r s := by
    rintro s ⟨g, hg, -⟩
    rw [scopeOf_eq hr, hc] at hg
    cases hg
  obtain ⟨h', new, e, hs', hd, hsc⟩ := (hs.exempt [r] (by simp)).dissolve hr h0 hout work
  refine ⟨h', [r], new, ?_, hs', hd, fun hm => Or.inl (List.mem_singleton.mp hm),
    fun hd' => absurd hd' (hno _), fun {g s'} hg => ?_⟩
  · rw [Heap.reclaimOne, scopeOf_eq hr, hc]
    exact e
  · have hg' : h.scopeAt g = some s' := by simpa only [scopeAt, hsc] using hg
    exact ⟨s', hg', by rw [if_neg (hout hg')]⟩

/-- A member of a scope reports to it. -/
theorem Sound.reclaimOne_member (hs : Sound h R []) (hr : h.slot? r = some c)
    {g : ScopeId} (hc : c.obj.scope? = some g) (work : List ObjId) :
    ∃ h' D new, h.reclaimOne r work = .ok (h', new ++ work) ∧ Sound h' R [] ∧
      Reclaims h h' r D new := by
  obtain ⟨s, hg, hmem⟩ := hs.grouped.mem_of_scope? hr hc
  have hout : ∀ {g' s'}, g' ≠ g → h.scopeAt g' = some s' → r ∉ s'.members := by
    intro g' s' hne hg' hm
    have := hs.grouped.scope?_of_mem hg' hm hr
    rw [hc] at this
    exact hne (Option.some.inj this).symm
  have hdis := discards_iff hr hc hg
  have hs₁ := hs.rescope hg (noteZero_members s h.rcOrZero) (noteZero_isSealed s h.rcOrZero)
  have hat := scopeAt_setScope hg (some (s.noteZero h.rcOrZero).1)
  have hrun : h.reclaimOne r work = h.noteZero g work := by
    rw [Heap.reclaimOne, scopeOf_eq hr, hc]
    rfl
  rw [hrun, Heap.noteZero, scope_eq hg]
  rcases hn : s.noteZero h.rcOrZero with ⟨s', _ | _⟩
  · -- the scope keeps its members
    rw [hn] at hs₁ hat
    refine ⟨_, [], [], by simp [hn, bind, Except.bind, pure, Except.pure], hs₁,
      (Sheds.refl h).of_slots rfl rfl, fun hm => by simp at hm, fun hd _ => ?_,
      fun {g₁ s₁} h₁ => ?_⟩
    · rw [hdis, hn] at hd
      cases hd.2
    · rw [hat] at h₁
      split_ifs at h₁ with e
      · cases h₁
        exact ⟨s, e ▸ hg, by rw [if_pos hmem, hn]⟩
      · exact ⟨s₁, h₁, by rw [if_neg (hout e h₁)]⟩
  · -- all members are at zero
    rw [hn] at hs₁ hat
    have hm' : s'.members = s.members := by rw [← noteZero_members s h.rcOrZero, hn]
    have hzero : ∀ m ∈ s'.members, h.rcOrZero m = 0 := by
      have := (noteZero_discard_iff s h.rcOrZero).mp (by rw [hn])
      rw [hm']
      exact (referenced_eq_zero_iff s h.rcOrZero).mp this.2.2
    obtain ⟨h', new, e, hs', hd, hat'⟩ := hs₁.dismantle (by rw [hat, if_pos rfl]) hzero work
    refine ⟨h', s.members, new, ?_, hs', ?_, fun hm => Or.inr ⟨s, ?_, hm⟩, fun hd hm => ?_,
      fun {g₁ s₁} h₁ => ?_⟩
    · simpa [hn, bind, Except.bind] using e
    · rw [hm'] at hd
      exact hd.of_slots rfl rfl
    · rw [hdis, hn]
      exact ⟨rfl, rfl⟩
    · rw [hdis] at hd
      exact hd.1 ▸ hm
    · rw [hat'] at h₁
      split_ifs at h₁ with e
      rw [hat, if_neg e] at h₁
      exact ⟨s₁, h₁, by rw [if_neg (hout e h₁)]⟩

/-- **Working off one object at zero** never fails. -/
theorem Sound.reclaimOne (hs : Sound h R []) (hr : h.slot? r = some c) (h0 : c.rc = 0)
    (work : List ObjId) :
    ∃ h' D new, h.reclaimOne r work = .ok (h', new ++ work) ∧ Sound h' R [] ∧
      Reclaims h h' r D new := by
  rcases hc : c.obj.scope? with _ | g
  · exact hs.reclaimOne_alone hr h0 hc work
  · exact hs.reclaimOne_member hr hc work

theorem reclaimOne_dead (hr : h.slot? r = none) (work : List ObjId) :
    h.reclaimOne r work = .error (.freedObject r.index) := by
  simp [Heap.reclaimOne, scopeOf, get, slot, hr, Except.map, bind, Except.bind]

/-! ## The whole list -/

/-- The objects on the list that are live are at zero. -/
def AtZero (h : Heap) (work : List ObjId) : Prop :=
  ∀ m ∈ work, ∀ c, h.slot? m = some c → c.rc = 0

theorem AtZero.shrink {D : List ObjId} (hz : AtZero h work) (hsh : Shrinks h h' D) :
    AtZero h' work := by
  intro m hm c' hc'
  obtain ⟨c, hc, -, hle⟩ := hsh.back hc'
  have := hz m hm c hc
  omega

theorem Reclaims.atZero {D new : List ObjId} (ha : Reclaims h h' r D new)
    (hz : AtZero h (r :: work)) : AtZero h' (new ++ work) := by
  intro m hm c' hc'
  rcases List.mem_append.mp hm with hm | hm
  · obtain ⟨-, c₀, hc₀, h0⟩ := ha.fresh hm
    rw [hc'] at hc₀
    cases hc₀
    exact h0
  · exact (hz.shrink ha.toShrinks) m (List.mem_cons_of_mem r hm) c' hc'

/-- A list of different objects at zero, in a sound heap. -/
structure Pending (h : Heap) (R : Multiset ObjId) (work : List ObjId) : Prop where
  sound : Sound h R []
  atZero : AtZero h work
  nodup : work.Nodup

/-- One round: the objects new on the list are others, and there is one reference to an object or
one entry of the list less. -/
theorem Pending.step (hp : Pending h R (r :: work)) (hr : h.slot? r = some c) :
    ∃ h' D new, h.reclaimOne r work = .ok (h', new ++ work) ∧ Pending h' R (new ++ work) ∧
      Reclaims h h' r D new ∧
      h'.busy + (new ++ work).length + 1 = h.busy + (r :: work).length := by
  obtain ⟨h', D, new, e, hs', ha⟩ := hp.sound.reclaimOne hr (hp.atZero r (by simp) c hr) work
  refine ⟨h', D, new, e, ⟨hs', ha.atZero hp.atZero, ?_⟩, ha, ?_⟩
  · refine List.nodup_append.mpr ⟨ha.nodup, (List.nodup_cons.mp hp.nodup).2, fun x hx y hy e => ?_⟩
    obtain ⟨⟨c, hc, hpos⟩, -⟩ := ha.fresh hx
    have := hp.atZero x (e ▸ List.mem_cons_of_mem r hy) c hc
    omega
  · have := ha.busy
    simp only [List.length_append, List.length_cons]
    omega

/-- **A cascade that ends leaves the heap sound**, and what was at zero, in the list or not, is
freed or still at zero. -/
theorem reclaimLoop_sound : ∀ (fuel : Nat) {h h' : Heap} {work : List ObjId}, Sound h R [] →
    AtZero h work → reclaimLoop fuel h work = .ok h' →
      Sound h' R [] ∧ ∀ {rest}, AtZero h rest → AtZero h' rest
  | fuel, h, h', [], hs, _, e => by
    obtain rfl : h = h' := by simpa [reclaimLoop] using e
    exact ⟨hs, id⟩
  | 0, h, h', r :: work, _, _, e => by simp [reclaimLoop] at e
  | fuel + 1, h, h', r :: work, hs, hz, e => by
    cases hr : h.slot? r with
    | none => simp [reclaimLoop, reclaimOne_dead hr, bind, Except.bind] at e
    | some c =>
      obtain ⟨h₁, D, new, e₁, hs₁, ha⟩ := hs.reclaimOne hr (hz r (by simp) c hr) work
      simp only [reclaimLoop, e₁, bind, Except.bind] at e
      obtain ⟨hs', hrest⟩ := reclaimLoop_sound fuel hs₁ (ha.atZero hz) e
      exact ⟨hs', fun hz' => hrest (hz'.shrink ha.toShrinks)⟩

/-- **Without overtaking a cascade ends**, as every object reaches zero at most once. -/
theorem reclaimLoop_ok : ∀ (fuel : Nat) {h : Heap} {work : List ObjId}, Pending h R work →
    (∀ m ∈ work, ∃ c, h.slot? m = some c) → h.busy + work.length ≤ fuel → ¬ Overtaken h work →
      ∃ h', reclaimLoop fuel h work = .ok h'
  | fuel, h, [], _, _, _, _ => ⟨h, by simp [reclaimLoop]⟩
  | 0, h, r :: work, _, _, hf, _ => by simp at hf
  | fuel + 1, h, r :: work, hp, hl, hf, ho => by
    obtain ⟨c, hr⟩ := hl r (by simp)
    obtain ⟨h₁, D, new, e₁, hp₁, ha, hlen⟩ := hp.step hr
    have hl₁ : ∀ m ∈ new ++ work, ∃ c, h₁.slot? m = some c := by
      intro m hm
      rcases List.mem_append.mp hm with hm | hm
      · obtain ⟨-, c', hc', -⟩ := ha.fresh hm
        exact ⟨c', hc'⟩
      · obtain ⟨cm, hcm⟩ := hl m (List.mem_cons_of_mem r hm)
        refine ha.kept hcm fun hD => ?_
        rcases ha.freed hD with e | ⟨s, hdis, hmem⟩
        · exact (List.nodup_cons.mp hp.nodup).1 (e ▸ hm)
        · exact ho (.now hdis hmem hm)
    obtain ⟨h', e'⟩ := reclaimLoop_ok fuel hp₁ hl₁ (by omega) fun ho₁ => ho (.later e₁ ho₁)
    exact ⟨h', by simp only [reclaimLoop, e₁, bind, Except.bind]; exact e'⟩

/-- A freed object on the list is found in the end. -/
theorem reclaimLoop_dead : ∀ (fuel : Nat) {h : Heap} {work : List ObjId}, Pending h R work →
    h.busy + work.length ≤ fuel → (∃ m ∈ work, h.slot? m = none) →
      ∃ n, reclaimLoop fuel h work = .error (.freedObject n)
  | fuel, h, [], _, _, hd => by simp at hd
  | 0, h, r :: work, _, hf, _ => by simp at hf
  | fuel + 1, h, r :: work, hp, hf, hd => by
    cases hr : h.slot? r with
    | none => exact ⟨r.index, by simp [reclaimLoop, reclaimOne_dead hr, bind, Except.bind]⟩
    | some c =>
      obtain ⟨h₁, D, new, e₁, hp₁, ha, hlen⟩ := hp.step hr
      have hd₁ : ∃ m ∈ new ++ work, h₁.slot? m = none := by
        obtain ⟨m, hm, hm0⟩ := hd
        rcases List.mem_cons.mp hm with rfl | hm
        · rw [hr] at hm0
          cases hm0
        · exact ⟨m, List.mem_append.mpr (Or.inr hm), ha.dead hm0⟩
      obtain ⟨n, e'⟩ := reclaimLoop_dead fuel hp₁ (by omega) hd₁
      exact ⟨n, by simp only [reclaimLoop, e₁, bind, Except.bind]; exact e'⟩

/-- **With overtaking a cascade fails:** the member that still waits has been freed. -/
theorem reclaimLoop_overtaken (ho : Overtaken h work) : ∀ (fuel : Nat), Pending h R work →
    h.busy + work.length ≤ fuel → ∃ n, reclaimLoop fuel h work = .error (.freedObject n) := by
  induction ho with
  | @now h r m work s hdis hmem hm =>
    intro fuel hp hf
    obtain ⟨fuel, rfl⟩ : ∃ k, fuel = k + 1 := ⟨fuel - 1, by simp at hf; omega⟩
    cases hr : h.slot? r with
    | none => exact ⟨r.index, by simp [reclaimLoop, reclaimOne_dead hr, bind, Except.bind]⟩
    | some c =>
      obtain ⟨h₁, D, new, e₁, hp₁, ha, hlen⟩ := hp.step hr
      obtain ⟨n, e⟩ := reclaimLoop_dead fuel hp₁ (by omega)
        ⟨m, List.mem_append.mpr (Or.inr hm), ha.gone (ha.discarded hdis hmem)⟩
      exact ⟨n, by simp only [reclaimLoop, e₁, bind, Except.bind]; exact e⟩
  | @later h h' r work work' e₁ _ ih =>
    intro fuel hp hf
    obtain ⟨fuel, rfl⟩ : ∃ k, fuel = k + 1 := ⟨fuel - 1, by simp at hf; omega⟩
    cases hr : h.slot? r with
    | none => exact ⟨r.index, by simp [reclaimLoop, reclaimOne_dead hr, bind, Except.bind]⟩
    | some c =>
      obtain ⟨h₁, D, new, e₁', hp₁, ha, hlen⟩ := hp.step hr
      rw [e₁'] at e₁
      cases e₁
      obtain ⟨n, e⟩ := ih fuel hp₁ (by omega)
      exact ⟨n, by simp only [reclaimLoop, e₁', bind, Except.bind]; exact e⟩

/-! ## Scopes whose count does not lag behind -/

/-- The members that are referenced, or about to report. -/
def expected (h : Heap) (work : List ObjId) (s : Scope) : Nat :=
  s.members.countP fun m => 0 < h.rcOrZero m ∨ m ∈ work

/-- No sealed scope counts fewer members than are referenced or about to report. -/
def Ahead (h : Heap) (work : List ObjId) : Prop :=
  ∀ {g s}, h.scopeAt g = some s → s.isSealed = true → h.expected work s ≤ s.rc

theorem expected_step {D new : List ObjId} (ha : Reclaims h h' r D new) (work : List ObjId)
    (s : Scope) :
    h'.expected (new ++ work) s ≤ h.expected work s := by
  refine List.countP_mono_left fun m _ hm => ?_
  simp only [decide_eq_true_eq, List.mem_append] at hm ⊢
  rcases hm with hm | hm | hm
  · left
    cases hc' : h'.slot? m with
    | none => simp [rcOrZero, hc'] at hm
    | some c' =>
      obtain ⟨c, hc, -, hle⟩ := ha.back hc'
      simp only [rcOrZero, hc', hc, Option.map_some, Option.getD_some] at hm ⊢
      omega
  · obtain ⟨⟨c, hc, hpos⟩, -⟩ := ha.fresh hm
    left
    simpa [rcOrZero, hc] using hpos
  · exact Or.inr hm

theorem countP_insert {α : Type} [DecidableEq α] {p q : α → Bool} {a : α}
    (hq : ∀ x, q x = true ↔ x = a ∨ p x = true) (hp : p a = false) :
    ∀ {l : List α}, l.Nodup → l.countP q = l.countP p + if a ∈ l then 1 else 0
  | [], _ => by simp
  | x :: l, hnd => by
    obtain ⟨hx, hnd⟩ := List.nodup_cons.mp hnd
    rw [List.countP_cons, List.countP_cons, countP_insert hq hp hnd]
    by_cases e : x = a
    · subst e
      simp [(hq x).mpr (Or.inl rfl), hp, hx]
    · have : q x = p x := Bool.eq_iff_iff.mpr ((hq x).trans (or_iff_right e))
      simp [this, Ne.symm e]
      omega

/-- One report less is to come when an object leaves the list. -/
theorem Pending.expected_cons (hp : Pending h R (r :: work)) {g : ScopeId} {s : Scope}
    (hg : h.scopeAt g = some s) :
    h.expected (r :: work) s = h.expected work s + if r ∈ s.members then 1 else 0 := by
  have hrc : h.rcOrZero r = 0 := by
    cases hr : h.slot? r with
    | none => simp [rcOrZero, hr]
    | some c => simpa [rcOrZero, hr] using hp.atZero r (by simp) c hr
  have hmem := (List.nodup_cons.mp hp.nodup).1
  refine countP_insert (fun x => ?_) ?_ (hp.sound.grouped.distinct hg)
  · simp only [List.mem_cons, decide_eq_true_eq]
    exact or_left_comm
  · simp [hrc, hmem]

theorem Ahead.step {D new : List ObjId} (hp : Pending h R (r :: work))
    (ha : Reclaims h h' r D new) (hah : Ahead h (r :: work)) : Ahead h' (new ++ work) := by
  intro g s' hg' hsealed
  obtain ⟨s, hg, e⟩ := ha.noted hg'
  have hstep := expected_step ha work s
  have hcons := hp.expected_cons hg
  split_ifs at e hcons with hm
  · subst e
    rw [noteZero_isSealed] at hsealed
    have hle := hah hg hsealed
    have heq : h'.expected (new ++ work) (s.noteZero h.rcOrZero).1 = h'.expected (new ++ work) s := by
      rw [expected, expected, noteZero_members]
    rw [heq]
    unfold Scope.noteZero
    split_ifs with h1 h2 h3
    · simp [hsealed] at h1
    · show _ ≤ s.rc - 1
      omega
    · show _ ≤ 0
      omega
    · show _ ≤ s.referenced h.rcOrZero
      omega
  · subst e
    have := hah hg hsealed
    omega

theorem Discards.mem (hs : Sound h R []) {s : Scope} (hd : h.Discards r s) : r ∈ s.members := by
  obtain ⟨g, hsc, hg, -⟩ := hd
  cases hr : h.slot? r with
  | none => simp [scopeOf, get, slot, hr, Except.map, bind, Except.bind] at hsc
  | some c =>
    rw [scopeOf_eq hr] at hsc
    obtain ⟨s', hg', hm⟩ := hs.grouped.mem_of_scope? hr (Except.ok.inj hsc)
    rw [hg] at hg'
    cases hg'
    exact hm

/-- **No scope is overtaken as long as no count lags behind.** -/
theorem not_overtaken (ho : Overtaken h work) : Pending h R work → Ahead h work → False := by
  induction ho with
  | @now h r m work s hdis hmem hm =>
    intro hp hah
    have hr := hdis.mem hp.sound
    obtain ⟨g, -, hg, hdec⟩ := hdis
    obtain ⟨hsealed, hle, -⟩ := (noteZero_discard_iff s h.rcOrZero).mp hdec
    have hcons := hp.expected_cons hg
    rw [if_pos hr] at hcons
    have hpos : 0 < h.expected work s := List.countP_pos_iff.mpr ⟨m, hmem, by simp [hm]⟩
    have := hah hg hsealed
    omega
  | @later h h' r work work' e₁ _ ih =>
    intro hp hah
    cases hr : h.slot? r with
    | none => rw [reclaimOne_dead hr] at e₁; cases e₁
    | some c =>
      obtain ⟨h₁, D, new, e₁', hp₁, ha, -⟩ := hp.step hr
      rw [e₁'] at e₁
      cases e₁
      exact ih hp₁ (Ahead.step hp ha hah)

end CountedMachine.Heap
