import CountedMachine.Proofs.Heap.Exactness
import CountedMachine.Proofs.Heap.Onward

/-! # References go down

Counts find all garbage where no references run in circles. Objects are given ranks: a new object is above
those it refers to, and as objects do not change, references go down for good. Closures that are bound
together are the exception; while they are in the making they may refer to each other, and they are set
apart. They get one rank together when their scope is sealed, for then the references among them do not
count (`Graded.sealScope`).

In a heap with exact counts and no forgotten objects this leaves nothing that is not reached from outside.
If those who hold references hold nothing but objects without references of their own, these are all that
is left (`Graded.held`). -/

namespace CountedMachine.Heap

variable {h h' : Heap} {R : Multiset ObjId} {P Q : Set ObjId} {r : ObjId} {c : Slot} {g : ScopeId} {s : Scope}
  {rank : ObjId → Nat}

/-- **Outside `P`, references go to objects outside `P` of a lower rank**, and the members of a sealed scope
are of one rank. -/
structure Ranked (h : Heap) (P : Set ObjId) (rank : ObjId → Nat) : Prop where
  below : ∀ {x c y}, h.slot? x = some c → x ∉ P → y ∈ c.obj.refs → y ∉ P ∧ rank y < rank x
  level : ∀ {g s m m'}, h.scopeAt g = some s → s.isSealed = true → m ∈ s.members → m' ∈ s.members →
    rank m = rank m'
  bounded : ∃ n, ∀ x, rank x ≤ n

/-- **The objects outside `P` can be ranked.** -/
def Graded (h : Heap) (P : Set ObjId) : Prop := ∃ rank, Ranked h P rank

theorem graded_empty : Graded .empty ∅ :=
  ⟨fun _ => 0, fun hr => by simp [slot?, empty] at hr, fun _ _ _ _ => rfl, 0, fun _ => le_rfl⟩

/-- No new references, and no new sealed scopes. -/
theorem Graded.of_back (hl : Graded h P)
    (hobjs : ∀ {x c'}, h'.slot? x = some c' → x ∉ P →
      ∃ c, h.slot? x = some c ∧ ∀ y ∈ c'.obj.refs, y ∈ c.obj.refs)
    (hscopes : ∀ {g s'}, h'.scopeAt g = some s' → s'.isSealed = true →
      ∃ s, h.scopeAt g = some s ∧ s.isSealed = true ∧ s'.members = s.members) : Graded h' P := by
  obtain ⟨rank, hl⟩ := hl
  refine ⟨rank, fun hx hP hy => ?_, fun hg hsealed hm hm' => ?_, hl.bounded⟩
  · obtain ⟨c, hc, hsub⟩ := hobjs hx hP
    exact hl.below hc hP (hsub _ hy)
  · obtain ⟨s, hg₀, hs, e⟩ := hscopes hg hsealed
    exact hl.level hg₀ hs (e ▸ hm) (e ▸ hm')

theorem Graded.onward (hl : Graded h P) (ho : Onward h h') : Graded h' P := by
  refine hl.of_back (fun hx _ => ?_) fun hg hsealed => ?_
  · obtain ⟨c, hc, e⟩ := ho.objs hx
    exact ⟨c, hc, fun y hy => e ▸ hy⟩
  · obtain ⟨s, hg₀, -, hm, hs⟩ := ho.used hg
    exact ⟨s, hg₀, hs ▸ hsealed, hm⟩

/-- Objects without references need not be set apart. -/
theorem Graded.shrink (hl : Graded h P) (hsub : Q ⊆ P)
    (hrefs : ∀ {x c}, x ∈ P → x ∉ Q → h.slot? x = some c → c.obj.refs = 0) : Graded h Q := by
  obtain ⟨rank, hl⟩ := hl
  refine ⟨rank, fun {x c y} hx hQ hy => ?_, hl.level, hl.bounded⟩
  by_cases hP : x ∈ P
  · rw [hrefs hP hQ hx] at hy
    cases Multiset.notMem_zero y hy
  · obtain ⟨hyP, hlt⟩ := hl.below hx hP hy
    exact ⟨fun hyQ => hyP (hsub hyQ), hlt⟩

/-! ## New objects -/

/-- The objects in `T` are lifted above all others. -/
theorem Ranked.lift {T : Set ObjId} (hl : Ranked h P rank)
    (hobjs : ∀ {x c' y}, h'.slot? x = some c' → x ∉ Q → y ∈ c'.obj.refs → y ∉ Q ∧ y ∉ T ∧
      (x ∉ T → ∃ c, h.slot? x = some c ∧ x ∉ P ∧ y ∈ c.obj.refs))
    (hscopes : ∀ {g s'}, h'.scopeAt g = some s' → s'.isSealed = true → (∀ m ∈ s'.members, m ∈ T) ∨
      (∀ m ∈ s'.members, m ∉ T) ∧ ∃ s, h.scopeAt g = some s ∧ s.isSealed = true ∧
        s'.members = s.members) : Graded h' Q := by
  classical
  obtain ⟨n, hn⟩ := hl.bounded
  refine ⟨fun x => if x ∈ T then n + 1 else rank x, fun {x c' y} hx hQ hy => ?_,
    fun {g s' m m'} hg hsealed hm hm' => ?_, n + 1, fun x => ?_⟩
  · obtain ⟨hyQ, hyT, hback⟩ := hobjs hx hQ hy
    refine ⟨hyQ, ?_⟩
    rw [if_neg hyT]
    split_ifs with hxT
    · exact Nat.lt_succ_of_le (hn y)
    · obtain ⟨c, hc, hP, hyc⟩ := hback hxT
      exact (hl.below hc hP hyc).2
  · rcases hscopes hg hsealed with hin | ⟨hout, s, hg₀, hs, e⟩
    · simp only [hin m hm, hin m' hm', if_true]
    · simp only [hout m hm, hout m' hm', if_false]
      exact hl.level hg₀ hs (e ▸ hm) (e ▸ hm')
  · split_ifs
    · exact le_rfl
    · exact (hn x).trans (Nat.le_succ n)

/-- **A new object** that refers to nothing that is set apart. -/
theorem Graded.gains {o : Object} (hl : Graded h P) (hs : Sound h (o.refs + R) [])
    (hg : Gains h h' r o) (ho : ∀ y ∈ o.refs, y ∉ P) : Graded h' P := by
  obtain ⟨rank, hl⟩ := hl
  have hlive : ∀ {y}, y ∈ o.refs ∨ y ∈ h.held → y ≠ r := by
    rintro y hy rfl
    obtain ⟨c, hc⟩ := hs.counted.live y (by
      rw [add_assoc, Multiset.mem_add, Multiset.mem_add]
      tauto)
    rw [hg.free] at hc
    cases hc
  refine hl.lift (T := {r}) (fun {x c' y} hx hP hy => ?_) fun {g s'} hg' hsealed => Or.inr ?_
  · rw [hg.slot] at hx
    split_ifs at hx with e
    · cases hx
      exact ⟨ho y hy, hlive (Or.inl hy), fun hxT => absurd e hxT⟩
    · exact ⟨(hl.below hx hP hy).1, hlive (Or.inr (mem_held_of_refs hx hy)), fun _ => ⟨c', hx, hP, hy⟩⟩
  · rw [scopeAt_congr hg.scopes] at hg'
    refine ⟨fun m hm => ?_, s', hg', hsealed, rfl⟩
    rintro rfl
    obtain ⟨rc, k, hr, -⟩ := hs.grouped.member hg' hm
    rw [hg.free] at hr
    cases hr

/-- A new object is set apart: nothing refers to it. -/
theorem Graded.gains_apart {o : Object} (hl : Graded h P) (hs : Sound h R []) (hg : Gains h h' r o) :
    Graded h' (insert r P) := by
  obtain ⟨rank, hl⟩ := hl
  refine ⟨rank, fun {x c y} hx hP hy => ?_, fun hg' => hl.level (scopeAt_congr hg.scopes _ ▸ hg'), hl.bounded⟩
  rw [hg.slot, if_neg fun e => hP (Or.inl e)] at hx
  obtain ⟨hyP, hlt⟩ := hl.below hx (fun hxP => hP (Or.inr hxP)) hy
  refine ⟨?_, hlt⟩
  rintro (rfl | hyP')
  · obtain ⟨c, hc⟩ := hs.counted.live y (Multiset.mem_add.mpr (Or.inr (mem_held_of_refs hx hy)))
    rw [hg.free] at hc
    cases hc
  · exact hyP hyP'

/-- **An object that was set apart is complete**: it refers to nothing that is set apart. -/
theorem Graded.complete {c' : Slot} (hl : Graded h P) (hr : h.slot? r = some c) (hP : r ∈ P)
    (hout : ∀ {g s}, h.scopeAt g = some s → r ∉ s.members) (hrefs : ∀ y ∈ c'.obj.refs, y ∉ P) :
    Graded (h.setSlot r (some c')) (P \ {r}) := by
  obtain ⟨rank, hl⟩ := hl
  refine hl.lift (T := {r}) (fun {x c₁ y} hx hQ hy => ?_) fun {g s'} hg hsealed => Or.inr ?_
  · rw [slot?_setSlot_of hr] at hx
    have hyP : y ∉ P → y ∉ P \ {r} ∧ y ∉ ({r} : Set ObjId) := fun hyP =>
      ⟨fun hy' => hyP hy'.1, fun e => hyP (e ▸ hP)⟩
    split_ifs at hx with e
    · cases hx
      obtain ⟨h1, h2⟩ := hyP (hrefs y hy)
      exact ⟨h1, h2, fun hxT => absurd e hxT⟩
    · have hxP : x ∉ P := fun hxP => hQ ⟨hxP, e⟩
      obtain ⟨h1, h2⟩ := hyP (hl.below hx hxP hy).1
      exact ⟨h1, h2, fun _ => ⟨c₁, hx, hxP, hy⟩⟩
  · exact ⟨fun m hm e => hout hg (e ▸ hm), s', hg, hsealed, rfl⟩

/-! ## Sealing -/

/-- What marking captures as weak makes of an object. -/
def weakened (ms : List ObjId) : Object → Object
  | .closure k => .closure { k with weak := k.caps.map (isMember ms) }
  | o => o

theorem weakened_weakened (ms : List ObjId) (o : Object) :
    weakened ms (weakened ms o) = weakened ms o := by
  cases o <;> rfl

theorem weaken_back {ms : List ObjId} {m : ObjId} (e : weaken ms h m = .ok h') {x : ObjId} {c' : Slot}
    (hx : h'.slot? x = some c') : ∃ c, h.slot? x = some c ∧
      c'.obj = if x = m then weakened ms c.obj else c.obj := by
  obtain ⟨o, ho, e⟩ := bind_ok e
  obtain ⟨c, hr, rfl⟩ := get_cases ho
  cases hc : c.obj with
  | closure k =>
    rw [hc] at e
    obtain ⟨h₁, e₁, e⟩ := bind_ok e
    have hsame := sameObjs_foldlM_release _ e₁
    obtain ⟨c₁, hr₁⟩ : ∃ c₁, h₁.slot? m = some c₁ := by
      obtain ⟨c₁, hr₁, -⟩ := Option.map_eq_some_iff.mp ((hsame m).trans (congrArg _ hr))
      exact ⟨c₁, hr₁⟩
    rw [put_eq hr₁] at e
    obtain rfl := Except.ok.inj e
    rw [slot?_setSlot_of hr₁] at hx
    split_ifs at hx with ex
    · cases hx
      exact ⟨c, ex ▸ hr, by rw [if_pos ex, hc]; rfl⟩
    · obtain ⟨rc, hx'⟩ := hsame.back (show h₁.slot? x = some ⟨c'.rc, c'.obj⟩ from hx)
      exact ⟨_, hx', by rw [if_neg ex]⟩
  | _ =>
    rw [hc] at e
    cases e

theorem weakenAll_back {ms : List ObjId} : ∀ {todo : List ObjId} {h : Heap},
    todo.foldlM (weaken ms) h = .ok h' → ∀ {x c'}, h'.slot? x = some c' → ∃ c, h.slot? x = some c ∧
      c'.obj = if x ∈ todo then weakened ms c.obj else c.obj
  | [], h, e, x, c', hx => by
    obtain rfl : h = h' := Except.ok.inj e
    exact ⟨c', hx, by simp⟩
  | m :: todo, h, e, x, c', hx => by
    rw [List.foldlM_cons] at e
    obtain ⟨h₁, e₁, e⟩ := bind_ok e
    obtain ⟨c₁, hx₁, ho₁⟩ := weakenAll_back e hx
    obtain ⟨c, hx₀, ho⟩ := weaken_back e₁ hx₁
    refine ⟨c, hx₀, ?_⟩
    rw [ho₁, ho]
    by_cases hm : x = m <;> by_cases ht : x ∈ todo <;> simp [hm, ht, weakened_weakened]

/-- A member that has been marked refers to no other member. -/
theorem notMem_of_weakened {ms : List ObjId} {k : Closure} {y : ObjId}
    (hy : y ∈ (weakened ms (.closure k)).refs) : y ∉ ms := by
  intro hm
  have e : (weakened ms (.closure k)).owned = k.caps.filter fun v => !isMember ms v :=
    ownedCaps_of_weakExactly (weakExactly_map k ms)
  rw [Object.refs, e, refsOf, Multiset.mem_coe, List.mem_filterMap] at hy
  obtain ⟨v, hv, hvy⟩ := hy
  have hnot := (List.mem_filter.mp hv).2
  cases v with
  | obj z =>
    obtain rfl : z = y := Option.some.inj hvy
    simp [isMember, hm] at hnot
  | _ => cases hvy

/-- **Sealing a scope** whose members were set apart. -/
theorem Graded.sealScope (hs : Steady h []) (hg : h.scopeAt g = some s)
    (hl : Graded h {m | m ∈ s.members}) (e : h.sealScope g = .ok h') : Graded h' ∅ := by
  obtain ⟨s₀, h₁, s', d, hsc, e₁, hsc₁, hcl, hcases⟩ := hs.sealScope_cases e
  obtain rfl : s = s₀ := Option.some.inj (hg.symm.trans (scopeAt_of_scope hsc))
  have hg₁ := scopeAt_of_scope hsc₁
  obtain ⟨hk, -⟩ := keeps_foldlM (f := weaken s.members) (fun _ _ _ _ e => keeps_weaken e) e₁
  obtain ⟨hopen, hm, hsealed, hz⟩ := close_cases hcl
  obtain ⟨-, -, hne⟩ := close_full hcl
  have hat := scopeAt_setScope hg₁ (some s')
  have hl₂ : Graded (h₁.setScope g (some s')) ∅ := by
    obtain ⟨rank, hl⟩ := hl
    refine hl.lift (T := {m | m ∈ s.members}) (fun {x c' y} hx _ hy => ⟨fun h => h, ?_⟩)
      fun {g' t} hg' ht => ?_
    · obtain ⟨c, hc, ho⟩ := weakenAll_back e₁ hx
      split_ifs at ho with hxm
      · obtain ⟨rc, k, hr, -⟩ := hs.grouped.member hg hxm
        cases hc.symm.trans hr
        rw [ho] at hy
        exact ⟨notMem_of_weakened hy, fun hn => absurd hxm hn⟩
      · rw [ho] at hy
        exact ⟨(hl.below hc hxm hy).1, fun _ => ⟨c, hc, hxm, hy⟩⟩
    · rw [hat] at hg'
      split_ifs at hg' with eg
      · cases hg'
        exact Or.inl fun m hmem => hm ▸ hmem
      · rw [scopeAt_congr hk.scopes] at hg'
        refine Or.inr ⟨fun m hmem hin => eg ?_, t, hg', ht, rfl⟩
        -- nothing is in two scopes
        obtain ⟨rc, k, hr, hk₁⟩ := hs.grouped.member hg' hmem
        obtain ⟨rc', k', hr', hk₂⟩ := hs.grouped.member hg hin
        cases hr.symm.trans hr'
        exact Option.some.inj (hk₁.symm.trans hk₂)
  rcases hcases with ⟨rfl, rfl, -⟩ | ⟨rfl, h₂, work, e₂, hbl, e₃⟩
  · exact hl₂
  · have hgr₁ : Grouped h₁ [] := hs.grouped.keeps hk
    have ha₁ : Arena h₁ := hs.arena.keeps hk
    refine (hl₂.onward (onward_dismantle (s := s') (hgr₁.rescope hg₁ hm) ⟨ha₁.nodup, ha₁.empty⟩
      (by rw [hat, if_pos rfl]) hsealed (hm ▸ hne rfl) (fun m hmem => ?_) e₂)).onward (hbl.onward_each e₃)
    exact hz rfl m (hm ▸ hmem)

/-! ## Nothing is left -/

/-- What is referenced is referenced from outside, or from an object of a higher rank. -/
theorem Ranked.holder (hl : Ranked h ∅ rank) (hs : Sound h R []) (hr : h.slot? r = some c) (hpos : 0 < c.rc) :
    r ∈ R ∨ ∃ y cy, h.slot? y = some cy ∧ r ∈ cy.obj.refs ∧ rank r < rank y := by
  rw [hs.counted.exact hr, Multiset.count_pos, Multiset.mem_add] at hpos
  refine hpos.imp_right fun hm => ?_
  obtain ⟨y, cy, hy, hmem⟩ := exists_holder hm
  exact ⟨y, cy, hy, hmem, (hl.below hy (Set.notMem_empty y) hmem).2⟩

/-- **Nothing is left over:** if those who hold references from outside hold objects without references that
are in no scope, there are no other objects. -/
theorem Graded.held (hl : Graded h ∅) (hs : Sound h R []) (hsw : Swept h []) {n : Nat} (hb : Books h [] n)
    (hplain : ∀ {x c}, x ∈ R → h.slot? x = some c → c.obj.refs = 0 ∧ c.obj.scope? = none) :
    ∀ {x c}, h.slot? x = some c → x ∈ R := by
  obtain ⟨rank, hl⟩ := hl
  obtain ⟨b, hbound⟩ := hl.bounded
  -- from the objects of the highest rank downwards
  suffices hall : ∀ d {x c}, b - rank x ≤ d → h.slot? x = some c → x ∈ R from
    fun {x c} hx => hall (b - rank x) le_rfl hx
  intro d
  induction d using Nat.strong_induction_on with
  | _ d ih =>
    intro x c hd hx
    have hholder : ∀ {m cm}, h.slot? m = some cm → 0 < cm.rc → rank m = rank x → m ∈ R := by
      intro m cm hm hpos hrank
      refine (hl.holder hs hm hpos).resolve_right fun ⟨y, cy, hy, hmem, hlt⟩ => ?_
      have hby := hbound y
      have hyR := ih (b - rank y) (by omega) le_rfl hy
      rw [(hplain hyR hy).1] at hmem
      cases Multiset.notMem_zero m hmem
    rcases Nat.eq_zero_or_pos c.rc with h0 | hpos
    · -- a member of a scope: another member is referenced, and is of the same rank
      cases hsc : c.obj.scope? with
      | none => exact absurd (hsw.stray hx h0 hsc) (by simp)
      | some g =>
        obtain ⟨s, hg, hmem⟩ := hs.grouped.mem_of_scope? hx hsc
        have hsealed : s.isSealed = true := by
          by_contra hn
          exact absurd (hb.filling hg (by simpa using hn)) (by simp)
        have hrc := hsw.awake hg hsealed (List.ne_nil_of_mem hmem)
        have hwithin := hsw.within hg hsealed
        rw [expected_nil] at hwithin
        obtain ⟨m, hm, hmpos⟩ : ∃ m ∈ s.members, 0 < h.rcOrZero m := by
          by_contra hnone
          have hzero := (referenced_eq_zero_iff s h.rcOrZero).mpr fun m hm => by
            by_contra h0
            exact hnone ⟨m, hm, Nat.pos_of_ne_zero h0⟩
          omega
        obtain ⟨cm, hcm⟩ := hs.grouped.live hg m hm
        have hmR := hholder hcm (by simpa [rcOrZero, hcm] using hmpos) (hl.level hg hsealed hm hmem)
        have hnone := (hplain hmR hcm).2
        rw [hs.grouped.scope?_of_mem hg hm hcm] at hnone
        cases hnone
    · exact hholder hx hpos rfl

end CountedMachine.Heap
