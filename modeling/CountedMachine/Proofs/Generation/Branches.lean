import CountedMachine.Proofs.Generation.Steps

/-! # Branches

A branch is written before it is known where its second arm begins, and the jump at the end of its
first arm before it is known where the arms meet; both get their labels later (`Drawn.retarget`). In
between the code is no block. When the arms have met it is one. -/

namespace CountedMachine

namespace Listing

variable {l : Listing} {regs regs' : Array RegFacts} {xs ys : Code} {a : NodeId} {i : Instr NodeId}

theorem Good.relabel (h : Good regs i) (f : NodeId → NodeId) : Good regs (i.relabel f) where
  known hr := h.known (by simpa using hr)
  test {c no} e := by
    cases i
    case branch c' no' =>
      cases e
      exact h.test rfl
    all_goals cases e
  merged {r} hr hrole := by
    rw [Instr.creates_relabel] at hr
    rcases h.merged hr hrole with rfl | rfl
    · exact Or.inl rfl
    · exact Or.inr rfl
  owner {r} hr ho := h.owner (by simpa using hr) (by cases i <;> first | rfl | cases ho)

theorem owners_relabel (f : NodeId → NodeId) :
    owners regs (xs ++ (a, i.relabel f) :: ys) = owners regs (xs ++ (a, i) :: ys) := by
  simp [owners, List.filterMap_cons]

theorem Writes.relabel (h : Writes regs regs' (xs ++ (a, i) :: ys)) (f : NodeId → NodeId) :
    Writes regs regs' (xs ++ (a, i.relabel f) :: ys) := by
  refine ⟨h.grows, fun p hp => ?_, ?_, ?_⟩
  · rcases List.mem_append.mp hp with hp | hp
    · exact h.good p (List.mem_append_left _ hp)
    · rcases List.mem_cons.mp hp with rfl | hp
      · exact (h.good (a, i) (by simp)).relabel f
      · exact h.good p (by simp [hp])
  · rw [owners_relabel]
    exact h.fresh
  · rw [owners_relabel]
    exact h.nodup

end Listing

open Listing

namespace Gen

variable {α : Type} {σ : Site} {s s₀ s₁ s₂ : GenState} {body xs ys : Code} {a b j : NodeId}
  {i : Instr NodeId} {flag r m y z : Reg} {x : NodeId} {br : Branch} {P P₁ P₂ : Point} {t : Block}
  {f : RegFacts}

/-- **Letting a node of the code drawn so far lead to a label.** -/
theorem Drawn.retarget (h : Drawn σ s body s₁ (xs ++ (a, i) :: ys) P₁) (label : NodeId) :
    Runs (Gen.retarget a label) (Gen.retarget a label) s₁ fun _ s₂ =>
      Drawn σ s body s₂ (xs ++ (a, i.relabel fun _ => label) :: ys) P₁ ∧ Recoded s₁ s₂ := by
  have hlinked : Linked s₁.draft.listing (body ++ xs ++ (a, i) :: (ys ++ [(tail, Instr.done)])) := by
    simpa using h.fine.linked
  obtain ⟨l, hput, hl, hcursor, hregs⟩ := hlinked.put (i.relabel fun _ => label)
  have hget : s₁.draft.listing.get a = .ok i := hlinked.get_eq (by simp)
  have hrun : (Gen.retarget a label).run s₁ = .ok ((), s₁.withListing l) := by
    unfold Gen.retarget
    rw [run_bind_of_eq (draft_run s₁)]
    dsimp only
    rw [hget]
    show StateT.run (faulting (s₁.draft.listing.put a (i.relabel fun _ => label)) >>= setListing) s₁ = _
    rw [hput]
    rfl
  have hw : Writes s.regs l.regs (xs ++ (a, i.relabel fun _ => label) :: ys) := by
    rw [hregs]
    exact h.writes.relabel _
  have hsame := recoded_withListing s₁ hregs
  have hflags : ∀ {r : Reg} {f : RegFacts}, l.regs[r.index]? = some f → f.role = .flag →
      f.type = some .bool := by
    rw [hregs]
    exact h.fine.flags
  exact .of_eq hrun ⟨h.withListing (by simpa using hl) (hcursor.trans h.fine.cursor) hsame.later hw
    hflags, hsame⟩

/-- An instruction that neither reads nor creates can be written anywhere. -/
theorem Drawn.writeIdle (h : Drawn σ s body s₁ xs P₁) (hl : ∀ c no, i ≠ .branch c no)
    (hcr : i.creates = none) (hin : i.inputs = []) :
    Runs (Gen.writeNode i) (Gen.writeNode i) s₁ fun id s₂ =>
      Drawn σ s body s₂ (xs ++ [(id, i)]) P₁ ∧ Recoded s₁ s₂ := by
  have hgood : Good s₁.regs i := by
    refine ⟨fun hr => ?_, fun e => absurd e (hl _ _), by simp [hcr], by simp [hcr]⟩
    simp [hcr, Instr.reads, hin] at hr
  exact h.writeNode hgood (by simp [hcr])

/-- A register that holds a truth value. -/
structure IsFlag (s : GenState) (P : Point) (r : Reg) : Prop where
  mem : r ∈ P.regs
  facts : s.regs[r.index]? = some ⟨.flag, some .bool⟩

theorem IsFlag.later (h : IsFlag s P r) (hf : Fine σ s body P) (hl : s.Later s₁) (hle : P ≤ P₁) :
    IsFlag s₁ P₁ r :=
  ⟨hle.1 h.mem, (hl.facts (hf.lt h.mem)).trans h.facts⟩

theorem IsFlag.role (h : IsFlag s P r) : roleOf s.regs r = some .flag := by
  rw [roleOf, h.facts]
  rfl

theorem IsFlag.bool {w : World} {ρ : Env} (h : IsFlag s P r) (hρ : P.At w s ρ) :
    ∃ v, ρ.regs r = .val (.bool v) := by
  obtain ⟨κ, hκ⟩ := hρ.holds r h.mem
  obtain ⟨v, rfl⟩ := Kind.eq_bool_of_type (hκ.recorded h.facts rfl)
  exact ⟨v, hκ.value⟩

/-- A branch on a flag can be carried out. -/
theorem IsFlag.safe {w : World} {ρ : Env} (h : IsFlag s P r) (hρ : P.At w s ρ) (n : NodeId) :
    w.Safe ρ (.branch r n : Instr NodeId) :=
  ⟨hρ.noted, hρ.reads (by simpa [Instr.inputs] using h.mem), h.bool hρ, hρ.unheld, hρ.shields _⟩

/-- **Opening a branch.** -/
theorem Drawn.openBranch (h : Drawn σ s body s₁ xs P₁) (hflag : flag.index < s₁.regs.size)
    (hrole : roleOf s₁.regs flag = some .flag) :
    Runs (Gen.openBranch flag) (Gen.openBranch flag) s₁ fun br s₂ =>
      Drawn σ s body s₂ (xs ++ [(br.node, Instr.branch flag head)]) P₁ ∧ Recoded s₁ s₂ := by
  have hgood : Good s₁.regs (.branch flag head) := by
    refine ⟨fun {r} hr => ?_, fun e => ?_, fun hr => ?_, by simp [Instr.creates]⟩
    · have : r = flag := by simpa [Instr.creates, Instr.reads, Instr.inputs] using hr
      rw [this]
      exact hflag
    · cases e
      exact hrole
    · cases hr
  exact Runs.bind (h.writeNode hgood fun r hr => by cases hr) fun _ _ hd => runs_pure hd

/-- **Closing the first arm of a branch.** -/
theorem Drawn.beginElse (h : Drawn σ s body s₁ (xs ++ (br.node, Instr.branch flag x) :: ys) P₁) :
    Runs (Gen.beginElse br) (Gen.beginElse br) s₁ fun br' s₂ =>
      ∃ j label, br'.jump = some j ∧ Drawn σ s body s₂
        (xs ++ (br.node, Instr.branch flag label) :: (ys ++ [(j, Instr.jump head), (label, Instr.nop)])) P₁ ∧
        Recoded s₁ s₂ := by
  refine Runs.bind (h.writeIdle (by simp) rfl rfl) fun j s₂ hd₂ => ?_
  obtain ⟨hd₂, hs₂⟩ := hd₂
  refine Runs.bind (hd₂.writeIdle (by simp) rfl rfl) fun label s₃ hd₃ => ?_
  obtain ⟨hd₃, hs₃⟩ := hd₃
  simp only [List.append_assoc, List.cons_append, List.nil_append] at hd₃
  refine Runs.bind (hd₃.retarget label) fun _ s₄ hd₄ => ?_
  obtain ⟨hd₄, hs₄⟩ := hd₄
  exact runs_pure ⟨j, label, rfl, hd₄, (hs₂.trans hs₃).trans hs₄⟩

/-- The instruction where two arms meet. -/
def joint (merged : Option Reg) : Instr NodeId :=
  match merged with
  | some dst => .merge dst
  | none => .nop

/-- **The place where both arms meet.** -/
theorem Drawn.meet (h : Drawn σ s body s₁ (xs ++ (j, Instr.jump x) :: ys) P₁)
    (hj : br.jump = some j) {o : Option Reg}
    (hm : ∀ m ∈ o, Held s s₁ (xs ++ (j, Instr.jump x) :: ys) ⟨.merged, none⟩ m) :
    Runs (Gen.meet br o) (Gen.meet br o) s₁ fun _ s₂ =>
      ∃ label, Drawn σ s body s₂
        (xs ++ (j, Instr.jump label) :: (ys ++ [(label, joint o)])) P₁ ∧ Recoded s₁ s₂ := by
  have hwrite : Runs (Gen.writeNode (joint o)) (Gen.writeNode (joint o)) s₁ fun id s₂ =>
      Drawn σ s body s₂ (xs ++ (j, Instr.jump x) :: ys ++ [(id, joint o)]) P₁ ∧
        Recoded s₁ s₂ := by
    cases o with
    | none => exact h.writeIdle (i := .nop) (by simp) rfl rfl
    | some m =>
      have hm := hm m rfl
      have hgood : Good s₁.regs (.merge m) :=
        good_of_creates rfl rfl (by simp [Instr.inputs]) hm.role_eq (fun _ => Or.inl rfl) fun _ => rfl
      refine h.writeNode hgood fun r hr _ => ?_
      rw [← Option.some.inj hr]
      exact ⟨hm.new, hm.unmade⟩
  refine Runs.bind hwrite fun label s₂ hd₂ => ?_
  obtain ⟨hd₂, hs₂⟩ := hd₂
  simp only [List.append_assoc, List.cons_append] at hd₂
  rw [hj]
  refine (hd₂.retarget label).mono fun _ s₃ hd₃ => ?_
  obtain ⟨hd₃, hs₃⟩ := hd₃
  exact ⟨label, hd₃, hs₂.trans hs₃⟩

/-! ## Types of merged values -/

/-- **The arms agree**: where a type is given to the merge register, the values of both arms are of
that type, and nothing else changes. -/
structure Agreed (s s' : GenState) (m y z : Reg) : Prop where
  stack : s'.draft.stack = s.draft.stack
  known : s'.draft.known = s.draft.known
  functions : s'.functions = s.functions
  pool : s'.pool = s.pool
  units : s'.units = s.units
  size : s'.regs.size = s.regs.size
  other : ∀ {q : Reg}, q ≠ m → s'.regs[q.index]? = s.regs[q.index]? ∧
    s'.draft.narrowed[q]? = s.draft.narrowed[q]?
  role : ∃ type, s'.regs[m.index]? = some ⟨.merged, type⟩
  tells : ∀ {t}, s'.Tells m t → s.Tells y t ∧ s.Tells z t

theorem Agreed.typeOf? (h : Agreed s s₁ m y z) (hr : r ≠ m) : s₁.typeOf? r = s.typeOf? r := by
  rw [GenState.typeOf?, GenState.typeOf?, (h.other hr).1, (h.other hr).2]

/-- The type of a register that is new is nothing that was there before. -/
theorem Agreed.later (ha : Agreed s₁ s₂ m y z) (hl : s.Later s₁) (hm : s.regs.size ≤ m.index) :
    s.Later s₂ := by
  have hne : ∀ {q : Reg}, q.index < s.regs.size → q ≠ m := by
    rintro q hq rfl
    omega
  refine ⟨hl.size.trans_eq ha.size.symm, fun hr => ?_, fun hr => ?_, fun hr => ?_, fun hk => ?_,
    fun hk => ?_, fun hk => ?_⟩
  · rw [(ha.other (hne hr)).1]
    exact hl.facts hr
  · rw [(ha.other (hne hr)).2]
    exact hl.narrowed hr
  · rw [ha.known]
    exact hl.known hr
  · rw [ha.functions]
    exact hl.functions hk
  · rw [ha.pool]
    exact hl.pool hk
  · rw [ha.units]
    exact hl.units hk

/-- What was drawn after the register was made is seen by the same worlds. -/
theorem Agreed.admits {w : World} (ha : Agreed s₁ s₂ m y z) (hw : σ.Admits w s s₂)
    (hs : s.regs.size ≤ s₀.regs.size) (hm : m.index < s₀.regs.size) : σ.Admits w s₀ s₁ where
  within := ⟨fun hk => hw.within.pool (ha.pool ▸ hk), fun hk => hw.within.units (ha.units ▸ hk)⟩
  ctx := hw.ctx
  caps := hw.caps
  keeps {r} hr hr' := by
    have hne : r ≠ m := by
      rintro rfl
      omega
    have hk := hw.keeps (hs.trans hr) (ha.size ▸ hr')
    exact ⟨hk.facts.trans (ha.other hne).1, hk.narrowed.trans (ha.other hne).2, ha.known ▸ hk.known,
      fun hf => hk.functions (ha.functions ▸ hf)⟩
  ok := hw.ok

/-- To a register that is new the arms may give a type later. -/
theorem Drawn.agreed (h : Drawn σ s body s₁ ys P₁) (hm : New s s₁ ⟨.merged, none⟩ m)
    (ha : Agreed s₁ s₂ m y z) (hl : Alike s₁.draft.listing s₂.draft.listing)
    (hi : s₂.draft.inlined = s₁.draft.inlined) : Drawn σ s body s₂ ys P₁ := by
  have hsize := ha.size
  obtain ⟨type, hrole⟩ := ha.role
  have hgrows : Grows s₁.regs s₂.regs := by
    refine ⟨le_of_eq hsize.symm, fun {q} hq => ?_⟩
    by_cases e : q = m
    · rw [e, hm.role_eq, roleOf, hrole]
      rfl
    · rw [roleOf, roleOf, (ha.other e).1]
  refine ⟨⟨h.fine.linked.alike hl, hl.cursor.trans h.fine.cursor, fun {q f} hq hf => ?_,
    ⟨fun r hr => by rw [hsize]; exact h.fine.made.regs r hr,
      fun p hp => by rw [hsize]; exact h.fine.made.sure p hp⟩, fun v hv => ?_, fun hk => ?_,
    fun {q t} hq => ?_, hi.trans h.fine.inlined, fun hk p hp => ?_⟩, ?_, ?_⟩
  · by_cases e : q = m
    · rw [e, hrole] at hq
      rw [← Option.some.inj hq] at hf
      cases hf
    · exact h.fine.flags ((ha.other e).1 ▸ hq) hf
  · rw [ha.stack] at hv
    obtain ⟨hreg, hcell⟩ := h.fine.stack v hv
    refine ⟨hreg, fun hmut => ?_⟩
    have hne : v.reg ≠ m := by
      intro e
      rw [e, hm.typeOf?] at hcell
      cases hcell hmut
    rw [ha.typeOf? hne]
    exact hcell hmut
  · rw [ha.known] at hk
    rw [hsize, ha.functions]
    exact h.fine.known hk
  · rw [hsize]
    by_cases e : q = m
    · rw [e]
      exact hm.lt
    · exact h.fine.narrowed ((ha.other e).2 ▸ hq)
  · rw [ha.pool] at hk
    refine h.fine.plain hk p ⟨fun hk => hp.pool (ha.pool ▸ hk), fun hk => hp.units (ha.units ▸ hk)⟩
  · simpa using h.writes.trans (.nil hgrows)
  · exact ha.later h.later hm.new

theorem Drawn.agree (h : Drawn σ s body s₁ ys P₁) (hm : New s s₁ ⟨.merged, none⟩ m)
    (hy : y.index < s₁.regs.size) (hz : z.index < s₁.regs.size) :
    Runs (Gen.agree m y z) (Gen.agree m y z) s₁ fun _ s₂ =>
      Drawn σ s body s₂ ys P₁ ∧ Agreed s₁ s₂ m y z := by
  obtain ⟨fy, hfy⟩ : ∃ f, s₁.regs[y.index]? = some f := ⟨_, Array.getElem?_eq_getElem hy⟩
  obtain ⟨fz, hfz⟩ : ∃ f, s₁.regs[z.index]? = some f := ⟨_, Array.getElem?_eq_getElem hz⟩
  have hnone : ∀ {t}, ¬ s₁.Tells m t := by
    rintro t (ht | ⟨f, hf, ht⟩)
    · rw [hm.typeOf?] at ht
      cases ht
    · rw [hm.facts] at hf
      rw [← Option.some.inj hf] at ht
      cases ht
  have hself : Drawn σ s body s₁ ys P₁ ∧ Agreed s₁ s₁ m y z :=
    ⟨h, rfl, rfl, rfl, rfl, rfl, rfl, fun _ => ⟨rfl, rfl⟩, ⟨none, hm.facts⟩,
      fun ht => absurd ht hnone⟩
  unfold Gen.agree
  refine Runs.read (draft_run s₁) (Runs.read (typeOf_run hfy) (Runs.read (typeOf_run hfz) ?_))
  split_ifs with heq
  · simp only [Bool.and_eq_true, Option.isSome_iff_exists, decide_eq_true_eq] at heq
    obtain ⟨⟨t, ht⟩, hyz⟩ := heq
    obtain ⟨l, hl, halike, hsize, hfacts⟩ := recordType_eq hm.facts fy.type
    have hrun : (faulting (s₁.draft.listing.recordType m fy.type)).run s₁ = .ok (l, s₁) := by
      rw [hl]
      rfl
    refine Runs.read hrun ?_
    have ha : Agreed s₁ (s₁.withListing l) m y z := by
      refine ⟨rfl, rfl, rfl, rfl, rfl, hsize, fun hq => ⟨?_, rfl⟩, ⟨fy.type, ?_⟩, fun {u} hu => ?_⟩
      · exact (hfacts _).trans (if_neg hq)
      · exact (hfacts m).trans (if_pos rfl)
      · have hm' : l.regs[m.index]? = some ⟨.merged, fy.type⟩ := (hfacts m).trans (if_pos rfl)
        have hu' : fy.type = some u := by
          rcases hu with hu | ⟨f, hf, hu⟩
          · rw [GenState.typeOf?] at hu
            have hn : (s₁.withListing l).draft.narrowed[m]? = none := hm.narrowed
            rw [hn, GenState.regs_withListing, hm'] at hu
            exact hu
          · rw [GenState.regs_withListing, hm'] at hf
            rw [← Option.some.inj hf] at hu
            exact hu
        exact ⟨Or.inr ⟨fy, hfy, hu'⟩, Or.inr ⟨fz, hfz, hyz ▸ hu'⟩⟩
    exact .of_eq rfl ⟨h.agreed hm ha halike rfl, ha⟩
  · refine Runs.read (knownType_run hy) (Runs.read (knownType_run hz) ?_)
    split
    · rename_i u v hu hv
      split_ifs with huv
      · subst huv
        have ha : Agreed s₁ (s₁.narrowing m u) m y z := by
          refine ⟨rfl, rfl, rfl, rfl, rfl, rfl, fun {q} hq => ⟨rfl, ?_⟩, ⟨none, hm.facts⟩,
            fun {u'} hu' => ?_⟩
          · show (s₁.draft.narrowed.insert m u)[q]? = _
            rw [Std.HashMap.getElem?_insert, if_neg (by simpa using Ne.symm hq)]
          · rcases hu' with hu' | ⟨f, hf, hu'⟩
            · rw [GenState.typeOf?_narrowing, if_pos rfl] at hu'
              exact ⟨Or.inl (hu.trans hu'), Or.inl (hv.trans hu')⟩
            · exact absurd (Or.inr ⟨f, hf, hu'⟩) hnone
        exact .of_eq rfl ⟨h.agreed hm ha ⟨rfl, rfl, rfl⟩ rfl, ha⟩
      · exact runs_pure hself
    · exact runs_pure hself

/-- What is certain of other registers stays so. -/
theorem at_agreed {w : World} {ρ : Env} (h : P.At w s₁ ρ) (ha : Agreed s₁ s₂ m y z)
    (hm : m ∉ P.regs) : P.At w s₂ ρ where
  live := h.live
  holds q hq := by
    have hne : q ≠ m := fun e => hm (e ▸ hq)
    obtain ⟨κ, hκ⟩ := h.holds q hq
    refine ⟨κ, hκ.value, hκ.whole, fun ht => hκ.type (ha.typeOf? hne ▸ ht),
      fun hf ht => hκ.recorded ((ha.other hne).1 ▸ hf) ht, fun hk => ?_⟩
    rw [ha.functions]
    exact hκ.known (ha.known ▸ hk)
  sure := h.sure
  fresh r hr := h.fresh r (ha.size ▸ hr)
  calm := h.calm
  pushed := h.pushed
  strict := h.strict

/-! ## Early returns and flags -/

theorem Fine.asFlag (h : Fine σ s body P) {c : Reg} (hc : c ∈ P.regs) :
    Emits σ (Gen.asFlag c) (Gen.asFlag c) s body P fun t s' P' => IsFlag s' P' t ∧
      s'.draft.stack = s.draft.stack := by
  unfold Gen.asFlag
  obtain ⟨⟨role, type⟩, hf⟩ : ∃ f, s.regs[c.index]? = some f :=
    ⟨_, Array.getElem?_eq_getElem (h.lt hc)⟩
  refine Runs.read (draft_run s) (Runs.read (factsOf_run hf) ?_)
  split_ifs with hflag
  · obtain rfl : role = .flag := hflag
    obtain rfl : type = some .bool := h.flags hf rfl
    exact h.pure ⟨⟨hc, hf⟩, rfl⟩
  · refine h.create (.test · c) ⟨fun _ => rfl, fun _ => rfl, fun _ => rfl,
      by simpa [Instr.inputs] using hc,
      by simp, fun _ => rfl, fun _ _ _ => trivial, id, fun _ _ hg => ?_⟩
      fun t s₁ ys P₁ hd _ ht hnew hstack => hd.fine.pure ⟨⟨ht, hnew.facts⟩, hstack⟩
    obtain ⟨v, rfl⟩ := hg
    exact ⟨by simp, fun t ht => Option.some.inj ht⟩

/-- **Closing a branch** whose second arm is empty. -/
theorem Drawn.closeBranch (h : Drawn σ s body s₁ (xs ++ (br.node, Instr.branch flag x) :: t.code) P₁)
    {o : Option Reg} (hm : ∀ m ∈ o,
      Held s s₁ (xs ++ (br.node, Instr.branch flag x) :: t.code) ⟨.merged, none⟩ m) :
    Runs (Gen.closeBranch br o) (Gen.closeBranch br o) s₁ fun _ s₂ =>
      ∃ n j k, Drawn σ s body s₂
        (xs ++ (Block.arms br.node flag n t j k .nil (joint o) .nil).code) P₁ ∧
        Recoded s₁ s₂ := by
  refine Runs.bind h.beginElse fun br' s₂ hd₂ => ?_
  obtain ⟨j, label, hj, hd₂, hs₂⟩ := hd₂
  have hsplit : xs ++ (br.node, Instr.branch flag label) ::
      (t.code ++ [(j, Instr.jump head), (label, Instr.nop)]) =
      (xs ++ (br.node, Instr.branch flag label) :: t.code) ++ (j, Instr.jump head) :: [(label, Instr.nop)] := by
    simp
  rw [hsplit] at hd₂
  have hm₂ : ∀ m ∈ o, Held s s₂ ((xs ++ (br.node, Instr.branch flag label) :: t.code) ++
      (j, Instr.jump head) :: [(label, Instr.nop)]) ⟨.merged, none⟩ m :=
    fun m hmem => (hm m hmem).congr hs₂ (by simp [owners, Instr.creates])
  refine (hd₂.meet hj hm₂).mono fun _ s₃ hd₃ => ?_
  obtain ⟨k, hd₃, hs₃⟩ := hd₃
  refine ⟨label, j, k, ?_, hs₂.trans hs₃⟩
  simpa [Block.code] using hd₃

/-! ## Early returns -/

/-- A value whose type is that of no error value is none. -/
theorem At.ne_undefined {ρ : Env} {t : StaticType} (hρ : P.At w s ρ) (hr : r ∈ P.regs)
    (ht : s.typeOf? r = some t) (hnever : t.neverUndefined = true) : ρ.regs r ≠ .val (.obj .undefined) := by
  intro hundef
  obtain ⟨κ, hκ⟩ := hρ.holds r hr
  have htype := hκ.type ht
  obtain rfl := Status.val.inj (hundef.symm.trans hκ.value)
  subst htype
  cases hnever

/-- **Where a flag says whether a value is an error**, and code that does not go on runs if it is: behind
that the value is none. -/
theorem IsFlag.does_returning {n k : NodeId} {u : Block} (hflag : IsFlag s₁ P₁ flag) (hmade : P₁.Made s₁)
    (hlater : s₁.Later s₂) (hu : ∀ ρ, P₁.At w s₁ ρ → u.Ok w ρ ∧ ∀ ρ', ¬ u.Run w ρ ρ') :
    (Block.arms a flag n u j k .nil .nop .nil).Does w (fun ρ => P₁.At w s₁ ρ ∧
      ∃ κ : Kind, ρ.regs r = .val κ ∧ ρ.regs flag = .val (.bool (κ = .obj .undefined)))
      fun ρ ρ' => (P₁.At w s₂ ρ' ∧ ρ' = ρ) ∧ ρ'.regs r ≠ .val (.obj .undefined) := by
  refine Block.does_arms (Q := fun ρ ρ₁ => ρ₁ = ρ ∧ ρ.regs flag = .val (.bool false))
    (fun ρ hρ => hflag.safe hρ.1 n) (fun ρ hρ => ?_) (Block.does_nil fun ρ hρ => ⟨rfl, hρ.2⟩) ?_
  · exact ⟨(hu ρ hρ.1.1).1, fun ρ' hrun => absurd hrun ((hu ρ hρ.1.1).2 ρ')⟩
  · rintro ρ ρ₁ ⟨hρ, κ, hκ, hfκ⟩ ⟨rfl, hfalse⟩
    refine ⟨⟨hρ.noted, by simp [Instr.inputs], trivial, hρ.unheld, hρ.shields _⟩, ?_⟩
    rintro ρ₂ rfl
    refine ⟨⟨hρ.later hmade hlater, rfl⟩, fun e => ?_⟩
    obtain rfl := Status.val.inj (hκ.symm.trans e)
    simp [hfκ] at hfalse

/-- **Returning a value that a test has found to be an error.** `t` is the test, `u` what has been written
since the branch on its outcome. -/
theorem Fine.returnTested (h : Fine σ s body P) (hr : r ∈ P.regs) {t u : Block} {b : Branch}
    (hd : Drawn σ s body s₁ t.code (P.add flag)) (hp : t.Proper) (hl : Leads σ s P t s₁ (P.add flag))
    (hgives : ∀ {w}, σ.Admits w s s₁ → t.Does w (P.At w s) fun ρ ρ' =>
      ∃ κ : Kind, ρ.regs r = .val κ ∧ ρ'.regs flag = .val (.bool (κ = .obj .undefined)))
    (hflag : IsFlag s₁ (P.add flag) flag) (hstack : s₁.draft.stack = s.draft.stack) (hs₂ : Recoded s₁ s₂)
    (hd₃ : Drawn σ s₁ (body ++ t.code) s₃ ([(b.node, Instr.branch flag head)] ++ u.code) (P.add flag))
    (hu : u.Proper) (hl₃ : Leads σ s₂ (P.add flag) u s₃ (P.add flag)) (hlater₃ : s₂.Later s₃)
    (hstack₃ : s₃.draft.stack = s₂.draft.stack) (htr : t.Spares r) (hur : u.Spares r) :
    Runs (Gen.write (.ret r) >>= fun _ => Gen.closeBranch b none)
      (Gen.write (.ret r) >>= fun _ => Gen.closeBranch b none) s₃ fun _ s' => ∃ t' P',
        Drawn σ s body s' t'.code P' ∧ t'.Proper ∧ Leads σ s P t' s' P' ∧ t'.Spares r ∧
        (∀ {w}, σ.Admits w s s' → t'.Does w (P.At w s) fun _ ρ' => ρ'.regs r ≠ .val (.obj .undefined)) ∧
        s'.draft.stack = s.draft.stack := by
  have hr₁ : r ∈ (P.add flag).regs := hl.le.1 hr
  have hplain : Plain σ s₃ (P.add flag) (.ret r) := ⟨rfl, rfl, by simp,
    by simpa [Instr.inputs] using hr₁, fun _ hρ => ⟨hρ.calm, hρ.pushed⟩⟩
  refine Runs.bind (hd₃.fine.writeEnd hplain rfl (by simp [World.Fires])) fun _ s₄ hd₄ => ?_
  obtain ⟨id, hd₄, hu', hl₄, hs₄⟩ := hd₄
  set u' : Block := .single id (.ret r) with hret
  have hd₄' : Drawn σ s₁ (body ++ t.code) s₄
      ([] ++ (b.node, Instr.branch flag head) :: (u.append u').code) (P.add flag).stop := by
    simpa using hd₃.trans hd₄
  refine (hd₄'.closeBranch (by simp)).mono fun _ s₅ hd₅ => ?_
  obtain ⟨n, j, k, hd₅, hs₅⟩ := hd₅
  have hlater : s₁.Later s₅ := hd₅.later
  set arms : Block := .arms b.node flag n (u.append u') j k .nil .nop .nil with harms
  have hyes := hl₃.trans hl₄ hlater₃ hd₄.later
  have hdoes : ∀ {w}, σ.Admits w s s₅ → (t.append arms).Does w (P.At w s) fun ρ ρ' =>
      ((P.add flag).At w s₅ ρ' ∧ Kept s ρ ρ') ∧ ρ'.regs r ≠ .val (.obj .undefined) := by
    intro w hw
    have hw₁ := hw.left hlater
    have hreturns : ∀ ρ, (P.add flag).At w s₁ ρ → (u.append u').Ok w ρ ∧ ∀ ρ', ¬ (u.append u').Run w ρ ρ' := by
      intro ρ hρ
      have hat : (P.add flag).At w s₂ ρ := hρ.later hd.fine.made hs₂.later
      obtain ⟨hok, hrun⟩ := hyes.does ((hw.left hs₅.later).right (hd.later.size.trans hs₂.later.size)) ρ hat
      exact ⟨hok, fun ρ' h' => (hrun ρ' h').1.live.elim⟩
    refine ((hl.does hw₁).and (hgives hw₁)).append (A := fun ρ => (P.add flag).At w s₁ ρ ∧
      ∃ κ : Kind, ρ.regs r = .val κ ∧ ρ.regs flag = .val (.bool (κ = .obj .undefined)))
      (hflag.does_returning hd.fine.made hlater hreturns) ?_ ?_
    · rintro ρ ρ₁ hρ ⟨⟨hat, hkept⟩, κ, hκ, hf⟩
      exact ⟨hat, κ, (hkept r (h.lt hr)).trans hκ, hf⟩
    · rintro ρ ρ₁ ρ' hρ ⟨⟨hat, hkept⟩, -⟩ ⟨⟨hat', rfl⟩, hne⟩
      exact ⟨⟨hat', hkept⟩, hne⟩
  have hd₅' : Drawn σ s₁ (body ++ t.code) s₅ arms.code (P.add flag) := by
    refine hd₅.move (hd.fine.made.later hlater) fun v hv => ?_
    rw [hs₅.stack, hs₄.stack, hstack₃, hs₂.stack] at hv
    exact (hd.fine.stack v hv).1
  refine ⟨t.append arms, (P.add flag), ?_, hp.append ⟨hu.append hu', trivial, rfl, trivial⟩,
    ⟨hl.le, fun hw => ?_, absurd⟩, htr.append ⟨hur.append ⟨rfl, by simp [Instr.creates], trivial⟩, trivial,
      trivial, by simp [Instr.creates], trivial⟩, fun hw => ?_, ?_⟩
  · rw [Block.code_append]
    exact hd.trans hd₅'
  · exact (hdoes hw).mono (fun _ h => h) fun _ _ _ h => h.1
  · exact (hdoes hw).mono (fun _ h => h) fun _ _ _ h => h.2
  · rw [hs₅.stack, hs₄.stack, hstack₃, hs₂.stack, hstack]

/-- **An early return of error values**: afterwards the value is none. -/
theorem Fine.returnErrors_shows (h : Fine σ s body P) (ctx : Context) (hr : r ∈ P.regs)
    (loc : Option Location) :
    Shows σ (Gen.returnErrors ctx r loc) (Gen.returnErrors ctx r loc) s body P (fun _ t => t.Spares r)
      (fun _ _ ρ => ρ.regs r ≠ .val (.obj .undefined)) fun _ s' _ =>
        s'.draft.stack = s.draft.stack := by
  unfold Gen.returnErrors
  refine Runs.read (knownType_run (h.lt hr)) ?_
  split
  · rename_i hnever
    refine runs_pure ⟨.nil, P, h.drawn, trivial, .refl σ s P, trivial, fun _ => ?_, rfl⟩
    cases ht : s.typeOf? r with
    | none =>
      rw [ht] at hnever
      cases hnever
    | some t =>
      rw [ht] at hnever
      exact Block.does_nil fun ρ hρ => At.ne_undefined hρ hr ht hnever
  · refine h.make (.testType · r .undefined) ⟨fun _ => rfl, fun _ => rfl, fun _ => rfl,
      by simpa [Instr.inputs] using hr, by simp, fun _ => rfl, fun _ _ _ => trivial, id,
      fun _ _ hg => ?_⟩ fun f s₁ id hd hp hl hgives hnew hstack => ?_
    · obtain ⟨κ, -, rfl⟩ := hg
      exact ⟨by simp, fun t ht => Option.some.inj ht⟩
    have hflag : IsFlag s₁ (P.add f) f := ⟨P.mem_add f, hnew.facts⟩
    have hr₁ : r ∈ (P.add f).regs := (P.le_add f).1 hr
    have hne : f ≠ r := by
      rintro rfl
      exact absurd (h.lt hr) (Nat.not_lt.mpr hnew.new)
    have htr : (Block.single id (.testType f r .undefined)).Spares r :=
      ⟨⟨rfl, rfl⟩, fun e => hne (Option.some.inj e), trivial⟩
    have hgives' : ∀ {w}, σ.Admits w s s₁ → (Block.single id (.testType f r .undefined)).Does w (P.At w s)
        fun ρ ρ' => ∃ κ : Kind, ρ.regs r = .val κ ∧ ρ'.regs f = .val (.bool (κ = .obj .undefined)) := by
      intro w hw
      refine (hgives hw).mono (fun _ h => h) fun ρ ρ' _ hρ' => ?_
      obtain ⟨-, ⟨κ, hκ, rfl⟩, hf⟩ := hρ'
      exact ⟨κ, hκ, hf⟩
    refine Runs.bind (hd.fine.drawn.openBranch hnew.lt hflag.role) fun b s₂ hd₂ => ?_
    obtain ⟨hd₂, hs₂⟩ := hd₂
    have hnone := h.returnTested hr (u := .nil) hd hp hl hgives' hflag hstack hs₂
      (by simpa [Block.code] using hd₂) trivial (.refl σ s₂ _) (.refl s₂) rfl htr trivial
    cases loc with
    | none => exact hnone
    | some loc =>
      dsimp only
      split_ifs
      · have hplain : Plain σ s₂ (P.add f) (.trace r loc) := ⟨rfl, rfl, by simp,
          by simpa [Instr.inputs] using hr₁, fun _ _ => trivial⟩
        refine Runs.bind (hd₂.fine.writeIdle hplain fun hf => hf) fun _ s₃ hd₃ => ?_
        obtain ⟨u, hd₃, hu, hl₃, hs₃⟩ := hd₃
        exact h.returnTested hr hd hp hl hgives' hflag hstack hs₂ (hd₂.trans hd₃) hu hl₃ hs₃.later hs₃.stack htr
          ⟨rfl, by simp [Instr.creates], trivial⟩
      · exact hnone

theorem Fine.returnErrors (h : Fine σ s body P) (ctx : Context) (hr : r ∈ P.regs)
    (loc : Option Location) :
    Emits σ (Gen.returnErrors ctx r loc) (Gen.returnErrors ctx r loc) s body P fun _ s' _ =>
      s'.draft.stack = s.draft.stack :=
  (h.returnErrors_shows ctx hr loc).emits

end Gen

end CountedMachine
