import CountedMachine.Proofs.Generation.Arms

/-! # Patterns

Code for a match leads on wherever code for its arms does. A pattern that must match is guarded, one
that may fail is tested level by level: fields are read only of values of the type that was tested.
The branches that a nested pattern opens are closed innermost first (`Nest`), so that control gets to
the alternative from wherever the pattern failed. -/

namespace CountedMachine

open Listing

/-- The same context, with the audit on or off. -/
def Context.checking (ctx : Context) (c : Bool) : Context :=
  { ctx with settings := { ctx.settings with verify := c } }

/-! ## Patterns that are refused -/

/-- A type that has a width has a name. -/
theorem ObjType.nameIn_eq {types : Array StructType} {ty : ObjType} {width : Nat}
    (h : ty.width types = .ok width) : ∃ name, ty.nameIn types = .ok name := by
  cases ty with
  | cons => exact ⟨_, rfl⟩
  | undefined => exact ⟨_, rfl⟩
  | struct id =>
    simp only [ObjType.width] at h
    simp only [ObjType.nameIn]
    cases htype : types[id]? with
    | none =>
      rw [htype] at h
      cases h
    | some d => exact ⟨_, rfl⟩

namespace Pattern

mutual

/-- A pattern is in order or refused. -/
theorem validate_cases (types : Array StructType) : ∀ p : Pattern,
    p.validate types = .ok () ∨ ∃ e, p.validate types = .error (.refused e)
  | .bind => Or.inl rfl
  | .ignore => Or.inl rfl
  | .unpack ty fields => by
    rw [validate]
    cases hw : ty.width types with
    | ok width => exact validateFields_cases types hw fields
    | error e =>
      right
      cases ty with
      | cons => cases hw
      | undefined => cases hw
      | struct id =>
        simp only [ObjType.width] at hw
        split at hw
        · cases hw
        · cases hw
          exact ⟨_, rfl⟩

theorem validateFields_cases (types : Array StructType) {ty : ObjType} {width : Nat}
    (hw : ty.width types = .ok width) : ∀ fields : List (Nat × Pattern),
    validateFields types ty width fields = .ok () ∨
      ∃ e, validateFields types ty width fields = .error (.refused e)
  | [] => Or.inl rfl
  | (offset, p) :: rest => by
    rw [validateFields]
    split_ifs
    · obtain ⟨name, hname⟩ := ObjType.nameIn_eq hw
      rw [hname]
      exact Or.inr ⟨_, rfl⟩
    · rcases validate_cases types p with hp | ⟨e, hp⟩
      · rw [hp]
        exact validateFields_cases types hw rest
      · rw [hp]
        exact Or.inr ⟨e, rfl⟩

end

/-- The fields of a pattern in order are fields of its type. -/
theorem validate_unpack {types : Array StructType} {ty : ObjType} {fields : List (Nat × Pattern)}
    (h : (unpack ty fields).validate types = .ok ()) :
    ∃ width, ty.width types = .ok width ∧ validateFields types ty width fields = .ok () := by
  rw [validate] at h
  cases hw : ty.width types with
  | ok width =>
    rw [hw] at h
    exact ⟨width, rfl, h⟩
  | error e =>
    rw [hw] at h
    cases h

theorem validateFields_cons {types : Array StructType} {ty : ObjType} {width offset : Nat}
    {p : Pattern} {rest : List (Nat × Pattern)}
    (h : validateFields types ty width ((offset, p) :: rest) = .ok ()) :
    offset < width ∧ p.validate types = .ok () ∧ validateFields types ty width rest = .ok () := by
  rw [validateFields] at h
  split_ifs at h with hlt
  · cases hname : ty.nameIn types <;> rw [hname] at h <;> cases h
  · cases hp : p.validate types with
    | error e =>
      rw [hp] at h
      cases h
    | ok u =>
      rw [hp] at h
      exact ⟨by omega, rfl, h⟩

end Pattern

namespace Gen

variable {α β : Type} {σ : Site} {s s₀ s₁ s₂ s₃ : GenState} {body xs ys zs : Code} {x id : NodeId}
  {b : Branch} {sub sub' : Sub} {f v m r : Reg} {yes no : Expr} {ctx : Context} {c : Bool}
  {P P₀ P₁ P₂ : Point} {t u : Block} {w : World} {ρ ρ' : Env} {ty : ObjType} {p : Pattern}

theorem Drawn.mergeReg (h : Drawn σ s body s₁ xs P₁) (tail : Bool) :
    Runs (Gen.mergeReg tail) (Gen.mergeReg tail) s₁ fun merged s₂ =>
      Drawn σ s body s₂ xs P₁ ∧ s₁.Later s₂ ∧ s₂.draft.stack = s₁.draft.stack ∧
        ((tail = true ∧ merged = none) ∨ (tail = false ∧ ∃ m, merged = some m ∧
          Held s s₂ xs ⟨.merged, none⟩ m ∧ s₁.regs.size ≤ m.index)) := by
  unfold Gen.mergeReg
  split_ifs with ht
  · exact runs_pure ⟨h, .refl _, rfl, Or.inl ⟨ht, rfl⟩⟩
  · rw [map_eq_pure_bind]
    refine Runs.bind (h.freshReg .merged (by simp)) fun m s₂ hd => ?_
    obtain ⟨hd, hm, hlater, hnew, hstack⟩ := hd
    exact runs_pure ⟨hd, hlater, hstack, Or.inr ⟨by simpa using ht, m, rfl, hm, hnew⟩⟩

/-! ## Patterns that must match -/

theorem runs_validated {g g' : Unit → Gen β} {R : β → GenState → Prop} (hctx : ctx.types = σ.types)
    (hg : p.validate σ.types = .ok () → Runs (g ()) (g' ()) s R) :
    Runs (Gen.validatePattern ctx p >>= g) (Gen.validatePattern (ctx.checking c) p >>= g') s R := by
  have hsame : Gen.validatePattern (ctx.checking c) p = Gen.validatePattern ctx p := rfl
  rw [hsame, Gen.validatePattern, hctx]
  rcases Pattern.validate_cases σ.types p with hp | ⟨e, hp⟩
  · rw [hp]
    exact Runs.bind (runs_pure (Q := fun _ s' => s' = s) rfl) fun _ _ e => e ▸ hg hp
  · rw [hp]
    exact ⟨rfl, trivial⟩

/-- A register whose type is certain. -/
theorem at_know (h : P.At w s ρ) (hv : ρ.regs v = .val (.obj ty)) : (P.know v ty).At w s ρ where
  live := h.live
  holds := h.holds
  sure {q ty'} hq := by
    rcases Set.mem_insert_iff.mp hq with e | hq
    · cases e
      exact hv
    · exact h.sure hq
  fresh := h.fresh
  calm := h.calm
  pushed := h.pushed
  strict := h.strict

/-- **A field of a value of a type that is certain.** -/
theorem Fine.readField (h : Fine σ s body P) (hv : v ∈ P.regs) (hsure : (v, ty) ∈ P.sure) {n idx : Nat}
    (hn : ty.width σ.types = .ok n) (hidx : idx < n) :
    Emits σ (Gen.readField v ty idx) (Gen.readField v ty idx) s body P fun r s' P' =>
      r ∈ P'.regs ∧ s'.draft.stack = s.draft.stack := by
  refine h.create (.field · v idx) ⟨fun _ => rfl, fun _ => rfl, fun _ => rfl, by simpa [Instr.inputs] using hv,
    by simp, by simp, fun hw hρ _ => ⟨ty, n, hρ.sure hsure, hw.types ▸ hn, hidx⟩, id, fun _ hρ hg => ?_⟩
    fun r s₁ t P₁ hd _ hr _ hstack => hd.fine.pure ⟨hr, hstack⟩
  refine ⟨hg.1, fun t ht => ?_⟩
  by_cases hty : ty = .undefined
  · subst hty
    rw [hg.2 (hρ.sure hsure)]
    exact Option.some.inj ht
  · simp [RegRole.typed, hty] at ht

/-- **A guard** ends the run on a value of another type. -/
theorem Fine.guard (h : Fine σ s body P) (hv : v ∈ P.regs) (ty : ObjType) :
    Emits σ (Gen.write (.guard v ty)) (Gen.write (.guard v ty)) s body P fun _ s' P' =>
      P' = P.know v ty ∧ Recoded s s' := by
  have hi : Plain σ s P (.guard v ty) := ⟨rfl, rfl, by simp, by simpa [Instr.inputs] using hv,
    fun _ hρ => hρ.calm⟩
  refine (h.drawn.write (hi.good h) (by simp [hi.creates])).mono fun _ s₁ hd => ?_
  obtain ⟨id, hd, hs⟩ := hd
  refine ⟨.single id _, P.know v ty, hd.move_le (P.le_know v ty) (hd.fine.made.know (hd.lt (h.lt hv)) ty),
    ⟨hi.label, hi.unadjusted, trivial⟩, ⟨P.le_know v ty, fun hw => ?_, absurd⟩, rfl, hs⟩
  refine Block.does_single (fun ρ hρ => ?_) fun ρ ρ' hρ hf => ?_
  · exact ⟨hρ.noted, hρ.reads hi.inputs, hi.needs (hw.toKnows.of_later hs.later) hρ, hρ.unheld, hρ.shields _⟩
  · obtain ⟨hval, rfl⟩ := hf
    exact ⟨at_know (hρ.later h.made hs.later) hval, Kept.refl s ρ'⟩

/-- What is known of a type is certain. -/
theorem Fine.know (h : Fine σ s body P) (hv : v ∈ P.regs) (hty : s.typeOf? v = some (.obj ty)) :
    Drawn σ s body s [] (P.know v ty) ∧ Leads σ s P .nil s (P.know v ty) := by
  refine ⟨h.drawn.move_le (P.le_know v ty) (h.made.know (h.lt hv) ty), P.le_know v ty, fun _ => ?_, absurd⟩
  refine Block.does_nil fun ρ hρ => ⟨at_know hρ ?_, Kept.refl s ρ⟩
  obtain ⟨κ, hκ⟩ := hρ.holds v hv
  rw [hκ.value, Kind.eq_obj_of_type (hκ.type hty)]

mutual

theorem Fine.bindWhole (hctx : ctx.types = σ.types) (c : Bool) : ∀ {s : GenState} {body : Code}
    {P : Point} {v : Reg} (p : Pattern), Fine σ s body P → v ∈ P.regs →
    Emits σ (Gen.bindWhole ctx v p) (Gen.bindWhole (ctx.checking c) v p) s body P fun _ s' _ =>
      s.draft.stack <:+ s'.draft.stack
  | _, _, _, _, .bind, h, hv => (h.bindReg hv).mono fun _ _ _ _ _ _ hq =>
    hq.2 ▸ List.suffix_cons _ _
  | _, _, _, _, .ignore, h, _ => h.pure (List.suffix_refl _)
  | s, body, P, v, .unpack ty fields, h, hv => by
    refine runs_validated hctx fun hp => ?_
    obtain ⟨n, hn, hfields⟩ := Pattern.validate_unpack hp
    refine Runs.read (knownType_run (h.lt hv)) ?_
    split
    · refine (h.guard hv ty).bind fun _ s₁ t P₁ hd hle hq => ?_
      obtain ⟨rfl, hs⟩ := hq
      refine (Fine.bindParts hctx c hn fields hd.fine (hle.1 hv) (P.mem_know v ty) hfields).mono
        fun _ _ _ _ _ _ hq => ?_
      rwa [hs.stack] at hq
    · rename_i hknown
      obtain ⟨hd, hl⟩ := h.know hv (not_not.mp hknown)
      exact Emits.after (t := .nil)
        (Fine.bindParts hctx c hn fields hd.fine hv (P.mem_know v ty) hfields) hd trivial hl

theorem Fine.bindParts (hctx : ctx.types = σ.types) (c : Bool) : ∀ {s : GenState} {body : Code}
    {P : Point} {v : Reg} {ty : ObjType} {n : Nat}, ty.width σ.types = .ok n →
    ∀ fields : List (Nat × Pattern), Fine σ s body P → v ∈ P.regs → (v, ty) ∈ P.sure →
    Pattern.validateFields σ.types ty n fields = .ok () →
    Emits σ (Gen.bindParts ctx v ty fields) (Gen.bindParts (ctx.checking c) v ty fields) s body P
      fun _ s' _ => s.draft.stack <:+ s'.draft.stack
  | _, _, _, _, _, _, _, [], h, _, _, _ => h.pure (List.suffix_refl _)
  | s, body, P, v, ty, n, hn, (offset, p) :: rest, h, hv, hsure, hfields => by
    obtain ⟨hlt, -, hrest⟩ := Pattern.validateFields_cons hfields
    unfold Gen.bindParts
    split
    · refine (h.readField hv hsure hn hlt).bind fun f s₁ t P₁ hd hle hf => ?_
      refine (Fine.bindWhole hctx c p hd.fine hf.1).bind fun _ s₂ u P₂ hd₂ hle₂ hq₂ => ?_
      refine (Fine.bindParts hctx c hn rest hd₂.fine (hle₂.1 (hle.1 hv)) (hle₂.2 (hle.2 hsure))
        hrest).mono fun _ _ _ _ _ _ hq₃ => ?_
      exact (hf.2 ▸ hq₂).trans hq₃
    · exact Fine.bindParts hctx c hn rest h hv hsure hrest

end

/-! ## Tests -/

/-- **A value that is tested**: the branch is on whether it is of the type. -/
structure Tested (σ : Site) (s : GenState) (body : Code) (P : Point) (v : Reg) (ty : ObjType)
    (b : NodeId) (f : Reg) (t : Block) (s₀ s' : GenState) : Prop where
  before : Drawn σ s body s₀ t.code (P.add f)
  drawn : Drawn σ s body s' (t.code ++ [(b, Instr.branch f head)]) (P.add f)
  proper : t.Proper
  leads : Leads σ s P t s₀ (P.add f)
  shows : ∀ {w}, σ.Admits w s s₀ → t.Does w (P.At w s) fun _ ρ =>
    ρ.regs f = .val (.bool true) → ρ.regs v = .val (.obj ty)
  isFlag : IsFlag s₀ (P.add f) f
  same : Recoded s₀ s'
  stack : s₀.draft.stack = s.draft.stack

theorem Fine.openTest (h : Fine σ s body P) (hv : v ∈ P.regs) (ty : ObjType) :
    Runs (Gen.openTest v ty) (Gen.openTest v ty) s fun b s' =>
      ∃ f t s₀, Tested σ s body P v ty b.node f t s₀ s' := by
  refine h.make (.testType · v ty) ⟨fun _ => rfl, fun _ => rfl, fun _ => rfl, by simpa [Instr.inputs] using hv,
    by simp, fun _ => rfl, fun _ _ _ => trivial, id, fun _ _ hg => ?_⟩
    fun f s₀ id hd hp hl hgives hr hstack => ?_
  · obtain ⟨κ, -, rfl⟩ := hg
    exact ⟨by simp, fun t ht => Option.some.inj ht⟩
  have hflag : IsFlag s₀ (P.add f) f := ⟨P.mem_add f, hr.facts⟩
  refine (hd.openBranch hr.lt hflag.role).mono fun b s' hd' => ?_
  refine ⟨f, _, s₀, hd, hd'.1, hp, hl, fun hw => ?_, hflag, hd'.2, hstack⟩
  refine ((hl.does hw).and (hgives hw)).mono (fun _ h => h) fun ρ ρ' hρ hq htrue => ?_
  obtain ⟨⟨-, hkept⟩, κ, ⟨a, ha, rfl⟩, hf⟩ := hq
  rw [hkept v (h.lt hv), ha]
  rw [hf] at htrue
  simpa using htrue

/-! ## Nested patterns -/

/-- **What a step that opens branches adds**: a nest that leads on where the pattern fits, and where
it does not what was certain before still is. -/
def Opens (σ : Site) (x : Gen (List Branch)) (s : GenState) (body : Code) (P : Point) : Prop :=
  Runs x x s fun bs s' => ∃ N P', Drawn σ s body s' (Nest.code N) P' ∧ N.Proper ∧ P ≤ P' ∧
    N.opened = bs.reverse.map (·.node) ∧ s.draft.stack <:+ s'.draft.stack ∧
    ∀ {w}, σ.Admits w s s' → N.Does w (P.At w s) (fun ρ ρ' => P'.At w s' ρ' ∧ Kept s ρ ρ')
      fun ρ ρ' => P.At w s' ρ' ∧ Kept s ρ ρ'

/-- A step that opens no branch. -/
theorem Emits.opens {x : Gen Unit} (hx : Emits σ x x s body P fun _ s' _ =>
    s.draft.stack <:+ s'.draft.stack) : Opens σ (x >>= fun _ => Pure.pure []) s body P := by
  refine Runs.bind hx fun _ s₁ hd => ?_
  obtain ⟨t, P₁, hd, ht, hl, hstack⟩ := hd
  exact runs_pure ⟨.flat t, P₁, hd, ht, hl.le, rfl, hstack, fun hw => Nest.does_flat (hl.does hw)⟩

theorem Fine.opensNone (h : Fine σ s body P) : Opens σ (Pure.pure []) s body P :=
  runs_pure ⟨.flat .nil, P, h.drawn, trivial, le_rfl, rfl, List.suffix_refl _, fun _ =>
    Nest.does_flat (Block.does_nil fun ρ hρ => ⟨hρ, Kept.refl s ρ⟩)⟩

/-- **What is opened after a nest.** -/
theorem Opens.after {y : Gen (List Branch)} {b : List Branch} {N : Nest}
    (hy : Opens σ y s₁ (body ++ N.code) P₁) (hd : Drawn σ s body s₁ N.code P₁) (hN : N.Proper)
    (hle : P ≤ P₁) (hbs : N.opened = b.reverse.map (·.node))
    (hstack : s.draft.stack <:+ s₁.draft.stack) (hP : P.Made s)
    (hdoes : ∀ {w}, σ.Admits w s s₁ → N.Does w (P.At w s) (fun ρ ρ' => P₁.At w s₁ ρ' ∧ Kept s ρ ρ')
      fun ρ ρ' => P.At w s₁ ρ' ∧ Kept s ρ ρ') :
    Runs y y s₁ fun cs s' => ∃ N P', Drawn σ s body s' (Nest.code N) P' ∧ N.Proper ∧ P ≤ P' ∧
      N.opened = (b ++ cs).reverse.map (·.node) ∧ s.draft.stack <:+ s'.draft.stack ∧
      ∀ {w}, σ.Admits w s s' → N.Does w (P.At w s) (fun ρ ρ' => P'.At w s' ρ' ∧ Kept s ρ ρ')
        fun ρ ρ' => P.At w s' ρ' ∧ Kept s ρ ρ' := by
  refine Runs.mono hy fun cs s₂ hd₂ => ?_
  obtain ⟨M, P₂, hd₂, hM, hle₂, hcs, hstack₂, hdoes₂⟩ := hd₂
  have hmade : P.Made s₁ := hP.later hd.later
  refine ⟨N.cat M, P₂, ?_, hN.cat hM, hle.trans hle₂, by simp [hbs, hcs], hstack.trans hstack₂,
    fun hw => ?_⟩
  · rw [Nest.code_cat]
    exact hd.trans hd₂
  · refine (hdoes (hw.left hd₂.later)).cat (hdoes₂ (hw.right hd.later.size)) (fun _ _ _ hq => hq.1)
      (fun _ _ _ _ hq hq' => ⟨hq'.1, hq.2.trans hq'.2 hd.later.size⟩)
      (fun _ _ _ hq => ⟨hq.1.later hmade hd₂.later, hq.2⟩) fun ρ ρ₁ ρ' hρ hq hq' => ?_
    exact ⟨hq'.1.weaken hle hρ.live, hq.2.trans hq'.2 hd.later.size⟩

theorem Opens.bind {x : Gen (List Branch)} {g : List Branch → Gen (List Branch)}
    (hP : P.Made s) (hx : Opens σ x s body P)
    (hg : ∀ s₁ N P₁, Drawn σ s body s₁ (Nest.code N) P₁ → P ≤ P₁ → ∀ bs,
      Opens σ (g bs) s₁ (body ++ N.code) P₁) :
    Opens σ (x >>= fun bs => g bs >>= fun cs => Pure.pure (bs ++ cs)) s body P := by
  refine Runs.bind hx fun bs s₁ hd => ?_
  obtain ⟨N, P₁, hd, hN, hle, hbs, hstack, hdoes⟩ := hd
  refine Runs.bind ((hg s₁ N P₁ hd hle bs).after hd hN hle hbs hstack hP hdoes) fun cs s₂ hd₂ => ?_
  exact runs_pure hd₂

/-- **Testing one level.** -/
theorem Fine.opensOne (h : Fine σ s body P) (hv : v ∈ P.regs) (ty : ObjType)
    {g : List Branch → Gen (List Branch)}
    (hg : ∀ s₁ N P₁, Drawn σ s body s₁ (Nest.code N) P₁ → P ≤ P₁ → (v, ty) ∈ P₁.sure → ∀ bs,
      Opens σ (g bs) s₁ (body ++ N.code) P₁) :
    Opens σ (((fun b => [b]) <$> Gen.openTest v ty) >>= fun bs => g bs >>= fun cs =>
      Pure.pure (bs ++ cs)) s body P := by
  rw [map_eq_pure_bind, bind_assoc]
  refine Runs.bind (h.openTest hv ty) fun b s₁ ht => ?_
  obtain ⟨f, t, s₀, ht⟩ := ht
  rw [pure_bind]
  have hv₁ := ht.drawn.lt (h.lt hv)
  have hle : P ≤ (P.add f).know v ty := (P.le_add f).trans (Point.le_know _ v ty)
  have hd : Drawn σ s body s₁ (Nest.code (.level (.flat t) b.node f .nil)) ((P.add f).know v ty) :=
    ht.drawn.move_le (Point.le_know _ v ty) (ht.drawn.fine.made.know hv₁ ty)
  refine Runs.bind ((hg s₁ _ _ hd hle (Point.mem_know _ v ty) [b]).after hd ⟨ht.proper, trivial⟩ hle rfl
    ?_ h.made fun {w} hw => ?_) fun cs s₂ hd₂ => runs_pure hd₂
  · rw [ht.same.stack, ht.stack]
  · have hw₀ := hw.left ht.same.later
    have hfirst := (ht.leads.does hw₀).and (ht.shows hw₀)
    refine ⟨fun {ρ} hρ => ⟨(hfirst ρ hρ).1, fun ρ₁ h₁ => ?_⟩, fun {ρ ρ'} hρ hrun => ?_,
      fun {ρ ρ'} hρ hfails => ?_⟩
    · exact ⟨ht.isFlag.safe ((hfirst ρ hρ).2 ρ₁ h₁).1.1 head, fun _ => trivial⟩
    · obtain ⟨ρ₁, h₁, hf, rfl⟩ := hrun
      obtain ⟨⟨hat, hkept⟩, hshows⟩ := (hfirst ρ hρ).2 ρ' h₁
      exact ⟨at_know (hat.later ht.before.fine.made ht.same.later) (hshows hf), hkept⟩
    · obtain ⟨hrun, -⟩ := hfails.resolve_left id
      obtain ⟨⟨hat, hkept⟩, -⟩ := (hfirst ρ hρ).2 ρ' hrun
      exact ⟨(hat.weaken (P.le_add f) hρ.live).later (h.made.later ht.before.later) ht.same.later, hkept⟩

mutual

theorem Fine.descend : ∀ {s : GenState} {body : Code} {P : Point} {v : Reg} (p : Pattern),
    Fine σ s body P → v ∈ P.regs → p.validate σ.types = .ok () → Opens σ (Gen.descend v p) s body P
  | _, _, _, _, .bind, h, hv, _ => by
    refine Emits.opens ((h.bindReg hv).mono fun _ _ _ _ _ _ hq => ?_)
    exact hq.2 ▸ List.suffix_cons _ _
  | _, _, _, _, .ignore, h, _, _ => h.opensNone
  | s, body, P, v, .unpack ty fields, h, hv, hp => by
    obtain ⟨n, hn, hfields⟩ := Pattern.validate_unpack hp
    refine Runs.read (knownType_run (h.lt hv)) ?_
    split
    · exact h.opensOne hv ty fun s₁ N P₁ hd hle hsure _ =>
        Fine.descendParts hn fields hd.fine (hle.1 hv) hsure hfields
    · rename_i hknown
      obtain ⟨hd, hl⟩ := h.know hv (not_not.mp hknown)
      have hrest := Fine.descendParts hn fields hd.fine hv (P.mem_know v ty) hfields
      rw [pure_bind]
      refine Runs.bind (hrest.after (N := .flat .nil) (b := []) hd trivial hl.le rfl
        (List.suffix_refl _) h.made fun hw => Nest.does_flat (hl.does hw)) fun cs s₂ hd₂ => ?_
      exact runs_pure hd₂

theorem Fine.descendParts : ∀ {s : GenState} {body : Code} {P : Point} {v : Reg} {ty : ObjType} {n : Nat},
    ty.width σ.types = .ok n → ∀ fields : List (Nat × Pattern), Fine σ s body P → v ∈ P.regs →
    (v, ty) ∈ P.sure → Pattern.validateFields σ.types ty n fields = .ok () →
    Opens σ (Gen.descendParts v ty fields) s body P
  | _, _, _, _, _, _, _, [], h, _, _, _ => h.opensNone
  | s, body, P, v, ty, n, hn, (offset, p) :: rest, h, hv, hsure, hfields => by
    obtain ⟨hlt, hp, hrest⟩ := Pattern.validateFields_cons hfields
    unfold Gen.descendParts
    split
    · exact h.opensNone.bind h.made fun s₁ N P₁ hd hle _ =>
        Fine.descendParts hn rest hd.fine (hle.1 hv) (hle.2 hsure) hrest
    · refine Runs.bind (h.readField hv hsure hn hlt) fun f s₁ hd => ?_
      obtain ⟨t, P₁, hd, ht, hl, hf, hstack⟩ := hd
      have hinner := (Fine.descend p hd.fine hf hp).bind hd.fine.made fun s₂ N P₂ hd₂ hle₂ _ =>
        Fine.descendParts hn rest hd₂.fine (hle₂.1 (hl.le.1 hv)) (hle₂.2 (hl.le.2 hsure)) hrest
      refine (hinner.after (N := .flat t) (b := []) hd ht hl.le rfl ?_ h.made fun hw =>
        Nest.does_flat (hl.does hw)).mono fun cs s₂ hd₂ => hd₂
      rw [hstack]

end

/-- **Closing all branches of a nested pattern.** -/
theorem Drawn.ascend {bs : List Branch} : ∀ {s₁ : GenState} {N : Nest}, N.Proper →
    N.opened = bs.map (·.node) → Drawn σ s body s₁ N.code P₁ →
    Runs (Gen.ascend bs) (Gen.ascend bs) s₁ fun _ s₂ => ∃ T, Drawn σ s body s₂ (Block.code T) P₁ ∧
      T.Proper ∧ Recoded s₁ s₂ ∧ owners s₁.regs T.code = owners s₁.regs N.code ∧
      ∀ {w P Q F}, N.Does w P Q F → (∀ ρ ρ', P ρ → Q ρ ρ' ∨ F ρ ρ' → w.Noted (fun _ => True) ρ') →
        T.Does w P fun ρ ρ' => Q ρ ρ' ∨ F ρ ρ' := by
  induction bs with
  | nil =>
    intro s₁ N hN hopened hd
    cases N with
    | level outer b f t => cases hopened
    | flat t =>
      exact runs_pure ⟨t, hd, hN, .refl s₁, rfl, fun hdoes _ ρ hρ =>
        ⟨hdoes.ok hρ, fun ρ' hrun => Or.inl (hdoes.run hρ hrun)⟩⟩
  | cons b bs ih =>
    intro s₁ N hN hopened hd
    cases N with
    | flat t => cases hopened
    | level outer node f t =>
      obtain ⟨rfl, hopened⟩ := List.cons.inj hopened
      refine Runs.bind (hd.closeBranch (o := none) (by simp)) fun _ s₂ hd₂ => ?_
      obtain ⟨n, j, k, hd₂, hs₂⟩ := hd₂
      set arms : Block := .arms b.node f n t j k .nil (joint none) .nil with harms
      have hcode : outer.code ++ arms.code = (outer.cat (.flat arms)).code := by simp [Nest.code]
      rw [hcode] at hd₂
      have hproper : (outer.cat (.flat arms)).Proper := hN.1.cat ⟨hN.2, trivial, rfl, trivial⟩
      refine (ih hproper (by simpa [Nest.opened] using hopened) hd₂).mono fun _ s₃ hd₃ => ?_
      obtain ⟨T, hd₃, hT, hs₃, howners, hdoes⟩ := hd₃
      refine ⟨T, hd₃, hT, hs₂.trans hs₃, ?_, fun {w P Q F} hN hnoted => ?_⟩
      · rw [hs₂.regs] at howners
        rw [howners, ← hcode]
        simp [harms, Nest.code, Block.code, owners, Instr.creates, joint]
      · refine (hdoes (hN.close hnoted) fun ρ ρ' hρ hq => ?_).mono (fun _ h => h) fun ρ ρ' _ hq => ?_
        · exact hnoted ρ ρ' hρ (hq.elim id Or.inr)
        · exact hq.elim id Or.inr

/-! ## Matches -/

theorem Fine.genFitting (h : Fine σ s body P) (hctx : ctx.types = σ.types) (hv : v ∈ P.regs)
    (p : Pattern) (hyes : Serves σ sub sub' yes) (tail c : Bool) :
    Emits σ (Gen.genFitting ctx sub v p yes tail)
      (Gen.genFitting (ctx.checking c) sub' v p yes tail) s body P (Answer s tail) := by
  refine Runs.read (height_run s) ?_
  refine (Fine.bindWhole hctx c p h hv).bind fun _ s₁ _ _ hd _ hstack₁ => ?_
  refine (hyes.expr tail hd.fine).bind fun out s₂ _ _ hd₂ _ hout => ?_
  refine (hd₂.fine.forgetAbove _).bind fun _ s₃ _ _ hd₃ _ hq => ?_
  obtain ⟨rfl, hstack₃⟩ := hq
  refine hd₃.fine.pure ⟨hout.some, hout.mem, hout.ends, ?_⟩
  rw [hstack₃, drop_of_suffix (hstack₁.trans hout.stack)]

theorem Fine.genOneLevel (h : Fine σ s body P) (hctx : ctx.types = σ.types) (hv : v ∈ P.regs)
    (ty : ObjType) (fields : List (Nat × Pattern)) (hyes : Serves σ sub sub' yes)
    (hno : Serves σ sub sub' no) (tail c : Bool) :
    Emits σ (Gen.genOneLevel ctx sub v (.unpack ty fields) yes no tail)
      (Gen.genOneLevel (ctx.checking c) sub' v (.unpack ty fields) yes no tail) s body P
      (Answer s tail) := by
  refine runs_validated hctx fun hp => ?_
  obtain ⟨n, hn, hfields⟩ := Pattern.validate_unpack hp
  refine Runs.read (height_run s) ?_
  refine Runs.bind (h.openTest hv ty) fun b s₁ ht => ?_
  obtain ⟨f, t₀, s₀, ht⟩ := ht
  refine Runs.bind (ht.drawn.mergeReg tail) fun merged s₂ hd₂ => ?_
  obtain ⟨hd₂, hlater₂, hstack₂, hmerged⟩ := hd₂
  have hle : P.add f ≤ (P.add f).know v ty := Point.le_know _ v ty
  have hd₂ := hd₂.move_le hle (hd₂.fine.made.know (hd₂.lt (h.lt hv)) ty)
  refine Runs.bind (Fine.bindParts hctx c hn fields hd₂.fine ((P.le_add f).1 hv) (Point.mem_know _ v ty)
    hfields) fun _ s₃ hd₃ => ?_
  obtain ⟨t₁, P₃, hd₃, ht₁, hl₃, hstack₃⟩ := hd₃
  have hd := hd₂.trans hd₃
  rw [List.append_assoc, List.singleton_append] at hd
  have hfork : Forked σ s body P b.node f (fun _ ρ => ρ.regs v = .val (.obj ty)) t₀ s₀ (P.add f) s₂
      t₁ s₃ P₃ := by
    refine ⟨hd, ht.proper, ht₁, ht.leads, ht.shows, ht.before.fine.made, ht.before.later,
      ht.same.later.trans hlater₂, hd₃.later, ht.isFlag, hle.trans hl₃.le, fun hw => ?_, hl₃.stops,
      fun v hv => (ht.before.fine.stack v hv).1, ?_⟩
    · exact (hl₃.does hw).mono (fun ρ hρ => at_know hρ.1 hρ.2) fun _ _ _ hq => hq
    · rwa [hstack₂, ht.same.stack] at hstack₃
  rw [← ht.stack]
  rcases hmerged with ⟨rfl, rfl⟩ | ⟨rfl, m, rfl, hm, hnew⟩
  · refine (hfork.genLastArms hyes hno).mono fun out s' hd => ?_
    obtain ⟨T, P', hd, hT, hl, rfl, hlive, hstack⟩ := hd
    exact ⟨T, P', hd, hT, hl, by simp, by simp, fun _ => hlive, by rw [hstack, ht.stack]⟩
  · have hm₃ := hm.trans hd₂ hd₃
    rw [List.append_assoc, List.singleton_append] at hm₃
    refine (hfork.genArms hm₃ (ht.same.regs ▸ hnew) hm.lt hyes hno).mono fun out s' hd => ?_
    obtain ⟨T, P', hd, hT, hl, rfl, hmem, hstack⟩ := hd
    exact ⟨T, P', hd, hT, hl, by simp, by simpa using hmem, by simp, by rw [hstack, ht.stack]⟩

theorem Fine.genLevelsTail (h : Fine σ s body P) (hv : v ∈ P.regs) (hp : p.validate σ.types = .ok ())
    (hyes : Serves σ sub sub' yes) (hno : Serves σ sub sub' no) :
    Emits σ (Gen.genLevelsTail sub v p yes no) (Gen.genLevelsTail sub' v p yes no) s body P
      (Answer s true) := by
  refine Runs.read (height_run s) ?_
  refine Runs.bind (Fine.descend p h hv hp) fun bs s₁ hd => ?_
  obtain ⟨N, P₁, hd, hN, hle, hbs, hstack₁, hdoes⟩ := hd
  refine Runs.bind (hyes.tail hd.fine) fun _ s₂ hd₂ => ?_
  obtain ⟨u, P₂, hd₂, hu, hl₂, hlive, hstack₂⟩ := hd₂
  have hd₂' : Drawn σ s body s₂ (N.cat (.flat u)).code P₂ := by
    rw [Nest.code_cat]
    exact hd.trans hd₂
  refine Runs.bind (hd₂'.forgetAbove _) fun _ s₃ hd₃ => ?_
  obtain ⟨hd₃, hs₃⟩ := hd₃
  have hlater₃ : s₂.Later s₃ := hs₃ ▸ later_withStack _ _
  have hstack₃ : s₃.draft.stack = s.draft.stack := by
    rw [hs₃]
    exact drop_of_suffix (hstack₁.trans hstack₂)
  refine Runs.bind (hd₃.ascend (hN.cat (M := .flat u) hu) (by simpa [Nest.opened] using hbs)) fun _ s₄ hd₄ => ?_
  obtain ⟨T, hd₄, hT, hs₄, -, hclose⟩ := hd₄
  have hlater₄ : s₁.Later s₄ := (hd₂.later.trans hlater₃).trans hs₄.later
  have hd₄ : Drawn σ s body s₄ T.code P := by
    refine hd₄.move (h.made.later hd₄.later) fun v hv => (h.stack v ?_).1
    rwa [← hstack₃, ← hs₄.stack]
  have hl₄ : Leads σ s P T s₄ P := by
    refine ⟨le_rfl, fun {w} hw => ?_, absurd⟩
    have hnest := (hdoes (hw.left hlater₄)).cat (R := fun _ _ => False)
      (G := fun ρ ρ' => P.At w s₁ ρ' ∧ Kept s ρ ρ') (Nest.does_flat (F := fun _ _ => False)
        (hl₂.does ((hw.left (hlater₃.trans hs₄.later)).right hd.later.size)))
      (fun _ _ _ hq => hq.1) (fun _ _ _ _ _ hq => hlive hq.1.live) (fun _ _ _ hq => hq)
      fun _ _ _ _ _ hq => hq.elim
    refine (hclose hnest fun ρ ρ' _ hq => (hq.resolve_left id).1.noted).mono (fun _ h => h)
      fun ρ ρ' _ hq => ?_
    obtain ⟨hat, hkept⟩ := hq.resolve_left id
    exact ⟨hat.later (h.made.later hd.later) hlater₄, hkept⟩
  refine Emits.after ?_ hd₄ hT hl₄
  refine (hno.tail hd₄.fine).bind fun _ s₅ _ _ hd₅ _ hq => ?_
  refine hd₅.fine.pure ⟨by simp, by simp, fun _ => hq.1, ?_⟩
  have := hq.2
  rwa [hs₄.stack, hstack₃] at this

/-! ## A flag for the alternative -/

/-- Setting a flag again. -/
theorem at_flag (h : P.At w s ρ) (hf : IsFlag s P f) (value : Bool) :
    P.At w s (ρ.set f (.val (.bool value))) where
  live := h.live
  holds q hq := by
    by_cases e : q = f
    · subst e
      obtain ⟨κ, hκ⟩ := h.holds q hq
      obtain ⟨b, rfl⟩ := Kind.eq_bool_of_type (hκ.recorded hf.facts rfl)
      refine ⟨.bool value, by simp, by simp, fun ht => hκ.type ht, fun hf ht => hκ.recorded hf ht,
        fun hk => ?_⟩
      obtain ⟨_, _, -, hfn, -⟩ := hκ.known hk
      cases hfn
    · obtain ⟨κ, hκ⟩ := h.holds q hq
      exact ⟨κ, { hκ with value := (ρ.set_of_ne _ e).trans hκ.value }⟩
  sure {q ty} hq := by
    by_cases e : q = f
    · subst e
      obtain ⟨b, hb⟩ := hf.bool h
      rw [h.sure hq] at hb
      cases hb
    · rw [ρ.set_of_ne _ e]
      exact h.sure hq
  fresh q hq := by
    rw [ρ.set_of_ne _ (by
      rintro rfl
      exact absurd (Array.getElem?_eq_some_iff.mp hf.facts).1 (by omega))]
    exact h.fresh q hq
  calm := h.calm.set (by simp) f
  pushed := h.pushed
  strict := h.strict.set fun κ hκ => by
    obtain ⟨b, hb⟩ := hf.bool h
    rw [← Option.some.inj hκ]
    exact (h.strict f (.bool b) (by rw [hb]; rfl)).bool value

theorem Drawn.setFlag (h : Drawn σ s body s₁ xs P₁) (hf : IsFlag s₁ P₁ f) (value : Bool) :
    Runs (Gen.write (.flag f value)) (Gen.write (.flag f value)) s₁ fun _ s₂ =>
      ∃ id, Drawn σ s body s₂ (xs ++ [(id, Instr.flag f value)]) P₁ ∧ Recoded s₁ s₂ := by
  have hgood : Good s₁.regs (.flag f value) :=
    good_of_creates rfl rfl (by simp [Instr.inputs]) hf.role (by simp) (by simp [Instr.createsOwner])
  refine h.write hgood fun r hr hne => ?_
  rw [← Option.some.inj hr] at hne
  exact absurd hf.role hne

/-- **The value of a nested match where the pattern fits**: it is on its way and the flag is cleared;
where the pattern does not fit nothing has changed. -/
structure Matched (σ : Site) (s : GenState) (body : Code) (P : Point) (f m x : Reg) (s' : GenState)
    (T : Block) (P' : Point) : Prop where
  drawn : Drawn σ s body s' T.code P'
  proper : T.Proper
  stack : s'.draft.stack = s.draft.stack
  lt : x.index < s'.regs.size
  does : ∀ {w s₁ s₂ y z P₀}, σ.Admits w s s₁ → s'.Later s₁ → Agreed s₁ s₂ m y z →
    (∀ {t}, s₂.Tells m t → s₁.Tells x t) → P₀ ≤ P → m ∉ P₀.regs →
    (∀ ρ, Moved w s₂ P₀ m (Allowed s₂ m) ρ → w.Noted (fun _ => True) ρ) →
    T.Does w (fun ρ => P.At w s ρ ∧ P₀.live ∧ ρ.regs m = .void) fun ρ ρ' =>
      (Moved w s₂ P₀ m (Allowed s₂ m) ρ' ∧ ρ'.regs f = .val (.bool false) ∧
        ∀ q : Reg, q.index < s.regs.size → q ≠ m → q ≠ f → ρ'.regs q = ρ.regs q) ∨
      (P.At w s' ρ' ∧ Kept s ρ ρ')

theorem Fine.genMatched (h : Fine σ s body P) (hv : v ∈ P.regs) (hp : p.validate σ.types = .ok ())
    (hf : IsFlag s P f) (hm : m.index < s.regs.size) (hfm : f ≠ m) (hyes : Serves σ sub sub' yes) :
    Runs (Gen.genMatched sub v p f m s.draft.stack.length yes)
      (Gen.genMatched sub' v p f m s.draft.stack.length yes) s fun x s' =>
        ∃ T P', Matched σ s body P f m x s' T P' := by
  refine Runs.bind (Fine.descend p h hv hp) fun bs s₁ hd => ?_
  obtain ⟨N, P₁, hd, hN, hle, hbs, hstack₁, hdoes⟩ := hd
  have hf₁ : IsFlag s₁ P₁ f := hf.later h hd.later hle
  refine Runs.bind (hd.setFlag hf₁ false) fun _ s₂ hd₂ => ?_
  obtain ⟨id, hd₂, hs₂⟩ := hd₂
  refine hyes.moves hd₂.fine m _ fun {x t idx s₃ P₃ s₄} ha hstack => ?_
  obtain ⟨vs, hvs, hstack₄⟩ := hstack
  have hstack₄ : s₄.draft.stack = s.draft.stack := by
    rw [hstack₄]
    refine drop_of_suffix (hstack₁.trans ?_)
    rwa [← hs₂.stack]
  set u : Block := (Block.single id (.flag f false)).append (t.append (.single idx (.move m x))) with hu
  have hd₄ : Drawn σ s body s₄ (N.cat (.flat u)).code P₃ := by
    have := hd₂.trans ha.drawn
    simpa [hu, Nest.code] using this
  have hproper : u.Proper := Block.Proper.append (t := .single id _) ⟨rfl, by simp, trivial⟩
    (ha.proper.append ⟨rfl, by simp, trivial⟩)
  refine Runs.bind (hd₄.ascend (hN.cat (M := .flat u) hproper) (by simpa [Nest.opened] using hbs))
    fun _ s₅ hd₅ => ?_
  obtain ⟨T, hd₅, hT, hs₅, -, hclose⟩ := hd₅
  have hx : x.index < s₅.regs.size := by
    rw [hs₅.regs]
    exact (ha.made.regs x ha.mem).trans_le ha.rest.size
  refine runs_pure ⟨T, P₃, hd₅, hT, hs₅.stack.trans hstack₄, hx, ?_⟩
  intro w s₆ s₇ y z P₀ hw hlater hag htells hle₀ hmem hnoted
  have hlater₂ : s₂.Later s₅ := ha.drawn.later.trans hs₅.later
  have hw₁ := hw.left ((hs₂.later.trans hlater₂).trans hlater)
  have hw₂ : σ.Admits w s₂ s₆ := hw.right (hd.later.size.trans hs₂.later.size)
  have hm₂ : m.index < s₂.regs.size := hd₂.lt hm
  have hf₂ : f.index < s₂.regs.size := hd₂.lt (h.lt hf.mem)
  -- the flag is cleared, then the value is moved
  have hflag : (Block.single id (.flag f false)).Does w (fun ρ => P₁.At w s₁ ρ ∧ P₀.live ∧
      ρ.regs m = .void) fun ρ ρ' => (P₁.At w s₂ ρ' ∧ ρ'.regs m = .void) ∧ P₀.live ∧
        ρ' = ρ.set f (.val (.bool false)) := by
    refine Block.does_single (fun ρ hρ => ⟨hρ.1.noted, by simp [Instr.inputs], trivial,
      hρ.1.unheld, hρ.1.shields _⟩) ?_
    rintro ρ ρ' hρ ⟨κ, rfl, rfl⟩
    refine ⟨⟨(at_flag hρ.1 hf₁ false).later hd.fine.made hs₂.later, ?_⟩, hρ.2.1, rfl⟩
    rw [ρ.set_of_ne _ hfm.symm]
    exact hρ.2.2
  have hmove := hflag.append (R := fun ρ ρ' => Moved w s₇ P₀ m (Allowed s₇ m) ρ' ∧
      ρ'.regs f = .val (.bool false) ∧ ∀ q : Reg, q.index < s₂.regs.size → q ≠ m → q ≠ f →
        ρ'.regs q = ρ.regs q)
    (ha.moved (hle₀.trans hle) hm₂ hmem (hs₅.later.trans hlater) hag htells hw₂)
    (fun _ _ _ hq => hq.1) (by
      rintro ρ ρ₁ ρ' - ⟨-, hlive, rfl⟩ ⟨hmoved, hkept⟩
      refine ⟨hmoved hlive, ?_, fun q hq hne hne' => ?_⟩
      · rw [hkept f hf₂ hfm, Env.set_self]
      · rw [hkept q hq hne, ρ.set_of_ne _ hne'])
  have hnest := ((hdoes hw₁).mono (A := fun ρ => P.At w s ρ ∧ P₀.live ∧ ρ.regs m = .void)
      (B := fun ρ ρ' => (P₁.At w s₁ ρ' ∧ P₀.live ∧ ρ'.regs m = .void) ∧ Kept s ρ ρ')
      (D := fun ρ ρ' => P.At w s₁ ρ' ∧ Kept s ρ ρ') (fun _ hρ => hρ.1)
      (fun ρ ρ' hρ hq => ⟨⟨hq.1, hρ.2.1, (hq.2 m hm).trans hρ.2.2⟩, hq.2⟩)
      fun _ _ _ hq => hq).cat (G := fun ρ ρ' => P.At w s₁ ρ' ∧ Kept s ρ ρ')
      (R := fun ρ ρ' => Moved w s₇ P₀ m (Allowed s₇ m) ρ' ∧ ρ'.regs f = .val (.bool false) ∧
        ∀ q : Reg, q.index < s.regs.size → q ≠ m → q ≠ f → ρ'.regs q = ρ.regs q)
      (Nest.does_flat (F := fun _ _ => False) hmove) (fun _ _ _ hq => hq.1)
      (fun ρ ρ₁ ρ' _ hq hq' => ⟨hq'.1, hq'.2.1, fun q hlt hne hne' =>
        (hq'.2.2 q (hd₂.lt hlt) hne hne').trans (hq.2 q hlt)⟩) (fun _ _ _ hq => hq)
      fun _ _ _ _ _ hq => hq.elim
  refine (hclose hnest fun ρ ρ' _ hq => ?_).mono (fun _ h => h) fun ρ ρ' _ hq => ?_
  · exact hq.elim (fun hq => hnoted ρ' hq.1) fun hq => hq.1.noted
  · exact hq.imp (fun hq => hq) fun hq =>
      ⟨hq.1.later (h.made.later hd.later) (hs₂.later.trans hlater₂), hq.2⟩

/-- **Behind the levels of a match:** the value is on its way and the flag is cleared, or the flag is still
set and there is no value yet. -/
def Resolved (w : World) (s s' : GenState) (P : Point) (f m : Reg) (ρ : Env) : Prop :=
  (Moved w s' P m (Allowed s' m) ρ ∧ ρ.regs f = .val (.bool false)) ∨
    (P.add f).At w s ρ ∧ ρ.regs f = .val (.bool true) ∧ ρ.regs m = .void

/-- The flag is cleared just where the value is on its way. -/
theorem Resolved.moved (h : Resolved w s s₁ P f m ρ) (hf : ρ.regs f = .val (.bool false)) :
    Moved w s₁ P m (Allowed s₁ m) ρ :=
  (h.resolve_right fun hq => by cases hq.2.1.symm.trans hf).1

theorem Resolved.unmoved (h : Resolved w s s₁ P f m ρ) (hf : ρ.regs f = .val (.bool true)) :
    (P.add f).At w s ρ ∧ ρ.regs m = .void := by
  obtain ⟨hat, -, hvoid⟩ := h.resolve_left fun hq => by cases hq.2.symm.trans hf
  exact ⟨hat, hvoid⟩

/-- **The other arm runs where nothing matched**, and then the value is where it is wanted in any case. -/
theorem Fine.does_unmatched (h : Fine σ s body P) {ty : Block} {n j k a idy : NodeId} {no : Code} {y z : Reg}
    {s₄ s₅ s₆ s₇ s₈ : GenState} {P₅ : Point} {type : Option StaticType} (hf : IsFlag s₃ (P.add f) f)
    (hmade : (P.add f).Made s₃) (hle : s.regs.size ≤ s₃.regs.size) (h₃₄ : s₃.Later s₄)
    (ha : Arm σ s₄ no (P.add f) m y s₆ ty idy s₅ P₅) (h₆₇ : s₆.Later s₇) (hag : Agreed s₇ s₈ m z y)
    (hrole : s₈.regs[m.index]? = some ⟨.merged, type⟩) (hm : New s s₇ ⟨.merged, none⟩ m)
    (hm₄ : m.index < s₄.regs.size) (hwf : w.Keeps s₈ m) (hw : σ.Admits w s₄ s₇) :
    (Block.arms a f n (ty.append (.single idy (.move m y))) j k .nil (.merge m) .nil).Does w
      (Resolved w s₃ s₈ P f m) fun ρ ρ' => (P.add m).At w s₈ ρ' ∧ Kept s ρ ρ' := by
  have hmem : m ∉ P.regs := fun hmem => absurd (h.made.regs m hmem) (by have := hm.new; omega)
  have hne : ∀ {q : Reg}, q.index < s.regs.size → q ≠ m := by
    rintro q hq rfl
    exact absurd hm.new (by omega)
  have hknown : s₈.draft.known[m]? = none := by
    rw [hag.known]
    exact hm.known
  refine Block.does_arms (Q := fun ρ ρ' => Moved w s₈ P m (Allowed s₈ m) ρ' ∧ Kept s ρ ρ')
    (fun ρ hρ => ?_) ?_ (Block.does_nil fun ρ hρ => ⟨hρ.1.moved hρ.2, Kept.refl s ρ⟩) fun ρ ρ' _ hq => ?_
  · rcases hρ with ⟨hmoved, hfalse⟩ | ⟨hat, htrue, -⟩
    · exact ⟨hmoved.noted hwf hrole hknown, by simp [Instr.inputs, hfalse], ⟨false, hfalse⟩,
        by simp [Instr.creates], trivial⟩
    · exact hf.safe hat n
  · refine (ha.moved (P.le_add f) hm₄ hmem h₆₇ hag (fun ht => (hag.tells ht).2) hw).mono
      (fun ρ hρ => ?_) fun ρ ρ' hρ hq => ?_
    · obtain ⟨hat, hvoid⟩ := hρ.1.unmoved hρ.2
      exact ⟨hat.later hmade h₃₄, hvoid⟩
    · obtain ⟨hat, -⟩ := hρ.1.unmoved hρ.2
      exact ⟨hq.1 hat.live, fun q hlt => hq.2 q ((hlt.trans_le hle).trans_le h₃₄.size) (hne hlt)⟩
  · obtain ⟨hsafe, hfires⟩ := hq.1.merge h.made hm.new hrole hknown hwf
    refine ⟨hsafe, fun ρ₂ hf => ⟨(hfires ρ₂ hf).1, fun q hlt => ?_⟩⟩
    rw [(hfires ρ₂ hf).2 q (hne hlt)]
    exact hq.2 q hlt

theorem Fine.genLevelsValue (h : Fine σ s body P) (hv : v ∈ P.regs)
    (hp : p.validate σ.types = .ok ()) (hyes : Serves σ sub sub' yes) (hno : Serves σ sub sub' no) :
    Emits σ (Gen.genLevelsValue sub v p yes no) (Gen.genLevelsValue sub' v p yes no) s body P
      (Answer s false) := by
  refine Runs.read (height_run s) ?_
  refine h.make (.flag · true) ⟨fun _ => rfl, fun _ => rfl, fun _ => rfl, by simp [Instr.inputs], by simp,
    fun _ => rfl, fun _ _ _ => trivial, id, fun _ _ hg => ?_⟩
    fun f s₁ id hd hp₀ hl hgives hr hstack₁ => ?_
  · rw [show _ = Kind.bool true from hg]
    exact ⟨by simp, fun t ht => Option.some.inj ht⟩
  set t₀ : Block := .single id (.flag f true) with ht₀
  have hf : IsFlag s₁ (P.add f) f := ⟨P.mem_add f, hr.facts⟩
  refine Runs.bind (hd.freshReg .merged (by simp)) fun m s₂ hd₂ => ?_
  obtain ⟨hd₂, hm, hlater₂, hnew, hstack₂⟩ := hd₂
  have hfm : f ≠ m := by
    rintro rfl
    exact absurd hr.lt (by omega)
  have hf₂ : IsFlag s₂ (P.add f) f := hf.later hd.fine hlater₂ le_rfl
  have hv₂ : v ∈ (P.add f).regs := (P.le_add f).1 hv
  have hmem : m ∉ P.regs := fun hmem => absurd (h.made.regs m hmem) (by have := hm.new; omega)
  have hstack₂ : s₂.draft.stack = s.draft.stack := hstack₂.trans hstack₁
  rw [← hstack₂]
  refine Runs.bind (hd₂.fine.genMatched hv₂ hp hf₂ hm.lt hfm hyes) fun x s₃ hmatched => ?_
  obtain ⟨T, P₃, hT⟩ := hmatched
  have hlater₃ := hT.drawn.later
  have hd₃ : Drawn σ s body s₃ (t₀.code ++ T.code) (P.add f) := by
    refine (hd₂.trans hT.drawn).move (hd₂.fine.made.later hlater₃) fun v hv => ?_
    rw [hT.stack, hstack₂] at hv
    exact (P.le_add f).1 (h.stack v hv).1
  have hm₃ : Held s s₃ (t₀.code ++ T.code) ⟨.merged, none⟩ m := hm.trans hd₂ hT.drawn
  have hf₃ : IsFlag s₃ (P.add f) f := hf₂.later hd₂.fine hlater₃ le_rfl
  unfold Gen.genUnmatched
  simp only [bind_assoc, pure_bind]
  refine Runs.bind (hd₃.openBranch (hd₃.fine.lt hf₃.mem) hf₃.role) fun b s₄ hd₄ => ?_
  obtain ⟨hd₄, hs₄⟩ := hd₄
  refine hno.moves hd₄.fine m _ fun {y ty idy s₅ P₅ s₆} ha hstack => ?_
  obtain ⟨vs, hvs, hstack₆⟩ := hstack
  have hstack₆ : s₆.draft.stack = s.draft.stack := by
    rw [hstack₆, ← hstack₂, ← hT.stack, ← hs₄.stack]
    exact drop_of_suffix hvs
  have hm₄ : Held s s₄ (t₀.code ++ T.code ++ [(b.node, Instr.branch f head)]) ⟨.merged, none⟩ m :=
    hm₃.congr hs₄ (by simp [owners, Instr.creates])
  have hm₆ := hm₄.trans hd₄ ha.drawn
  have hd₆ := hd₄.trans ha.drawn
  rw [List.append_assoc (t₀.code ++ T.code), List.singleton_append] at hd₆ hm₆
  refine Runs.bind (hd₆.closeBranch (o := some m) (by simpa using hm₆)) fun _ s₇ hd₇ => ?_
  obtain ⟨n, j, k, hd₇, hs₇⟩ := hd₇
  have hm₇ : New s s₇ ⟨.merged, none⟩ m := hm₆.toNew.later hs₇.later
  have hlater₆ : s₃.Later s₆ := hs₄.later.trans ha.drawn.later
  have hlater₇ : s₃.Later s₇ := hlater₆.trans hs₇.later
  have hx₇ : x.index < s₇.regs.size := hT.lt.trans_le hlater₇.size
  have hy₇ : y.index < s₇.regs.size := (ha.made.regs y ha.mem).trans_le (ha.rest.trans hs₇.later).size
  refine Runs.bind (hd₇.agree hm₇ hx₇ hy₇) fun _ s₈ hd₈ => ?_
  obtain ⟨hd₈, hag⟩ := hd₈
  have hlater₈ : s₁.Later s₈ := hag.later ((hlater₂.trans hlater₃).trans hlater₇) hnew
  have hm₈ : m.index < s₈.regs.size := by
    rw [hag.size]
    exact hm₇.lt
  set yb := ty.append (.single idy (.move m y)) with hyb
  set arms : Block := .arms b.node f n yb j k .nil (.merge m) .nil with harms
  refine runs_pure ⟨t₀.append (T.append arms), P.add m, ?_, hp₀.append (hT.proper.append
    ⟨ha.proper.append ⟨rfl, by simp, trivial⟩, trivial, rfl, trivial⟩), ⟨P.le_add m, fun {w} hw => ?_, absurd⟩,
    by simp, by simpa using P.mem_add m, by simp, ?_⟩
  · have hcode : (t₀.append (T.append arms)).code = t₀.code ++ T.code ++ arms.code := by simp
    rw [hcode]
    refine hd₈.move ((h.made.later hd₈.later).add hm₈) fun v hv => (P.le_add m).1 ?_
    rw [hag.stack, hs₇.stack, hstack₆] at hv
    exact (h.stack v hv).1
  · obtain ⟨type, hrole⟩ := hag.role
    have hwm : σ.Admits w s₂ s₇ := hag.admits hw hd₂.later.size hm.lt
    have hwf := hw.keeps hm.new hm₈
    have hknown : s₈.draft.known[m]? = none := by
      rw [hag.known]
      exact hm₇.known
    have hne : ∀ {q : Reg}, q.index < s.regs.size → q ≠ m ∧ q ≠ f := fun {q} hq =>
      ⟨by rintro rfl; exact absurd hm.new (by omega), by rintro rfl; exact absurd hr.new (by omega)⟩
    -- the flag is set, and then cleared just where the value is on its way
    have hset : t₀.Does w (P.At w s) fun ρ ρ' => ((P.add f).At w s₁ ρ' ∧
        ρ'.regs f = .val (.bool true)) ∧ Kept s ρ ρ' := by
      have hw₁ := hw.left hlater₈
      refine ((hl.does hw₁).and (hgives hw₁)).mono (fun _ h => h) fun ρ ρ' _ hq => ?_
      obtain ⟨⟨hat, hkept⟩, κ, rfl, hκ⟩ := hq
      exact ⟨⟨hat, hκ⟩, hkept⟩
    have hmid : T.Does w (fun ρ => (P.add f).At w s₁ ρ ∧ ρ.regs f = .val (.bool true)) fun ρ ρ' =>
        Resolved w s₃ s₈ P f m ρ' ∧ Kept s ρ ρ' := by
      refine (hT.does hwm hlater₇ hag (fun ht => (hag.tells ht).1) (P.le_add f) hmem fun ρ hρ =>
        hρ.noted hwf hrole hknown).mono (fun ρ hρ => ⟨hρ.1.later hd.fine.made hlater₂, hρ.1.live,
          hρ.1.fresh m hnew⟩) fun ρ ρ' hρ hq => ?_
      rcases hq with ⟨hmoved, hfalse, hkept⟩ | ⟨hat, hkept⟩
      · exact ⟨Or.inl ⟨hmoved, hfalse⟩, fun q hq => hkept q (hd₂.lt hq) (hne hq).1 (hne hq).2⟩
      · refine ⟨Or.inr ⟨hat, ?_, ?_⟩, fun q hq => hkept q (hd₂.lt hq)⟩
        · rw [hkept f (hd₂.fine.lt hf₂.mem), hρ.2]
        · rw [hkept m hm.lt, hρ.1.fresh m hnew]
    have hrest : arms.Does w (Resolved w s₃ s₈ P f m) fun ρ ρ' => (P.add m).At w s₈ ρ' ∧ Kept s ρ ρ' :=
      h.does_unmatched hf₃ hd₃.fine.made hd₃.later.size hs₄.later ha hs₇.later hag hrole hm₇ hm₄.lt hwf
        (hwm.right (hlater₃.size.trans hs₄.later.size))
    refine hset.append (hmid.append hrest (R := fun ρ ρ' => (P.add m).At w s₈ ρ' ∧ Kept s ρ ρ')
      (fun _ _ _ hq => hq.1) fun _ _ _ _ hq hq' => ⟨hq'.1, hq.2.trans hq'.2 le_rfl⟩)
      (fun _ _ _ hq => hq.1) fun _ _ _ _ hq hq' => ⟨hq'.1, hq.2.trans hq'.2 le_rfl⟩
  · rw [hag.stack, hs₇.stack, hstack₆]

theorem Fine.genAlternatives (h : Fine σ s body P) (hctx : ctx.types = σ.types) (hv : v ∈ P.regs)
    (p : Pattern) (hyes : Serves σ sub sub' yes) (hno : Serves σ sub sub' no) (tail c : Bool) :
    Emits σ (Gen.genAlternatives ctx sub v p yes no tail)
      (Gen.genAlternatives (ctx.checking c) sub' v p yes no tail) s body P (Answer s tail) := by
  unfold Gen.genAlternatives
  refine Runs.read (knownType_run (h.lt hv)) ?_
  cases p with
  | bind => exact h.genFitting hctx hv _ hyes tail c
  | ignore => exact h.genFitting hctx hv _ hyes tail c
  | unpack ty fields =>
    split
    · exact h.genFitting hctx hv _ hyes tail c
    · exact runs_validated hctx fun _ => hno.expr tail h
    · split_ifs
      · exact h.genOneLevel hctx hv ty fields hyes hno tail c
      · refine runs_validated hctx fun hp => ?_
        cases tail with
        | true => exact h.genLevelsTail hv hp hyes hno
        | false => exact h.genLevelsValue hv hp hyes hno

/-- **Code for a match.** -/
theorem Fine.genMatch (h : Fine σ s body P) (hctx : ctx.types = σ.types) (p : Pattern) {e : Expr}
    {no : Option Expr} (he : Serves σ sub sub' e) (hyes : Serves σ sub sub' yes)
    (hno : ∀ e ∈ no, Serves σ sub sub' e) (tail c : Bool) :
    Emits σ (Gen.genMatch ctx sub p e yes no tail)
      (Gen.genMatch (ctx.checking c) sub' p e yes no tail) s body P (Answer s tail) := by
  refine (he.value h).bind fun v s₁ _ _ hd _ hv => ?_
  have hsub : ∀ {out s' P'}, Answer s₁ tail out s' P' → Answer s tail out s' P' := fun ha =>
    ⟨ha.some, ha.mem, ha.ends, hv.2.trans ha.stack⟩
  cases no with
  | none => exact (hd.fine.genFitting hctx hv.1 p hyes tail c).mono fun _ _ _ _ _ _ => hsub
  | some no =>
    exact (hd.fine.genAlternatives hctx hv.1 p hyes (hno no rfl) tail c).mono fun _ _ _ _ _ _ => hsub

end Gen

end CountedMachine
