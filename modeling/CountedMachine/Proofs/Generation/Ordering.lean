import CountedMachine.Proofs.Generation.Completion

/-! # Code generation keeps drafts in order

One lemma for each function of the code generator: it works where the ways to treat sub-expressions
do (`SubWorks`). Sub-expressions are generated in the place they stand in: where there are no calls
but tail calls, an expression in tail position may make one and any other may not, and where there are
no cells no binding is mutable (`Brief.Allows`). -/

namespace CountedMachine

open Listing

namespace Expr

variable {e : Expr}

theorem tailCalls_of_mem : ∀ {es : List Expr}, tailCallsList es = true → e ∈ es →
    e.tailCalls false = true
  | x :: es, h, he => by
    rw [tailCallsList, Bool.and_eq_true] at h
    rcases List.mem_cons.mp he with rfl | he
    · exact h.1
    · exact tailCalls_of_mem h.2 he

theorem tailCalls_of_bind {x : Binding Expr} : ∀ {bs : List (Binding Expr)},
    tailCallsBinds bs = true → x ∈ bs → x.value.tailCalls false = true
  | ⟨y, _⟩ :: bs, h, hx => by
    rw [tailCallsBinds, Bool.and_eq_true] at h
    rcases List.mem_cons.mp hx with rfl | hx
    · exact h.1
    · exact tailCalls_of_bind h.2 hx

theorem immutable_of_mem : ∀ {es : List Expr}, immutableList es = true → e ∈ es → e.immutable = true
  | x :: es, h, he => by
    rw [immutableList, Bool.and_eq_true] at h
    rcases List.mem_cons.mp he with rfl | he
    · exact h.1
    · exact immutable_of_mem h.2 he

theorem immutable_of_bind {x : Binding Expr} : ∀ {bs : List (Binding Expr)},
    immutableBinds bs = true → x ∈ bs → x.value.immutable = true ∧ x.mutable = false
  | ⟨y, mutable⟩ :: bs, h, hx => by
    simp only [immutableBinds, Bool.and_eq_true, Bool.not_eq_true'] at h
    rcases List.mem_cons.mp hx with rfl | hx
    · exact h.1
    · exact immutable_of_bind h.2 hx

end Expr

namespace Brief.Allows

variable {b : Brief} {e e' : Expr} {tail tail' : Bool}

/-- A part of what may stand there. -/
theorem part (h : b.Allows e tail) (hcalls : e.tailCalls tail = true → e'.tailCalls tail' = true)
    (hcells : e.immutable = true → e'.immutable = true) : b.Allows e' tail' :=
  ⟨h.calls.imp id hcalls, h.cells.imp id hcells⟩

/-- The parts of what may stand there that are in a list. -/
theorem parts (h : b.Allows e tail) {es : List Expr}
    (hcalls : e.tailCalls tail = true → Expr.tailCallsList es = true)
    (hcells : e.immutable = true → Expr.immutableList es = true) : ∀ x ∈ es, b.Allows x false :=
  fun _ hx => h.part (fun ht => Expr.tailCalls_of_mem (hcalls ht) hx)
    fun hi => Expr.immutable_of_mem (hcells hi) hx

end Brief.Allows

namespace ObjType

theorem declared_of_width {types : Array StructType} {ty : ObjType} {n : Nat}
    (h : ty.width types = .ok n) : ty.Declared types := by
  cases ty with
  | struct id =>
    cases hd : types[id]? with
    | none => simp [width, hd] at h
    | some d => exact (Array.getElem?_eq_some_iff.mp hd).1
  | _ => trivial

end ObjType

namespace Pattern

/-- The types of a pattern are declared. -/
inductive Declared (types : Array StructType) : Pattern → Prop
  | bind : Declared types .bind
  | ignore : Declared types .ignore
  | unpack {ty : ObjType} {fields : List (Nat × Pattern)} : ty.Declared types →
    (∀ f ∈ fields, Declared types f.2) → Declared types (.unpack ty fields)

mutual

theorem declared_of_validate {types : Array StructType} :
    ∀ {p : Pattern}, p.validate types = .ok () → p.Declared types
  | .bind, _ => .bind
  | .ignore, _ => .ignore
  | .unpack ty fields, h => by
    rw [validate] at h
    cases hw : ty.width types with
    | error e => rw [hw] at h; cases h
    | ok n =>
      rw [hw] at h
      exact .unpack (ObjType.declared_of_width hw) (declared_of_validateFields h)

theorem declared_of_validateFields {types : Array StructType} {ty : ObjType} {width : Nat} :
    ∀ {fields : List (Nat × Pattern)}, validateFields types ty width fields = .ok () →
      ∀ f ∈ fields, f.2.Declared types
  | [], _, _, hf => by cases hf
  | (offset, p) :: rest, h, f, hf => by
    rw [validateFields] at h
    by_cases hw : width ≤ offset
    · rw [if_pos hw] at h
      cases hn : ty.nameIn types <;> rw [hn] at h <;> cases h
    · rw [if_neg hw] at h
      cases hp : p.validate types with
      | error e => rw [hp] at h; cases h
      | ok u =>
        rw [hp] at h
        rcases List.mem_cons.mp hf with rfl | hf
        · exact declared_of_validate hp
        · exact declared_of_validateFields h f hf

end

end Pattern

namespace Gen

variable {α β : Type} {b : Brief} {s s₁ : GenState} {rs : List Reg} {r v : Reg} {sub : Sub}
  {e yes no : Expr} {p : Pattern} {tail : Bool}

/-! ## Patterns -/

theorem works_validatePattern (h : InOrder b [] s) (p : Pattern) :
    Works b s (validatePattern b.ctx p) fun _ _ => p.Declared b.ctx.types := by
  unfold validatePattern
  split
  · next hp => exact works_pure h (Pattern.declared_of_validate hp)
  · exact works_throw _

theorem InOrder.readField (h : InOrder b [] s) (hv : s.Made v) (ty : ObjType) (idx : Nat) :
    Works b s (readField v ty idx) fun r s' => s'.Made r :=
  h.create _ _ (.field · v idx) (by simp [Instr.operands, hv]) (fun _ _ _ => trivial) (fun _ => rfl)
    (fun _ => rfl) fun _ _ ho _ hr => works_pure ho hr

theorem InOrder.bindReg (h : InOrder b [] s) (hr : s.Made r) :
    Works b s (bindReg r) fun _ _ => True := h.pushVariable hr nofun

mutual

theorem InOrder.bindWhole : ∀ {s : GenState} {v : Reg} (p : Pattern), InOrder b [] s → s.Made v →
    Works b s (bindWhole b.ctx v p) fun _ _ => True
  | _, _, .bind, h, hv => h.bindReg hv
  | _, _, .ignore, h, _ => works_pure h trivial
  | s, v, .unpack ty fields, h, hv => by
    rw [Gen.bindWhole]
    refine (works_validatePattern h _).bind fun _ s₁ ho hg hp => ?_
    refine (ho.knownType v).bind fun t s₂ ho₂ hg₂ _ => ?_
    have hv₂ := hg₂.made (hg.made hv)
    split
    · refine (ho₂.write (.guard v ty) (by simpa [Instr.operands] using hv₂) ?_ rfl rfl).bind
        fun _ s₃ ho₃ hg₃ _ => InOrder.bindParts ty fields ho₃ (hg₃.made hv₂)
      cases hp with
      | unpack hty _ => exact hty
    · exact InOrder.bindParts ty fields ho₂ hv₂

theorem InOrder.bindParts : ∀ {s : GenState} {v : Reg} (ty : ObjType) (fields : List (Nat × Pattern)),
    InOrder b [] s → s.Made v → Works b s (bindParts b.ctx v ty fields) fun _ _ => True
  | _, _, _, [], h, _ => works_pure h trivial
  | s, v, ty, (offset, p) :: rest, h, hv => by
    rw [Gen.bindParts]
    split
    · refine (h.readField hv ty offset).bind fun f s₁ ho hg hf => ?_
      exact (InOrder.bindWhole p ho hf).bind fun _ s₂ ho₂ hg₂ _ =>
        InOrder.bindParts ty rest ho₂ (hg₂.made (hg.made hv))
    · exact InOrder.bindParts ty rest h hv

end

theorem InOrder.openTest (h : InOrder b [] s) (hv : s.Made v) {ty : ObjType}
    (hty : ty.Declared b.ctx.types) : Works b s (openTest v ty) fun _ _ => True :=
  h.create _ _ (.testType · v ty) (by simp [Instr.operands, hv]) (fun _ _ _ => hty) (fun _ => rfl)
    (fun _ => rfl) fun _ _ ho _ hr => ho.openBranch hr

mutual

theorem InOrder.descend : ∀ {s : GenState} {v : Reg} (p : Pattern), InOrder b [] s → s.Made v →
    p.Declared b.ctx.types → Works b s (descend v p) fun _ _ => True
  | _, _, .bind, h, hv, _ => by
    rw [Gen.descend]
    exact (h.bindReg hv).bind fun _ _ ho _ _ => works_pure ho trivial
  | _, _, .ignore, h, _, _ => works_pure h trivial
  | s, v, .unpack ty fields, h, hv, hp => by
    obtain ⟨hty, hfields⟩ : ty.Declared b.ctx.types ∧ ∀ f ∈ fields, f.2.Declared b.ctx.types := by
      cases hp with
      | unpack hty hfields => exact ⟨hty, hfields⟩
    rw [Gen.descend]
    refine (h.knownType v).bind fun t s₁ ho hg _ => ?_
    have hparts : ∀ level : List Branch, ∀ s₂, InOrder b [] s₂ → s₁.Grown s₂ →
        Works b s₂ (Gen.descendParts v ty fields >>= fun rest => pure (level ++ rest))
          fun _ _ => True := fun level s₂ ho₂ hg₂ =>
      (InOrder.descendParts ty fields ho₂ (hg₂.made (hg.made hv)) hfields).bind
        fun _ _ ho₃ _ _ => works_pure ho₃ trivial
    dsimp only
    split
    · exact WorksTo.bind ((ho.openTest (hg.made hv) hty).map (R := fun _ _ => True) fun _ _ _ => trivial)
        fun level s₂ ho₂ hg₂ _ => hparts level s₂ ho₂ hg₂
    · exact hparts [] s₁ ho (.refl s₁)

theorem InOrder.descendParts : ∀ {s : GenState} {v : Reg} (ty : ObjType)
    (fields : List (Nat × Pattern)), InOrder b [] s → s.Made v →
    (∀ f ∈ fields, f.2.Declared b.ctx.types) → Works b s (descendParts v ty fields) fun _ _ => True
  | _, _, _, [], h, _, _ => works_pure h trivial
  | s, v, ty, (offset, p) :: rest, h, hv, hp => by
    rw [Gen.descendParts]
    have hparts : ∀ levels : List Branch, ∀ s₁, InOrder b [] s₁ → s.Grown s₁ →
        Works b s₁ (Gen.descendParts v ty rest >>= fun more => pure (levels ++ more))
          fun _ _ => True := fun levels s₁ ho hg =>
      (InOrder.descendParts ty rest ho (hg.made hv) fun f hf => hp f (by simp [hf])).bind
        fun _ _ ho₂ _ _ => works_pure ho₂ trivial
    split
    · exact hparts [] s h (.refl s)
    · refine (h.readField hv ty offset).bind fun f s₁ ho hg hf => ?_
      exact (InOrder.descend p ho hf (hp (offset, p) (by simp))).bind fun levels s₂ ho₂ hg₂ _ =>
        hparts levels s₂ ho₂ (hg.trans hg₂)

end

theorem InOrder.ascend : ∀ {s : GenState} (branches : List Branch), InOrder b [] s →
    Works b s (ascend branches) fun _ _ => True
  | _, [], h => works_pure h trivial
  | _, branch :: outer, h => by
    rw [Gen.ascend]
    exact (h.closeBranch branch (by simp)).bind fun _ _ ho _ _ => InOrder.ascend outer ho

/-! ## Sub-expressions -/

/-- **Generating code for sub-expressions works**, in every unit. -/
structure SubWorks (ctx : Context) (sub : Sub) : Prop where
  expr : ∀ {b : Brief} {s : GenState} {e : Expr} {tail : Bool}, b.ctx = ctx → InOrder b [] s →
    b.Allows e tail → Works b s (sub.expr e tail) fun out s' => ∀ r ∈ out, s'.Made r
  value : ∀ {b : Brief} {s : GenState} {e : Expr}, b.ctx = ctx → InOrder b [] s →
    b.Allows e false → Works b s (sub.value e) fun r s' => s'.Made r
  tail : ∀ {b : Brief} {s : GenState} {e : Expr}, b.ctx = ctx → InOrder b [] s →
    b.Allows e true → Works b s (sub.tail e) fun _ _ => True

theorem subWorks_of {ctx : Context} {expr : Expr → Bool → Gen (Option Reg)}
    (h : ∀ {b : Brief} {s : GenState} {e : Expr} {tail : Bool}, b.ctx = ctx → InOrder b [] s →
      b.Allows e tail → Works b s (expr e tail) fun out s' => ∀ r ∈ out, s'.Made r) :
    SubWorks ctx (.of expr) where
  expr := h
  value hb ho he := by
    refine (h hb ho he).bind fun out s₁ ho₁ _ hout => ?_
    split
    · exact works_pure ho₁ (hout _ rfl)
    · exact works_throw _
  tail hb ho he := by
    refine (h hb ho he).bind fun out s₁ ho₁ _ hout => ?_
    split
    · exact ho₁.write (.ret _) (by simpa [Instr.operands] using hout) trivial rfl rfl
    · exact works_pure ho₁ trivial

/-- The values of some expressions, one after the other. -/
theorem SubWorks.mapM (hs : SubWorks b.ctx sub) : ∀ {s : GenState} (es : List Expr),
    InOrder b [] s → (∀ e ∈ es, b.Allows e false) →
    Works b s (es.mapM sub.value) fun rs s' => (∀ r ∈ rs, s'.Made r) ∧ rs.length = es.length
  | _, [], h, _ => by
    rw [List.mapM_nil]
    exact works_pure h ⟨by simp, rfl⟩
  | s, e :: es, h, he => by
    rw [List.mapM_cons]
    refine (hs.value rfl h (he e (by simp))).bind fun r s₁ ho _ hr => ?_
    refine (hs.mapM es ho fun x hx => he x (by simp [hx])).bind fun rs s₂ ho₂ hg₂ hrs => ?_
    refine works_pure ho₂ ⟨fun q hq => ?_, by simp [hrs.2]⟩
    rcases List.mem_cons.mp hq with rfl | hq
    · exact hg₂.made hr
    · exact hrs.1 q hq

/-! ## Arms -/

theorem InOrder.mergeReg (h : InOrder b [] s) (tail : Bool) :
    Works b s (mergeReg tail) fun out s' => (∀ r ∈ out, s'.Made r) ∧ (out = none ↔ tail = true) := by
  unfold Gen.mergeReg
  split
  · exact works_pure h ⟨by simp, by simp_all⟩
  · exact (h.freshReg _ _).map fun r s₁ hr => ⟨by simpa using hr, by simp_all⟩

theorem SubWorks.genArm (hs : SubWorks b.ctx sub) (h : InOrder b [] s) {merged : Option Reg}
    (hm : ∀ r ∈ merged, s.Made r) (he : b.Allows e merged.isNone) (n : Nat) :
    Works b s (genArm sub e merged n) fun _ _ => True := by
  cases merged with
  | some dst =>
    refine (hs.value rfl h he).bind fun src s₁ ho hg hsrc => ?_
    have hdst : s₁.Made dst := hg.made (hm dst rfl)
    refine (ho.write (.move dst src) (by simp [Instr.operands, hdst, hsrc]) trivial rfl rfl).bind
      fun _ s₂ ho₂ _ _ => ?_
    exact (ho₂.forgetAbove n).bind fun _ _ ho₃ _ _ => works_pure ho₃ trivial
  | none =>
    refine (hs.tail rfl h he).bind fun _ s₁ ho _ _ => ?_
    exact (ho.forgetAbove n).bind fun _ _ ho₂ _ _ => works_pure ho₂ trivial

theorem SubWorks.genArms (hs : SubWorks b.ctx sub) (h : InOrder b [] s) (branch : Branch)
    {merged : Option Reg} (hm : ∀ r ∈ merged, s.Made r) (hyes : b.Allows yes merged.isNone)
    (hno : b.Allows no merged.isNone) (n : Nat) :
    Works b s (genArms sub branch merged n yes no) fun out s' => ∀ r ∈ out, s'.Made r := by
  refine (hs.genArm h hm hyes n).bind fun x s₁ ho hg _ => ?_
  refine (ho.beginElse branch).bind fun branch s₂ ho₂ hg₂ _ => ?_
  have hg₂ := hg.trans hg₂
  refine (hs.genArm ho₂ (fun r hr => hg₂.made (hm r hr)) hno n).bind fun y s₃ ho₃ hg₃ _ => ?_
  have hg₃ := hg₂.trans hg₃
  refine (ho₃.meet branch fun r hr => hg₃.made (hm r hr)).bind fun _ s₄ ho₄ hg₄ _ => ?_
  have hg₄ := hg₃.trans hg₄
  split
  · exact (ho₄.agree _ _ _).bind fun _ s₅ ho₅ hg₅ _ =>
      works_pure ho₅ fun r hr => (hg₄.trans hg₅).made (hm r hr)
  · exact works_pure ho₄ fun r hr => hg₄.made (hm r hr)

/-! ## Matches -/

theorem SubWorks.genFitting (hs : SubWorks b.ctx sub) (h : InOrder b [] s) (hv : s.Made v)
    (p : Pattern) (he : b.Allows yes tail) :
    Works b s (genFitting b.ctx sub v p yes tail) fun out s' => ∀ r ∈ out, s'.Made r := by
  refine h.height.bind fun n s₁ ho hg _ => ?_
  refine (InOrder.bindWhole p ho (hg.made hv)).bind fun _ s₂ ho₂ _ _ => ?_
  refine (hs.expr rfl ho₂ he).bind fun out s₃ ho₃ _ hout => ?_
  exact (ho₃.forgetAbove n).bind fun _ s₄ ho₄ hg₄ _ =>
    works_pure ho₄ fun r hr => hg₄.made (hout r hr)

theorem SubWorks.genOneLevel (hs : SubWorks b.ctx sub) (h : InOrder b [] s) (hv : s.Made v)
    (p : Pattern) (hyes : b.Allows yes tail) (hno : b.Allows no tail) :
    Works b s (genOneLevel b.ctx sub v p yes no tail) fun out s' => ∀ r ∈ out, s'.Made r := by
  unfold Gen.genOneLevel
  split
  · next ty fields =>
    refine (works_validatePattern h _).bind fun _ s₁ ho hg hp => ?_
    obtain hty : ty.Declared b.ctx.types := by
      cases hp with
      | unpack hty _ => exact hty
    refine ho.height.bind fun n s₂ ho₂ hg₂ _ => ?_
    have hg₂ := hg.trans hg₂
    refine (ho₂.openTest (hg₂.made hv) hty).bind fun branch s₃ ho₃ hg₃ _ => ?_
    refine (ho₃.mergeReg tail).bind fun merged s₄ ho₄ hg₄ hm => ?_
    have hg₄ := (hg₂.trans hg₃).trans hg₄
    have htail : merged.isNone = tail := by
      rw [Bool.eq_iff_iff, Option.isNone_iff_eq_none, hm.2]
    refine (InOrder.bindParts ty fields ho₄ (hg₄.made hv)).bind fun _ s₅ ho₅ hg₅ _ => ?_
    exact hs.genArms ho₅ branch (fun r hr => hg₅.made (hm.1 r hr)) (htail ▸ hyes) (htail ▸ hno) n
  · exact works_throw _

theorem SubWorks.genLevelsTail (hs : SubWorks b.ctx sub) (h : InOrder b [] s) (hv : s.Made v)
    (hp : p.Declared b.ctx.types) (hyes : b.Allows yes true) (hno : b.Allows no true) :
    Works b s (genLevelsTail sub v p yes no) fun out s' => ∀ r ∈ out, s'.Made r := by
  refine h.height.bind fun n s₁ ho hg _ => ?_
  refine (InOrder.descend p ho (hg.made hv) hp).bind fun levels s₂ ho₂ _ _ => ?_
  refine (hs.tail rfl ho₂ hyes).bind fun _ s₃ ho₃ _ _ => ?_
  refine (ho₃.forgetAbove n).bind fun _ s₄ ho₄ _ _ => ?_
  refine (InOrder.ascend _ ho₄).bind fun _ s₅ ho₅ _ _ => ?_
  exact (hs.tail rfl ho₅ hno).bind fun _ s₆ ho₆ _ _ => works_pure ho₆ (by simp)

theorem SubWorks.genMatched (hs : SubWorks b.ctx sub) (h : InOrder b [] s) (hv : s.Made v)
    (hp : p.Declared b.ctx.types) {unmatched merged : Reg} (hu : s.Made unmatched)
    (hm : s.Made merged) (n : Nat) (hyes : b.Allows yes false) :
    Works b s (genMatched sub v p unmatched merged n yes) fun _ _ => True := by
  refine (InOrder.descend p h hv hp).bind fun levels s₁ ho hg _ => ?_
  refine (ho.write (.flag unmatched false) (by simp [Instr.operands, hg.made hu]) trivial rfl
    rfl).bind fun _ s₂ ho₂ hg₂ _ => ?_
  refine (hs.value rfl ho₂ hyes).bind fun x s₃ ho₃ hg₃ hx => ?_
  have hm₃ : s₃.Made merged := ((hg.trans hg₂).trans hg₃).made hm
  refine (ho₃.write (.move merged x) (by simp [Instr.operands, hm₃, hx]) trivial rfl rfl).bind
    fun _ s₄ ho₄ _ _ => ?_
  refine (ho₄.forgetAbove n).bind fun _ s₅ ho₅ _ _ => ?_
  exact (InOrder.ascend _ ho₅).bind fun _ s₆ ho₆ _ _ => works_pure ho₆ trivial

theorem SubWorks.genUnmatched (hs : SubWorks b.ctx sub) (h : InOrder b [] s)
    {unmatched merged : Reg} (hu : s.Made unmatched) (hm : s.Made merged) (n : Nat)
    (hno : b.Allows no false) :
    Works b s (genUnmatched sub unmatched merged n no) fun _ _ => True := by
  refine (h.openBranch hu).bind fun branch s₁ ho hg _ => ?_
  refine (hs.value rfl ho hno).bind fun y s₂ ho₂ hg₂ hy => ?_
  have hm₂ : s₂.Made merged := (hg.trans hg₂).made hm
  refine (ho₂.write (.move merged y) (by simp [Instr.operands, hm₂, hy]) trivial rfl rfl).bind
    fun _ s₃ ho₃ hg₃ _ => ?_
  refine (ho₃.forgetAbove n).bind fun _ s₄ ho₄ hg₄ _ => ?_
  have hmerged : ∀ r ∈ some merged, s₄.Made r := by simpa using (hg₃.trans hg₄).made hm₂
  exact (ho₄.closeBranch branch hmerged).bind fun _ s₅ ho₅ _ _ => works_pure ho₅ trivial

theorem SubWorks.genLevelsValue (hs : SubWorks b.ctx sub) (h : InOrder b [] s) (hv : s.Made v)
    (hp : p.Declared b.ctx.types) (hyes : b.Allows yes false) (hno : b.Allows no false) :
    Works b s (genLevelsValue sub v p yes no) fun out s' => ∀ r ∈ out, s'.Made r := by
  refine h.height.bind fun n s₁ ho hg _ => ?_
  refine ho.create .flag none (.flag · true) (by simp [Instr.operands]) (fun _ _ _ => trivial)
    (fun _ => rfl) (fun _ => rfl) fun unmatched s₂ ho₂ hg₂ hu => ?_
  refine (ho₂.freshReg _ _).bind fun merged s₃ ho₃ hg₃ hm => ?_
  have hv₃ : s₃.Made v := ((hg.trans hg₂).trans hg₃).made hv
  have hu₃ := hg₃.made hu
  refine (hs.genMatched ho₃ hv₃ hp hu₃ hm n hyes).bind fun x s₄ ho₄ hg₄ _ => ?_
  refine (hs.genUnmatched ho₄ (hg₄.made hu₃) (hg₄.made hm) n hno).bind fun y s₅ ho₅ hg₅ _ => ?_
  refine (ho₅.agree _ _ _).bind fun _ s₆ ho₆ hg₆ _ => works_pure ho₆ ?_
  simpa using ((hg₄.trans hg₅).trans hg₆).made hm

theorem SubWorks.genLevels (hs : SubWorks b.ctx sub) (h : InOrder b [] s) (hv : s.Made v)
    (p : Pattern) (hyes : b.Allows yes tail) (hno : b.Allows no tail) :
    Works b s (genLevels b.ctx sub v p yes no tail) fun out s' => ∀ r ∈ out, s'.Made r := by
  refine (works_validatePattern h p).bind fun _ s₁ ho hg hp => ?_
  cases tail with
  | true => exact hs.genLevelsTail ho (hg.made hv) hp hyes hno
  | false => exact hs.genLevelsValue ho (hg.made hv) hp hyes hno

theorem SubWorks.genMatch (hs : SubWorks b.ctx sub) (h : InOrder b [] s) {value : Expr}
    {alt : Option Expr} (hmatch : b.Allows (.matchWith p value yes alt) tail) :
    Works b s (genMatch b.ctx sub p value yes alt tail) fun out s' => ∀ r ∈ out, s'.Made r := by
  have hvalue : b.Allows value false := hmatch.part (by simp +contextual [Expr.tailCalls])
    (by simp +contextual [Expr.immutable])
  have hyes : b.Allows yes tail := hmatch.part (by simp +contextual [Expr.tailCalls])
    (by simp +contextual [Expr.immutable])
  refine (hs.value rfl h hvalue).bind fun v s₁ ho hg hv => ?_
  cases alt with
  | none => exact hs.genFitting ho hv p hyes
  | some no =>
    have hno : b.Allows no tail := hmatch.part
      (by simp +contextual [Expr.tailCalls, Expr.tailCallsOption])
      (by simp +contextual [Expr.immutable, Expr.immutableOption])
    refine (ho.knownType v).bind fun t s₂ ho₂ hg₂ _ => ?_
    have hv₂ := hg₂.made hv
    split
    · exact hs.genFitting ho₂ hv₂ p hyes
    · exact (works_validatePattern ho₂ p).bind fun _ s₃ ho₃ _ _ => hs.expr rfl ho₃ hno
    · split
      · exact hs.genOneLevel ho₂ hv₂ p hyes hno
      · exact hs.genLevels ho₂ hv₂ p hyes hno

/-! ## Units -/

theorem InOrder.loadCaptures : ∀ {s : GenState} (idx : Nat) (caps : List Bool), InOrder b [] s →
    idx + caps.length ≤ b.ncaps → (true ∈ caps → b.cells) →
    Works b s (loadCaptures idx caps) fun _ _ => True
  | _, _, [], h, _, _ => works_pure h trivial
  | s, idx, mutable :: rest, h, hlt, hcells => by
    rw [List.length_cons] at hlt
    have hidx : idx < b.ncaps := by omega
    refine h.create _ _ (.capture · idx) (by simp [Instr.operands]) (fun _ _ _ => hidx)
      (fun _ => rfl) (fun _ => rfl) fun r s₁ ho _ hr => ?_
    refine (ho.pushVariable hr fun hm => hcells ?_).bind fun _ s₂ ho₂ _ _ =>
      InOrder.loadCaptures (idx + 1) rest ho₂ (by omega) fun hmem => hcells (by simp [hmem])
    simp [show mutable = true from hm]

theorem InOrder.loadParams : ∀ {s : GenState} (idx n : Nat), InOrder b [] s → idx + n ≤ b.arity →
    Works b s (loadParams idx n) fun _ _ => True
  | _, _, 0, h, _ => works_pure h trivial
  | s, idx, n + 1, h, hlt => by
    have hidx : idx < b.arity := by omega
    refine h.create _ _ (.param · idx) (by simp [Instr.operands]) (fun _ _ _ => hidx)
      (fun _ => rfl) (fun _ => rfl) fun r s₁ ho _ hr => ?_
    exact (ho.bindReg hr).bind fun _ s₂ ho₂ _ _ => InOrder.loadParams (idx + 1) n ho₂ (by omega)

/-- The state in which a unit is begun, with its place among the units. -/
def begun (s : GenState) (name : String) (arity ncaps : Nat) : GenState :=
  { s with units := s.units.push ⟨name, arity, ncaps, 0, #[]⟩, draft := {} }

/-- The terms of a unit that is begun. -/
def inner (b : Brief) (s : GenState) (arity ncaps : Nat) : Brief :=
  { b with arity := arity, ncaps := ncaps, opened := s.units.size :: b.opened }

theorem capsOf_begun (name : String) (arity ncaps : Nat) {k n : Nat} (h : s.capsOf k = some n) :
    (begun s name arity ncaps).capsOf k = some n := by
  obtain ⟨u, hu, rfl⟩ := Option.map_eq_some_iff.mp h
  rw [GenState.capsOf, begun, getElem?_push_of_some hu]
  rfl

/-- **A unit that is begun** is in order. -/
theorem InOrder.begun (h : InOrder b rs s) (name : String) (arity ncaps : Nat) :
    InOrder (inner b s arity ncaps) [] (begun s name arity ncaps) where
  drafted := ⟨[(head, .nop)], linked_empty, rfl, by simp, by
    simpa using ⟨by simp [Instr.operands], trivial⟩, by simp [Instr.label?], rfl⟩
  stack := by simp [Gen.begun]
  cells := by simp [Gen.begun]
  functions f hf := ⟨(h.functions f hf).calls, (h.functions f hf).cells⟩
  pool k u hk := capsOf_begun _ _ _ (h.pool k u hk)
  units k u hu := by
    have hu : (s.units.push ⟨name, arity, ncaps, 0, #[]⟩)[k]? = some u := hu
    rw [Array.getElem?_push] at hu
    split at hu
    · next hk => exact Or.inl (by simp [inner, hk])
    · refine (h.units k u hu).imp (fun hk => List.mem_cons_of_mem _ hk) fun hfin => hfin.mono ?_
      exact ⟨le_rfl, rfl, rfl, le_rfl, capsOf_begun _ _ _, rfl, rfl, rfl⟩

/-- **A unit that is finished** takes its place, and the draft around it goes on. -/
theorem InOrder.finished {name : String} {arity ncaps : Nat} {u : CodeUnit}
    (h : InOrder b rs s) (hin : InOrder (inner b s arity ncaps) [] s₁)
    (hg : (Gen.begun s name arity ncaps).Grown s₁) (hncaps : u.ncaps = ncaps)
    (hu : u.Finished (s₁.unitRealm b u)) {s₂ : GenState}
    (hs₂ : s₂ = { s₁ with units := s₁.units.setIfInBounds s.units.size u, draft := s.draft }) :
    InOrder b rs s₂ ∧ s.Grown s₂ ∧ s₂.units[s.units.size]? = some u := by
  have hcaps : s₁.capsOf s.units.size = some ncaps := hg.units (by simp [GenState.capsOf, Gen.begun])
  have hlt : s.units.size < s₁.units.size := by
    obtain ⟨v, hv, -⟩ := Option.map_eq_some_iff.mp hcaps
    exact (Array.getElem?_eq_some_iff.mp hv).1
  have hsame : s₂.capsOf = s₁.capsOf := by
    funext k
    rw [GenState.capsOf, hs₂, Array.getElem?_setIfInBounds]
    split
    · next hk => rw [← hk, hcaps, Option.map_some, hncaps]
    · rfl
  have hgrown : s.Grown s₂ := by
    refine ⟨by rw [hs₂]; exact le_rfl, by rw [hs₂]; exact hg.pool, fun hk => ?_⟩
    rw [hsame]
    exact hg.units (capsOf_begun name arity ncaps hk)
  have hrealm : ∀ v, (s₁.unitRealm b v).Le (s₂.unitRealm b v) := fun v =>
    ⟨le_rfl, rfl, rfl, by rw [hs₂]; exact le_rfl, fun hk => by
      show s₂.capsOf _ = _
      rw [hsame]
      exact hk, rfl, rfl, rfl⟩
  refine ⟨⟨?_, ?_, ?_, ?_, ?_, ?_⟩, hgrown, by simp [hs₂, hlt]⟩
  · obtain ⟨code, hd⟩ := h.drafted
    have hl : s₂.draft.listing = s.draft.listing := by rw [hs₂]
    exact ⟨code, hl ▸ hd.mono (hgrown.realm b)⟩
  · intro v hv
    rw [hs₂] at hv
    exact hgrown.made (h.stack v hv)
  · rw [hs₂]
    exact h.cells
  · rw [hs₂]
    exact fun f hf => ⟨(hin.functions f hf).calls, (hin.functions f hf).cells⟩
  · intro k v hk
    rw [hsame]
    rw [hs₂] at hk
    exact hin.pool k v hk
  · intro k v hv
    rw [hs₂] at hv
    simp only [Array.getElem?_setIfInBounds] at hv
    split at hv
    · obtain rfl : u = v := by simpa [hlt] using hv
      exact Or.inr (hu.mono (hrealm u))
    · next hk =>
      refine (hin.units k v hv).imp (fun hmem => ?_) fun hfin => hfin.mono (hrealm v)
      exact (List.mem_cons.mp hmem).resolve_left fun e => hk e.symm

/-- **Building a unit.** -/
theorem SubWorks.buildUnit (hs : SubWorks b.ctx sub) (h : InOrder b [] s) (name : String)
    (arity : Nat) (caps : List Bool) (hcaps : true ∈ caps → b.cells) (he : b.Allows e true) :
    Works b s (buildUnit b.ctx sub name arity caps e) fun id s' =>
      ∃ u, s'.units[id.index]? = some u ∧ u.arity = arity ∧ u.ncaps = caps.length := by
  intro id s' run
  obtain ⟨_, _, e₀, run⟩ := run_bind_ok run
  cases e₀
  obtain ⟨_, _, e₀, run⟩ := run_bind_ok run
  cases e₀
  obtain ⟨_, _, e₀, run⟩ := run_bind_ok run
  cases e₀
  obtain ⟨_, s₁, run₁, run⟩ := run_bind_ok run
  obtain ⟨_, s₂, run₂, run⟩ := run_bind_ok run
  obtain ⟨_, s₃, run₃, run⟩ := run_bind_ok run
  obtain ⟨ho₁, hg₁, -⟩ := InOrder.loadCaptures 0 caps (h.begun name arity caps.length)
    (by simp [inner]) hcaps _ s₁ run₁
  obtain ⟨ho₂, hg₂, -⟩ := InOrder.loadParams 0 arity ho₁ (by simp [inner]) _ s₂ run₂
  obtain ⟨ho₃, hg₃, -⟩ := hs.tail (b := inner b s arity caps.length) rfl ho₂ ⟨he.calls, he.cells⟩ _ s₃ run₃
  obtain ⟨_, _, e₀, run⟩ := run_bind_ok run
  cases e₀
  obtain ⟨out, s₄, run₄, run⟩ := run_bind_ok run
  cases hfin : finishListing b.ctx.settings s₃.pool name s₃.draft.listing with
  | error f =>
    rw [hfin] at run₄
    cases run₄
  | ok q =>
    rw [hfin] at run₄
    cases run₄
    cases run
    obtain ⟨code, hd⟩ := ho₃.drafted
    obtain ⟨hregs, hunit⟩ := hd.finished rfl hfin (u := ⟨name, arity, caps.length, out.2, out.1⟩) rfl
    have hrealm : s₃.realm (inner b s arity caps.length) =
        s₃.unitRealm b ⟨name, arity, caps.length, out.2, out.1⟩ := by
      simp only [GenState.realm, GenState.unitRealm, hregs]
      rfl
    obtain ⟨ho, hg, hu⟩ := h.finished ho₃ ((hg₁.trans hg₂).trans hg₃) rfl (hrealm ▸ hunit) rfl
    exact ⟨ho, hg, _, hu, rfl, rfl⟩

theorem unitName_state {lambda : Lambda Expr} {name : String} {s' : GenState}
    (h : (unitName lambda).run s = .ok (name, s')) : s' = s := by
  unfold unitName at h
  split at h <;> cases h <;> rfl

theorem works_unitName (h : InOrder b [] s) (lambda : Lambda Expr) :
    Works b s (unitName lambda) fun _ _ => True := fun _ _ e => by
  obtain rfl := unitName_state e
  exact ⟨h, .refl _, trivial⟩

theorem InOrder.variables : ∀ {s : GenState} (ks : List Nat), InOrder b [] s →
    Works b s (ks.mapM Gen.variableAt) fun vs s' =>
      ∀ v ∈ vs, s'.Made v.reg ∧ (v.mutable = true → b.cells)
  | _, [], h => by
    rw [List.mapM_nil]
    exact works_pure h (by simp)
  | s, k :: ks, h => by
    rw [List.mapM_cons]
    refine (h.variableAt k).bind fun v s₁ ho hg hv => ?_
    refine (InOrder.variables ks ho).bind fun vs s₂ ho₂ hg₂ hvs => works_pure ho₂ fun u hu => ?_
    rcases List.mem_cons.mp hu with rfl | hu
    · exact ⟨hg₂.made (hg.made hv.2.1), hv.2.2⟩
    · exact hvs u hu

theorem SubWorks.buildClosure (hs : SubWorks b.ctx sub) (h : InOrder b [] s) (lambda : Lambda Expr)
    (he : b.Allows lambda.body true) : Works b s (buildClosure b.ctx sub lambda) fun out s' =>
      s'.capsOf out.1.index = some out.2.length ∧ ∀ r ∈ out.2, s'.Made r := by
  refine (InOrder.variables lambda.captures h).bind fun vs s₁ ho _ hvs => ?_
  refine (works_unitName ho lambda).bind fun name s₂ ho₂ hg₂ _ => ?_
  have hcaps : true ∈ vs.map (·.mutable) → b.cells := fun hm => by
    obtain ⟨v, hv, hmut⟩ := List.mem_map.mp hm
    exact (hvs v hv).2 hmut
  refine (hs.buildUnit ho₂ name lambda.arity _ hcaps he).bind fun unit s₃ ho₃ hg₃ hunit => ?_
  obtain ⟨u, hu, -, hncaps⟩ := hunit
  refine works_pure ho₃ ⟨by simp [GenState.capsOf, hu, hncaps], fun r hr => ?_⟩
  obtain ⟨v, hv, rfl⟩ := List.mem_map.mp hr
  exact (hg₂.trans hg₃).made (hvs v hv).1

theorem allows_body {lambda : Lambda Expr} (h : b.Allows (.fn lambda) tail) :
    b.Allows lambda.body true := by
  obtain ⟨arity, captures, body, name⟩ := lambda
  exact h.part (by simp only [Expr.tailCalls, imp_self]) (by simp only [Expr.immutable, imp_self])

theorem InOrder.noteFunction (h : InOrder b [] s) (r : Reg) {k : KnownFunction}
    (hk : b.Allows k.body true) : Works b s (noteFunction r k) fun _ s' => s'.regs = s.regs := by
  intro _ s' e
  cases e
  refine ⟨⟨h.drafted, h.stack, h.cells, fun f hf => ?_, h.pool, h.units⟩, ⟨le_rfl, le_rfl, id⟩, rfl⟩
  rcases Array.mem_push.mp hf with hf | rfl
  · exact h.functions f hf
  · exact hk

theorem SubWorks.genFn (hs : SubWorks b.ctx sub) (h : InOrder b [] s) {lambda : Lambda Expr}
    (he : b.Allows lambda.body true) :
    Works b s (genFn b.ctx sub lambda) fun r s' => s'.Made r := by
  unfold Gen.genFn
  split
  · refine (works_unitName h lambda).bind fun name s₁ ho _ _ => ?_
    refine (hs.buildUnit ho name lambda.arity [] (by simp) he).bind fun unit s₂ ho₂ _ hunit => ?_
    refine (ho₂.loadConstant fun u hu => ?_).bind fun r s₃ ho₃ _ hr => ?_
    · obtain rfl := Constant.closure.inj hu
      obtain ⟨u, hu, -, hncaps⟩ := hunit
      simp [GenState.capsOf, hu, hncaps]
    · refine (ho₃.noteFunction r he).bind fun _ s₄ ho₄ hg₄ _ => works_pure ho₄ (hg₄.made hr)
  · refine h.create _ _ .allocClosure (by simp [Instr.operands]) (fun _ _ _ => trivial)
      (fun _ => rfl) (fun _ => rfl) fun dst s₁ ho _ hdst => ?_
    refine (hs.buildClosure ho lambda he).bind fun out s₂ ho₂ hg₂ hout => ?_
    refine (ho₂.write (.finishClosure dst out.1 out.2) ?_ hout.1 rfl rfl).bind fun _ s₃ ho₃ hg₃ _ =>
      works_pure ho₃ ((hg₂.trans hg₃).made hdst)
    simpa [Instr.operands] using ⟨hg₂.made hdst, hout.2⟩

theorem InOrder.allocClosures : ∀ {s : GenState} (index : Nat) (fns : List Expr), InOrder b [] s →
    (∀ lambda, .fn lambda ∈ fns → b.Allows lambda.body true) →
    Works b s (allocClosures index fns) fun out s' =>
      ∀ q ∈ out, s'.Made q.1 ∧ b.Allows q.2.body true
  | _, _, [], h, _ => works_pure h (by simp)
  | s, index, e :: rest, h, he => by
    cases e with
    | fn lambda =>
      refine h.create _ _ .allocClosure (by simp [Instr.operands]) (fun _ _ _ => trivial)
        (fun _ => rfl) (fun _ => rfl) fun dst s₁ ho _ hdst => ?_
      refine (ho.bindReg hdst).bind fun _ s₂ ho₂ hg₂ _ => ?_
      refine (InOrder.allocClosures (index + 1) rest ho₂ fun k hk => he k (by simp [hk])).bind
        fun out s₃ ho₃ hg₃ hout => works_pure ho₃ fun q hq => ?_
      rcases List.mem_cons.mp hq with rfl | hq
      · exact ⟨(hg₂.trans hg₃).made hdst, he lambda (by simp)⟩
      · exact hout q hq
    | _ => exact works_refuse _

theorem SubWorks.finishClosures (hs : SubWorks b.ctx sub) : ∀ {s : GenState}
    (closures : List (Reg × Lambda Expr)), InOrder b [] s →
    (∀ q ∈ closures, s.Made q.1 ∧ b.Allows q.2.body true) →
    Works b s (finishClosures b.ctx sub closures) fun _ _ => True
  | _, [], h, _ => works_pure h trivial
  | s, (dst, lambda) :: rest, h, hq => by
    obtain ⟨hdst, he⟩ := hq (dst, lambda) (by simp)
    refine (hs.buildClosure h lambda he).bind fun out s₁ ho hg hout => ?_
    refine (ho.write (.finishClosure dst out.1 out.2) ?_ hout.1 rfl rfl).bind fun _ s₂ ho₂ hg₂ _ => ?_
    · simpa [Instr.operands] using ⟨hg.made hdst, hout.2⟩
    · refine hs.finishClosures rest ho₂ fun q hmem => ?_
      obtain ⟨hmade, hallows⟩ := hq q (by simp [hmem])
      exact ⟨(hg.trans hg₂).made hmade, hallows⟩

theorem SubWorks.genFix (hs : SubWorks b.ctx sub) (h : InOrder b [] s) {fns : List Expr}
    (he : ∀ lambda, .fn lambda ∈ fns → b.Allows lambda.body true) :
    Works b s (genFix b.ctx sub fns) fun _ _ => True := by
  refine (InOrder.allocClosures 0 fns h he).bind fun closures s₁ ho _ hq => ?_
  refine (ho.write (.beginScope closures.length) (by simp [Instr.operands]) trivial rfl rfl).bind
    fun _ s₂ ho₂ hg₂ _ => ?_
  refine (hs.finishClosures closures ho₂ fun q hmem =>
    ⟨hg₂.made (hq q hmem).1, (hq q hmem).2⟩).bind fun _ s₃ ho₃ _ _ => ?_
  exact ho₃.write (.endScope closures.length) (by simp [Instr.operands]) trivial rfl rfl

/-! ## Calls -/

theorem InOrder.knownCallee (h : InOrder b [] s) (func : Reg) (nargs : Nat) :
    Works b s (knownCallee func nargs) fun k s' => s' = s ∧ ∀ f ∈ k, b.Allows f.body true := by
  refine works_get (works_pure h ⟨rfl, fun f hf => ?_⟩)
  obtain ⟨hf, -⟩ := Option.filter_eq_some_iff.mp hf
  obtain ⟨k, -, hf⟩ := Option.bind_eq_some_iff.mp hf
  exact h.functions f (Array.mem_of_getElem? hf)

theorem InOrder.pushArgs : ∀ {s : GenState} {rs : List Reg} (args : List Reg), InOrder b rs s →
    (∀ r ∈ args, s.Made r) → WorksTo b (rs ++ args) s (pushArgs args) fun _ _ => True
  | _, rs, [], h, _ => by
    rw [List.append_nil]
    exact works_pure h trivial
  | s, rs, r :: args, h, hr => by
    refine (h.write (.push r) (by simpa [Instr.operands] using hr r (by simp)) trivial rfl rfl).bind
      fun _ s₁ ho hg _ => ?_
    have := InOrder.pushArgs args ho fun q hq => hg.made (hr q (by simp [hq]))
    rwa [List.append_assoc] at this

/-- **A call at run time** takes the arguments that were pushed for it. -/
theorem InOrder.genRuntimeCall (h : InOrder b [] s) {func : Reg} (hfunc : s.Made func)
    {args : List Reg} (hargs : ∀ r ∈ args, s.Made r) (checked guard : Bool) {tailCall : Bool}
    (loc : Option Location) (hcalls : b.calls ∨ tailCall = true) :
    Works b s (genRuntimeCall b.ctx func args checked guard tailCall loc)
      fun out s' => ∀ r ∈ out, s'.Made r := by
  refine (InOrder.pushArgs args h hargs).bind fun _ s₁ ho hg _ => ?_
  rw [List.nil_append] at ho
  have hfunc₁ := hg.made hfunc
  split
  · exact (ho.write (.tailCall func args.length) (by simpa [Instr.operands] using hfunc₁) trivial rfl
      (by simp [Instr.feed])).bind fun _ s₂ ho₂ _ _ => works_pure ho₂ (by simp)
  · next htail =>
    refine (ho.freshReg .temp none).bind fun dst s₂ ho₂ hg₂ hdst => ?_
    have hfeed : (.call dst func args.length checked : Instr NodeId).feed args = some [] := by
      simp [Instr.feed]
    refine (ho₂.write (.call dst func args.length checked)
      (by simp [Instr.operands, hdst, hg₂.made hfunc₁]) (hcalls.resolve_right htail) rfl
      hfeed).bind fun _ s₃ ho₃ hg₃ _ => ?_
    have hdst₃ := hg₃.made hdst
    split
    · exact (ho₃.returnErrors b.ctx hdst₃ loc).bind fun _ s₄ ho₄ hg₄ _ =>
        works_pure ho₄ (by simpa using hg₄.made hdst₃)
    · exact works_pure ho₃ (by simpa using hdst₃)

/-- A body in place of a call has a stack of its own, and the one around it comes back. -/
theorem SubWorks.genInlined (hs : SubWorks b.ctx sub) (h : InOrder b [] s) {args : List Reg}
    (hargs : ∀ r ∈ args, s.Made r) (guard : Bool) (loc : Option Location)
    (he : b.Allows e tail) :
    Works b s (genInlined b.ctx sub e args guard loc tail) fun out s' => ∀ r ∈ out, s'.Made r := by
  intro a s' run
  obtain ⟨_, _, e₀, run⟩ := run_bind_ok run
  cases e₀
  obtain ⟨_, _, e₀, run⟩ := run_bind_ok run
  cases e₀
  obtain ⟨out, s₁, run₁, run⟩ := run_bind_ok run
  have hbody : InOrder b [] { s with draft := { s.draft with
      stack := (args.map fun r => ⟨r, false⟩).reverse
      inlined := s.draft.inlined + 1 } } := by
    refine ⟨h.drafted, fun v hv => ?_, fun v hv hmut => ?_, h.functions, h.pool, h.units⟩ <;>
      obtain ⟨r, hr, rfl⟩ := List.mem_map.mp (List.mem_reverse.mp hv)
    · exact hargs r hr
    · cases hmut
  obtain ⟨ho₁, hg₁, hout⟩ := hs.expr rfl hbody he out s₁ run₁
  have hg₁ : s.Grown s₁ := ⟨hg₁.regs, hg₁.pool, hg₁.units⟩
  obtain ⟨_, s₂, e₀, run⟩ := run_bind_ok run
  have hs₂ : s₂ = { s₁ with draft := { s₁.draft with
      stack := s.draft.stack
      inlined := s₁.draft.inlined - 1 } } := by cases e₀; rfl
  have ho₂ : InOrder b [] s₂ := by
    rw [hs₂]
    exact ⟨ho₁.drafted, fun v hv => hg₁.made (h.stack v hv), h.cells, ho₁.functions, ho₁.pool, ho₁.units⟩
  have hg₂ : s₁.Grown s₂ := by
    rw [hs₂]
    exact ⟨le_rfl, le_rfl, id⟩
  have hout₂ : ∀ r ∈ out, s₂.Made r := fun r hr => hg₂.made (hout r hr)
  obtain ⟨ho₃, hg₃, hq⟩ : InOrder b [] s' ∧ s₂.Grown s' ∧ ∀ r ∈ a, s'.Made r := by
    cases out with
    | none => exact works_pure (Q := fun out s' => ∀ r ∈ out, s'.Made r) ho₂ hout₂ a s' run
    | some r =>
      dsimp only at run
      split at run
      · exact WorksTo.bind (ho₂.returnErrors b.ctx (hout₂ r rfl) loc) (fun _ s₃ ho₃ hg₃ _ =>
          works_pure (Q := fun out s' => ∀ r ∈ out, s'.Made r) ho₃ fun q hq =>
            hg₃.made (hout₂ q hq)) a s' run
      · exact works_pure (Q := fun out s' => ∀ r ∈ out, s'.Made r) ho₂ hout₂ a s' run
  exact ⟨ho₃, (hg₁.trans hg₂).trans hg₃, hq⟩

theorem SubWorks.genCall (hs : SubWorks b.ctx sub) (h : InOrder b [] s) {callee : Expr}
    {args : List Expr} {guard : Bool} {loc : Option Location}
    (hcall : b.Allows (.apply callee args guard loc) tail) :
    Works b s (genCall b.ctx sub callee args guard loc tail) fun out s' => ∀ r ∈ out, s'.Made r := by
  have hparts : b.calls ∨ (tail = true ∧ isVar callee = true) ∧ Expr.tailCallsList args = true :=
    hcall.calls.imp id fun ht => by simpa only [Expr.tailCalls, Bool.and_eq_true] using ht
  have hargs : ∀ e ∈ args, b.Allows e false := hcall.parts (by simp +contextual [Expr.tailCalls])
    (by simp +contextual [Expr.immutable])
  have hcallee : b.Allows callee false := hcall.part
    (fun ht => by cases callee <;> simp_all [isVar, Expr.tailCalls]) (by simp +contextual [Expr.immutable])
  refine (hs.mapM args h hargs).bind fun regs s₁ ho hg hregs => ?_
  refine (hs.value rfl ho hcallee).bind fun func s₂ ho₂ hg₂ hfunc => ?_
  refine (ho₂.knownCallee func regs.length).bind fun k s₃ ho₃ hg₃ hk => ?_
  have hfunc₃ := hg₃.made hfunc
  have hregs₃ : ∀ r ∈ regs, s₃.Made r := fun r hr => hg₃.made (hg₂.made (hregs.1 r hr))
  have htail : b.calls ∨ (tail && isVar callee) = true := hparts.imp id fun ht => by simp [ht.1]
  split
  · next f =>
    refine works_draft ?_
    split
    · have hf := hk.2 f rfl
      refine hs.genInlined ho₃ hregs₃ guard loc ⟨hparts.elim Or.inl fun ht => ?_, hf.cells⟩
      rw [ht.1.1]
      exact hf.calls
    · exact ho₃.genRuntimeCall hfunc₃ hregs₃ _ _ loc htail
  · exact ho₃.genRuntimeCall hfunc₃ hregs₃ _ _ loc htail

/-! ## Expressions -/

theorem InOrder.genUnchecked (h : InOrder b [] s) (op : Operator) {l r : Reg} (hl : s.Made l)
    (hr : s.Made r) (t : StaticType) :
    Works b s (genUnchecked op l r t) fun q s' => s'.Made q :=
  h.create _ _ (.operate op · l r false) (by simp [Instr.operands, hl, hr]) (fun _ _ _ => trivial)
    (fun _ => rfl) (fun _ => rfl) fun _ _ ho _ hq => works_pure ho hq

theorem InOrder.genArithmetic (h : InOrder b [] s) (op : Operator) {l r : Reg} (hl : s.Made l)
    (hr : s.Made r) : Works b s (genArithmetic b.ctx op l r) fun q s' => s'.Made q := by
  refine (h.knownType l).bind fun tl s₁ ho hg _ => (ho.knownType r).bind fun tr s₂ ho₂ hg₂ _ => ?_
  have hl₂ := hg₂.made (hg.made hl)
  have hr₂ := hg₂.made (hg.made hr)
  split
  · exact ho₂.genUnchecked op hl₂ hr₂ _
  · refine ho₂.create _ _ (.operate op · l r true) (by simp [Instr.operands, hl₂, hr₂])
      (fun _ _ _ => trivial) (fun _ => rfl) (fun _ => rfl) fun dst s₃ ho₃ _ hdst => ?_
    refine (ho₃.returnErrors b.ctx hdst none).bind fun _ s₄ ho₄ hg₄ _ => ?_
    refine (ho₄.knownType l).bind fun tl s₅ ho₅ hg₅ _ => ?_
    refine (ho₅.knownType r).bind fun tr s₆ ho₆ hg₆ _ => ?_
    have hdst₆ := hg₆.made (hg₅.made (hg₄.made hdst))
    split
    · exact (ho₆.narrow dst _).bind fun _ s₇ ho₇ hg₇ _ => works_pure ho₇ (hg₇.made hdst₆)
    · exact works_pure ho₆ hdst₆

theorem SubWorks.genOperator (hs : SubWorks b.ctx sub) (h : InOrder b [] s) (op : Operator)
    {lhs rhs : Expr} (hl : b.Allows lhs false) (hr : b.Allows rhs false) :
    Works b s (genOperator b.ctx sub op lhs rhs) fun q s' => s'.Made q := by
  refine (hs.value rfl h hl).bind fun l s₁ ho _ hl => ?_
  refine (hs.value rfl ho hr).bind fun r s₂ ho₂ hg₂ hr => ?_
  have hl₂ := hg₂.made hl
  split
  · exact ho₂.genUnchecked _ hl₂ hr _
  · exact ho₂.genUnchecked _ hl₂ hr _
  · exact ho₂.genUnchecked _ hl₂ hr _
  · exact ho₂.genArithmetic _ hl₂ hr

theorem SubWorks.genIf (hs : SubWorks b.ctx sub) (h : InOrder b [] s) {test : Expr}
    (hite : b.Allows (.ite test yes no) tail) :
    Works b s (genIf sub test yes no tail) fun out s' => ∀ r ∈ out, s'.Made r := by
  have htest : b.Allows test false := hite.part (by simp +contextual [Expr.tailCalls])
    (by simp +contextual [Expr.immutable])
  have hyes : b.Allows yes tail := hite.part (by simp +contextual [Expr.tailCalls])
    (by simp +contextual [Expr.immutable])
  have hno : b.Allows no tail := hite.part (by simp +contextual [Expr.tailCalls])
    (by simp +contextual [Expr.immutable])
  refine (hs.value rfl h htest).bind fun c s₁ ho _ hc => ?_
  refine (ho.asFlag hc).bind fun flag s₂ ho₂ _ hflag => ?_
  refine ho₂.height.bind fun n s₃ ho₃ hg₃ _ => ?_
  refine (ho₃.openBranch (hg₃.made hflag)).bind fun branch s₄ ho₄ _ _ => ?_
  refine (ho₄.mergeReg tail).bind fun merged s₅ ho₅ _ hm => ?_
  have htail : merged.isNone = tail := by
    rw [Bool.eq_iff_iff, Option.isNone_iff_eq_none, hm.2]
  exact hs.genArms ho₅ branch hm.1 (htail ▸ hyes) (htail ▸ hno) n

theorem InOrder.genVar (h : InOrder b [] s) (offset : Nat) (mutable : Bool) :
    Works b s (genVar offset mutable) fun r s' => s'.Made r := by
  refine (h.variableAt offset).bind fun v s₁ ho hg hv => ?_
  have hreg := hg.made hv.2.1
  split
  · exact ho.create _ _ (.unbox · v.reg) (by simp [Instr.operands, hreg]) (fun _ _ _ => trivial)
      (fun _ => rfl) (fun _ => rfl) fun _ _ ho₂ _ hr => works_pure ho₂ hr
  · split
    · exact works_refuse _
    · exact works_pure ho hreg

theorem SubWorks.genBinds (hs : SubWorks b.ctx sub) : ∀ {s : GenState} (bs : List (Binding Expr)),
    InOrder b [] s → (∀ x ∈ bs, b.Allows x.value false ∧ (x.mutable = true → b.cells)) →
    Works b s (genBinds sub bs) fun _ _ => True
  | _, [], h, _ => works_pure h trivial
  | s, x :: rest, h, hx => by
    have hrest : ∀ y ∈ rest, b.Allows y.value false ∧ (y.mutable = true → b.cells) :=
      fun y hy => hx y (by simp [hy])
    obtain ⟨hvalue, hmut⟩ := hx x (by simp)
    refine (hs.value rfl h hvalue).bind fun r s₁ ho _ hr => ?_
    split
    · next hm =>
      refine ho.create _ _ (.box · r) (by simp [Instr.operands, hr]) (fun _ _ _ => hmut hm)
        (fun _ => rfl) (fun _ => rfl) fun cell s₂ ho₂ _ hcell => ?_
      exact (ho₂.pushVariable hcell fun _ => hmut hm).bind fun _ s₃ ho₃ _ _ => hs.genBinds rest ho₃ hrest
    · exact (ho.bindReg hr).bind fun _ s₂ ho₂ _ _ => hs.genBinds rest ho₂ hrest

theorem SubWorks.genBody (hs : SubWorks b.ctx sub) (h : InOrder b [] s) {body : Option Expr}
    (hbody : ∀ e ∈ body, b.Allows e tail) (n : Nat) :
    Works b s (genBody sub body n tail) fun out s' => ∀ r ∈ out, s'.Made r := by
  unfold Gen.genBody
  split
  · next e =>
    refine (hs.expr rfl h (hbody e rfl)).bind fun out s₁ ho _ hout => ?_
    exact (ho.forgetAbove n).bind fun _ s₂ ho₂ hg₂ _ =>
      works_pure ho₂ fun r hr => hg₂.made (hout r hr)
  · exact h.loadNil.bind fun r s₁ ho _ hr => works_pure ho (by simpa using hr)

theorem SubWorks.genSequence (hs : SubWorks b.ctx sub) : ∀ {s : GenState} (es : List Expr) {keep : Bool},
    InOrder b [] s → b.Allows (.block es keep) tail →
    Works b s (genSequence sub tail es) fun out s' => ∀ r ∈ out, s'.Made r
  | _, [], _, h, _ => h.loadNil.bind fun r s₁ ho _ hr => works_pure ho (by simpa using hr)
  | _, [e], _, h, he => hs.expr rfl h (he.part (by simp [Expr.tailCalls, Expr.tailCallsBlock])
      (by simp [Expr.immutable, Expr.immutableList]))
  | s, e :: e' :: rest, keep, h, he => by
    have hfirst : b.Allows e false := he.part (by simp +contextual [Expr.tailCalls, Expr.tailCallsBlock])
      (by simp +contextual [Expr.immutable, Expr.immutableList])
    have hrest : b.Allows (.block (e' :: rest) keep) tail :=
      he.part (by simp +contextual [Expr.tailCalls, Expr.tailCallsBlock])
        (by simp +contextual [Expr.immutable, Expr.immutableList])
    refine (hs.value rfl h hfirst).bind fun _ s₁ ho _ _ => ?_
    exact hs.genSequence (e' :: rest) ho hrest

theorem SubWorks.genAssign (hs : SubWorks b.ctx sub) (h : InOrder b [] s) (offset : Nat)
    (he : b.Allows e false) : Works b s (genAssign sub offset e) fun r s' => s'.Made r := by
  refine (h.variableAt offset).bind fun v s₁ ho hg hv => ?_
  split
  · exact works_refuse _
  · next hm =>
    refine (hs.value rfl ho he).bind fun src s₂ ho₂ hg₂ hsrc => ?_
    have hreg := hg₂.made (hg.made hv.2.1)
    exact (ho₂.write (.assign v.reg src) (by simp [Instr.operands, hreg, hsrc]) (hv.2.2 (by simpa using hm))
      rfl rfl).bind fun _ s₃ ho₃ _ _ => ho₃.loadNil

theorem SubWorks.genStruct (hs : SubWorks b.ctx sub) (h : InOrder b [] s) (ty : Nat)
    {fields : List Expr} (he : ∀ e ∈ fields, b.Allows e false) :
    Works b s (genStruct b.ctx sub ty fields) fun r s' => s'.Made r := by
  unfold Gen.genStruct
  split
  · exact works_refuse _
  · next d hd =>
    split
    · exact works_refuse _
    · next hlen =>
      refine (hs.mapM fields h he).bind fun regs s₁ ho _ hregs => ?_
      refine ho.create _ _ (.make · ty regs) ?_ (fun _ _ _ => ⟨d, hd, ?_⟩) (fun _ => rfl)
        (fun _ => rfl) fun _ _ ho₂ _ hr => works_pure ho₂ hr
      · intro r q hq
        rcases List.mem_cons.mp hq with rfl | hq
        · exact Or.inl rfl
        · exact Or.inr (hregs.1 q hq)
      · rw [hregs.2]
        exact not_not.mp hlen

/-- **One node works** where its parts do. -/
theorem SubWorks.genNode (hs : SubWorks b.ctx sub) (h : InOrder b [] s) (he : b.Allows e tail) :
    Works b s (genNode b.ctx sub e tail) fun out s' => ∀ r ∈ out, s'.Made r := by
  have hsome : ∀ {x : Gen Reg} {s : GenState}, (Works b s x fun r s' => s'.Made r) →
      Works b s (some <$> x) fun out s' => ∀ r ∈ out, s'.Made r := fun hx =>
    hx.map fun r s₁ hr => by simpa using hr
  cases e with
  | lit c => exact hsome (h.loadConstant (by cases c <;> simp [Bare, Literal.constant]))
  | var offset mutable => exact hsome (h.genVar offset mutable)
  | apply callee args guard loc => exact hs.genCall h he
  | operate op lhs rhs =>
    exact hsome (hs.genOperator h op
      (he.part (by simp +contextual [Expr.tailCalls]) (by simp +contextual [Expr.immutable]))
      (he.part (by simp +contextual [Expr.tailCalls]) (by simp +contextual [Expr.immutable])))
  | fn lambda => exact hsome (hs.genFn h (allows_body he))
  | letIn binds body =>
    have hbinds : ∀ x ∈ binds, b.Allows x.value false ∧ (x.mutable = true → b.cells) := fun x hx => by
      refine ⟨he.part (fun ht => ?_) fun hi => ?_, fun hm => he.cells.resolve_right fun hi => ?_⟩
      · exact Expr.tailCalls_of_bind (Bool.and_eq_true_iff.mp ht).1 hx
      · exact (Expr.immutable_of_bind (Bool.and_eq_true_iff.mp hi).1 hx).1
      · rw [(Expr.immutable_of_bind (Bool.and_eq_true_iff.mp hi).1 hx).2] at hm
        cases hm
    refine h.height.bind fun n s₁ ho _ _ => ?_
    refine (hs.genBinds binds ho hbinds).bind fun _ s₂ ho₂ _ _ => ?_
    refine hs.genBody ho₂ (fun x hx => ?_) n
    obtain rfl := hx
    exact he.part (by simp +contextual [Expr.tailCalls, Expr.tailCallsOption])
      (by simp +contextual [Expr.immutable, Expr.immutableOption])
  | fix fns body =>
    have hfns : ∀ x ∈ fns, b.Allows x false := he.parts (by simp +contextual [Expr.tailCalls])
      (by simp +contextual [Expr.immutable])
    refine h.height.bind fun n s₁ ho _ _ => ?_
    refine (hs.genFix ho fun lambda hmem => allows_body (hfns _ hmem)).bind fun _ s₂ ho₂ _ _ => ?_
    refine hs.genBody ho₂ (fun x hx => ?_) n
    obtain rfl := hx
    exact he.part (by simp +contextual [Expr.tailCalls, Expr.tailCallsOption])
      (by simp +contextual [Expr.immutable, Expr.immutableOption])
  | ite test yes no => exact hs.genIf h he
  | matchWith p value yes no => exact hs.genMatch h he
  | block exprs keep =>
    refine h.height.bind fun n s₁ ho _ _ => ?_
    refine (hs.genSequence exprs ho he).bind fun out s₂ ho₂ _ hout => ?_
    split
    · exact (ho₂.forgetAbove n).bind fun _ s₃ ho₃ hg₃ _ =>
        works_pure ho₃ fun r hr => hg₃.made (hout r hr)
    · exact works_pure ho₂ hout
  | ret value =>
    refine (hs.tail rfl h (he.part (by simp [Expr.tailCalls]) (by simp [Expr.immutable]))).bind
      fun _ s₁ ho _ _ => ?_
    split
    · exact works_pure ho (by simp)
    · exact hsome ho.loadNil
  | assign offset value =>
    exact hsome (hs.genAssign h offset (he.part (by simp [Expr.tailCalls]) (by simp [Expr.immutable])))
  | yield value =>
    refine (hs.value rfl h (he.part (by simp [Expr.tailCalls]) (by simp [Expr.immutable]))).bind
      fun src s₁ ho _ hsrc => ?_
    exact (ho.write (.yield src) (by simpa [Instr.operands] using hsrc) trivial rfl rfl).bind
      fun _ s₂ ho₂ _ _ => hsome ho₂.loadNil
  | struct ty fields =>
    exact hsome (hs.genStruct h ty (he.parts (by simp [Expr.tailCalls]) (by simp [Expr.immutable])))

/-- **Generating code keeps drafts in order.** -/
theorem genExpr_works (ctx : Context) : ∀ (fuel : Nat), SubWorks ctx (.of (genExpr ctx fuel))
  | 0 => subWorks_of fun _ _ _ => works_throw _
  | fuel + 1 => subWorks_of fun {b} _ _ _ hb h he => by
    subst hb
    exact (genExpr_works b.ctx fuel).genNode h he

end Gen

end CountedMachine
