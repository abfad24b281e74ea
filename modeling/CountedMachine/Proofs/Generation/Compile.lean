import CountedMachine.Generation.Expression
import CountedMachine.Proofs.Generation.Calls
import CountedMachine.Proofs.Ownership.Forward

/-! # Compilation

Code for a node leads on wherever code for its parts does (`Fine.genNode`). The parts are smaller
expressions of the same unit, bodies that take the place of a call, and bodies of units; `depthBound`
decreases at all three, so the bound on the recursion is never reached (`genExpr_emits`). Every module
is compiled or refused, and the audit never has a say in it (`SourceModule.compile_or_refused`). The
units of a program that was compiled work with their captures (`SourceModule.compile_sound`). What a given
module is compiled to can be had from the draft of its entry unit (`SourceModule.compile_of_finish`). -/

namespace CountedMachine

open Listing

namespace Expr

variable {e : Expr}

theorem size_le_sizeList : ∀ {es : List Expr}, e ∈ es → e.size ≤ sizeList es
  | x :: es, h => by
    rw [sizeList]
    rcases List.mem_cons.mp h with rfl | h
    · omega
    · have := size_le_sizeList h
      omega

theorem size_le_sizeBinds {b : Binding Expr} : ∀ {bs : List (Binding Expr)}, b ∈ bs →
    b.value.size ≤ sizeBinds bs
  | ⟨x, _⟩ :: bs, h => by
    rw [sizeBinds]
    rcases List.mem_cons.mp h with rfl | h
    · exact Nat.le_add_right _ _
    · have := size_le_sizeBinds h
      omega

theorem size_le_sizeOption {o : Option Expr} (h : e ∈ o) : e.size ≤ sizeOption o := by
  obtain rfl := Option.mem_def.mp h
  exact Nat.le_refl _

theorem size_fn (lambda : Lambda Expr) : (Expr.fn lambda).size = 1 + lambda.body.size := by
  obtain ⟨arity, captures, body, name⟩ := lambda
  rw [size]

end Expr

namespace Operator

variable {op : Operator} {a b κ : Kind}

/-- Arithmetic and ordering on numbers. -/
theorem Gives.of_num (h : op.Gives .num .num κ) (hop : op.computes) :
    κ.type = if op.comparesOrder then .bool else .num := by
  rw [gives_of_computes hop, if_pos ⟨rfl, rfl⟩] at h
  split_ifs at h ⊢
  · obtain ⟨x, rfl⟩ := h
    rfl
  · rw [h]
    rfl

/-- **What is left when errors have returned** is of the type the operator gives. -/
theorem Gives.of_defined (h : op.Gives a b κ) (hop : op.computes) (hne : κ ≠ .obj .undefined)
    {tl tr : Option StaticType} {t : StaticType} (ht : Gen.resultType op tl tr = some t)
    (hl : ∀ t ∈ tl, a.type = t) (hr : ∀ t ∈ tr, b.type = t) : κ.type = t := by
  unfold Gen.resultType at ht
  split_ifs at ht with hadd htypes
  · -- two texts
    simp only [Bool.and_eq_true, decide_eq_true_eq] at htypes
    obtain rfl := Kind.eq_str_of_type (hl _ htypes.1)
    obtain rfl := Kind.eq_str_of_type (hr _ htypes.2)
    subst hadd
    simp only [gives_of_computes hop, reduceCtorEq, and_self, if_false, comparesOrder, hne, false_or,
      true_and, false_and, or_false] at h
    rw [h]
    exact Option.some.inj ht
  all_goals
    by_cases hnum : a = .num ∧ b = .num
    · obtain ⟨rfl, rfl⟩ := hnum
      rw [h.of_num hop, ← Option.some.inj ht]
      simp_all
    · simp only [gives_of_computes hop, if_neg hnum, hne, hadd, false_or, false_and] at h
      obtain ⟨-, -, hcmp, x, rfl⟩ := h
      rw [← Option.some.inj ht]
      simp_all [Kind.type]

end Operator

namespace Gen

variable {σ : Site} {s : GenState} {body : Code} {P : Point} {sub sub' : Sub} {ctx : Context}
  {e : Expr} {l r : Reg} {op : Operator}

/-! ## The ways to treat parts -/

theorem serves_of {g g' : Expr → Bool → Gen (Option Reg)}
    (h : ∀ {s body P} tail, Fine σ s body P →
      Emits σ (g e tail) (g' e tail) s body P (Answer s tail)) :
    Serves σ (Sub.of g) (Sub.of g') e where
  expr := h
  value {s body P} hf := by
    refine (h false hf).bind fun out s₁ _ _ hd _ hout => ?_
    cases out with
    | none => exact absurd rfl (hout.some rfl)
    | some r => exact hd.fine.pure ⟨hout.mem r rfl, hout.stack⟩
  tail {s body P} hf := by
    refine (h true hf).bind fun out s₁ _ _ hd _ hout => ?_
    cases out with
    | none => exact hd.fine.pure ⟨hout.ends rfl, hout.stack⟩
    | some r =>
      refine (hd.fine.writeLast (i := .ret r) ⟨rfl, rfl, by simp,
        by simpa [Instr.inputs] using hout.mem r rfl, fun _ hρ => ⟨hρ.calm, hρ.pushed⟩⟩
        rfl (by simp [World.Fires])).mono fun _ s₂ _ P₂ _ _ hq => ?_
      obtain ⟨rfl, hs⟩ := hq
      exact ⟨fun hlive => hlive, hs.stack ▸ hout.stack⟩

/-- **What code for a node of a size relies on:** its parts, the bodies of its functions, and bodies
that take the place of a call. -/
structure Able (σ : Site) (sub sub' : Sub) (size : Nat) : Prop where
  genuine : Genuine σ.ctx sub
  part : ∀ {e : Expr}, e.size < size → Serves σ sub sub' e
  unit : ∀ {e : Expr}, e.size < size → ∀ caps, Serves ⟨e.size, 0, σ.ctx, caps⟩ sub sub' e
  inline : ∀ e : Expr, e.size < σ.size → σ.depth < σ.ctx.settings.inlineLevels →
    Serves (Site.deeper σ) sub sub' e

/-! ## Operators -/

theorem makes_operate (hl : l ∈ P.regs) (hr : r ∈ P.regs) {checked : Bool} {type : Option StaticType}
    (hneeds : ∀ {w : World} {ρ : Env}, P.At w s ρ → checked = true ∨ op = .cons ∨ op = .eq ∨ op = .ne ∨
      (ρ.regs l = .val .num ∧ ρ.regs r = .val .num))
    (hgives : ∀ {w : World} {ρ : Env} {a b κ : Kind}, P.At w s ρ → ρ.regs l = .val a →
      ρ.regs r = .val b → op.Gives a b κ → ∀ t ∈ type, κ.type = t) :
    Makes σ s P .temp type (.operate op · l r checked) := by
  refine ⟨fun _ => rfl, fun _ => rfl, fun _ => rfl, fun _ q hq => ?_, by simp, by simp, fun _ hρ _ => hneeds hρ,
    fun hf => hf, fun _ hρ hg => ?_⟩
  · rcases List.mem_cons.mp hq with rfl | hq
    · exact hl
    · rw [List.mem_singleton.mp hq]
      exact hr
  · obtain ⟨a, b, ha, hb, hκ⟩ := hg
    refine ⟨hκ.whole, fun t ht => hgives hρ ha hb hκ t ?_⟩
    cases type with
    | none => cases ht
    | some t' => exact ht

theorem Fine.genUnchecked (h : Fine σ s body P) (hl : l ∈ P.regs) (hr : r ∈ P.regs)
    {t : StaticType} (hneeds : ∀ {w : World} {ρ : Env}, P.At w s ρ → op = .cons ∨ op = .eq ∨ op = .ne ∨
      (ρ.regs l = .val .num ∧ ρ.regs r = .val .num))
    (hgives : ∀ {w : World} {ρ : Env} {a b κ : Kind}, P.At w s ρ → ρ.regs l = .val a →
      ρ.regs r = .val b → op.Gives a b κ → κ.type = t) :
    Emits σ (Gen.genUnchecked op l r t) (Gen.genUnchecked op l r t) s body P fun q s' P' =>
      q ∈ P'.regs ∧ s'.draft.stack = s.draft.stack :=
  h.create _ (makes_operate hl hr (fun hρ => Or.inr (hneeds hρ)) fun hρ ha hb hκ t ht => by
    rw [← Option.some.inj ht]
    exact hgives hρ ha hb hκ) fun _ _ _ _ hd _ hq _ hstack => hd.fine.pure ⟨hq, hstack⟩

theorem num_of_typeOf? {w : World} {ρ : Env} (hρ : P.At w s ρ) (hr : r ∈ P.regs)
    (ht : s.typeOf? r = some .num) : ρ.regs r = .val .num := by
  obtain ⟨κ, hκ⟩ := hρ.holds r hr
  rw [hκ.value, Kind.eq_num_of_type (hκ.type ht)]

theorem type_of_typeOf? {w : World} {ρ : Env} (hρ : P.At w s ρ) (hr : r ∈ P.regs) {κ : Kind}
    (hκ : ρ.regs r = .val κ) {t : StaticType} (ht : s.typeOf? r = some t) : κ.type = t := by
  obtain ⟨κ', hκ'⟩ := hρ.holds r hr
  obtain rfl := Status.val.inj (hκ.symm.trans hκ'.value)
  exact hκ'.type ht

/-- **A value that is checked for errors**, and noting the type it has where it is none. -/
theorem leads_narrowing {s₁ s₂ : GenState} {P₂ : Point} {dst : Reg} {f : RegFacts} {id : NodeId}
    {i : Instr NodeId} {u : Block} {t : StaticType} (hl₁ : Leads σ s P (.single id i) s₁ (P.add dst))
    (hgives : ∀ {w}, σ.Admits w s s₁ → (Block.single id i).Does w (P.At w s) fun ρ ρ' =>
      ∃ κ, w.Gives ρ i κ ∧ ρ'.regs dst = .val κ)
    (hl₂ : Leads σ s₁ (P.add dst) u s₂ P₂)
    (hshows : ∀ {w}, σ.Admits w s₁ s₂ → u.Does w ((P.add dst).At w s₁) fun _ ρ =>
      ρ.regs dst ≠ .val (.obj .undefined))
    (hspares : u.Spares dst) (hnew : New s s₁ f dst) (hlater₁ : s.Later s₁) (hlater₂ : s₁.Later s₂)
    (hdefined : ∀ {w : World} {ρ : Env} {κ : Kind}, P.At w s ρ → w.Gives ρ i κ → κ ≠ .obj .undefined →
      κ.type = t) :
    Leads σ s P ((Block.single id i).append u) (s₂.narrowing dst t) P₂ := by
  have hlead := hl₁.trans hl₂ hlater₁ hlater₂
  refine ⟨hlead.le, fun {w} hw ρ hρ => ?_, hlead.stops⟩
  -- the type is noted when the check is behind, so all of it is looked at without that
  have hw₂ : σ.Admits (w.forget dst) s s₂ := hw.forget (GenState.notes_narrowing t
    ⟨(hlater₂.narrowed hnew.lt).trans hnew.narrowed, (hlater₂.known hnew.lt).trans hnew.known⟩)
  have hkeeps := hw.keeps hnew.new (hnew.lt.trans_le hlater₂.size)
  have hnarrowed : w.drafted.draft.narrowed[dst]? = some t := by
    refine hkeeps.narrowed.trans ?_
    exact Std.HashMap.getElem?_insert_self
  have hknown : w.drafted.draft.known[dst]? = none :=
    hkeeps.known.trans ((hlater₂.known hnew.lt).trans hnew.known)
  have hsuits : ∀ {a : Prop} {κ : Kind}, (w.forget dst).Suits False dst κ →
      (κ.type = t ∨ (a ∧ κ = .obj .undefined)) → w.Suits a dst κ := by
    intro a κ hκ ht
    refine hκ.of_forget (fun t' ht' => ?_) fun k f hk => ?_
    · obtain rfl := Option.some.inj (hnarrowed.symm.trans ht')
      exact ht
    · cases hknown.symm.trans hk
  obtain ⟨hok₁, hrun₁⟩ := ((hl₁.does (hw₂.left hlater₂)).and (hgives (hw₂.left hlater₂))) ρ (hρ.forget dst)
  have hwr := hw₂.right hlater₁.size
  refine ⟨Block.Ok.append ⟨hok₁.1.of_forget fun κ hκ => ?_, fun _ _ => trivial⟩ fun ρ₁ h₁ => ?_,
    fun ρ' h' => ?_⟩
  · rw [hρ.fresh dst hnew.new] at hκ
    cases hκ
  · -- the check itself may find an error
    obtain ⟨⟨hat, -⟩, κ, hg, hval⟩ := hrun₁ ρ₁ (Block.run_forget.mpr h₁)
    refine (hl₂.does hwr ρ₁ hat).1.of_forget hspares fun κ' hκ' => hsuits (hat.strict dst κ' hκ') ?_
    obtain rfl : κ = κ' := by simpa [hval, Status.kind?] using hκ'
    by_cases e : κ = .obj .undefined
    · exact Or.inr ⟨trivial, e⟩
    · exact Or.inl (hdefined (hρ.forget dst) hg e)
  · obtain ⟨ρ₁, h₁, h₂⟩ := Block.run_append.mp (Block.run_forget.mpr h')
    obtain ⟨⟨hat₁, hkept₁⟩, κ, hg, hval⟩ := hrun₁ ρ₁ h₁
    obtain ⟨⟨hat, hkept₂⟩, hne⟩ := ((hl₂.does hwr).and (hshows hwr) ρ₁ hat₁).2 ρ' h₂
    have hval' : ρ'.regs dst = .val κ := (hkept₂ dst hnew.lt).trans hval
    have ht : κ.type = t := hdefined (hρ.forget dst) hg fun e => hne (e ▸ hval')
    refine ⟨at_narrowing (hat.of_forget fun κ' hκ' => hsuits (hat.strict dst κ' hκ') ?_) fun κ' hκ' => ?_,
      hkept₁.trans hkept₂ hlater₁.size⟩
    · obtain rfl : κ = κ' := by simpa [hval', Status.kind?] using hκ'
      exact Or.inl ht
    · obtain rfl := Status.val.inj (hval'.symm.trans hκ')
      exact ht

theorem Fine.genArithmetic (h : Fine σ s body P) (hl : l ∈ P.regs) (hr : r ∈ P.regs)
    (hop : op.computes) :
    Emits σ (Gen.genArithmetic ctx op l r) (Gen.genArithmetic ctx op l r) s body P fun q s' P' =>
      q ∈ P'.regs ∧ s'.draft.stack = s.draft.stack := by
  unfold Gen.genArithmetic
  refine Runs.read (knownType_run (h.lt hl)) (Runs.read (knownType_run (h.lt hr)) ?_)
  split
  · -- two numbers
    rename_i hnum
    simp only [Bool.and_eq_true, decide_eq_true_eq] at hnum
    refine h.genUnchecked hl hr (fun hρ => Or.inr (Or.inr (Or.inr
      ⟨num_of_typeOf? hρ hl hnum.1, num_of_typeOf? hρ hr hnum.2⟩))) fun hρ ha hb hκ => ?_
    rw [num_of_typeOf? hρ hl hnum.1] at ha
    rw [num_of_typeOf? hρ hr hnum.2] at hb
    cases ha
    cases hb
    exact hκ.of_num hop
  · refine h.make (.operate op · l r true) (makes_operate hl hr (fun _ => Or.inl rfl) (by simp))
      fun dst s₁ id hd hp hl₁ hgives hnew hstack₁ => ?_
    have hdst : dst ∈ (P.add dst).regs := P.mem_add dst
    refine Runs.bind (hd.fine.returnErrors_shows ctx hdst none) fun _ s₂ hd₂ => ?_
    obtain ⟨t₂, P₂, hd₂, ht₂, hl₂, hspares, hshows, hstack₂⟩ := hd₂
    have hd₂' : Drawn σ s body s₂ ((Block.single id (.operate op dst l r true)).append t₂).code P₂ := by
      rw [Block.code_append]
      exact hd.trans hd₂
    have hlead := hl₁.trans hl₂ hd.later hd₂.later
    refine Runs.read (knownType_run (hd₂'.lt (h.lt hl))) (Runs.read (knownType_run (hd₂'.lt (h.lt hr))) ?_)
    have hq : dst ∈ P₂.regs := hl₂.le.1 hdst
    have hstack : s₂.draft.stack = s.draft.stack := hstack₂.trans hstack₁
    cases ht : resultType op (s₂.typeOf? l) (s₂.typeOf? r) with
    | none => exact runs_pure ⟨_, P₂, hd₂', hp.append ht₂, hlead, hq, hstack⟩
    | some t =>
      have htype : s₂.typeOf? dst = none := (hd₂.later.typeOf? hnew.lt).trans hnew.typeOf?
      have hd₃ := hd₂'.narrowing hnew.new (hd₂.lt hnew.lt) htype t
      refine Runs.bind (.of_eq (Q := fun _ s' => s' = s₂.narrowing dst t) rfl rfl) fun _ s₃ hs₃ => ?_
      subst hs₃
      refine runs_pure ⟨_, P₂, hd₃, hp.append ht₂, leads_narrowing hl₁ hgives hl₂ hshows hspares hnew.toNew
        hd.later hd₂.later fun hρ hg hne => ?_, hq, hstack⟩
      obtain ⟨a, b, ha, hb, hκ⟩ := hg
      have hop₁ : ∀ {q : Reg} {κ' : Kind}, q ∈ P.regs → _ → ∀ t ∈ s₂.typeOf? q, κ'.type = t :=
        fun {q κ'} hq hκ' t ht => type_of_typeOf? hρ hq hκ' ((hd₂'.later.typeOf? (h.lt hq)).symm.trans ht)
      exact hκ.of_defined hop hne ht (hop₁ hl ha) (hop₁ hr hb)

theorem Fine.genOperator (h : Fine σ s body P) {lhs rhs : Expr} (hl : Serves σ sub sub' lhs)
    (hr : Serves σ sub sub' rhs) (op : Operator) :
    Emits σ (Gen.genOperator ctx sub op lhs rhs) (Gen.genOperator ctx sub' op lhs rhs) s body P
      fun q s' P' => q ∈ P'.regs ∧ s.draft.stack <:+ s'.draft.stack := by
  refine (hl.value h).bind fun l s₁ _ P₁ hd _ hl => ?_
  refine (hr.value hd.fine).bind fun r s₂ _ P₂ hd₂ hle₂ hr => ?_
  have hl' : l ∈ P₂.regs := hle₂.1 hl.1
  have hsub : ∀ {q : Reg} {s' : GenState} {P' : Point},
      q ∈ P'.regs ∧ s'.draft.stack = s₂.draft.stack → q ∈ P'.regs ∧ s.draft.stack <:+ s'.draft.stack :=
    fun hq => ⟨hq.1, hq.2 ▸ hl.2.trans hr.2⟩
  cases op with
  | cons =>
    refine (hd₂.fine.genUnchecked hl' hr.1 (fun _ => Or.inl rfl) fun _ _ _ hκ => ?_).mono
      fun _ _ _ _ _ _ => hsub
    rw [show _ = Kind.obj .cons from hκ]
    rfl
  | eq =>
    refine (hd₂.fine.genUnchecked hl' hr.1 (fun _ => Or.inr (Or.inl rfl)) fun _ _ _ hκ => ?_).mono
      fun _ _ _ _ _ _ => hsub
    obtain ⟨x, rfl⟩ := hκ
    rfl
  | ne =>
    refine (hd₂.fine.genUnchecked hl' hr.1 (fun _ => Or.inr (Or.inr (Or.inl rfl)))
      fun _ _ _ hκ => ?_).mono fun _ _ _ _ _ _ => hsub
    obtain ⟨x, rfl⟩ := hκ
    rfl
  | _ =>
    exact (hd₂.fine.genArithmetic hl' hr.1 (by simp [Operator.computes])).mono
      fun _ _ _ _ _ _ => hsub

/-! ## Conditionals, variables, bindings, blocks -/

theorem Fine.genIf (h : Fine σ s body P) {test yes no : Expr} (htest : Serves σ sub sub' test)
    (hyes : Serves σ sub sub' yes) (hno : Serves σ sub sub' no) (tail : Bool) :
    Emits σ (Gen.genIf sub test yes no tail) (Gen.genIf sub' test yes no tail) s body P
      (Answer s tail) := by
  refine (htest.value h).bind fun v s₁ t₁ P₁ hd _ hv => ?_
  refine (hd.fine.asFlag hv.1).bind fun flag s₂ t₂ P₂ hd₂ _ hflag => ?_
  have hstack : s.draft.stack <:+ s₂.draft.stack := by
    rw [hflag.2]
    exact hv.2
  refine Runs.read (height_run s₂) ?_
  refine Runs.bind (hd₂.fine.drawn.openBranch (hd₂.fine.lt hflag.1.mem) hflag.1.role) fun b s₃ hd₃ => ?_
  obtain ⟨hd₃, hs₃⟩ := hd₃
  refine Runs.bind (hd₃.mergeReg tail) fun merged s₄ hd₄ => ?_
  obtain ⟨hd₄, hlater₄, hstack₄, hmerged⟩ := hd₄
  have hlater : s₂.Later s₄ := hs₃.later.trans hlater₄
  have hfork : Forked σ s₂ (body ++ t₁.code ++ t₂.code) P₂ b.node flag (fun _ _ => True) .nil s₂ P₂ s₄ .nil s₄ P₂ := by
    refine ⟨hd₄, trivial, trivial, .refl σ s₂ P₂, fun _ => Block.does_nil fun _ _ _ => trivial,
      hd₂.fine.made, .refl s₂, hlater, .refl s₄, hflag.1, le_rfl, fun _ => ?_,
      fun hl hn => absurd hl hn, fun v hv => (hd₂.fine.stack v hv).1, ?_⟩
    · exact Block.does_nil fun ρ hρ => ⟨hρ.1, Kept.refl s₄ ρ⟩
    · rw [hstack₄, hs₃.stack]
  rcases hmerged with ⟨rfl, rfl⟩ | ⟨rfl, m, rfl, hm, hnew⟩
  · refine (hfork.genLastArms hyes hno).mono fun out s' hd => ?_
    obtain ⟨T, P', hd, hT, hl, rfl, hlive, hstack'⟩ := hd
    exact ⟨T, P', hd, hT, hl, by simp, by simp, fun _ => hlive, hstack' ▸ hstack⟩
  · refine (hfork.genArms hm (hs₃.regs ▸ hnew) hm.lt hyes hno).mono fun out s' hd => ?_
    obtain ⟨T, P', hd, hT, hl, rfl, hmem, hstack'⟩ := hd
    exact ⟨T, P', hd, hT, hl, by simp, by simpa using hmem, by simp, hstack' ▸ hstack⟩

theorem cell_of_typeOf? {w : World} {ρ : Env} (hρ : P.At w s ρ) (hr : r ∈ P.regs)
    (ht : s.typeOf? r = some .cell) : ρ.regs r = .val .cell := by
  obtain ⟨κ, hκ⟩ := hρ.holds r hr
  rw [hκ.value, Kind.eq_cell_of_type (hκ.type ht)]

theorem Fine.genVar (h : Fine σ s body P) (offset : Nat) (mutable : Bool) :
    Emits σ (Gen.genVar offset mutable) (Gen.genVar offset mutable) s body P fun r s' P' =>
      r ∈ P'.regs ∧ s'.draft.stack = s.draft.stack := by
  refine (h.variableAt offset).bind fun v s₁ _ P₁ hd _ hv => ?_
  obtain ⟨rfl, rfl, hmem, hcell⟩ := hv
  split_ifs with hmut
  · refine hd.fine.create (.unbox · v.reg) ⟨fun _ => rfl, fun _ => rfl, fun _ => rfl,
      by simpa [Instr.inputs] using hmem, by simp, by simp, fun _ hρ _ =>
        cell_of_typeOf? hρ hmem (hcell hmut), fun hf => hf, fun _ _ hg => ⟨hg, fun t ht => ?_⟩⟩
      fun _ _ _ _ hd₂ _ hr _ hstack => hd₂.fine.pure ⟨hr, hstack⟩
    simp [RegRole.typed] at ht
  · exact runs_refuse _
  · exact hd.fine.pure ⟨hmem, rfl⟩

theorem Fine.genBinds : ∀ {s : GenState} {body : Code} {P : Point} (bs : List (Binding Expr)),
    Fine σ s body P → (∀ b ∈ bs, Serves σ sub sub' b.value) →
    Emits σ (Gen.genBinds sub bs) (Gen.genBinds sub' bs) s body P fun _ s' _ =>
      s.draft.stack <:+ s'.draft.stack
  | _, _, _, [], h, _ => h.pure (List.suffix_refl _)
  | s, body, P, b :: rest, h, hb => by
    refine ((hb b (by simp)).value h).bind fun r s₁ _ P₁ hd _ hr => ?_
    have hrest : ∀ b ∈ rest, Serves σ sub sub' b.value := fun b hmem => hb b (by simp [hmem])
    split_ifs
    · refine hd.fine.create (.box · r) ⟨fun _ => rfl, fun _ => rfl, fun _ => rfl,
        by simpa [Instr.inputs] using hr.1, by simp, by simp, fun _ _ _ => trivial, fun hf => hf,
        fun _ _ hg => ?_⟩ fun cell s₂ _ P₂ hd₂ _ hcell hnew hstack₂ => ?_
      · rw [show _ = Kind.cell from hg]
        exact ⟨by simp, fun t ht => Option.some.inj ht⟩
      · refine (hd₂.fine.pushVariable hcell fun _ => hnew.typeOf?).bind fun _ s₃ _ P₃ hd₃ _ hq => ?_
        refine (Fine.genBinds rest hd₃.fine hrest).mono fun _ _ _ _ _ _ hsuf => ?_
        refine (hr.2.trans ?_).trans hsuf
        rw [hq.2, ← hstack₂]
        exact List.suffix_cons _ _
    · refine (hd.fine.bindReg hr.1).bind fun _ s₂ _ P₂ hd₂ _ hq => ?_
      refine (Fine.genBinds rest hd₂.fine hrest).mono fun _ _ _ _ _ _ hsuf => ?_
      refine (hr.2.trans ?_).trans hsuf
      rw [hq.2]
      exact List.suffix_cons _ _

/-- A value that is always there. -/
theorem Emits.answer {x x' : Gen Reg} (h : Emits σ x x' s body P fun r s' P' =>
    r ∈ P'.regs ∧ s.draft.stack <:+ s'.draft.stack) (tail : Bool) :
    Emits σ (some <$> x) (some <$> x') s body P (Answer s tail) :=
  h.map fun r s' P' hr => ⟨by simp, by simpa using hr.1, by simp, hr.2⟩

theorem Emits.keeping {x x' : Gen Reg} (h : Emits σ x x' s body P fun r s' P' =>
    r ∈ P'.regs ∧ s'.draft.stack = s.draft.stack) :
    Emits σ x x' s body P fun r s' P' => r ∈ P'.regs ∧ s.draft.stack <:+ s'.draft.stack :=
  h.mono fun _ _ _ _ _ _ hq => ⟨hq.1, hq.2 ▸ List.suffix_refl _⟩

/-- Code for the body of a `let` or `fix`, over what was bound since. -/
theorem Fine.genBody {s₀ : GenState} (h : Fine σ s body P) (hs : s₀.draft.stack <:+ s.draft.stack)
    {o : Option Expr} (ho : ∀ e ∈ o, Serves σ sub sub' e) (tail : Bool) :
    Emits σ (Gen.genBody sub o s₀.draft.stack.length tail)
      (Gen.genBody sub' o s₀.draft.stack.length tail) s body P (Answer s₀ tail) := by
  cases o with
  | none =>
    refine h.loadNil.bind fun r s₁ _ _ hd _ hr => ?_
    exact hd.fine.pure ⟨by simp, by simpa using hr.1, by simp, hr.2 ▸ hs⟩
  | some e =>
    refine ((ho e rfl).expr tail h).bind fun out s₁ _ _ hd _ hout => ?_
    refine (hd.fine.forgetAbove _).bind fun _ s₂ _ _ hd₂ _ hq => ?_
    obtain ⟨rfl, hstack⟩ := hq
    refine hd₂.fine.pure ⟨hout.some, hout.mem, hout.ends, ?_⟩
    rw [hstack, drop_of_suffix (hs.trans hout.stack)]

theorem Fine.genSequence (tail : Bool) : ∀ {s : GenState} {body : Code} {P : Point} (es : List Expr),
    Fine σ s body P → (∀ e ∈ es, Serves σ sub sub' e) →
    Emits σ (Gen.genSequence sub tail es) (Gen.genSequence sub' tail es) s body P (Answer s tail)
  | s, body, P, [], h, _ => by
    refine h.loadNil.bind fun r s₁ _ _ hd _ hr => ?_
    exact hd.fine.pure ⟨by simp, by simpa using hr.1, by simp, hr.2 ▸ List.suffix_refl _⟩
  | _, _, _, [e], h, he => (he e (by simp)).expr tail h
  | s, body, P, e :: e' :: rest, h, he => by
    refine ((he e (by simp)).value h).bind fun _ s₁ _ _ hd _ hr => ?_
    refine (Fine.genSequence tail (e' :: rest) hd.fine fun e hmem =>
      he e (List.mem_cons_of_mem _ hmem)).mono fun _ _ _ _ _ _ ha => ?_
    exact ⟨ha.some, ha.mem, ha.ends, hr.2.trans ha.stack⟩

theorem Fine.genAssign (h : Fine σ s body P) (he : Serves σ sub sub' e) (offset : Nat) :
    Emits σ (Gen.genAssign sub offset e) (Gen.genAssign sub' offset e) s body P fun r s' P' =>
      r ∈ P'.regs ∧ s.draft.stack <:+ s'.draft.stack := by
  refine (h.variableAt offset).bind fun v s₁ _ P₁ hd _ hv => ?_
  obtain ⟨rfl, rfl, hmem, hcell⟩ := hv
  dsimp only
  split_ifs with hmut
  · exact Runs.bind (Q := fun _ _ => False) (runs_refuse _) fun _ _ hf => hf.elim
  · have hmut : v.mutable = true := by simpa using hmut
    refine (he.value hd.fine).bind fun r s₂ _ P₂ hd₂ hle hr => ?_
    have hmem₂ : v.reg ∈ P₂.regs := hle.1 hmem
    have hcell₂ : s₂.typeOf? v.reg = some .cell :=
      (hd₂.later.typeOf? (h.lt hmem)).trans (hcell hmut)
    have hp : Plain σ s₂ P₂ (.assign v.reg r) := by
      refine ⟨rfl, rfl, by simp, fun q hq => ?_, fun _ hρ => cell_of_typeOf? hρ hmem₂ hcell₂⟩
      rcases List.mem_cons.mp hq with rfl | hq
      · exact hmem₂
      · rw [List.mem_singleton.mp hq]
        exact hr.1
    refine (hd₂.fine.write hp fun hf => hf).bind fun _ s₃ _ P₃ hd₃ _ hq => ?_
    refine hd₃.fine.loadNil.mono fun _ s₄ _ _ _ _ hq₄ => ⟨hq₄.1, ?_⟩
    rw [hq₄.2, hq.2.stack]
    exact hr.2

theorem Fine.genStruct (h : Fine σ s body P) {fields : List Expr}
    (hfields : ∀ e ∈ fields, Serves σ sub sub' e) (ty : Nat) :
    Emits σ (Gen.genStruct σ.ctx sub ty fields) (Gen.genStruct σ.ctx sub' ty fields) s body P
      fun r s' P' => r ∈ P'.regs ∧ s.draft.stack <:+ s'.draft.stack := by
  unfold Gen.genStruct
  cases hty : σ.ctx.types[ty]? with
  | none => exact runs_refuse _
  | some struct =>
    dsimp only
    split_ifs with hcount
    · exact Runs.bind (Q := fun _ _ => False) (runs_refuse _) fun _ _ hf => hf.elim
    · refine (h.values fields hfields).bind fun regs s₁ _ P₁ hd _ hregs => ?_
      refine hd.fine.create (.make · ty regs) ⟨fun _ => rfl, fun _ => rfl, fun _ => rfl, fun _ => hregs.1, by simp,
        by simp, fun hw _ _ => ⟨struct, by rw [hw.types, Site.types, hty], ?_⟩, fun hf => hf, fun _ _ hg => ?_⟩
        fun _ _ _ _ hd₂ _ hr _ hstack => hd₂.fine.pure ⟨hr, hstack ▸ hregs.2.2⟩
      · rw [hregs.2.1]
        exact not_not.mp hcount
      · rw [show _ = Kind.obj (.struct ty) from hg]
        exact ⟨by simp, fun t ht => Option.some.inj ht⟩

/-! ## Expressions -/

theorem sound_literal (σ : Site) (s : GenState) (c : Literal) : Sound σ s c.constant := by
  intro u hu
  cases c <;> cases hu

/-- **Code for one node.** -/
theorem Fine.genNode (h : Fine σ s body P) (ha : Able σ sub sub' e.size) (hn : e.size ≤ σ.size)
    (tail c : Bool) :
    Emits σ (Gen.genNode σ.ctx sub e tail) (Gen.genNode (σ.ctx.checking c) sub' e tail) s body P
      (Answer s tail) := by
  cases e with
  | lit l => exact (h.loadConstant (sound_literal σ s l)).keeping.answer tail
  | var offset mutable => exact (h.genVar offset mutable).keeping.answer tail
  | apply callee args guard loc =>
    rw [Expr.size] at ha
    refine h.genCall (ha.part (by omega)) (fun e he => ha.part ?_) ha.inline guard loc tail c
    have := Expr.size_le_sizeList he
    omega
  | operate op lhs rhs =>
    rw [Expr.size] at ha
    exact (h.genOperator (ha.part (by omega)) (ha.part (by omega)) op).answer tail
  | fn lambda =>
    rw [Expr.size_fn] at ha hn
    exact (h.genFn ha.genuine (ha.unit (by omega)) (by omega) c).keeping.answer tail
  | letIn binds o =>
    rw [Expr.size] at ha
    refine Runs.read (height_run s) ?_
    refine (Fine.genBinds binds h fun b hb => ha.part ?_).bind fun _ s₁ _ _ hd _ hstack => ?_
    · have := Expr.size_le_sizeBinds hb
      omega
    · refine hd.fine.genBody hstack (fun e he => ha.part ?_) tail
      have := Expr.size_le_sizeOption he
      omega
  | fix fns o =>
    rw [Expr.size] at ha
    refine Runs.read (height_run s) ?_
    refine (h.genFix ha.genuine c fun lambda hl => ha.unit ?_).bind fun _ s₁ _ _ hd _ hstack => ?_
    · have := Expr.size_le_sizeList hl
      rw [Expr.size_fn] at this
      omega
    · refine hd.fine.genBody hstack (fun e he => ha.part ?_) tail
      have := Expr.size_le_sizeOption he
      omega
  | ite test yes no =>
    rw [Expr.size] at ha
    exact h.genIf (ha.part (by omega)) (ha.part (by omega)) (ha.part (by omega)) tail
  | matchWith p value yes no =>
    rw [Expr.size] at ha
    refine h.genMatch rfl p (ha.part (by omega)) (ha.part (by omega)) (fun e he => ha.part ?_) tail c
    have := Expr.size_le_sizeOption he
    omega
  | block exprs keep =>
    rw [Expr.size] at ha
    refine Runs.read (height_run s) ?_
    refine (Fine.genSequence tail exprs h fun e he => ha.part ?_).bind fun out s₁ _ _ hd _ hout => ?_
    · have := Expr.size_le_sizeList he
      omega
    · dsimp only
      split_ifs
      · refine (hd.fine.forgetAbove _).bind fun _ s₂ _ _ hd₂ _ hq => ?_
        obtain ⟨rfl, hstack⟩ := hq
        refine hd₂.fine.pure ⟨hout.some, hout.mem, hout.ends, ?_⟩
        rw [hstack, drop_of_suffix hout.stack]
      · exact hd.fine.pure hout
  | ret value =>
    rw [Expr.size] at ha
    refine ((ha.part (by omega)).tail h).bind fun _ s₁ _ _ hd _ hq => ?_
    split_ifs with ht
    · exact hd.fine.pure ⟨by simp [ht], by simp, fun _ => hq.1, hq.2⟩
    · refine (hd.fine.loadNil.keeping.answer tail).mono fun _ _ _ _ _ _ ha => ?_
      exact ⟨ha.some, ha.mem, ha.ends, hq.2.trans ha.stack⟩
  | assign offset value =>
    rw [Expr.size] at ha
    exact (h.genAssign (ha.part (by omega)) offset).answer tail
  | yield value =>
    rw [Expr.size] at ha
    refine ((ha.part (by omega)).value h).bind fun r s₁ _ P₁ hd _ hr => ?_
    have hp : Plain σ s₁ P₁ (.yield r) := ⟨rfl, rfl, by simp, by simpa [Instr.inputs] using hr.1,
      fun _ hρ => ⟨hρ.calm, hρ.pushed⟩⟩
    refine (hd.fine.write hp fun hf => hf).bind fun _ s₂ _ _ hd₂ _ hq => ?_
    refine (hd₂.fine.loadNil.keeping.answer tail).mono fun _ _ _ _ _ _ ha => ?_
    exact ⟨ha.some, ha.mem, ha.ends, (hq.2.stack ▸ hr.2).trans ha.stack⟩
  | struct ty fields =>
    rw [Expr.size] at ha
    refine (h.genStruct (fun e he => ha.part ?_) ty).answer tail
    have := Expr.size_le_sizeList he
    omega

/-- How deep the recursion goes for an expression of a size, in a unit of size `n`, below `d` bodies
in place of calls. -/
def depthBound (levels n d size : Nat) : Nat :=
  n * ((levels + 1) * (n + 1)) + (levels - d) * (n + 1) + size

section
variable {levels n d size k : Nat}

theorem depthBound_part (h : k < size) : depthBound levels n d k < depthBound levels n d size := by
  unfold depthBound
  omega

theorem depthBound_inlined (hd : d < levels) (h : k < n) :
    depthBound levels n (d + 1) k < depthBound levels n d size := by
  have hlevel : (levels - d) * (n + 1) = (levels - (d + 1)) * (n + 1) + (n + 1) := by
    rw [← Nat.succ_mul, Nat.succ_eq_add_one, show levels - (d + 1) + 1 = levels - d by omega]
  unfold depthBound
  omega

theorem depthBound_whole (levels n : Nat) :
    depthBound levels n 0 n < (n + 1) * ((levels + 1) * (n + 1)) := by
  have hlevel : (levels + 1) * (n + 1) = levels * (n + 1) + (n + 1) := Nat.succ_mul ..
  have hunit : (n + 1) * ((levels + 1) * (n + 1)) =
      n * ((levels + 1) * (n + 1)) + (levels + 1) * (n + 1) := Nat.succ_mul ..
  rw [depthBound, Nat.sub_zero, hunit]
  omega

theorem depthBound_unit (h : k < n) :
    depthBound levels k 0 k < depthBound levels n d size := by
  have hwhole := depthBound_whole levels k
  have hle : (k + 1) * ((levels + 1) * (k + 1)) ≤ n * ((levels + 1) * (n + 1)) :=
    Nat.mul_le_mul h (Nat.mul_le_mul (Nat.le_refl _) (by omega))
  have hsum : n * ((levels + 1) * (n + 1)) ≤ depthBound levels n d size := by
    unfold depthBound
    omega
  omega

end

/-- **Code for an expression is generated without a fault**, and the audit makes no difference. -/
theorem genExpr_emits (c : Bool) : ∀ (fuel : Nat) {σ : Site} {e : Expr} {s : GenState} {body : Code}
    {P : Point} (tail : Bool), Fine σ s body P → e.size ≤ σ.size →
    depthBound σ.ctx.settings.inlineLevels σ.size σ.depth e.size ≤ fuel →
    Emits σ (genExpr σ.ctx fuel e tail) (genExpr (σ.ctx.checking c) fuel e tail) s body P (Answer s tail)
  | 0, σ, e, s, body, P, tail, h, hn, hfuel => by
    have : 0 < e.size := by
      cases e <;> simp [Expr.size]
    unfold depthBound at hfuel
    omega
  | fuel + 1, σ, e, s, body, P, tail, h, hn, hfuel => by
    refine h.genNode ⟨⟨fuel, rfl⟩, fun {e'} he => ?_, fun {e'} he caps => ?_, fun e' he hd => ?_⟩ hn tail c
    · have hlt : depthBound σ.ctx.settings.inlineLevels σ.size σ.depth e'.size <
          depthBound σ.ctx.settings.inlineLevels σ.size σ.depth e.size := depthBound_part he
      exact serves_of fun tail hf => genExpr_emits c fuel tail hf (by omega) (by omega)
    · have hlt : depthBound σ.ctx.settings.inlineLevels e'.size 0 e'.size <
          depthBound σ.ctx.settings.inlineLevels σ.size σ.depth e.size := depthBound_unit (by omega)
      exact serves_of fun tail hf => genExpr_emits c fuel tail hf (Nat.le_refl _)
        (Nat.le_of_lt_succ (hlt.trans_le hfuel))
    · have hlt : depthBound σ.ctx.settings.inlineLevels σ.size (σ.depth + 1) e'.size <
          depthBound σ.ctx.settings.inlineLevels σ.size σ.depth e.size := depthBound_inlined hd he
      exact serves_of fun tail hf => genExpr_emits c fuel tail hf (Nat.le_of_lt he)
        (Nat.le_of_lt_succ (hlt.trans_le hfuel))

end Gen

/-- The entry unit of a module. -/
theorem Gen.runs_main (m : SourceModule) (settings : Settings) (c : Bool) :
    let ctx : Context := ⟨settings, m.types.toArray⟩
    let fuel := nestingBound settings m.body
    Runs (buildUnit ctx (.of (genExpr ctx fuel)) "main" 0 [] m.body)
      (buildUnit (ctx.checking c) (.of (genExpr (ctx.checking c) fuel)) "main" 0 [] m.body) {}
      fun entry s => ∀ p : Program, s.Within p → p.types = ctx.types → UnitOk settings p entry [] ∧
        ∀ {k : Nat} {u : UnitId}, s.pool[k]? = some (.closure u) → UnitOk settings p u [] := by
  intro ctx fuel
  have hfuel : depthBound ctx.settings.inlineLevels m.body.size 0 m.body.size ≤ fuel := by
    have := depthBound_whole settings.inlineLevels m.body.size
    show depthBound settings.inlineLevels m.body.size 0 m.body.size ≤ nestingBound settings m.body
    unfold nestingBound
    omega
  have hserves : Serves ⟨m.body.size, 0, ctx, []⟩ (.of (genExpr ctx fuel))
      (.of (genExpr (ctx.checking c) fuel)) m.body :=
    serves_of fun tail hf => genExpr_emits c fuel tail hf (Nat.le_refl _) hfuel
  have hfine : Fine ⟨0, 0, ctx, []⟩ {} [(head, .nop)] .first :=
    fine_of_draft_empty rfl rfl fun hk => by simp at hk
  refine Runs.mono (hfine.buildUnit ⟨fuel, rfl⟩ [] hserves c "main" 0) fun entry s hd p hp ht => ?_
  exact ⟨hd.2.2.ok p hp ht, fun hk => hd.1.fine.plain hk p hp ht⟩

/-- **The units of a compiled program work**: its entry unit and those of constant closures, without
captures. -/
theorem SourceModule.compile_sound {m : SourceModule} {settings : Settings} {p : Program}
    (h : m.compile settings = .ok p) : UnitOk settings p p.entry [] ∧
      ∀ {k : Nat} {u : UnitId}, p.consts[k]? = some (.closure u) → UnitOk settings p u [] := by
  have hends := (Gen.runs_main m settings true).ends
  unfold compile at h
  dsimp only at hends h
  generalize StateT.run _ _ = result at hends h
  rcases result with e | ⟨entry, s⟩
  · cases h
  · obtain rfl := Except.ok.inj h
    exact hends _ ⟨fun hk => hk, fun hk => ⟨_, hk, rfl, fun _ => rfl⟩⟩ rfl

/-- A module is compiled or refused. -/
theorem SourceModule.compile_ends (m : SourceModule) (settings : Settings) :
    (∃ p, m.compile settings = .ok p) ∨ ∃ e, m.compile settings = .error (.refused e) := by
  have hends := (Gen.runs_main m settings true).ends
  unfold compile
  dsimp only at hends ⊢
  generalize StateT.run _ _ = result at hends ⊢
  rcases result with (e | f) | ⟨entry, s⟩
  · exact Or.inr ⟨e, rfl⟩
  · exact hends.elim
  · exact Or.inl ⟨_, rfl⟩

/-- **Every module is compiled or refused**, and it is the same with the audit on and off: there is
no fault of a listing, of the ownership analysis or of the audit, and no lack of a result. -/
theorem SourceModule.compile_or_refused (m : SourceModule) (settings : Settings) :
    ((∃ p, m.compile settings = .ok p) ∨ ∃ e, m.compile settings = .error (.refused e)) ∧
      ∀ c, m.compile { settings with verify := c } = m.compile settings := by
  refine ⟨compile_ends m settings, fun c => ?_⟩
  have hsame := (Gen.runs_main m settings c).same
  have hbound : Gen.nestingBound { settings with verify := c } m.body =
      Gen.nestingBound settings m.body := rfl
  unfold compile
  dsimp only [Context.checking] at hsame ⊢
  rw [hbound, hsame]

/-- A module is compiled when its entry unit can be drafted, with enough fuel, and finished. -/
theorem SourceModule.compile_of_finish (m : SourceModule) (settings : Settings) (depth : Nat) {n : Nat}
    {s : GenState} {code : Array (Instr Nat)} (hdepth : depth ≤ Gen.nestingBound settings m.body)
    (hdraft : ∀ k, (Gen.drafting (.of (Gen.genExpr ⟨settings, m.types.toArray⟩ (k + depth))) 0 [] m.body).run
      (Gen.starting {} "main" 0 []) = .ok ((), s))
    (hfinish : Gen.finishListing settings s.pool "main" s.draft.listing = .ok (code, n)) :
    m.compile settings =
      .ok ⟨s.units.setIfInBounds 0 ⟨"main", 0, 0, n, code⟩, s.pool, m.types.toArray, ⟨0⟩⟩ := by
  obtain ⟨k, hk⟩ := Nat.exists_eq_add_of_le' hdepth
  have hbuild : (Gen.buildUnit ⟨settings, m.types.toArray⟩ (.of (Gen.genExpr ⟨settings, m.types.toArray⟩
      (k + depth))) "main" 0 [] m.body).run {} = .ok (⟨0⟩, _) :=
    Gen.buildUnit_of_finish (hdraft k) hfinish
  unfold compile
  dsimp only
  rw [hk, hbuild]
  rfl

/-! ## A module with a call in tail position -/

namespace Echo

open Gen

/-- A function that returns its argument. -/
def echo : Lambda Expr where
  arity := 1
  captures := []
  body := .var 0 false
  name := some "echo"

/-- A text is handed to the host, and then the function is called with another one. -/
def source : SourceModule := ⟨[], .letIn [⟨.fn echo, false⟩, ⟨.yield (.lit (.str "a")), false⟩]
  (some (.apply (.var 1 false) [.lit (.str "b")] false none))⟩

def settings : Settings := { inlining := false, verify := false }

def context : Context := ⟨settings, #[]⟩

def echoListing : Listing where
  nodes := #[some ⟨.nop, none, some ⟨2⟩⟩, some ⟨.done, some ⟨3⟩, none⟩,
    some ⟨.param ⟨0⟩ 0, some ⟨0⟩, some ⟨3⟩⟩, some ⟨.ret ⟨0⟩, some ⟨2⟩, some ⟨1⟩⟩]
  free := []
  cursor := ⟨1⟩
  regs := #[⟨.param, none⟩]

def mainListing : Listing where
  nodes := #[some ⟨.nop, none, some ⟨2⟩⟩, some ⟨.done, some ⟨8⟩, none⟩,
    some ⟨.const ⟨0⟩ ⟨0⟩, some ⟨0⟩, some ⟨3⟩⟩, some ⟨.const ⟨1⟩ ⟨1⟩, some ⟨2⟩, some ⟨4⟩⟩,
    some ⟨.yield ⟨1⟩, some ⟨3⟩, some ⟨5⟩⟩, some ⟨.const ⟨2⟩ ⟨2⟩, some ⟨4⟩, some ⟨6⟩⟩,
    some ⟨.const ⟨3⟩ ⟨3⟩, some ⟨5⟩, some ⟨7⟩⟩, some ⟨.push ⟨3⟩, some ⟨6⟩, some ⟨8⟩⟩,
    some ⟨.tailCall ⟨0⟩ 1, some ⟨7⟩, some ⟨1⟩⟩]
  free := []
  cursor := ⟨1⟩
  regs := #[⟨.temp, some .fn⟩, ⟨.temp, some .str⟩, ⟨.temp, some .nil⟩, ⟨.temp, some .str⟩]

def echoCode : List (Instr Nat) :=
  [.nop, .param ⟨0⟩ 0, .adjust .inc ⟨0⟩, .ret ⟨0⟩, .done]

/-- The function is held until it is called; its argument goes over to the stack. -/
def mainCode : List (Instr Nat) :=
  [.nop, .const ⟨0⟩ ⟨0⟩, .adjust .inc ⟨0⟩, .const ⟨1⟩ ⟨1⟩, .adjust .inc ⟨1⟩, .yield ⟨1⟩,
    .adjust .unref ⟨1⟩, .const ⟨3⟩ ⟨3⟩, .adjust .inc ⟨3⟩, .push ⟨3⟩, .adjust .unref ⟨3⟩, .tailCall ⟨0⟩ 1,
    .done]

def program : Program where
  units := #[⟨"main", 0, 0, 4, mainCode.toArray⟩, ⟨"echo", 1, 0, 1, echoCode.toArray⟩]
  consts := #[.closure ⟨1⟩, .str "a", .nil, .str "b"]
  types := #[]
  entry := ⟨0⟩

theorem finish_echo : finishListing settings #[] "echo" echoListing = .ok (echoCode.toArray, 1) := by
  have hfull : Listing.Full echoListing echoListing.entries := by decide
  rw [finishListing, Listing.placeOwnership_forward hfull.linked (by decide)]
  simp only [tidied, Listing.tidy, Listing.eraseUnreadLoads, Std.HashSet.contains_ofList]
  decide +kernel

theorem finish_main : finishListing settings program.consts "main" mainListing = .ok (mainCode.toArray, 4) := by
  have hfull : Listing.Full mainListing mainListing.entries := by decide
  rw [finishListing, Listing.placeOwnership_forward hfull.linked (by decide)]
  simp only [tidied, Listing.tidy, Listing.eraseUnreadLoads, Std.HashSet.contains_ofList]
  decide +kernel

/-- The state in which the entry unit is begun. -/
def begun : GenState := starting {} "main" 0 []

theorem draftEcho_run {k : Nat} : (drafting (.of (genExpr context (k + 1))) 1 [] echo.body).run
    (starting begun "echo" 1 []) = .ok ((), { starting begun "echo" 1 [] with
      draft := { listing := echoListing, stack := [⟨⟨0⟩, false⟩] } }) := by
  cbv

/-- The state in which the function has been generated. -/
def noted : GenState where
  units := #[⟨"main", 0, 0, 0, #[]⟩, ⟨"echo", 1, 0, 1, echoCode.toArray⟩]
  pool := #[.closure ⟨1⟩]
  functions := #[⟨1, echo.body⟩]
  draft := {
    listing := ⟨#[some ⟨.nop, none, some ⟨2⟩⟩, some ⟨.done, some ⟨2⟩, none⟩,
      some ⟨.const ⟨0⟩ ⟨0⟩, some ⟨0⟩, some ⟨1⟩⟩], [], ⟨1⟩, #[⟨.temp, some .fn⟩]⟩
    known := (∅ : Std.HashMap Reg Nat).insert ⟨0⟩ 0 }

theorem genEcho_run {k : Nat} : (genExpr context (k + 2) (.fn echo) false).run begun =
    .ok (some ⟨0⟩, noted) := by
  have hname : (unitName echo).run begun = .ok ("echo", begun) := rfl
  have hbuild : (buildUnit context (.of (genExpr context (k + 1))) "echo" echo.arity [] echo.body).run begun =
      .ok (⟨1⟩, _) := buildUnit_of_finish draftEcho_run finish_echo
  have hnode : genExpr context (k + 2) (.fn echo) false =
      some <$> genFn context (.of (genExpr context (k + 1))) echo := rfl
  rw [hnode, genFn, if_pos (by decide), StateT.run_map, run_bind_of_eq hname, run_bind_of_eq hbuild]
  cbv

/-- The state in which all code of the entry unit has been generated. -/
def drafted : GenState := { noted with pool := program.consts, draft := { noted.draft with listing := mainListing } }

theorem drafting_run {k : Nat} : (drafting (.of (genExpr context (k + 3))) 0 [] source.body).run begun =
    .ok ((), drafted) := by
  have hheight : height.run begun = .ok (0, begun) := rfl
  have hecho : ((Sub.of (genExpr context (k + 2))).value (.fn echo)).run begun = .ok (⟨0⟩, noted) := by
    unfold Sub.of
    dsimp only
    rw [run_bind_of_eq genEcho_run]
    rfl
  have hbody : (genExpr context (k + 3) source.body true).run begun = .ok (none, drafted) := by
    change (height >>= fun n => ((Sub.of (genExpr context (k + 2))).value (.fn echo) >>= fun r =>
      bindReg r >>= fun _ => genBinds (.of (genExpr context (k + 2))) [⟨.yield (.lit (.str "a")), false⟩]) >>=
        fun _ => genExpr context (k + 2) (.apply (.var 1 false) [.lit (.str "b")] false none) true >>= fun out =>
          forgetAbove n >>= fun _ => pure out).run _ = _
    rw [run_bind_of_eq hheight, bind_assoc, run_bind_of_eq hecho]
    cbv
  change ((Sub.of (genExpr context (k + 3))).tail source.body).run _ = _
  unfold Sub.of
  dsimp only
  rw [run_bind_of_eq hbody]
  rfl

theorem compile_source : source.compile settings = .ok program := by
  rw [source.compile_of_finish settings 3 (by decide) (fun _ => drafting_run) finish_main]
  rfl

end Echo

end CountedMachine
