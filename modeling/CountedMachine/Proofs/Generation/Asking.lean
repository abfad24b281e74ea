import CountedMachine.Proofs.Generation.Requests

/-! # What each node asks for

One lemma for each function of the code generator: what it asks for while code for a node is generated.
The parts of a node are asked for once at most. A call asks for one body more, if any, and a function
literal for its body in a unit of its own; both take less than the node that asks for them
(`asks_genNode`). -/

namespace CountedMachine.Gen

variable {levels : Nat} {g : Oracle} {q : Request} {e : Expr} {ctx : Context}

section
variable (hg : Reliable g) (hq : q.place.unit.Contains q.expr)
include hg hq

/-! ## Parts -/

/-- A part is asked for. -/
theorem asks_expr (he : e ∈ q.expr.parts) (tail : Bool) :
    Asks levels g q (fun f => (Sub.of f).expr e tail) (e.size * q.place.rate levels) :=
  fun s hs => asksAt_request hg (r := ⟨q.place, e, tail, s⟩) (.part he) hs (hq.part he)

theorem asks_value (he : e ∈ q.expr.parts) :
    Asks levels g q (fun f => (Sub.of f).value e) (e.size * q.place.rate levels) := by
  refine (asks_expr hg hq he false).done (R := fun vs vs' => vs' = vs) fun out => ?_
  cases out with
  | none => exact moves_throw _
  | some r => exact keeps_pure r

theorem asks_tail (he : e ∈ q.expr.parts) :
    Asks levels g q (fun f => (Sub.of f).tail e) (e.size * q.place.rate levels) := by
  refine (asks_expr hg hq he true).done (R := fun vs vs' => vs' = vs) fun out => ?_
  cases out with
  | none => exact keeps_pure ()
  | some src => exact keeps_write _

theorem asks_mapM : ∀ {es : List Expr}, (∀ e ∈ es, e ∈ q.expr.parts) →
    Asks levels g q (fun f => es.mapM (Sub.of f).value) (Expr.sizeList es * q.place.rate levels)
  | [], _ => by
    simp only [List.mapM_nil]
    exact (keeps_pure []).asks.mono (Nat.zero_le _)
  | e :: es, h => by
    simp only [List.mapM_cons, Expr.sizeList, Nat.add_mul]
    refine (asks_value hg hq (h e (.head _))).bind fun r => ?_
    exact (asks_mapM fun e he => h e (.tail _ he)).done fun rs => keeps_pure (r :: rs)

/-! ## Arms -/

theorem asks_genArm (he : e ∈ q.expr.parts) (merged : Option Reg) (n : Nat) :
    Asks levels g q (fun f => genArm (.of f) e merged n) (e.size * q.place.rate levels) := by
  cases merged with
  | some dst =>
    exact (asks_value hg hq he).done fun src => (keeps_write _).then fun _ =>
      (settles_forgetAbove n).keep fun _ => keeps_pure (some src)
  | none => exact (asks_tail hg hq he).done fun _ => (settles_forgetAbove n).keep fun _ => keeps_pure none

theorem asks_genArms {yes no : Expr} (hyes : yes ∈ q.expr.parts) (hno : no ∈ q.expr.parts)
    (branch : Branch) (merged : Option Reg) (n : Nat) :
    Asks levels g q (fun f => genArms (.of f) branch merged n yes no)
      (yes.size * q.place.rate levels + no.size * q.place.rate levels) := by
  refine (asks_genArm hg hq hyes merged n).bind fun x => (keeps_beginElse branch).asking fun branch => ?_
  refine (asks_genArm hg hq hno merged n).done (R := fun vs vs' => vs' = vs) fun y =>
    (keeps_meet branch merged).then fun _ => ?_
  split
  · exact (keeps_agree _ _ _).then fun _ => keeps_pure _
  · exact keeps_pure _

theorem asks_genIf {test yes no : Expr} (htest : test ∈ q.expr.parts) (hyes : yes ∈ q.expr.parts)
    (hno : no ∈ q.expr.parts) (tail : Bool) :
    Asks levels g q (fun f => genIf (.of f) test yes no tail)
      (test.size * q.place.rate levels + (yes.size * q.place.rate levels + no.size * q.place.rate levels)) :=
  (asks_value hg hq htest).bind fun c => (keeps_asFlag c).asking fun flag => keeps_height.asking fun n =>
    (keeps_openBranch flag).asking fun branch => (keeps_mergeReg tail).asking fun merged =>
      asks_genArms hg hq hyes hno branch merged n

/-! ## Matches -/

theorem asks_genFitting {yes : Expr} (hyes : yes ∈ q.expr.parts) (v : Reg) (p : Pattern) (tail : Bool) :
    Asks levels g q (fun f => genFitting ctx (.of f) v p yes tail) (yes.size * q.place.rate levels) :=
  keeps_height.asking fun n => (piles_bindWhole ctx v p).asking fun _ =>
    (asks_expr hg hq hyes tail).done fun out => (settles_forgetAbove n).keep fun _ => keeps_pure out

theorem asks_genOneLevel {yes no : Expr} (hyes : yes ∈ q.expr.parts) (hno : no ∈ q.expr.parts) (v : Reg)
    (p : Pattern) (tail : Bool) : Asks levels g q (fun f => genOneLevel ctx (.of f) v p yes no tail)
      (yes.size * q.place.rate levels + no.size * q.place.rate levels) := by
  cases p with
  | unpack ty fields =>
    exact (keeps_validatePattern ctx _).asking fun _ => keeps_height.asking fun n =>
      (keeps_openTest v ty).asking fun branch => (keeps_mergeReg tail).asking fun merged =>
        (piles_bindParts ctx v ty fields).asking fun _ => asks_genArms hg hq hyes hno branch merged n
  | _ => exact (moves_throw (R := fun vs vs' => vs' = vs) _).asks.mono (Nat.zero_le _)

theorem asks_genLevelsTail {yes no : Expr} (hyes : yes ∈ q.expr.parts) (hno : no ∈ q.expr.parts)
    (v : Reg) (p : Pattern) : Asks levels g q (fun f => genLevelsTail (.of f) v p yes no)
      (yes.size * q.place.rate levels + no.size * q.place.rate levels) :=
  keeps_height.asking fun n => (piles_descend v p).asking fun branches =>
    (asks_tail hg hq hyes).bind fun _ => (settles_forgetAbove n).asking fun _ =>
      (keeps_ascend branches.reverse).asking fun _ => (asks_tail hg hq hno).done fun _ => keeps_pure none

theorem asks_genMatched {yes : Expr} (hyes : yes ∈ q.expr.parts) (v : Reg) (p : Pattern)
    (unmatched merged : Reg) (n : Nat) :
    Asks levels g q (fun f => genMatched (.of f) v p unmatched merged n yes)
      (yes.size * q.place.rate levels) :=
  (piles_descend v p).asking fun branches => (keeps_write _).asking fun _ =>
    (asks_value hg hq hyes).done fun x => (keeps_write _).then fun _ =>
      (settles_forgetAbove n).keep fun _ => (keeps_ascend branches.reverse).then fun _ => keeps_pure x

theorem asks_genUnmatched {no : Expr} (hno : no ∈ q.expr.parts) (unmatched merged : Reg) (n : Nat) :
    Asks levels g q (fun f => genUnmatched (.of f) unmatched merged n no) (no.size * q.place.rate levels) :=
  (keeps_openBranch unmatched).asking fun branch => (asks_value hg hq hno).done fun y =>
    (keeps_write _).then fun _ => (settles_forgetAbove n).keep fun _ =>
      (keeps_closeBranch branch (some merged)).then fun _ => keeps_pure y

theorem asks_genLevelsValue {yes no : Expr} (hyes : yes ∈ q.expr.parts) (hno : no ∈ q.expr.parts)
    (v : Reg) (p : Pattern) : Asks levels g q (fun f => genLevelsValue (.of f) v p yes no)
      (yes.size * q.place.rate levels + no.size * q.place.rate levels) :=
  keeps_height.asking fun n => (keeps_freshReg _ _).asking fun unmatched => (keeps_write _).asking fun _ =>
    (keeps_freshReg _ _).asking fun merged => (asks_genMatched hg hq hyes v p unmatched merged n).bind fun x =>
      (asks_genUnmatched hg hq hno unmatched merged n).done fun y =>
        (keeps_agree merged x y).then fun _ => keeps_pure (some merged)

theorem asks_genLevels {yes no : Expr} (hyes : yes ∈ q.expr.parts) (hno : no ∈ q.expr.parts)
    (v : Reg) (p : Pattern) (tail : Bool) :
    Asks levels g q (fun f => genLevels ctx (.of f) v p yes no tail)
      (yes.size * q.place.rate levels + no.size * q.place.rate levels) := by
  refine (keeps_validatePattern ctx p).asking fun _ => ?_
  cases tail with
  | true => exact asks_genLevelsTail hg hq hyes hno v p
  | false => exact asks_genLevelsValue hg hq hyes hno v p

theorem asks_genAlternatives {yes no : Expr} (hyes : yes ∈ q.expr.parts) (hno : no ∈ q.expr.parts)
    (v : Reg) (p : Pattern) (tail : Bool) :
    Asks levels g q (fun f => genAlternatives ctx (.of f) v p yes no tail)
      (yes.size * q.place.rate levels + no.size * q.place.rate levels) := by
  refine (keeps_knownType v).asking fun type => ?_
  cases Forecast.of type p with
  | fits => exact (asks_genFitting hg hq hyes v p tail).mono (Nat.le_add_right _ _)
  | fails =>
    exact ((keeps_validatePattern ctx p).asking fun _ => asks_expr hg hq hno tail).mono (Nat.le_add_left _ _)
  | undecided =>
    dsimp only
    split
    · exact asks_genOneLevel hg hq hyes hno v p tail
    · exact asks_genLevels hg hq hyes hno v p tail

/-! ## Operators and bindings -/

theorem asks_genOperator {lhs rhs : Expr} (hl : lhs ∈ q.expr.parts) (hr : rhs ∈ q.expr.parts)
    (op : Operator) : Asks levels g q (fun f => genOperator ctx (.of f) op lhs rhs)
      (lhs.size * q.place.rate levels + rhs.size * q.place.rate levels) := by
  refine (asks_value hg hq hl).bind fun l => (asks_value hg hq hr).done (R := fun vs vs' => vs' = vs) fun r => ?_
  split
  · exact keeps_genUnchecked _ _ _ _
  · exact keeps_genUnchecked _ _ _ _
  · exact keeps_genUnchecked _ _ _ _
  · exact keeps_genArithmetic _ _ _

theorem asks_genBinds : ∀ {binds : List (Binding Expr)}, (∀ b ∈ binds, b.value ∈ q.expr.parts) →
    Asks levels g q (fun f => genBinds (.of f) binds) (Expr.sizeBinds binds * q.place.rate levels)
  | [], _ => (keeps_pure ()).asks.mono (Nat.zero_le _)
  | ⟨e, boxed⟩ :: rest, h => by
    have hrest : Asks levels g q (fun f => genBinds (.of f) rest) _ :=
      asks_genBinds fun b hb => h b (.tail _ hb)
    simp only [genBinds, Expr.sizeBinds, Nat.add_mul]
    refine (asks_value hg hq (h ⟨e, boxed⟩ (.head _))).bind fun r => ?_
    cases boxed with
    | true =>
      exact (keeps_freshReg _ _).asking fun cell => (keeps_write _).asking fun _ =>
        (piles_pushVariable _).asking fun _ => hrest
    | false => exact (piles_pushVariable _).asking fun _ => hrest

theorem asks_genBody {body : Option Expr} (hbody : ∀ e ∈ body, e ∈ q.expr.parts) (n : Nat) (tail : Bool) :
    Asks levels g q (fun f => genBody (.of f) body n tail) (Expr.sizeOption body * q.place.rate levels) := by
  cases body with
  | none =>
    exact ((keeps_loadConstant .nil).then fun r => keeps_pure (some r)).asks.mono (Nat.zero_le _)
  | some e =>
    exact (asks_expr hg hq (hbody e rfl) tail).done fun out =>
      (settles_forgetAbove n).keep fun _ => keeps_pure out

theorem asks_genSequence (tail : Bool) : ∀ {es : List Expr}, (∀ e ∈ es, e ∈ q.expr.parts) →
    Asks levels g q (fun f => genSequence (.of f) tail es) (Expr.sizeList es * q.place.rate levels)
  | [], _ => ((keeps_loadConstant .nil).then fun r => keeps_pure (some r)).asks.mono (Nat.zero_le _)
  | [e], h => (asks_expr hg hq (h e (.head _)) tail).mono (Nat.mul_le_mul_right _ (Nat.le_add_right _ _))
  | e :: e' :: rest, h => by
    rw [Expr.sizeList, Nat.add_mul]
    exact (asks_value hg hq (h e (.head _))).bind fun _ => asks_genSequence tail fun e he => h e (.tail _ he)

theorem asks_genAssign {value : Expr} (hv : value ∈ q.expr.parts) (offset : Nat) :
    Asks levels g q (fun f => genAssign (.of f) offset value) (value.size * q.place.rate levels) := by
  refine (keeps_variableAt offset).asking fun v => ?_
  by_cases hmut : v.mutable = true
  · simp only [hmut]
    exact (asks_value hg hq hv).done fun src => (keeps_write _).then fun _ => keeps_loadConstant _
  · simp only [hmut]
    exact (moves_throw (R := fun vs vs' => vs' = vs) _).asks.mono (Nat.zero_le _)

theorem asks_genStruct {fields : List Expr} (hf : ∀ e ∈ fields, e ∈ q.expr.parts) (ty : Nat) :
    Asks levels g q (fun f => genStruct ctx (.of f) ty fields)
      (Expr.sizeList fields * q.place.rate levels) := by
  unfold genStruct
  cases ctx.types[ty]? with
  | none => exact (moves_throw (R := fun vs vs' => vs' = vs) _).asks.mono (Nat.zero_le _)
  | some d =>
    dsimp only
    split
    · exact (moves_throw (R := fun vs vs' => vs' = vs) _).asks.mono (Nat.zero_le _)
    · exact (asks_mapM hg hq hf).done fun regs => (keeps_freshReg _ _).then fun dst =>
        (keeps_write _).then fun _ => keeps_pure dst

/-! ## Units -/

omit hg hq in
theorem piles_loadCaptures : ∀ (idx : Nat) (caps : List Bool), Piles Unlearned (loadCaptures idx caps)
  | _, [] => (keeps_pure ()).piles
  | idx, _ :: rest => (keeps_freshReg _ _).then fun _ => (keeps_write _).then fun _ =>
      (piles_pushVariable _).bind fun _ => piles_loadCaptures (idx + 1) rest

omit hg hq in
theorem piles_loadParams : ∀ idx n : Nat, Piles Unlearned (loadParams idx n)
  | _, 0 => (keeps_pure ()).piles
  | idx, n + 1 => (keeps_freshReg _ _).then fun _ => (keeps_write _).then fun _ =>
      (piles_pushVariable _).bind fun _ => piles_loadParams (idx + 1) n

omit hq in
/-- The body of a unit is asked for as its tail. -/
theorem asksAt_body {lambda : Lambda Expr} (hlambda : lambda ∈ q.expr.literals) {s : GenState}
    (hs : Place.Fits ⟨lambda.body, 0⟩ s) (hknown : s.draft.known = ∅) :
    AsksAt levels g q (fun f => (Sub.of f).tail lambda.body) s
      (lambda.body.size * (Place.mk lambda.body 0).rate levels)
      fun _ s' => Place.Leads ⟨lambda.body, 0⟩ s s' := by
  have hask : AsksAt levels g q (fun f => f lambda.body true) s _ _ :=
    asksAt_request hg (r := ⟨⟨lambda.body, 0⟩, lambda.body, true, s⟩) (.unit hlambda hknown) hs .self
  refine (hask.bind (m := 0) fun out s₁ h₁ => ?_).mono le_rfl fun _ _ h => h
  have hback : ∀ s', Unlearned s₁ s' → Place.Leads ⟨lambda.body, 0⟩ s s' := fun _ hl =>
    h₁.trans (h₁.fits.leads hl)
  cases out with
  | none => exact (keeps_pure ()).asksAt.mono le_rfl fun _ => hback
  | some src => exact (keeps_write _).asksAt.mono le_rfl fun _ => hback

/-- **A unit asks for its body**, from a state in which no function is known. What the outer unit knows
is still there afterwards. -/
theorem asks_buildUnit {lambda : Lambda Expr} (hlambda : lambda ∈ q.expr.literals) (name : String)
    (arity : Nat) (caps : List Bool) :
    Asks levels g q (fun f => buildUnit ctx (.of f) name arity caps lambda.body)
      (lambda.body.size * q.place.rate levels) := by
  intro s hs
  have hlt : lambda.body.size < q.place.unit.size := (Expr.size_lt_of_literal hlambda).trans_le hq.size_le
  have hle : lambda.body.size * (Place.mk lambda.body 0).rate levels ≤
      lambda.body.size * q.place.rate levels := Nat.mul_le_mul_left _ (rate_unit hlt)
  refine .from (a := s.draft) rfl (.from (a := s) rfl (.from (a := ()) rfl ?_))
  refine ((piles_loadCaptures 0 caps).asksAt.bind (m := lambda.body.size * q.place.rate levels)
    fun _ s₁ h₁ => ?_).mono (Nat.zero_add _).le fun _ _ h => h
  refine ((piles_loadParams 0 arity).asksAt.bind (m := lambda.body.size * q.place.rate levels)
    fun _ s₂ h₂ => ?_).mono (Nat.zero_add _).le fun _ _ h => h
  have hloaded := Overlooks.trans h₁ h₂
  have hknown : s₂.draft.known = ∅ := hloaded.known
  have hfits : Place.Fits ⟨lambda.body, 0⟩ s₂ := by
    refine ⟨hloaded.inlined, fun hk => ?_⟩
    rw [hknown] at hk
    simp at hk
  refine ((asksAt_body hg hlambda hfits hknown).bind (m := 0) fun _ s₃ h₃ => asksAt_of_run fun id s₄ e => ?_).mono
    hle fun _ _ h => h
  obtain ⟨_, _, e₀, e₁⟩ := run_bind_ok e
  cases e₀
  obtain ⟨⟨code, nregs⟩, s₃', e₂, e₃⟩ := run_bind_ok e₁
  obtain rfl : s₃' = s₃ := by
    cases hfinish : finishListing ctx.settings s₃.pool name s₃.draft.listing with
    | ok out => rw [hfinish] at e₂; cases e₂; rfl
    | error f => rw [hfinish] at e₂; cases e₂
  cases e₃
  -- the functions of the outer unit are there, and its draft is taken up again
  have hfunctions : ∀ {k : Nat} {f : KnownFunction}, s.functions[k]? = some f → s₃'.functions[k]? = some f :=
    fun hk => h₃.functions (hloaded.functions ▸ hk)
  refine ⟨⟨hs.inlined, fun hk => ?_⟩, hfunctions⟩
  obtain ⟨lambda', hf, hcap, hin⟩ := hs.known hk
  exact ⟨lambda', hfunctions hf, hcap, hin⟩

/-! ## Function literals -/

theorem asks_buildClosure {lambda : Lambda Expr} (hlambda : lambda ∈ q.expr.literals) :
    Asks levels g q (fun f => buildClosure ctx (.of f) lambda) (lambda.body.size * q.place.rate levels) :=
  (keeps_mapM_variableAt lambda.captures).asking fun caps => (keeps_unitName lambda).asking fun name =>
    (asks_buildUnit hg hq hlambda name lambda.arity _).done fun unit => keeps_pure (unit, caps.map (·.reg))

omit hg in
/-- A literal without captures is known from now on. -/
theorem asks_noteFunction {lambda : Lambda Expr} (he : q.expr = .fn lambda) (hcap : lambda.captures = [])
    (r : Reg) : Asks levels g q (fun _ => noteFunction r ⟨lambda.arity, lambda.body⟩) 0 := by
  intro s hs
  refine asksAt_of_run fun _ s' e => ?_
  cases e
  have hfunctions : ∀ {k : Nat} {f : KnownFunction}, s.functions[k]? = some f →
      (s.functions.push ⟨lambda.arity, lambda.body⟩)[k]? = some f := fun {k f} hk => by
    have hlt := (Array.getElem?_eq_some_iff.mp hk).1
    rwa [Array.getElem?_push_lt hlt, ← Array.getElem?_eq_getElem hlt]
  refine ⟨⟨hs.inlined, fun {r' k} hk => ?_⟩, hfunctions⟩
  dsimp only at hk
  rw [Std.HashMap.getElem?_insert] at hk
  split at hk
  · obtain rfl := Option.some.inj hk
    exact ⟨lambda, Array.getElem?_push_size, hcap, he ▸ hq⟩
  · obtain ⟨lambda', hf, hcap', hin⟩ := hs.known hk
    exact ⟨lambda', hfunctions hf, hcap', hin⟩

theorem asks_genFn {lambda : Lambda Expr} (he : q.expr = .fn lambda) :
    Asks levels g q (fun f => genFn ctx (.of f) lambda) (lambda.body.size * q.place.rate levels) := by
  have hlambda : lambda ∈ q.expr.literals := by
    rw [he]
    exact .head _
  unfold genFn
  by_cases hcap : lambda.captures = []
  · simp only [hcap, List.isEmpty_nil, if_true]
    refine (keeps_unitName lambda).asking fun name => (asks_buildUnit hg hq hlambda name lambda.arity []).bind
      (m := 0) fun unit => ?_
    exact (keeps_loadConstant (.closure unit)).asking fun r =>
      (asks_noteFunction hq he hcap r).done fun _ => keeps_pure r
  · simp only [List.isEmpty_iff, hcap, if_false]
    exact (keeps_freshReg _ _).asking fun dst => (keeps_write _).asking fun _ =>
      (asks_buildClosure hg hq hlambda).done fun built => (keeps_write _).then fun _ => keeps_pure dst

theorem asks_finishClosures : ∀ {closures : List (Reg × Lambda Expr)},
    (∀ c ∈ closures, c.2 ∈ q.expr.literals) → Asks levels g q (fun f => finishClosures ctx (.of f) closures)
      ((closures.map fun c => c.2.body.size).sum * q.place.rate levels)
  | [], _ => (keeps_pure ()).asks.mono (Nat.zero_le _)
  | (dst, lambda) :: rest, h => by
    rw [List.map_cons, List.sum_cons, Nat.add_mul]
    refine (asks_buildClosure hg hq (h (dst, lambda) (.head _))).bind fun built => ?_
    exact (keeps_write _).asking fun _ => asks_finishClosures fun c hc => h c (.tail _ hc)

omit hg hq in
/-- The closures of a `fix` are those of its literals. -/
theorem lambdas_of_allocClosures : ∀ {index : Nat} {fns : List Expr} {s s' : GenState}
    {closures : List (Reg × Lambda Expr)}, (allocClosures index fns).run s = .ok (closures, s') →
    closures.map (·.2) = fns.filterMap Expr.lambda?
  | _, [], _, _, _, e => by
    cases e
    rfl
  | index, f :: fns, s, s', closures, e => by
    cases f with
    | fn lambda =>
      obtain ⟨dst, s₁, -, e⟩ := run_bind_ok e
      obtain ⟨_, s₂, -, e⟩ := run_bind_ok e
      obtain ⟨_, s₃, -, e⟩ := run_bind_ok e
      obtain ⟨rest, s₄, erest, e⟩ := run_bind_ok e
      cases e
      rw [List.map_cons, lambdas_of_allocClosures erest]
      rfl
    | _ => cases e

omit hg hq in
theorem sum_lambdas_le : ∀ fns : List Expr,
    ((fns.filterMap Expr.lambda?).map (·.body.size)).sum ≤ Expr.sizeList fns
  | [] => Nat.zero_le _
  | f :: fns => by
    have ih := sum_lambdas_le fns
    rw [Expr.sizeList, List.filterMap_cons]
    cases hf : f.lambda? with
    | none =>
      dsimp only
      omega
    | some lambda =>
      have := Expr.size_lt_of_lambda? hf
      rw [List.map_cons, List.sum_cons]
      omega

theorem asks_genFix {fns : List Expr} {body : Option Expr} (he : q.expr = .fix fns body) :
    Asks levels g q (fun f => genFix ctx (.of f) fns) (Expr.sizeList fns * q.place.rate levels) := by
  intro s hs
  have halloc : AsksAt levels g q (fun _ => allocClosures 0 fns) s 0 fun closures s' =>
      q.place.Leads s s' ∧ closures.map (·.2) = fns.filterMap Expr.lambda? :=
    asksAt_of_run fun _ _ e => ⟨hs.leads ((piles_allocClosures 0 fns).rest e), lambdas_of_allocClosures e⟩
  refine (halloc.bind (m := Expr.sizeList fns * q.place.rate levels) fun closures s₁ h => ?_).mono
    (Nat.zero_add _).le fun _ _ h => h
  obtain ⟨hlead, hclosures⟩ := h
  have hliterals : ∀ c ∈ closures, c.2 ∈ q.expr.literals := fun c hc => by
    rw [he, Expr.literals, ← hclosures]
    exact List.mem_map_of_mem hc
  have hsum : (closures.map fun c => c.2.body.size).sum ≤ Expr.sizeList fns := by
    have := sum_lambdas_le fns
    rwa [← hclosures, List.map_map] at this
  have hrest : Asks levels g q (fun f => write (.beginScope closures.length) >>= fun _ =>
      finishClosures ctx (.of f) closures >>= fun _ => write (.endScope closures.length))
      ((closures.map fun c => c.2.body.size).sum * q.place.rate levels) :=
    (keeps_write _).asking fun _ => (asks_finishClosures hg hq hliterals).done fun _ => keeps_write _
  exact (hrest s₁ hlead.fits).mono (Nat.mul_le_mul_right _ hsum) fun _ _ h => hlead.trans h

/-! ## Calls -/

omit hg hq in
/-- The function that is found for a call is a literal of the unit. -/
theorem asksAt_knownCallee {s : GenState} (hs : q.place.Fits s) (func : Reg) (n : Nat) :
    AsksAt levels g q (fun _ => knownCallee func n) s 0 fun out s' => s' = s ∧ ∀ k ∈ out,
      ∃ lambda : Lambda Expr, k = ⟨lambda.arity, lambda.body⟩ ∧ lambda.captures = [] ∧
        q.place.unit.Contains (.fn lambda) := by
  refine asksAt_of_run fun out s' e => ?_
  cases e
  refine ⟨rfl, fun k hk => ?_⟩
  obtain ⟨hk, -⟩ := Option.mem_filter_iff.mp hk
  obtain ⟨i, hi, hf⟩ := Option.bind_eq_some_iff.mp hk
  obtain ⟨lambda, hf', hcap, hin⟩ := hs.known hi
  exact ⟨lambda, Option.some.inj (hf.symm.trans hf'), hcap, hin⟩

omit hq in
/-- **A body in place of a call** is asked for one deeper. -/
theorem asksAt_genInlined {callee : Expr} {es : List Expr} {guard guard' : Bool} {loc loc' : Option Location}
    {lambda : Lambda Expr} {s : GenState} (he : q.expr = .apply callee es guard loc)
    (hs : q.place.Fits s) (hcap : lambda.captures = []) (hin : q.place.unit.Contains (.fn lambda))
    (hd : q.place.depth < levels) (args : List Reg) (tail : Bool) :
    AsksAt levels g q (fun f => genInlined ctx (.of f) lambda.body args guard' loc' tail) s
      (lambda.body.size * (Place.mk q.place.unit (q.place.depth + 1)).rate levels)
      fun _ s' => q.place.Leads s s' := by
  let s₁ : GenState := { s with draft := { s.draft with
    stack := (args.map fun r => ⟨r, false⟩).reverse, inlined := s.draft.inlined + 1 } }
  have hs₁ : Place.Fits ⟨q.place.unit, q.place.depth + 1⟩ s₁ := ⟨congrArg (· + 1) hs.inlined, hs.known⟩
  have hask : AsksAt levels g q (fun f => f lambda.body tail) s₁ _ _ :=
    asksAt_request hg (r := ⟨⟨q.place.unit, q.place.depth + 1⟩, lambda.body, tail, s₁⟩)
      (.inlined he hcap hin hd) hs₁ (.body hin (.head _))
  refine .from (a := s.draft) rfl (.from (a := ()) (t := s₁) rfl ?_)
  refine (hask.bind (m := 0) fun out s₂ h₂ => ?_).mono le_rfl fun _ _ h => h
  have hback : q.place.Leads s { s₂ with draft := { s₂.draft with
      stack := s.draft.stack, inlined := s₂.draft.inlined - 1 } } := by
    refine ⟨⟨?_, h₂.fits.known⟩, h₂.functions⟩
    have hdepth : s₂.draft.inlined = q.place.depth + 1 := h₂.fits.inlined
    dsimp only
    omega
  refine .from (a := ()) rfl ?_
  have hend : ∀ s', Unlearned _ s' → q.place.Leads s s' := fun _ hl => hback.trans (hback.fits.leads hl)
  cases out with
  | none => exact ((keeps_pure ()).then fun _ => keeps_pure none).asksAt.mono le_rfl fun _ => hend
  | some r =>
    dsimp only
    split
    · exact ((keeps_returnErrors _ _ _).then fun _ => keeps_pure _).asksAt.mono le_rfl fun _ => hend
    · exact (keeps_pure _).asksAt.mono le_rfl fun _ => hend

theorem asks_genCall {callee : Expr} {args : List Expr} {guard : Bool} {loc : Option Location}
    (he : q.expr = .apply callee args guard loc) (hlevels : ctx.settings.inlineLevels = levels) (tail : Bool) :
    Asks levels g q (fun f => genCall ctx (.of f) callee args guard loc tail)
      (Expr.sizeList args * q.place.rate levels + (callee.size * q.place.rate levels +
        (q.place.rate levels - 1))) := by
  have hcallee : callee ∈ q.expr.parts := by
    rw [he]
    exact .head _
  have hargs : ∀ e ∈ args, e ∈ q.expr.parts := fun e h => by
    rw [he]
    exact .tail _ h
  refine (asks_mapM hg hq hargs).bind fun regs => (asks_value hg hq hcallee).bind fun func => ?_
  intro s hs
  refine ((asksAt_knownCallee hs func regs.length).bind (m := q.place.rate levels - 1)
    fun known s' h => ?_).mono (Nat.zero_add _).le fun _ _ h => h
  obtain ⟨rfl, hknown⟩ := h
  have hcall : ∀ checked : Bool, AsksAt levels g q
      (fun _ => genRuntimeCall ctx func regs checked guard (tail && isVar callee) loc) s'
      (q.place.rate levels - 1) fun _ s'' => q.place.Leads s' s'' := fun checked =>
    ((keeps_genRuntimeCall func regs checked guard _ loc).asks s' hs).mono (Nat.zero_le _) fun _ _ h => h
  cases known with
  | none => exact hcall true
  | some k =>
    obtain ⟨lambda, rfl, hcap, hin⟩ := hknown k rfl
    refine .from (a := s'.draft) rfl ?_
    dsimp only
    split
    · next hinline =>
      simp only [mayInline, Bool.and_eq_true, decide_eq_true_eq, hs.inlined, hlevels] at hinline
      obtain ⟨⟨⟨-, hd⟩, -⟩, -⟩ := hinline
      have hbound := bound_inlined hd hin
      exact (asksAt_genInlined hg he hs hcap hin hd regs tail).mono (by omega) fun _ _ h => h
    · exact hcall false

/-! ## Nodes -/

/-- **What code for a node asks for** is less than the node. -/
theorem asks_genNode (hlevels : ctx.settings.inlineLevels = levels) (tail : Bool) :
    ∃ bound, bound + 1 ≤ q.bound levels ∧
      Asks levels g q (fun f => genNode ctx (.of f) q.expr tail) bound := by
  have hrate : 1 ≤ q.place.rate levels := rate_pos
  have hparts : ∀ {d : Expr} {n : Nat}, q.expr = d → n < d.size →
      n * q.place.rate levels + 1 ≤ q.bound levels := by
    rintro d n rfl hn
    have := Nat.mul_le_mul_right (q.place.rate levels) (show n + 1 ≤ q.expr.size from hn)
    rw [Nat.add_mul, one_mul] at this
    rw [Request.bound]
    omega
  have hmem : ∀ {d e : Expr}, q.expr = d → e ∈ d.parts → e ∈ q.expr.parts := fun h he => h ▸ he
  cases he : q.expr with
  | lit c =>
    exact ⟨0, by simpa using hparts (n := 0) he (Expr.size_pos _), ((keeps_loadConstant _).map _).asks⟩
  | var offset boxed =>
    exact ⟨0, by simpa using hparts (n := 0) he (Expr.size_pos _), ((keeps_genVar offset boxed).map _).asks⟩
  | apply callee args guard loc =>
    refine ⟨_, ?_, asks_genCall hg hq he hlevels tail⟩
    rw [Request.bound, he, Expr.size, Nat.add_mul, Nat.add_mul, one_mul]
    omega
  | operate op lhs rhs =>
    refine ⟨_, ?_, (asks_genOperator hg hq (hmem he (.head _)) (hmem he (.tail _ (.head _))) op).map _⟩
    rw [← Nat.add_mul]
    exact hparts he (by rw [Expr.size]; omega)
  | fn lambda =>
    refine ⟨_, hparts he ?_, (asks_genFn hg hq he).map _⟩
    rw [Expr.size_fn]
    omega
  | letIn binds body =>
    refine ⟨_, ?_, keeps_height.asking fun n => (asks_genBinds hg hq fun b hb => hmem he ?_).bind fun _ =>
      asks_genBody hg hq (fun e h => hmem he ?_) n tail⟩
    · rw [← Nat.add_mul]
      exact hparts he (by rw [Expr.size]; omega)
    · exact List.mem_append_left _ (List.mem_map_of_mem hb)
    · exact List.mem_append_right _ (Option.mem_toList.mpr h)
  | fix fns body =>
    have hbody : ∀ e ∈ body, e ∈ q.expr.parts := fun e h => by
      rw [he]
      exact Option.mem_toList.mpr h
    refine ⟨_, ?_, keeps_height.asking fun n => (asks_genFix hg hq he).bind fun _ =>
      asks_genBody hg hq hbody n tail⟩
    rw [← Nat.add_mul]
    exact hparts he (by rw [Expr.size]; omega)
  | ite test yes no =>
    refine ⟨_, ?_, asks_genIf hg hq (hmem he (.head _)) (hmem he (.tail _ (.head _)))
      (hmem he (.tail _ (.tail _ (.head _)))) tail⟩
    rw [← Nat.add_mul, ← Nat.add_mul]
    exact hparts he (by rw [Expr.size]; omega)
  | matchWith p value yes no =>
    have hyes := hmem he (.tail value (.head _))
    refine ⟨_, ?_, (asks_value hg hq (hmem he (.head _))).bind (m := (yes.size + Expr.sizeOption no) *
      q.place.rate levels) fun v => ?_⟩
    · rw [← Nat.add_mul]
      exact hparts he (by rw [Expr.size]; omega)
    · cases no with
      | none =>
        exact (asks_genFitting hg hq hyes v p tail).mono (Nat.mul_le_mul_right _ (Nat.le_add_right _ _))
      | some no =>
        rw [Nat.add_mul]
        exact asks_genAlternatives hg hq hyes (hmem he (.tail value (.tail yes (.head _)))) v p tail
  | block exprs keep =>
    refine ⟨_, hparts (n := Expr.sizeList exprs) he (by rw [Expr.size]; omega), keeps_height.asking fun n =>
      (asks_genSequence hg hq tail fun e h => hmem he h).done (R := fun _ _ => True) fun out => ?_⟩
    cases keep with
    | true => exact ⟨fun _ => trivial, (keeps_pure out).rest⟩
    | false => exact ⟨fun _ => trivial, ((settles_forgetAbove n).keep fun _ => keeps_pure out).rest⟩
  | ret value =>
    refine ⟨_, hparts (n := value.size) he (by rw [Expr.size]; omega),
      (asks_tail hg hq (hmem he (.head _))).done (R := fun vs vs' => vs' = vs) fun _ => ?_⟩
    cases tail with
    | true => exact keeps_pure none
    | false => exact (keeps_loadConstant _).map _
  | assign offset value =>
    exact ⟨_, hparts he (by rw [Expr.size]; omega), (asks_genAssign hg hq (hmem he (.head _)) offset).map _⟩
  | yield value =>
    exact ⟨_, hparts he (by rw [Expr.size]; omega), (asks_value hg hq (hmem he (.head _))).done fun src =>
      (keeps_write _).then fun _ => (keeps_loadConstant _).map _⟩
  | struct ty fields =>
    exact ⟨_, hparts (n := Expr.sizeList fields) he (by rw [Expr.size]; omega),
      (asks_genStruct hg hq (fun e h => hmem he h) ty).map _⟩

end

end CountedMachine.Gen
