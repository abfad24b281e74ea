import CountedMachine.Generation.Expression
import Mathlib.Data.List.Infix

/-! # Variables in scope

What generating code for an expression does to the stack of variables, from any state: bindings
without a body stay, so the stack may grow, but nothing that was in scope is lost (`genExpr_grows`).
Constructs that forget their bindings put the stack back to its height (`Settles`).

A conditional leaves the stack as it was after its test, and so does a match with an alternative,
after its value, unless the type of the value rules the pattern out: then the alternative alone is
generated, and what it binds stays in scope (`stack_after_arms`). -/

namespace CountedMachine.Gen

variable {α β : Type}

theorem run_bind_ok {x : Gen α} {f : α → Gen β} {s s' : GenState} {b : β}
    (h : (x >>= f).run s = .ok (b, s')) :
    ∃ a s₁, x.run s = .ok (a, s₁) ∧ (f a).run s₁ = .ok (b, s') := by
  rw [StateT.run_bind] at h
  rcases hx : x.run s with e | ⟨a, s₁⟩
  · rw [hx] at h
    cases h
  · rw [hx] at h
    exact ⟨a, s₁, rfl, h⟩

/-- A relation that overlooks what is written, bound and noted of types: it tells apart what is known of
functions and how deep bodies stand in place of calls, or nothing at all. -/
class Overlooks (T : GenState → GenState → Prop) : Prop where
  writes : ∀ (s : GenState) (pool : Array Constant) (l : Listing) (stack : List Variable)
    (narrowed : Std.HashMap Reg StaticType),
    T s ⟨s.units, pool, s.functions, ⟨l, stack, s.draft.known, narrowed, s.draft.inlined⟩⟩
  trans : ∀ {s s₁ s₂ : GenState}, T s s₁ → T s₁ s₂ → T s s₂

/-- The relation that tells nothing apart. -/
def Unseen (_ _ : GenState) : Prop := True

instance : Overlooks Unseen := ⟨fun _ _ _ _ _ => trivial, fun _ _ => trivial⟩

/-- Where the step succeeds, the states before and after it are related, and so are their stacks. -/
structure Moves (T : GenState → GenState → Prop) (R : List Variable → List Variable → Prop) (x : Gen α) :
    Prop where
  of_run : ∀ {s a s'}, x.run s = .ok (a, s') → R s.draft.stack s'.draft.stack
  rest : ∀ {s a s'}, x.run s = .ok (a, s') → T s s'

variable (T : GenState → GenState → Prop)

/-- The step leaves the stack as it is. -/
abbrev Keeps (x : Gen α) : Prop := Moves T (fun vs vs' => vs' = vs) x

/-- The step may put variables on the stack. -/
abbrev Piles (x : Gen α) : Prop := Moves T (· <:+ ·) x

/-- The step puts the stack back to a height. -/
abbrev Settles (n : Nat) (x : Gen α) : Prop :=
  Moves T (fun vs vs' => n ≤ vs.length → vs' = vs.drop (vs.length - n)) x

section Combining
variable {T} {R S U : List Variable → List Variable → Prop} {x : Gen α} {f : α → Gen β} {n : Nat}

theorem Keeps.piles (hx : Keeps T x) : Piles T x := ⟨fun e => by rw [hx.of_run e], hx.rest⟩

theorem moves_throw (e : Failure) : Moves T R (throw e : Gen α) where
  of_run h := by cases h
  rest h := by cases h

theorem moves_modify {g : GenState → GenState} (hg : ∀ s, R s.draft.stack (g s).draft.stack)
    (hrest : ∀ s, T s (g s)) : Moves T R (modify g : Gen Unit) where
  of_run {s _ _} h := by cases h; exact hg s
  rest {s _ _} h := by cases h; exact hrest s

variable [Overlooks T]

theorem Moves.bind (hx : Moves T R x) (hf : ∀ a, Moves T S (f a))
    (h : ∀ {u v w}, R u v → S v w → U u w) : Moves T U (x >>= f) := by
  refine ⟨fun e => ?_, fun e => ?_⟩
  · obtain ⟨a, s₁, ex, ef⟩ := run_bind_ok e
    exact h (hx.of_run ex) ((hf a).of_run ef)
  · obtain ⟨a, s₁, ex, ef⟩ := run_bind_ok e
    exact Overlooks.trans (hx.rest ex) ((hf a).rest ef)

theorem Keeps.then (hx : Keeps T x) (hf : ∀ a, Moves T R (f a)) : Moves T R (x >>= f) :=
  hx.bind hf fun e h => e ▸ h

theorem Moves.keep (hx : Moves T R x) (hf : ∀ a, Keeps T (f a)) : Moves T R (x >>= f) :=
  hx.bind hf fun h e => e ▸ h

theorem Piles.bind (hx : Piles T x) (hf : ∀ a, Piles T (f a)) : Piles T (x >>= f) :=
  Moves.bind hx hf List.IsSuffix.trans

theorem Piles.settle (hx : Piles T x) (hf : ∀ a, Settles T n (f a)) : Settles T n (x >>= f) := by
  refine Moves.bind hx hf fun {u v w} h hw hn => ?_
  obtain ⟨new, rfl⟩ := h
  rw [hw (by simp only [List.length_append]; omega), List.length_append,
    Nat.add_sub_assoc hn, ← List.drop_drop, List.drop_left]

theorem Settles.again (hx : Settles T n x) (hf : ∀ a, Settles T n (f a)) : Settles T n (x >>= f) := by
  refine Moves.bind hx hf fun {u v w} hv hw hn => ?_
  obtain rfl := hv hn
  have hlen : (u.drop (u.length - n)).length = n := by rw [List.length_drop]; omega
  rw [hw hlen.ge, hlen, Nat.sub_self, List.drop_zero]

theorem keeps_same (h : ∀ {s a s'}, x.run s = .ok (a, s') → s' = s) : Keeps T x where
  of_run e := congrArg (·.draft.stack) (h e)
  rest {s _ _} e := by
    rw [h e]
    exact Overlooks.writes s _ _ _ _

theorem keeps_pure (a : α) : Keeps T (pure a : Gen α) := keeps_same fun h => by cases h; rfl

theorem keeps_get : Keeps T (get : Gen GenState) := keeps_same fun h => by cases h; rfl

theorem Keeps.map (hx : Keeps T x) (g : α → β) : Keeps T (g <$> x) := by
  rw [map_eq_pure_bind]
  exact hx.then fun _ => keeps_pure _

theorem keeps_faulting (y : Except Fault α) : Keeps T (faulting y) := by
  cases y with
  | ok a => exact keeps_pure a
  | error e => exact moves_throw _

end Combining

variable {T} [Overlooks T]

/-! ## Steps that bind nothing -/

theorem keeps_draft : Keeps T draft := keeps_get.then fun _ => keeps_pure _

theorem keeps_setListing (l : Listing) : Keeps T (setListing l) :=
  moves_modify (fun _ => rfl) fun s => Overlooks.writes s _ _ _ _

theorem keeps_writeNode (i : Instr NodeId) : Keeps T (writeNode i) :=
  keeps_draft.then fun _ => (keeps_faulting _).then fun _ =>
    (keeps_setListing _).then fun _ => keeps_pure _

theorem keeps_write (i : Instr NodeId) : Keeps T (write i) :=
  (keeps_writeNode i).then fun _ => keeps_pure _

theorem keeps_freshReg (role : RegRole) (type : Option StaticType) : Keeps T (freshReg role type) := by
  refine keeps_draft.then fun d => ?_
  dsimp only
  split
  · exact (keeps_faulting _).then fun _ => (keeps_setListing _).then fun _ => keeps_pure _
  · exact (keeps_setListing _).then fun _ => keeps_pure _

theorem keeps_knownType (r : Reg) : Keeps T (knownType r) := by
  refine keeps_draft.then fun d => ?_
  split
  · exact keeps_pure _
  · exact keeps_faulting _

theorem keeps_narrow (r : Reg) (t : StaticType) : Keeps T (narrow r t) :=
  moves_modify (fun _ => rfl) fun s => Overlooks.writes s _ _ _ _

theorem keeps_height : Keeps T height := keeps_draft.then fun _ => keeps_pure _

theorem keeps_loadConstant (c : Constant) : Keeps T (loadConstant c) := by
  refine Keeps.then (keeps_get.then fun s => ?_) fun _ =>
    (keeps_freshReg _ _).then fun _ => (keeps_write _).then fun _ => keeps_pure _
  dsimp only
  split
  · exact keeps_pure _
  · exact Keeps.then (moves_modify (fun _ => rfl) fun s => Overlooks.writes s _ _ _ _) fun _ =>
      keeps_pure _

theorem keeps_variableAt (offset : Nat) : Keeps T (variableAt offset) := by
  refine keeps_draft.then fun d => ?_
  dsimp only
  split
  · exact keeps_pure _
  · exact moves_throw _

theorem keeps_retarget (id label : NodeId) : Keeps T (retarget id label) :=
  keeps_draft.then fun _ => (keeps_faulting _).then fun _ => (keeps_faulting _).then fun _ =>
    keeps_setListing _

theorem keeps_openBranch (flag : Reg) : Keeps T (openBranch flag) :=
  (keeps_writeNode _).then fun _ => keeps_pure _

theorem keeps_beginElse (b : Branch) : Keeps T (beginElse b) :=
  (keeps_writeNode _).then fun _ => (keeps_writeNode _).then fun _ =>
    (keeps_retarget _ _).then fun _ => keeps_pure _

theorem keeps_meet (b : Branch) (merged : Option Reg) : Keeps T (meet b merged) := by
  refine (keeps_writeNode _).then fun _ => ?_
  split
  · exact keeps_retarget _ _
  · exact moves_throw _

theorem keeps_closeBranch (b : Branch) (merged : Option Reg) : Keeps T (closeBranch b merged) :=
  (keeps_beginElse b).then fun _ => keeps_meet _ _

theorem keeps_agree (merged a b : Reg) : Keeps T (agree merged a b) := by
  refine keeps_draft.then fun d => (keeps_faulting _).then fun ta => (keeps_faulting _).then
    fun tb => ?_
  split
  · exact (keeps_faulting _).then fun _ => keeps_setListing _
  · refine (keeps_knownType a).then fun ka => (keeps_knownType b).then fun kb => ?_
    split
    · split
      · exact keeps_narrow _ _
      · exact keeps_pure _
    · exact keeps_pure _

theorem keeps_returnErrors (ctx : Context) (r : Reg) (loc : Option Location) :
    Keeps T (returnErrors ctx r loc) := by
  refine (keeps_knownType r).then fun t => ?_
  split
  · exact keeps_pure _
  · refine (keeps_freshReg _ _).then fun _ => (keeps_write _).then fun _ =>
      (keeps_openBranch _).then fun _ => ?_
    have hclose : ∀ (b : Branch), Keeps T (write (.ret r) >>= fun _ => closeBranch b none) := fun b =>
      (keeps_write _).then fun _ => keeps_closeBranch _ _
    split
    · split
      · exact (keeps_write _).then fun _ => hclose _
      · exact hclose _
    · exact hclose _

theorem keeps_asFlag (c : Reg) : Keeps T (asFlag c) := by
  refine keeps_draft.then fun _ => (keeps_faulting _).then fun _ => ?_
  split
  · exact keeps_pure _
  · exact (keeps_freshReg _ _).then fun _ => (keeps_write _).then fun _ => keeps_pure _

theorem keeps_validatePattern (ctx : Context) (p : Pattern) : Keeps T (validatePattern ctx p) := by
  unfold validatePattern
  split
  · exact keeps_pure _
  · exact moves_throw _

theorem keeps_readField (src : Reg) (ty : ObjType) (idx : Nat) : Keeps T (readField src ty idx) :=
  (keeps_freshReg _ _).then fun _ => (keeps_write _).then fun _ => keeps_pure _

theorem keeps_openTest (v : Reg) (ty : ObjType) : Keeps T (openTest v ty) :=
  (keeps_freshReg _ _).then fun _ => (keeps_write _).then fun _ => keeps_openBranch _

theorem keeps_mergeReg (tail : Bool) : Keeps T (mergeReg tail) := by
  unfold mergeReg
  split
  · exact keeps_pure _
  · exact (keeps_freshReg _ _).map _

theorem keeps_ascend : ∀ branches : List Branch, Keeps T (ascend branches)
  | [] => keeps_pure _
  | b :: outer => (keeps_closeBranch b none).then fun _ => keeps_ascend outer

theorem keeps_pushArgs : ∀ args : List Reg, Keeps T (pushArgs args)
  | [] => keeps_pure _
  | r :: rest => (keeps_write (.push r)).then fun _ => keeps_pushArgs rest

/-! ## Binding and forgetting -/

theorem piles_pushVariable (v : Variable) : Piles T (pushVariable v) :=
  moves_modify (fun s => List.suffix_cons v s.draft.stack) fun s => Overlooks.writes s _ _ _ _

theorem settles_forgetAbove (n : Nat) : Settles T n (forgetAbove n) :=
  moves_modify (fun _ _ => rfl) fun s => Overlooks.writes s _ _ _ _

omit [Overlooks T] in
/-- A step that is told the height and puts the stack back to it. -/
theorem keeps_of_settles {f : Nat → Gen α} (h : ∀ n, Settles T n (f n)) : Keeps T (height >>= f) := by
  refine ⟨fun e => ?_, fun e => ?_⟩ <;> obtain ⟨n, s₁, e₁, e₂⟩ := run_bind_ok e <;> cases e₁
  · have := (h _).of_run e₂ (Nat.le_refl _)
    rwa [Nat.sub_self, List.drop_zero] at this
  · exact (h _).rest e₂

mutual

theorem piles_bindWhole (ctx : Context) (v : Reg) : ∀ p : Pattern, Piles T (bindWhole ctx v p)
  | .bind => piles_pushVariable _
  | .ignore => (keeps_pure _).piles
  | .unpack ty fields => by
    rw [bindWhole]
    refine (keeps_validatePattern _ _).then fun _ => (keeps_knownType v).then fun t => ?_
    split
    · exact (keeps_write _).then fun _ => piles_bindParts ctx v ty fields
    · exact piles_bindParts ctx v ty fields

theorem piles_bindParts (ctx : Context) (v : Reg) (ty : ObjType) :
    ∀ fields : List (Nat × Pattern), Piles T (bindParts ctx v ty fields)
  | [] => (keeps_pure _).piles
  | (offset, p) :: rest => by
    rw [bindParts]
    split
    · exact (keeps_readField v ty offset).then fun f =>
        (piles_bindWhole ctx f p).bind fun _ => piles_bindParts ctx v ty rest
    · exact piles_bindParts ctx v ty rest

end

mutual

theorem piles_descend (v : Reg) : ∀ p : Pattern, Piles T (descend v p)
  | .bind => (piles_pushVariable _).keep fun _ => keeps_pure _
  | .ignore => (keeps_pure _).piles
  | .unpack ty fields => by
    rw [descend]
    refine (keeps_knownType v).then fun t => ?_
    split
    · exact ((keeps_openTest v ty).map _).then fun _ =>
        (piles_descendParts v ty fields).keep fun _ => keeps_pure _
    · exact (piles_descendParts v ty fields).keep fun _ => keeps_pure _

theorem piles_descendParts (v : Reg) (ty : ObjType) :
    ∀ fields : List (Nat × Pattern), Piles T (descendParts v ty fields)
  | [] => (keeps_pure _).piles
  | (offset, p) :: rest => by
    rw [descendParts]
    split
    · exact (piles_descendParts v ty rest).keep fun _ => keeps_pure _
    · exact (keeps_readField v ty offset).then fun f => (piles_descend f p).bind fun _ =>
        (piles_descendParts v ty rest).keep fun _ => keeps_pure _

end

/-- Whatever comes before, the last step decides. -/
theorem Moves.last {x : Gen α} {f : α → Gen β} {vs : List Variable}
    (hf : ∀ a, Moves Unseen (fun _ vs' => vs' = vs) (f a)) :
    Moves Unseen (fun _ vs' => vs' = vs) (x >>= f) := by
  refine ⟨fun e => ?_, fun _ => trivial⟩
  obtain ⟨a, s₁, -, e⟩ := run_bind_ok e
  exact (hf a).of_run e

omit [Overlooks T] in
/-- A step that remembers the stack and puts it back. -/
theorem keeps_of_restores {f : Draft → Gen α}
    (hf : ∀ d, Moves T (fun _ vs' => vs' = d.stack) (f d)) : Keeps T (draft >>= f) := by
  refine ⟨fun e => ?_, fun e => ?_⟩ <;> obtain ⟨d, s₁, e₁, e₂⟩ := run_bind_ok e <;> cases e₁
  · exact (hf _).of_run e₂
  · exact (hf _).rest e₂

/-! ## Expressions -/

/-- Generating code for sub-expressions loses no variable. -/
structure SubPiles (sub : Sub) : Prop where
  expr : ∀ e tail, Piles Unseen (sub.expr e tail)
  value : ∀ e, Piles Unseen (sub.value e)
  tail : ∀ e, Piles Unseen (sub.tail e)

theorem subPiles_of {expr : Expr → Bool → Gen (Option Reg)} (h : ∀ e tail, Piles Unseen (expr e tail)) :
    SubPiles (.of expr) where
  expr := h
  value e := by
    refine (h e false).keep fun out => ?_
    split
    · exact keeps_pure _
    · exact moves_throw _
  tail e := by
    refine (h e true).keep fun out => ?_
    split
    · exact keeps_write _
    · exact keeps_pure _

variable {sub : Sub} {ctx : Context}

theorem SubPiles.mapM (h : SubPiles sub) : ∀ es : List Expr, Piles Unseen (es.mapM sub.value)
  | [] => by
    rw [List.mapM_nil]
    exact (keeps_pure _).piles
  | e :: es => by
    rw [List.mapM_cons]
    exact (h.value e).bind fun _ => (h.mapM es).keep fun _ => keeps_pure _

theorem SubPiles.settles_genArm (h : SubPiles sub) (body : Expr) (merged : Option Reg) (n : Nat) :
    Settles Unseen n (genArm sub body merged n) := by
  unfold genArm
  split
  · exact (h.value body).settle fun _ => (keeps_write _).then fun _ =>
      (settles_forgetAbove n).keep fun _ => keeps_pure _
  · exact (h.tail body).settle fun _ => (settles_forgetAbove n).keep fun _ => keeps_pure _

theorem SubPiles.settles_genArms (h : SubPiles sub) (branch : Branch) (merged : Option Reg) (n : Nat)
    (yes no : Expr) : Settles Unseen n (genArms sub branch merged n yes no) := by
  refine (h.settles_genArm yes merged n).again fun _ => (keeps_beginElse _).then fun _ =>
    (h.settles_genArm no merged n).keep fun _ => (keeps_meet _ _).then fun _ => ?_
  split
  · exact (keeps_agree _ _ _).then fun _ => keeps_pure _
  · exact keeps_pure _

theorem SubPiles.keeps_genFitting (h : SubPiles sub) (v : Reg) (p : Pattern) (yes : Expr)
    (tail : Bool) : Keeps Unseen (genFitting ctx sub v p yes tail) :=
  keeps_of_settles fun n => (piles_bindWhole ctx v p).settle fun _ => (h.expr yes tail).settle
    fun _ => (settles_forgetAbove n).keep fun _ => keeps_pure _

theorem SubPiles.keeps_genOneLevel (h : SubPiles sub) (v : Reg) (p : Pattern) (yes no : Expr)
    (tail : Bool) : Keeps Unseen (genOneLevel ctx sub v p yes no tail) := by
  unfold genOneLevel
  split
  · exact (keeps_validatePattern _ _).then fun _ => keeps_of_settles fun n =>
      (keeps_openTest _ _).then fun _ => (keeps_mergeReg _).then fun _ =>
        (piles_bindParts ctx v _ _).settle fun _ => h.settles_genArms _ _ _ _ _
  · exact moves_throw _

theorem SubPiles.keeps_genLevelsValue (h : SubPiles sub) (v : Reg) (p : Pattern) (yes no : Expr) :
    Keeps Unseen (genLevelsValue sub v p yes no) := by
  have hmatched : ∀ unmatched merged n, Settles Unseen n (genMatched sub v p unmatched merged n yes) :=
    fun unmatched merged n => (piles_descend v p).settle fun _ => (keeps_write _).then fun _ =>
      (h.value yes).settle fun _ => (keeps_write _).then fun _ =>
        (settles_forgetAbove n).keep fun _ => (keeps_ascend _).then fun _ => keeps_pure _
  have hunmatched : ∀ unmatched merged n, Settles Unseen n (genUnmatched sub unmatched merged n no) :=
    fun unmatched merged n => (keeps_openBranch _).then fun _ => (h.value no).settle fun _ =>
      (keeps_write _).then fun _ => (settles_forgetAbove n).keep fun _ =>
        (keeps_closeBranch _ _).then fun _ => keeps_pure _
  exact keeps_of_settles fun n => (keeps_freshReg _ _).then fun _ => (keeps_write _).then fun _ =>
    (keeps_freshReg _ _).then fun _ => (hmatched _ _ n).again fun _ =>
      (hunmatched _ _ n).keep fun _ => (keeps_agree _ _ _).then fun _ => keeps_pure _

theorem SubPiles.piles_genLevels (h : SubPiles sub) (v : Reg) (p : Pattern) (yes no : Expr)
    (tail : Bool) : Piles Unseen (genLevels ctx sub v p yes no tail) := by
  refine (keeps_validatePattern _ _).then fun _ => ?_
  split
  · -- the bindings of the pattern go, those of the alternative stay
    have hyes : Keeps Unseen (height >>= fun n => descend v p >>= fun levels => sub.tail yes >>= fun _ =>
        forgetAbove n >>= fun _ => ascend levels.reverse) :=
      keeps_of_settles fun n => (piles_descend v p).settle fun _ => (h.tail yes).settle fun _ =>
        (settles_forgetAbove n).keep fun _ => keeps_ascend _
    have := hyes.piles.bind fun _ => (h.tail no).keep fun _ => keeps_pure (none : Option Reg)
    simpa only [genLevelsTail, bind_assoc] using this
  · exact (h.keeps_genLevelsValue v p yes no).piles

theorem SubPiles.piles_genMatch (h : SubPiles sub) (p : Pattern) (e yes : Expr) (no : Option Expr)
    (tail : Bool) : Piles Unseen (genMatch ctx sub p e yes no tail) := by
  refine (h.value e).bind fun v => ?_
  split
  · exact (h.keeps_genFitting v p yes tail).piles
  · refine (keeps_knownType v).then fun t => ?_
    split
    · exact (h.keeps_genFitting v p yes tail).piles
    · exact (keeps_validatePattern _ _).then fun _ => h.expr _ tail
    · split
      · exact (h.keeps_genOneLevel v p yes _ tail).piles
      · exact h.piles_genLevels v p yes _ tail

theorem SubPiles.piles_genIf (h : SubPiles sub) (test yes no : Expr) (tail : Bool) :
    Piles Unseen (genIf sub test yes no tail) :=
  (h.value test).bind fun _ => (keeps_asFlag _).then fun _ => Keeps.piles <|
    keeps_of_settles fun _ => (keeps_openBranch _).then fun _ => (keeps_mergeReg _).then fun _ =>
      h.settles_genArms _ _ _ _ _

theorem keeps_knownCallee (func : Reg) (nargs : Nat) : Keeps T (knownCallee func nargs) :=
  keeps_get.then fun _ => keeps_pure _

/-- A body in place of a call has a stack of its own. -/
theorem keeps_genInlined (body : Expr) (args : List Reg) (guard : Bool) (loc : Option Location)
    (tail : Bool) : Keeps Unseen (genInlined ctx sub body args guard loc tail) := by
  refine keeps_of_restores fun d => .last fun _ => .last fun out => Moves.keep ?_ fun _ => ?_
  · exact moves_modify (fun _ => rfl) fun _ => trivial
  · dsimp only
    split
    · split
      · exact (keeps_returnErrors _ _ _).then fun _ => keeps_pure _
      · exact keeps_pure _
    · exact keeps_pure _

/-- A call at run time. -/
theorem keeps_genRuntimeCall (func : Reg) (args : List Reg) (checked guard tailCall : Bool)
    (loc : Option Location) : Keeps T (genRuntimeCall ctx func args checked guard tailCall loc) := by
  refine (keeps_pushArgs args).then fun _ => ?_
  split
  · exact (keeps_write _).then fun _ => keeps_pure _
  · refine (keeps_freshReg _ _).then fun _ => (keeps_write _).then fun _ => ?_
    split
    · exact (keeps_returnErrors _ _ _).then fun _ => keeps_pure _
    · exact keeps_pure _

theorem SubPiles.piles_genCall (h : SubPiles sub) (callee : Expr) (args : List Expr) (guard : Bool)
    (loc : Option Location) (tail : Bool) :
    Piles Unseen (genCall ctx sub callee args guard loc tail) := by
  refine (h.mapM args).bind fun regs => (h.value callee).bind fun func => Keeps.piles ?_
  refine (keeps_knownCallee _ _).then fun k => ?_
  split
  · refine keeps_draft.then fun d => ?_
    split
    · exact keeps_genInlined _ _ _ _ _
    · exact keeps_genRuntimeCall _ _ _ _ _ _
  · exact keeps_genRuntimeCall _ _ _ _ _ _

theorem SubPiles.piles_genBinds (h : SubPiles sub) :
    ∀ binds : List (Binding Expr), Piles Unseen (genBinds sub binds)
  | [] => (keeps_pure _).piles
  | b :: rest => by
    rw [genBinds]
    refine (h.value b.value).bind fun r => ?_
    split
    · exact (keeps_freshReg _ _).then fun _ => (keeps_write _).then fun _ =>
        (piles_pushVariable _).bind fun _ => h.piles_genBinds rest
    · exact (piles_pushVariable _).bind fun _ => h.piles_genBinds rest

theorem SubPiles.piles_genSequence (h : SubPiles sub) (tail : Bool) :
    ∀ es : List Expr, Piles Unseen (genSequence sub tail es)
  | [] => Keeps.piles ((keeps_loadConstant _).then fun _ => keeps_pure _)
  | [e] => h.expr e tail
  | e :: e' :: rest => (h.value e).bind fun _ => h.piles_genSequence tail (e' :: rest)

/-- Bindings stay without a body. -/
theorem SubPiles.piles_genBody (h : SubPiles sub) {x : Gen α} (hx : Piles Unseen x) (body : Option Expr)
    (tail : Bool) : Piles Unseen (height >>= fun n => x >>= fun _ => genBody sub body n tail) := by
  cases body with
  | some e =>
    exact Keeps.piles <| keeps_of_settles fun n => hx.settle fun _ => (h.expr e tail).settle
      fun _ => (settles_forgetAbove n).keep fun _ => keeps_pure _
  | none =>
    exact keeps_height.then fun _ => hx.keep fun _ =>
      (keeps_loadConstant .nil).then fun _ => keeps_pure _

/-- A unit has a draft of its own. -/
theorem keeps_buildUnit (name : String) (arity : Nat) (caps : List Bool) (body : Expr) :
    Keeps Unseen (buildUnit ctx sub name arity caps body) := by
  refine keeps_of_restores fun d => .last fun _ => .last fun _ => .last fun _ => .last fun _ =>
    .last fun _ => .last fun _ => .last fun _ => Moves.keep ?_ fun _ => keeps_pure _
  exact moves_modify (fun _ => rfl) fun _ => trivial

theorem keeps_unitName (lambda : Lambda Expr) : Keeps T (unitName lambda) := by
  unfold unitName
  split
  · exact keeps_pure _
  · exact keeps_get.then fun _ => keeps_pure _

theorem keeps_mapM_variableAt : ∀ offsets : List Nat, Keeps T (offsets.mapM variableAt)
  | [] => by
    rw [List.mapM_nil]
    exact keeps_pure _
  | n :: offsets => by
    rw [List.mapM_cons]
    exact (keeps_variableAt n).then fun _ => (keeps_mapM_variableAt offsets).then fun _ =>
      keeps_pure _

theorem keeps_buildClosure (lambda : Lambda Expr) : Keeps Unseen (buildClosure ctx sub lambda) :=
  (keeps_mapM_variableAt _).then fun _ => (keeps_unitName lambda).then fun _ =>
    (keeps_buildUnit _ _ _ _).then fun _ => keeps_pure _

theorem keeps_genFn (lambda : Lambda Expr) : Keeps Unseen (genFn ctx sub lambda) := by
  unfold genFn
  split
  · exact (keeps_unitName lambda).then fun _ => (keeps_buildUnit _ _ _ _).then fun _ =>
      (keeps_loadConstant _).then fun _ => Keeps.then (moves_modify (fun _ => rfl) fun _ => trivial) fun _ =>
        keeps_pure _
  · exact (keeps_freshReg _ _).then fun _ => (keeps_write _).then fun _ =>
      (keeps_buildClosure lambda).then fun _ => (keeps_write _).then fun _ => keeps_pure _

theorem piles_allocClosures : ∀ (index : Nat) (es : List Expr), Piles T (allocClosures index es)
  | _, [] => (keeps_pure _).piles
  | index, e :: rest => by
    cases e with
    | fn lambda =>
      exact (keeps_freshReg _ _).then fun _ => (keeps_write _).then fun _ =>
        (piles_pushVariable _).bind fun _ => (piles_allocClosures (index + 1) rest).keep fun _ =>
          keeps_pure _
    | _ => exact moves_throw _

theorem keeps_finishClosures : ∀ closures : List (Reg × Lambda Expr),
    Keeps Unseen (finishClosures ctx sub closures)
  | [] => keeps_pure _
  | (_, lambda) :: rest => (keeps_buildClosure lambda).then fun _ => (keeps_write _).then fun _ =>
      keeps_finishClosures rest

theorem piles_genFix (fns : List Expr) : Piles Unseen (genFix ctx sub fns) :=
  (piles_allocClosures 0 fns).keep fun _ => (keeps_write _).then fun _ =>
    (keeps_finishClosures _).then fun _ => keeps_write _

theorem keeps_genVar (offset : Nat) (mutable : Bool) : Keeps T (genVar offset mutable) := by
  refine (keeps_variableAt offset).then fun v => ?_
  split
  · exact (keeps_freshReg _ _).then fun _ => (keeps_write _).then fun _ => keeps_pure _
  · split
    · exact moves_throw _
    · exact keeps_pure _

theorem keeps_genUnchecked (op : Operator) (l r : Reg) (t : StaticType) :
    Keeps T (genUnchecked op l r t) :=
  (keeps_freshReg _ _).then fun _ => (keeps_write _).then fun _ => keeps_pure _

theorem keeps_genArithmetic (op : Operator) (l r : Reg) : Keeps T (genArithmetic ctx op l r) := by
  refine (keeps_knownType l).then fun _ => (keeps_knownType r).then fun _ => ?_
  split
  · exact keeps_genUnchecked _ _ _ _
  · refine (keeps_freshReg _ _).then fun _ => (keeps_write _).then fun _ =>
      (keeps_returnErrors _ _ _).then fun _ => (keeps_knownType l).then fun _ =>
        (keeps_knownType r).then fun _ => ?_
    split
    · exact (keeps_narrow _ _).then fun _ => keeps_pure _
    · exact keeps_pure _

theorem SubPiles.piles_genOperator (h : SubPiles sub) (op : Operator) (lhs rhs : Expr) :
    Piles Unseen (genOperator ctx sub op lhs rhs) := by
  refine (h.value lhs).bind fun l => (h.value rhs).bind fun r => Keeps.piles ?_
  split
  · exact keeps_genUnchecked _ _ _ _
  · exact keeps_genUnchecked _ _ _ _
  · exact keeps_genUnchecked _ _ _ _
  · exact keeps_genArithmetic _ _ _

theorem SubPiles.piles_genStruct (h : SubPiles sub) (ty : Nat) (fields : List Expr) :
    Piles Unseen (genStruct ctx sub ty fields) := by
  unfold genStruct
  split
  · exact moves_throw _
  · split
    · exact moves_throw _
    · exact (h.mapM fields).keep fun _ => (keeps_freshReg _ _).then fun _ =>
        (keeps_write _).then fun _ => keeps_pure _

theorem SubPiles.piles_genAssign (h : SubPiles sub) (offset : Nat) (e : Expr) :
    Piles Unseen (genAssign sub offset e) := by
  refine (keeps_variableAt offset).then fun v => ?_
  split
  · exact moves_throw _
  · exact (h.value e).keep fun _ => (keeps_write _).then fun _ => keeps_loadConstant _

theorem Piles.map {x : Gen α} (hx : Piles Unseen x) (g : α → β) : Piles Unseen (g <$> x) := by
  rw [map_eq_pure_bind]
  exact hx.keep fun _ => keeps_pure _

/-- One node loses no variable when its parts lose none. -/
theorem SubPiles.piles_genNode (h : SubPiles sub) (e : Expr) (tail : Bool) :
    Piles Unseen (genNode ctx sub e tail) := by
  cases e with
  | lit c => exact ((keeps_loadConstant _).map _).piles
  | var offset mutable => exact ((keeps_genVar offset mutable).map _).piles
  | apply callee args guard loc => exact h.piles_genCall callee args guard loc tail
  | operate op lhs rhs => exact (h.piles_genOperator op lhs rhs).map _
  | fn lambda => exact ((keeps_genFn lambda).map _).piles
  | letIn binds body => exact h.piles_genBody (h.piles_genBinds binds) body tail
  | fix fns body => exact h.piles_genBody (piles_genFix fns) body tail
  | ite test yes no => exact h.piles_genIf test yes no tail
  | matchWith p value yes no => exact h.piles_genMatch p value yes no tail
  | block exprs keep =>
    cases keep with
    | true => exact keeps_height.then fun _ => (h.piles_genSequence tail exprs).keep fun _ =>
        keeps_pure _
    | false => exact Keeps.piles <| keeps_of_settles fun n =>
        (h.piles_genSequence tail exprs).settle fun _ => (settles_forgetAbove n).keep fun _ =>
          keeps_pure _
  | ret value =>
    refine (h.tail value).keep fun _ => ?_
    split
    · exact keeps_pure _
    · exact (keeps_loadConstant _).map _
  | assign offset value => exact (h.piles_genAssign offset value).map _
  | yield value => exact (h.value value).keep fun _ => (keeps_write _).then fun _ =>
      (keeps_loadConstant _).map _
  | struct ty fields => exact (h.piles_genStruct ty fields).map _

/-- **No variable is lost.** -/
theorem genExpr_grows (ctx : Context) : ∀ (fuel : Nat) (e : Expr) (tail : Bool),
    Piles Unseen (genExpr ctx fuel e tail)
  | 0, _, _ => moves_throw _
  | fuel + 1, e, tail => (subPiles_of (genExpr_grows ctx fuel)).piles_genNode e tail

/-! ## Two arms -/

theorem knownType_state {r : Reg} {s s' : GenState} {t : Option StaticType}
    (h : (knownType r).run s = .ok (t, s')) : s' = s := by
  obtain ⟨d, s₁, e₁, e⟩ := run_bind_ok h
  cases e₁
  split at e
  · cases e
    rfl
  · cases htype : s.draft.listing.typeOf r with
    | ok t => rw [htype] at e; cases e; rfl
    | error f => rw [htype] at e; cases e

/-- **What is in scope after two arms**, where their value is used. After a conditional it is what
was in scope after its test. After a match with an alternative it is what was in scope after the
value, unless the known type of the value rules the pattern out: then the alternative is generated
in place of the match, and the scope is the one that it leaves. -/
theorem stack_after_arms (ctx : Context) (fuel : Nat) (s s' : GenState) (out : Option Reg) :
    (∀ test yes no, (genExpr ctx (fuel + 1) (.ite test yes no) false).run s = .ok (out, s') →
      ∃ c s₁, ((Sub.of (genExpr ctx fuel)).value test).run s = .ok (c, s₁) ∧
        s'.draft.stack = s₁.draft.stack) ∧
    ∀ p e yes no, (genExpr ctx (fuel + 1) (.matchWith p e yes (some no)) false).run s =
        .ok (out, s') →
      ∃ v s₁ t, ((Sub.of (genExpr ctx fuel)).value e).run s = .ok (v, s₁) ∧
        (knownType v).run s₁ = .ok (t, s₁) ∧
        (Forecast.of t p ≠ .fails → s'.draft.stack = s₁.draft.stack) ∧
        (Forecast.of t p = .fails → (genExpr ctx fuel no false).run s₁ = .ok (out, s')) := by
  have h := subPiles_of (genExpr_grows ctx fuel)
  refine ⟨fun test yes no e => ?_, fun p e yes no e' => ?_⟩
  · obtain ⟨c, s₁, e₁, e⟩ := run_bind_ok e
    refine ⟨c, s₁, e₁, ?_⟩
    have harms : Keeps Unseen (asFlag c >>= fun flag => height >>= fun n => openBranch flag >>= fun b =>
        mergeReg false >>= fun merged => genArms (.of (genExpr ctx fuel)) b merged n yes no) :=
      (keeps_asFlag c).then fun _ => keeps_of_settles fun _ => (keeps_openBranch _).then fun _ =>
        (keeps_mergeReg _).then fun _ => h.settles_genArms _ _ _ _ _
    exact harms.of_run e
  · obtain ⟨v, s₁, e₁, h₁⟩ := run_bind_ok e'
    obtain ⟨t, s₂, e₂, h₂⟩ := run_bind_ok h₁
    obtain rfl := knownType_state e₂
    refine ⟨v, s₂, t, e₁, e₂, fun hfit => ?_, fun hfit => ?_⟩
    · split at h₂
      · exact (h.keeps_genFitting v p yes false).of_run h₂
      · next hfails => exact absurd hfails hfit
      · split at h₂
        · exact (h.keeps_genOneLevel v p yes no false).of_run h₂
        · exact ((keeps_validatePattern ctx p).then fun _ =>
            h.keeps_genLevelsValue v p yes no).of_run h₂
    · rw [hfit] at h₂
      obtain ⟨u, s₃, e₃, h₃⟩ := run_bind_ok h₂
      unfold validatePattern at e₃
      split at e₃
      · cases e₃
        exact h₃
      · cases e₃

theorem exists_run {x : Except Failure (α × GenState)} {vs : List Variable}
    (h : x.map (·.2.draft.stack) = .ok vs) : ∃ a s', x = .ok (a, s') ∧ s'.draft.stack = vs := by
  rcases x with e | ⟨a, s'⟩
  · cases h
  · exact ⟨a, s', rfl, Except.ok.inj h⟩

/-- A match of a truth value with a pattern for pairs, whose alternative binds a variable. -/
def hopelessMatch : Expr :=
  .matchWith (.unpack .cons []) (.lit (.bool true)) (.lit .nil)
    (some (.letIn [⟨.lit .nil, false⟩] none))

/-- The state in which the truth value has been loaded. -/
def loadedTruth : GenState where
  pool := #[.bool true]
  draft := {
    listing := ⟨#[some ⟨.nop, none, some ⟨2⟩⟩, some ⟨.done, some ⟨2⟩, none⟩,
      some ⟨.const ⟨0⟩ ⟨0⟩, some ⟨0⟩, some ⟨1⟩⟩], [], ⟨1⟩, #[⟨.temp, some .bool⟩]⟩ }

theorem hopelessMatch_run : ∃ out s', (genExpr ⟨{}, #[]⟩ 3 hopelessMatch false).run {} =
    .ok (out, s') ∧ s'.draft.stack = [⟨⟨1⟩, false⟩] := by
  have hvalue : ((Sub.of (genExpr ⟨{}, #[]⟩ 2)).value (.lit (.bool true))).run {} =
      pure (⟨0⟩, loadedTruth) := by
    with_unfolding_all rfl
  -- Looking up what is narrowed does not compute; that nothing is narrowed is a lemma.
  have hnarrowed : loadedTruth.draft.narrowed[(⟨0⟩ : Reg)]? = none := Std.HashMap.getElem?_empty
  have htype : (knownType ⟨0⟩).run loadedTruth = pure (some .bool, loadedTruth) := by
    simp only [knownType, draft, StateT.run_bind, StateT.run_get, StateT.run_pure, pure_bind, hnarrowed]
    rfl
  refine exists_run ?_
  unfold hopelessMatch genExpr
  simp only [genNode, genMatch, genAlternatives]
  rw [StateT.run_bind, hvalue, pure_bind, StateT.run_bind, htype]
  with_unfolding_all rfl

/-- After the match the variable of the alternative is in scope, after the value nothing. -/
theorem stack_after_hopelessMatch : ∃ out s' v s₁,
    (genExpr ⟨{}, #[]⟩ 3 hopelessMatch false).run {} = .ok (out, s') ∧ s'.draft.stack ≠ [] ∧
      ((Sub.of (genExpr ⟨{}, #[]⟩ 2)).value (.lit (.bool true))).run {} = .ok (v, s₁) := by
  obtain ⟨out, s', e, hs⟩ := hopelessMatch_run
  obtain ⟨v, s₁, t, e₁, -⟩ := (stack_after_arms ⟨{}, #[]⟩ 2 {} s' out).2 _ _ _ _ e
  exact ⟨out, s', v, s₁, e, by simp [hs], e₁⟩

/-- **What the alternative binds can stay in scope.** -/
theorem alternative_stays : ¬ ∀ (ctx : Context) (fuel : Nat) (s s₁ s' : GenState) (p : Pattern)
    (e yes no : Expr) (v : Reg) (out : Option Reg),
    (genExpr ctx (fuel + 1) (.matchWith p e yes (some no)) false).run s = .ok (out, s') →
      ((Sub.of (genExpr ctx fuel)).value e).run s = .ok (v, s₁) →
        s'.draft.stack = s₁.draft.stack := by
  intro h
  obtain ⟨out, s', e, hs⟩ := hopelessMatch_run
  obtain ⟨v, s₁, e₁, hs₁⟩ : ∃ v s₁, ((Sub.of (genExpr ⟨{}, #[]⟩ 2)).value
      (.lit (.bool true))).run {} = .ok (v, s₁) ∧ s₁.draft.stack = [] := exists_run (by decide +kernel)
  have := h _ _ _ _ _ _ _ _ _ _ _ e e₁
  rw [hs, hs₁] at this
  cases this

end CountedMachine.Gen
