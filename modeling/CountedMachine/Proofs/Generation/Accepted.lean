import CountedMachine.Proofs.Generation.Compile
import CountedMachine.Proofs.Generation.Scoping

/-! # Modules that are accepted

A module of functions, calls, bindings, conditionals and operators is refused only for a variable that
is not in scope: where all variables are (`Expr.inScope`), it is compiled, whatever the settings are
(`SourceModule.compile_of_inScope`). -/

namespace CountedMachine

namespace Expr

mutual

/-- **All variables are in scope**, where there are `n` of them, in an expression without mutable
variables, patterns, structs, blocks, returns and yields. -/
def inScope (n : Nat) : Expr → Bool
  | .lit _ => true
  | .var offset mutable => decide (offset < n) && !mutable
  | .apply callee args _ _ => inScopeList n args && inScope n callee
  | .operate _ lhs rhs => inScope n lhs && inScope n rhs
  | .fn ⟨arity, captures, body, _⟩ =>
    captures.all (decide <| · < n) && inScope (captures.length + arity) body
  | .letIn binds (some body) => inScopeBinds n binds && inScope (n + binds.length) body
  | .fix fns (some body) => inScopeFns (n + fns.length) fns && inScope (n + fns.length) body
  | .ite test yes no => inScope n test && inScope n yes && inScope n no
  | _ => false

/-- Expressions that are evaluated one after the other. -/
def inScopeList (n : Nat) : List Expr → Bool
  | [] => true
  | e :: rest => inScope n e && inScopeList n rest

/-- Values that are bound one after the other. -/
def inScopeBinds (n : Nat) : List (Binding Expr) → Bool
  | [] => true
  | ⟨e, mutable⟩ :: rest => inScope n e && !mutable && inScopeBinds (n + 1) rest

/-- The functions of a `fix`. -/
def inScopeFns (n : Nat) : List Expr → Bool
  | [] => true
  | .fn ⟨arity, captures, body, _⟩ :: rest =>
    captures.all (decide <| · < n) && inScope (captures.length + arity) body && inScopeFns n rest
  | _ :: _ => false

end

end Expr

namespace Gen

variable {α β : Type} {n k j : Nat} {s : GenState} {sub : Sub} {ctx : Context}

/-- There are so many variables in scope, all of them immutable, and the variables of known functions
are in scope. -/
structure Scope (n : Nat) (s : GenState) : Prop where
  length : s.draft.stack.length = n
  immutable : ∀ v ∈ s.draft.stack, v.mutable = false
  functions : ∀ f ∈ s.functions, f.body.inScope f.arity = true

/-- A run that ends as said, or with a fault; nothing is refused. -/
def Passes (Q : α → GenState → Prop) : Except Failure (α × GenState) → Prop
  | .ok (a, s) => Q a s
  | .error (.refused _) => False
  | .error (.fault _) => True

/-- **The step refuses nothing** where `n` variables are in scope, and leaves `k` in scope. -/
def Accepts (n k : Nat) (x : Gen α) : Prop := ∀ s, Scope n s → Passes (fun _ => Scope k) (x.run s)

/-- The step refuses nothing, and leaves variables and known functions as they are. -/
def Willing (x : Gen α) : Prop := ∀ s, Passes (fun _ s' =>
  s'.draft.stack = s.draft.stack ∧ s'.functions = s.functions) (x.run s)

theorem Passes.bind {x : Gen α} {f : α → Gen β} {Q : α → GenState → Prop} {R : β → GenState → Prop}
    (hx : Passes Q (x.run s)) (hf : ∀ a s₁, Q a s₁ → Passes R ((f a).run s₁)) :
    Passes R ((x >>= f).run s) := by
  rw [StateT.run_bind]
  rcases hrun : x.run s with (e | f) | ⟨a, s₁⟩
  · rw [hrun] at hx
    exact hx.elim
  · exact trivial
  · rw [hrun] at hx
    exact hf a s₁ hx

theorem Accepts.bind {x : Gen α} {f : α → Gen β} (hx : Accepts n k x) (hf : ∀ a, Accepts k j (f a)) :
    Accepts n j (x >>= f) := fun s hs => (hx s hs).bind fun a s₁ h₁ => hf a s₁ h₁

theorem Willing.bind {x : Gen α} {f : α → Gen β} (hx : Willing x) (hf : ∀ a, Willing (f a)) :
    Willing (x >>= f) := fun s => (hx s).bind fun a s₁ h₁ => by
  have := hf a s₁
  rwa [h₁.1, h₁.2] at this

theorem Willing.accepts {x : Gen α} (hx : Willing x) : Accepts n n x := by
  intro s hs
  have h := hx s
  rcases hrun : x.run s with (e | f) | ⟨a, s₁⟩
  · rw [hrun] at h
    exact h.elim
  · exact trivial
  · rw [hrun] at h
    obtain ⟨hstack, hfns⟩ := h
    exact ⟨hstack ▸ hs.length, hstack ▸ hs.immutable, hfns ▸ hs.functions⟩

theorem Willing.then {x : Gen α} {f : α → Gen β} (hx : Willing x) (hf : ∀ a, Accepts n k (f a)) :
    Accepts n k (x >>= f) := hx.accepts.bind hf

theorem Accepts.map {x : Gen α} (hx : Accepts n k x) (g : α → β) : Accepts n k (g <$> x) := by
  rw [map_eq_pure_bind]
  exact hx.bind fun a s hs => hs

/-! ## Steps that refuse nothing -/

theorem willing_pure (a : α) : Willing (pure a : Gen α) := fun _ => ⟨rfl, rfl⟩

theorem accepts_pure (a : α) : Accepts n n (pure a : Gen α) := (willing_pure a).accepts

theorem willing_get : Willing (get : Gen GenState) := fun _ => ⟨rfl, rfl⟩

theorem willing_modify {g : GenState → GenState} (hg : ∀ s, (g s).draft.stack = s.draft.stack ∧
    (g s).functions = s.functions) : Willing (modify g) := hg

theorem willing_fault (f : Fault) : Willing (throw (.fault f) : Gen α) := fun _ => trivial

theorem willing_faulting (x : Except Fault α) : Willing (faulting x) := by
  cases x with
  | ok a => exact willing_pure a
  | error f => exact willing_fault f

theorem willing_draft : Willing draft := willing_get.bind fun _ => willing_pure _

theorem willing_setListing (l : Listing) : Willing (setListing l) := willing_modify fun _ => ⟨rfl, rfl⟩

theorem willing_writeNode (i : Instr NodeId) : Willing (writeNode i) :=
  willing_draft.bind fun _ => (willing_faulting _).bind fun _ =>
    (willing_setListing _).bind fun _ => willing_pure _

theorem willing_write (i : Instr NodeId) : Willing (write i) :=
  (willing_writeNode i).bind fun _ => willing_pure _

theorem willing_freshReg (role : RegRole) (type : Option StaticType) :
    Willing (freshReg role type) := by
  refine willing_draft.bind fun d => ?_
  dsimp only
  split
  · exact (willing_faulting _).bind fun _ => (willing_setListing _).bind fun _ => willing_pure _
  · exact (willing_setListing _).bind fun _ => willing_pure _

theorem willing_knownType (r : Reg) : Willing (knownType r) := by
  refine willing_draft.bind fun d => ?_
  split
  · exact willing_pure _
  · exact willing_faulting _

theorem willing_narrow (r : Reg) (t : StaticType) : Willing (narrow r t) :=
  willing_modify fun _ => ⟨rfl, rfl⟩

theorem willing_loadConstant (c : Constant) : Willing (loadConstant c) := by
  refine Willing.bind (willing_get.bind fun s => ?_) fun _ =>
    (willing_freshReg _ _).bind fun _ => (willing_write _).bind fun _ => willing_pure _
  dsimp only
  split
  · exact willing_pure _
  · exact Willing.bind (willing_modify fun s => ⟨rfl, rfl⟩) fun _ => willing_pure _

theorem willing_retarget (id label : NodeId) : Willing (retarget id label) :=
  willing_draft.bind fun _ => (willing_faulting _).bind fun _ => (willing_faulting _).bind fun _ =>
    willing_setListing _

theorem willing_openBranch (flag : Reg) : Willing (openBranch flag) :=
  (willing_writeNode _).bind fun _ => willing_pure _

theorem willing_beginElse (branch : Branch) : Willing (beginElse branch) :=
  (willing_writeNode _).bind fun _ => (willing_writeNode _).bind fun _ =>
    (willing_retarget _ _).bind fun _ => willing_pure _

theorem willing_meet (branch : Branch) (merged : Option Reg) : Willing (meet branch merged) := by
  refine (willing_writeNode _).bind fun label => ?_
  split
  · exact willing_retarget _ _
  · exact willing_fault _

theorem willing_agree (merged a b : Reg) : Willing (agree merged a b) := by
  refine willing_draft.bind fun d => (willing_faulting _).bind fun ta =>
    (willing_faulting _).bind fun tb => ?_
  split
  · exact (willing_faulting _).bind fun _ => willing_setListing _
  · refine (willing_knownType a).bind fun x => (willing_knownType b).bind fun y => ?_
    split
    · split
      · exact willing_narrow _ _
      · exact willing_pure _
    · exact willing_pure _

theorem willing_returnErrors (r : Reg) (loc : Option Location) : Willing (returnErrors ctx r loc) := by
  refine (willing_knownType r).bind fun t => ?_
  split
  · exact willing_pure _
  · refine (willing_freshReg _ _).bind fun t => (willing_write _).bind fun _ =>
      (willing_openBranch t).bind fun branch => ?_
    have hrest : Willing (write (.ret r) >>= fun _ => closeBranch branch none) :=
      (willing_write _).bind fun _ => (willing_beginElse _).bind fun _ => willing_meet _ _
    cases loc with
    | none => exact hrest
    | some loc =>
      dsimp only
      split
      · exact (willing_write _).bind fun _ => hrest
      · exact hrest

theorem willing_asFlag (c : Reg) : Willing (asFlag c) := by
  refine willing_draft.bind fun d => (willing_faulting _).bind fun facts => ?_
  split
  · exact willing_pure _
  · exact (willing_freshReg _ _).bind fun _ => (willing_write _).bind fun _ => willing_pure _

theorem willing_genUnchecked (op : Operator) (l r : Reg) (t : StaticType) :
    Willing (genUnchecked op l r t) :=
  (willing_freshReg _ _).bind fun _ => (willing_write _).bind fun _ => willing_pure _

theorem willing_genArithmetic (op : Operator) (l r : Reg) : Willing (genArithmetic ctx op l r) := by
  refine (willing_knownType l).bind fun tl => (willing_knownType r).bind fun tr => ?_
  split
  · exact willing_genUnchecked _ _ _ _
  · refine (willing_freshReg _ _).bind fun dst => (willing_write _).bind fun _ =>
      (willing_returnErrors _ _).bind fun _ => (willing_knownType l).bind fun _ =>
        (willing_knownType r).bind fun _ => ?_
    split
    · exact (willing_narrow _ _).bind fun _ => willing_pure _
    · exact willing_pure _

theorem willing_pushArgs : ∀ rs : List Reg, Willing (pushArgs rs)
  | [] => willing_pure _
  | _ :: rs => (willing_write _).bind fun _ => willing_pushArgs rs

theorem willing_genRuntimeCall (func : Reg) (args : List Reg) (checked guard tailCall : Bool)
    (loc : Option Location) :
    Willing (genRuntimeCall ctx func args checked guard tailCall loc) := by
  refine (willing_pushArgs args).bind fun _ => ?_
  split
  · exact (willing_write _).bind fun _ => willing_pure _
  · refine (willing_freshReg _ _).bind fun dst => (willing_write _).bind fun _ => ?_
    split
    · exact (willing_returnErrors _ _).bind fun _ => willing_pure _
    · exact willing_pure _

/-! ## Variables -/

theorem accepts_pushVariable (r : Reg) : Accepts n (n + 1) (pushVariable ⟨r, false⟩) := fun s hs => by
  refine ⟨?_, ?_, hs.functions⟩
  · show s.draft.stack.length + 1 = n + 1
    rw [hs.length]
  · intro v hv
    rcases List.mem_cons.mp hv with rfl | hv
    · rfl
    · exact hs.immutable v hv

theorem accepts_forgetAbove : Accepts (n + k) n (forgetAbove n) := fun s hs => by
  refine ⟨?_, fun v hv => hs.immutable v (List.mem_of_mem_drop hv), hs.functions⟩
  show (s.draft.stack.drop (s.draft.stack.length - n)).length = n
  rw [List.length_drop, hs.length]
  omega

theorem get_eq (s : GenState) : (get : Gen GenState).run s = .ok (s, s) := rfl

theorem draft_eq (s : GenState) : draft.run s = .ok (s.draft, s) := rfl

theorem knownCallee_eq (s : GenState) (func : Reg) (nargs : Nat) :
    (knownCallee func nargs).run s = .ok ((s.draft.known[func]?.bind fun i =>
      s.functions[i]?).filter fun k => k.arity = nargs, s) := rfl

theorem height_eq (s : GenState) : height.run s = .ok (s.draft.stack.length, s) := rfl

/-- The height that is asked for is the number of variables in scope. -/
theorem accepts_height {f : Nat → Gen β} (hf : Accepts n k (f n)) : Accepts n k (height >>= f) := by
  intro s hs
  rw [run_bind_of_eq (height_eq s), hs.length]
  exact hf s hs

/-- A variable in scope is found, and it is immutable. -/
theorem variableAt_run (offset : Nat) (s : GenState) :
    (variableAt offset).run s = (match s.draft.stack[offset]? with
      | some v => pure v
      | none => refuse (.unboundOffset offset s.draft.stack.length) : Gen Variable).run s :=
  rfl

theorem variableAt_eq {offset : Nat} (hs : Scope n s) (h : offset < n) :
    ∃ v, (variableAt offset).run s = .ok (v, s) ∧ v.mutable = false := by
  have hlt : offset < s.draft.stack.length := hs.length ▸ h
  refine ⟨s.draft.stack[offset], ?_, hs.immutable _ (List.getElem_mem hlt)⟩
  rw [variableAt_run, List.getElem?_eq_getElem hlt]
  rfl

theorem accepts_genVar {offset : Nat} (h : offset < n) : Accepts n n (genVar offset false) := by
  intro s hs
  obtain ⟨v, hv, hm⟩ := variableAt_eq hs h
  rw [genVar, run_bind_of_eq hv, hm]
  exact hs

theorem mapM_variableAt_eq (hs : Scope n s) : ∀ {offsets : List Nat},
    offsets.all (decide <| · < n) = true → ∃ vs, (offsets.mapM variableAt).run s = .ok (vs, s) ∧
      vs.length = offsets.length ∧ ∀ v ∈ vs, v.mutable = false
  | [], _ => ⟨[], by rw [List.mapM_nil]; rfl, rfl, nofun⟩
  | offset :: offsets, h => by
    simp only [List.all_cons, Bool.and_eq_true, decide_eq_true_eq] at h
    obtain ⟨v, hv, hm⟩ := variableAt_eq hs h.1
    obtain ⟨vs, hvs, hlen, hall⟩ := mapM_variableAt_eq hs h.2
    refine ⟨v :: vs, ?_, by simp [hlen], List.forall_mem_cons.mpr ⟨hm, hall⟩⟩
    rw [List.mapM_cons, run_bind_of_eq hv, run_bind_of_eq hvs]
    rfl

/-! ## Expressions -/

/-- Expressions with their variables in scope are not refused. -/
structure SubAccepts (sub : Sub) : Prop where
  expr : ∀ {n e}, Expr.inScope n e = true → ∀ tail, Accepts n n (sub.expr e tail)
  value : ∀ {n e}, Expr.inScope n e = true → Accepts n n (sub.value e)
  tail : ∀ {n e}, Expr.inScope n e = true → Accepts n n (sub.tail e)

theorem subAccepts_of {expr : Expr → Bool → Gen (Option Reg)}
    (h : ∀ {n e}, Expr.inScope n e = true → ∀ tail, Accepts n n (expr e tail)) :
    SubAccepts (.of expr) := by
  refine ⟨h, fun he => ?_, fun he => ?_⟩
  · refine (h he false).bind fun out => ?_
    cases out with
    | some r => exact accepts_pure _
    | none => exact (willing_fault _).accepts
  · refine (h he true).bind fun out => ?_
    cases out with
    | some r => exact (willing_write _).accepts
    | none => exact accepts_pure _

section
variable (hsub : SubAccepts sub)
include hsub

theorem SubAccepts.mapM : ∀ {es : List Expr}, Expr.inScopeList n es = true →
    Accepts n n (es.mapM sub.value)
  | [], _ => by
    rw [List.mapM_nil]
    exact accepts_pure _
  | e :: es, h => by
    rw [Expr.inScopeList, Bool.and_eq_true] at h
    rw [List.mapM_cons]
    exact (hsub.value h.1).bind fun _ => (SubAccepts.mapM h.2).bind fun _ => accepts_pure _

theorem SubAccepts.genBinds : ∀ {n : Nat} {binds : List (Binding Expr)},
    Expr.inScopeBinds n binds = true → Accepts n (n + binds.length) (genBinds sub binds)
  | n, [], _ => accepts_pure _
  | n, ⟨e, mutable⟩ :: binds, h => by
    simp only [Expr.inScopeBinds, Bool.and_eq_true, Bool.not_eq_true'] at h
    obtain ⟨⟨he, rfl⟩, hbinds⟩ := h
    have hrest := SubAccepts.genBinds hbinds
    rw [Nat.add_right_comm] at hrest
    exact (hsub.value he).bind fun r => (accepts_pushVariable r).bind fun _ => hrest

theorem SubAccepts.genBody {e : Expr} (he : Expr.inScope (n + k) e = true) (tail : Bool) :
    Accepts (n + k) n (genBody sub (some e) n tail) :=
  (hsub.expr he tail).bind fun _ => accepts_forgetAbove.bind fun _ => accepts_pure _

theorem SubAccepts.genArm {e : Expr} (he : Expr.inScope n e = true) (merged : Option Reg) :
    Accepts n n (genArm sub e merged n) := by
  cases merged with
  | some dst =>
    exact (hsub.value he).bind fun _ => (willing_write _).then fun _ =>
      (accepts_forgetAbove (k := 0)).bind fun _ => accepts_pure _
  | none =>
    exact (hsub.tail he).bind fun _ => (accepts_forgetAbove (k := 0)).bind fun _ => accepts_pure _

theorem SubAccepts.genIf {test yes no : Expr} (htest : Expr.inScope n test = true)
    (hyes : Expr.inScope n yes = true) (hno : Expr.inScope n no = true) (tail : Bool) :
    Accepts n n (genIf sub test yes no tail) := by
  refine (hsub.value htest).bind fun c => (willing_asFlag c).then fun flag => accepts_height ?_
  refine (willing_openBranch flag).then fun branch => ?_
  have hmerge : Willing (mergeReg tail) := by
    unfold mergeReg
    split
    · exact willing_pure _
    · rw [map_eq_pure_bind]
      exact (willing_freshReg _ _).bind fun _ => willing_pure _
  refine hmerge.then fun merged => ?_
  refine (hsub.genArm hyes merged).bind fun x => ?_
  refine (willing_beginElse branch).then fun branch => ?_
  refine (hsub.genArm hno merged).bind fun y => ?_
  refine (willing_meet branch merged).then fun _ => ?_
  split
  · exact (willing_agree _ _ _).then fun _ => accepts_pure _
  · exact accepts_pure _

theorem SubAccepts.genOperator {op : Operator} {lhs rhs : Expr} (hl : Expr.inScope n lhs = true)
    (hr : Expr.inScope n rhs = true) : Accepts n n (genOperator ctx sub op lhs rhs) := by
  refine (hsub.value hl).bind fun l => (hsub.value hr).bind fun r => Willing.accepts ?_
  cases op with
  | cons => exact willing_genUnchecked _ _ _ _
  | eq => exact willing_genUnchecked _ _ _ _
  | ne => exact willing_genUnchecked _ _ _ _
  | _ => exact willing_genArithmetic _ _ _

omit hsub in
theorem accepts_loadCaptures : ∀ {n : Nat} (idx : Nat) (caps : List Bool), (∀ c ∈ caps, c = false) →
    Accepts n (n + caps.length) (loadCaptures idx caps)
  | n, _, [], _ => accepts_pure _
  | n, idx, mutable :: caps, h => by
    obtain rfl := h mutable (by simp)
    have hrest := accepts_loadCaptures (n := n + 1) (idx + 1) caps fun c hc => h c (by simp [hc])
    rw [Nat.add_right_comm] at hrest
    exact (willing_freshReg _ _).then fun r => (willing_write _).then fun _ =>
      (accepts_pushVariable r).bind fun _ => hrest

omit hsub in
theorem accepts_loadParams : ∀ {n : Nat} (idx arity : Nat), Accepts n (n + arity) (loadParams idx arity)
  | n, _, 0 => accepts_pure _
  | n, idx, arity + 1 => by
    have hrest := accepts_loadParams (n := n + 1) (idx + 1) arity
    rw [Nat.add_right_comm] at hrest
    exact (willing_freshReg _ _).then fun r => (willing_write _).then fun _ =>
      (accepts_pushVariable r).bind fun _ => hrest

/-- A unit is generated in a scope of its own. -/
theorem SubAccepts.buildUnit (name : String) {arity : Nat} {caps : List Bool}
    (hcaps : ∀ c ∈ caps, c = false) {body : Expr}
    (hbody : Expr.inScope (caps.length + arity) body = true) :
    Accepts n n (buildUnit ctx sub name arity caps body) := by
  intro s hs
  rw [Gen.buildUnit, run_bind_of_eq (draft_eq s), run_bind_of_eq (get_eq s),
    run_bind_of_eq (a := ()) rfl]
  have hstart : Scope 0 { s with
      units := s.units.push ⟨name, arity, caps.length, 0, #[]⟩, draft := {} } :=
    ⟨rfl, nofun, hs.functions⟩
  have hload := accepts_loadCaptures (n := 0) 0 caps hcaps
  rw [Nat.zero_add] at hload
  refine Passes.bind (hload _ hstart) fun _ s₁ h₁ => ?_
  refine Passes.bind (accepts_loadParams 0 arity _ h₁) fun _ s₂ h₂ => ?_
  refine Passes.bind (hsub.tail hbody _ h₂) fun _ s₃ h₃ => ?_
  rw [run_bind_of_eq (get_eq s₃)]
  refine Passes.bind ((willing_faulting _).accepts _ h₃) fun q s₄ h₄ => ?_
  rw [run_bind_of_eq (a := ()) rfl]
  exact ⟨hs.length, hs.immutable, h₄.functions⟩

omit hsub in
theorem willing_unitName (lambda : Lambda Expr) : Willing (unitName lambda) := by
  unfold unitName
  split
  · exact willing_pure _
  · exact willing_get.bind fun _ => willing_pure _

theorem SubAccepts.buildClosure {arity : Nat} {captures : List Nat} {body : Expr}
    {name : Option String} (hcaps : captures.all (decide <| · < n) = true)
    (hbody : Expr.inScope (captures.length + arity) body = true) :
    Accepts n n (buildClosure ctx sub ⟨arity, captures, body, name⟩) := by
  intro s hs
  obtain ⟨vs, hvs, hlen, hall⟩ := mapM_variableAt_eq hs hcaps
  rw [Gen.buildClosure, run_bind_of_eq hvs]
  refine ((willing_unitName _).then fun unit => (hsub.buildUnit unit (fun c hc => ?_) ?_).bind
    fun _ => accepts_pure _) s hs
  · obtain ⟨v, hv, rfl⟩ := List.mem_map.mp hc
    exact hall v hv
  · rw [List.length_map, hlen]
    exact hbody

omit hsub in
theorem accepts_noteFunction (r : Reg) {k : KnownFunction} (hk : k.body.inScope k.arity = true) :
    Accepts n n (noteFunction r k) := fun s hs => by
  refine ⟨hs.length, hs.immutable, fun f hf => ?_⟩
  rcases Array.mem_push.mp hf with hf | rfl
  · exact hs.functions f hf
  · exact hk

theorem SubAccepts.genFn {arity : Nat} {captures : List Nat} {body : Expr} {name : Option String}
    (hcaps : captures.all (decide <| · < n) = true)
    (hbody : Expr.inScope (captures.length + arity) body = true) :
    Accepts n n (genFn ctx sub ⟨arity, captures, body, name⟩) := by
  unfold Gen.genFn
  split
  · next hnone =>
    obtain rfl : captures = [] := List.isEmpty_iff.mp hnone
    rw [List.length_nil, Nat.zero_add] at hbody
    exact (willing_unitName _).then fun unit => (hsub.buildUnit unit (by simp)
      (by rwa [List.length_nil, Nat.zero_add])).bind fun _ => (willing_loadConstant _).then fun r =>
        (accepts_noteFunction r hbody).bind fun _ => accepts_pure _
  · exact (willing_freshReg _ _).then fun dst => (willing_write _).then fun _ =>
      (hsub.buildClosure hcaps hbody).bind fun _ => (willing_write _).then fun _ => accepts_pure _

omit hsub in
/-- The closures of a `fix` are bound, and they are the functions that are to be finished. -/
theorem accepts_allocClosures : ∀ {n : Nat} (index : Nat) {es : List Expr},
    Expr.inScopeFns k es = true → ∀ s, Scope n s → Passes (fun closures s' =>
      Scope (n + es.length) s' ∧ ∀ c ∈ closures, c.2.captures.all (decide <| · < k) = true ∧
        Expr.inScope (c.2.captures.length + c.2.arity) c.2.body = true)
      ((allocClosures index es).run s)
  | n, _, [], _, s, hs => ⟨hs, nofun⟩
  | n, index, e :: es, h, s, hs => by
    cases e with
    | fn lambda =>
      obtain ⟨arity, captures, body, name⟩ := lambda
      simp only [Expr.inScopeFns, Bool.and_eq_true] at h
      refine Passes.bind ((willing_freshReg _ _).accepts s hs) fun dst s₁ h₁ => ?_
      refine Passes.bind ((willing_write _).accepts s₁ h₁) fun _ s₂ h₂ => ?_
      refine Passes.bind (accepts_pushVariable dst s₂ h₂) fun _ s₃ h₃ => ?_
      refine Passes.bind (accepts_allocClosures (index + 1) h.2 s₃ h₃) fun rest s₄ h₄ => ?_
      refine ⟨?_, List.forall_mem_cons.mpr ⟨h.1, h₄.2⟩⟩
      have h₄ := h₄.1
      rwa [Nat.add_right_comm] at h₄
    | _ => simp [Expr.inScopeFns] at h

theorem SubAccepts.finishClosures : ∀ {closures : List (Reg × Lambda Expr)},
    (∀ c ∈ closures, c.2.captures.all (decide <| · < n) = true ∧
      Expr.inScope (c.2.captures.length + c.2.arity) c.2.body = true) →
    Accepts n n (finishClosures ctx sub closures)
  | [], _ => accepts_pure _
  | (dst, lambda) :: closures, h => by
    obtain ⟨hlambda, hrest⟩ := List.forall_mem_cons.mp h
    exact (hsub.buildClosure hlambda.1 hlambda.2).bind fun _ => (willing_write _).then fun _ =>
      SubAccepts.finishClosures hrest

theorem SubAccepts.genFix {fns : List Expr} (h : Expr.inScopeFns (n + fns.length) fns = true) :
    Accepts n (n + fns.length) (genFix ctx sub fns) := by
  intro s hs
  refine Passes.bind (accepts_allocClosures 0 h s hs) fun closures s₁ h₁ => ?_
  exact ((willing_write _).then fun _ => (hsub.finishClosures h₁.2).bind fun _ =>
    (willing_write _).accepts) s₁ h₁.1

/-- The body of a known function takes the place of a call in a scope of its own. -/
theorem SubAccepts.genInlined {body : Expr} {args : List Reg}
    (hbody : Expr.inScope args.length body = true) (guard : Bool) (loc : Option Location)
    (tail : Bool) : Accepts n n (genInlined ctx sub body args guard loc tail) := by
  intro s hs
  rw [Gen.genInlined, run_bind_of_eq (draft_eq s), run_bind_of_eq (a := ()) rfl]
  refine Passes.bind (hsub.expr hbody tail _ ⟨?_, ?_, hs.functions⟩) fun out s₁ h₁ => ?_
  · show ((args.map fun r => (⟨r, false⟩ : Variable)).reverse).length = args.length
    simp
  · intro v hv
    obtain ⟨r, -, rfl⟩ := List.mem_map.mp (List.mem_reverse.mp hv)
    rfl
  rw [run_bind_of_eq (a := ()) rfl]
  have hback : Scope n { s₁ with draft := { s₁.draft with
      stack := s.draft.stack, inlined := s₁.draft.inlined - 1 } } :=
    ⟨hs.length, hs.immutable, h₁.functions⟩
  split
  · split
    · exact ((willing_returnErrors _ _).then fun _ => accepts_pure _) _ hback
    · exact hback
  · exact hback

theorem SubAccepts.genCall {callee : Expr} {args : List Expr} (hargs : Expr.inScopeList n args = true)
    (hcallee : Expr.inScope n callee = true) (guard : Bool) (loc : Option Location) (tail : Bool) :
    Accepts n n (genCall ctx sub callee args guard loc tail) := by
  refine (hsub.mapM hargs).bind fun regs => (hsub.value hcallee).bind fun func => ?_
  intro s hs
  rw [run_bind_of_eq (knownCallee_eq s func regs.length)]
  split
  · next k hk =>
    obtain ⟨hk, har⟩ := Option.filter_eq_some_iff.mp hk
    obtain ⟨i, -, hi⟩ := Option.bind_eq_some_iff.mp hk
    have hbody := hs.functions k (Array.mem_of_getElem? hi)
    rw [of_decide_eq_true har] at hbody
    rw [run_bind_of_eq (draft_eq s)]
    split
    · exact hsub.genInlined hbody guard loc tail s hs
    · exact (willing_genRuntimeCall _ _ _ _ _ _).accepts s hs
  · exact (willing_genRuntimeCall _ _ _ _ _ _).accepts s hs

theorem SubAccepts.genNode {e : Expr} (he : Expr.inScope n e = true) (tail : Bool) :
    Accepts n n (genNode ctx sub e tail) := by
  cases e with
  | lit c => exact (willing_loadConstant _).accepts.map _
  | var offset mutable =>
    simp only [Expr.inScope, Bool.and_eq_true, decide_eq_true_eq, Bool.not_eq_true'] at he
    obtain ⟨hoffset, rfl⟩ := he
    exact (accepts_genVar hoffset).map _
  | apply callee args guard loc =>
    rw [Expr.inScope, Bool.and_eq_true] at he
    exact hsub.genCall he.1 he.2 guard loc tail
  | operate op lhs rhs =>
    rw [Expr.inScope, Bool.and_eq_true] at he
    exact (hsub.genOperator he.1 he.2).map _
  | fn lambda =>
    obtain ⟨arity, captures, body, name⟩ := lambda
    rw [Expr.inScope, Bool.and_eq_true] at he
    exact (hsub.genFn he.1 he.2).map _
  | letIn binds body =>
    cases body with
    | none => simp [Expr.inScope] at he
    | some e =>
      rw [Expr.inScope, Bool.and_eq_true] at he
      exact accepts_height ((hsub.genBinds he.1).bind fun _ => hsub.genBody he.2 tail)
  | fix fns body =>
    cases body with
    | none => simp [Expr.inScope] at he
    | some e =>
      rw [Expr.inScope, Bool.and_eq_true] at he
      exact accepts_height ((hsub.genFix he.1).bind fun _ => hsub.genBody he.2 tail)
  | ite test yes no =>
    simp only [Expr.inScope, Bool.and_eq_true] at he
    exact hsub.genIf he.1.1 he.1.2 he.2 tail
  | _ => simp [Expr.inScope] at he

end

/-- **An expression with its variables in scope is not refused.** -/
theorem genExpr_accepts (ctx : Context) : ∀ (fuel : Nat) {n : Nat} {e : Expr},
    Expr.inScope n e = true → ∀ tail, Accepts n n (genExpr ctx fuel e tail)
  | 0, _, _, _, _ => (willing_fault _).accepts
  | fuel + 1, _, _, he, tail => (subAccepts_of (genExpr_accepts ctx fuel)).genNode he tail

end Gen

/-- **A module with its variables in scope is compiled.** -/
theorem SourceModule.compile_of_inScope {m : SourceModule} (settings : Settings)
    (h : m.body.inScope 0 = true) : ∃ p, m.compile settings = .ok p := by
  have hends := (Gen.runs_main m settings true).ends
  have hsub := Gen.subAccepts_of (Gen.genExpr_accepts ⟨settings, m.types.toArray⟩
    (Gen.nestingBound settings m.body))
  have hunit : Gen.Accepts 0 0 (Gen.buildUnit ⟨settings, m.types.toArray⟩ _ "main" 0 [] m.body) :=
    hsub.buildUnit "main" (by simp) h
  have hpasses := hunit {} ⟨rfl, by simp, by simp⟩
  unfold compile
  dsimp only at hends hpasses ⊢
  generalize StateT.run _ _ = result at hends hpasses ⊢
  rcases result with (e | f) | ⟨entry, s⟩
  · exact hpasses.elim
  · exact hends.elim
  · exact ⟨_, rfl⟩

namespace SourceModule

/-- A function that counts down to zero by calling itself, and a call of it. -/
def countdown : SourceModule := ⟨[], .fix [.fn ⟨1, [0], .ite (.operate .le (.var 0 false) (.lit (.num 0)))
  (.lit (.str "done")) (.apply (.var 1 false) [.operate .sub (.var 0 false) (.lit (.num 1))] true none),
  some "count"⟩] (some (.apply (.var 0 false) [.lit (.num 3)] true none))⟩

theorem compile_countdown (settings : Settings) : ∃ p, countdown.compile settings = .ok p :=
  compile_of_inScope settings (by decide)

end SourceModule

end CountedMachine
