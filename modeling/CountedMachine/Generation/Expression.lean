import CountedMachine.Generation.Call

/-! # Code for expressions

The value of an expression is left in a register. In tail position an expression may end the unit
itself, by returning or by a tail call, and then it has no register.

The recursion follows the expression except at two places: where the body of a known function takes
the place of a call, and at a function literal, which starts a new unit. `nestingBound` bounds its
depth. `SourceModule.compile` generates the program of a module. -/

namespace CountedMachine

/-- The constant of a literal. -/
def Literal.constant : Literal → Constant
  | .nil => .nil
  | .bool b => .bool b
  | .num x => .num x
  | .str s => .str s
  | .undefined tag => .undefined tag

namespace Gen

/-- The ways to treat sub-expressions, from one that generates code for them. -/
def Sub.of (expr : Expr → Bool → Gen (Option Reg)) : Sub where
  expr := expr
  value e := do
    match ← expr e false with
    | some r => return r
    | none => throw (.fault .noResult)
  tail e := do
    match ← expr e true with
    | some src => write (.ret src)
    | none => pure ()

/-! ## Operators -/

/-- An operator that cannot fail. -/
def genUnchecked (op : Operator) (l r : Reg) (t : StaticType) : Gen Reg := do
  let dst ← freshReg .temp (some t)
  write (.operate op dst l r false)
  return dst

/-- The type of a result that is no error: the type of numbers or truth values, and for `add`,
which joins texts too, only what the operands say. -/
def resultType (op : Operator) (tl tr : Option StaticType) : Option StaticType :=
  if op = .add then if tl = some .str && tr = some .str then some .str else none
  else some (if op.comparesOrder then .bool else .num)

/-- Arithmetic and ordering: unchecked on two numbers, else with an early return of errors. -/
def genArithmetic (ctx : Context) (op : Operator) (l r : Reg) : Gen Reg := do
  if (← knownType l) = some .num && (← knownType r) = some .num then
    genUnchecked op l r (if op.comparesOrder then .bool else .num)
  else
    let dst ← freshReg .temp none
    write (.operate op dst l r true)
    returnErrors ctx dst none
    match resultType op (← knownType l) (← knownType r) with
    | some t => narrow dst t
    | none => pure ()
    return dst

/-- Code for an operator. -/
def genOperator (ctx : Context) (sub : Sub) (op : Operator) (lhs rhs : Expr) : Gen Reg := do
  let l ← sub.value lhs
  let r ← sub.value rhs
  match op with
  | .cons => genUnchecked op l r (.obj .cons)
  | .eq => genUnchecked op l r .bool
  | .ne => genUnchecked op l r .bool
  | _ => genArithmetic ctx op l r

/-! ## Conditionals -/

/-- Code for a conditional: both arms end the unit, or move their value into one register. -/
def genIf (sub : Sub) (test yes no : Expr) (tail : Bool) : Gen (Option Reg) := do
  let flag ← asFlag (← sub.value test)
  let n ← height
  let branch ← openBranch flag
  let merged ← mergeReg tail
  genArms sub branch merged n yes no

/-! ## Variables, bindings, blocks -/

/-- Code for a variable: a mutable one is read out of its cell. -/
def genVar (offset : Nat) (mutable : Bool) : Gen Reg := do
  let v ← variableAt offset
  if v.mutable then
    let dst ← freshReg .temp none
    write (.unbox dst v.reg)
    return dst
  else if mutable then refuse (.immutableBinding offset)
  else return v.reg

/-- Code for the values of a `let`, which are bound, the mutable ones in cells. -/
def genBinds (sub : Sub) : List (Binding Expr) → Gen Unit
  | [] => pure ()
  | b :: rest => do
    let r ← sub.value b.value
    if b.mutable then
      let cell ← freshReg .temp (some .cell)
      write (.box cell r)
      pushVariable ⟨cell, true⟩
    else bindReg r
    genBinds sub rest

/-- Code for the body of a `let` or `fix` that began at a height; without one, the bindings stay. -/
def genBody (sub : Sub) (body : Option Expr) (n : Nat) (tail : Bool) : Gen (Option Reg) := do
  match body with
  | some e =>
    let out ← sub.expr e tail
    forgetAbove n
    return out
  | none => return some (← loadNil)

/-- Code for the expressions of a block; the last one gives its value. -/
def genSequence (sub : Sub) (tail : Bool) : List Expr → Gen (Option Reg)
  | [] => return some (← loadNil)
  | [e] => sub.expr e tail
  | e :: rest => do
    let _ ← sub.value e
    genSequence sub tail rest

/-- Code for an assignment to a mutable variable. -/
def genAssign (sub : Sub) (offset : Nat) (e : Expr) : Gen Reg := do
  let v ← variableAt offset
  if !v.mutable then refuse (.immutableBinding offset)
  let src ← sub.value e
  write (.assign v.reg src)
  loadNil

/-- Code for making a struct, which must be declared with as many fields. -/
def genStruct (ctx : Context) (sub : Sub) (ty : Nat) (fields : List Expr) : Gen Reg := do
  match ctx.types[ty]? with
  | none => refuse (.undeclaredStruct ty)
  | some d =>
    if d.fields.length ≠ fields.length then
      refuse (.wrongFieldCount ty d.fields.length fields.length)
    let regs ← fields.mapM sub.value
    let dst ← freshReg .temp (some (.obj (.struct ty)))
    write (.make dst ty regs)
    return dst

/-! ## Expressions -/

/-- Code for one node; `sub` treats its parts. -/
def genNode (ctx : Context) (sub : Sub) (e : Expr) (tail : Bool) : Gen (Option Reg) :=
  match e with
  | .lit c => some <$> loadConstant c.constant
  | .var offset mutable => some <$> genVar offset mutable
  | .apply callee args guard loc => genCall ctx sub callee args guard loc tail
  | .operate op lhs rhs => some <$> genOperator ctx sub op lhs rhs
  | .fn lambda => some <$> genFn ctx sub lambda
  | .letIn binds body => do
    let n ← height
    genBinds sub binds
    genBody sub body n tail
  | .fix fns body => do
    let n ← height
    genFix ctx sub fns
    genBody sub body n tail
  | .ite test yes no => genIf sub test yes no tail
  | .matchWith p value yes no => genMatch ctx sub p value yes no tail
  | .block exprs keep => do
    let n ← height
    let out ← genSequence sub tail exprs
    if !keep then forgetAbove n
    return out
  | .ret value => do
    sub.tail value
    if tail then return none else some <$> loadNil
  | .assign offset value => some <$> genAssign sub offset value
  | .yield value => do
    let src ← sub.value value
    write (.yield src)
    some <$> loadNil
  | .struct ty fields => some <$> genStruct ctx sub ty fields

/-- Code for an expression, with the recursion bounded in depth. -/
def genExpr (ctx : Context) : Nat → Expr → Bool → Gen (Option Reg)
  | 0, _, _ => throw (.fault .exhausted)
  | fuel + 1, e, tail => genNode ctx (.of (genExpr ctx fuel)) e tail

/-- A depth that suffices: units nest as function literals do, inside a unit bodies take the place
of calls `inlineLevels` deep, and between two of these steps the expression gets smaller. -/
def nestingBound (settings : Settings) (e : Expr) : Nat :=
  (e.size + 1) * ((settings.inlineLevels + 1) * (e.size + 1)) + 1

end Gen

/-- **Compile a module** into a program whose entry unit evaluates the module body. -/
def SourceModule.compile (m : SourceModule) (settings : Settings) : Except Failure Program :=
  let ctx : Context := ⟨settings, m.types.toArray⟩
  let sub := Gen.Sub.of (Gen.genExpr ctx (Gen.nestingBound settings m.body))
  match (Gen.buildUnit ctx sub "main" 0 [] m.body).run {} with
  | .ok (entry, s) => .ok ⟨s.units, s.pool, ctx.types, entry⟩
  | .error e => .error e

end CountedMachine
