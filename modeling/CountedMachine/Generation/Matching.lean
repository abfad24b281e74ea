import CountedMachine.Expr.Measure
import CountedMachine.Generation.Draft

/-! # Matching patterns

Code for a match is generated in one of five ways, by what is known about the value:

* without an alternative the match cannot fail: a guard asserts the type, the fields are bound;
* a value known to fit needs no test, one known not to fit only the alternative;
* a pattern of one level is one test and one branch;
* a nested pattern opens a branch for every level and closes them all where it fails. In tail
  position the alternative follows there; otherwise a flag says whether it is to run.

How sub-expressions are generated is a parameter. -/

namespace CountedMachine

/-- What the type of a value says about a pattern. -/
inductive Forecast
  | fits
  | fails
  | undecided
  deriving Repr, DecidableEq

/-- The forecast for a pattern and a value of type `type`. -/
def Forecast.of (type : Option StaticType) : Pattern → Forecast
  | .bind => .fits
  | .ignore => .fits
  | .unpack want fields =>
    match type with
    | none => .undecided
    | some t =>
      if t = .obj want then if fields.all fun f => f.2.depth = 0 then .fits else .undecided
      else .fails

namespace ObjType

/-- The name of a type in a refusal. -/
def nameIn (types : Array StructType) : ObjType → Except Failure String
  | .cons => .ok "cons"
  | .undefined => .ok "undefined"
  | .struct id =>
    match types[id]? with
    | some d => .ok d.name
    | none => .error (.fault .outOfBounds)

/-- The number of fields of a type. -/
def width (types : Array StructType) : ObjType → Except Failure Nat
  | .cons => .ok 2
  | .undefined => .ok 1
  | .struct id =>
    match types[id]? with
    | some d => .ok d.fields.length
    | none => .error (.refused (.undeclaredStruct id))

end ObjType

namespace Pattern

mutual

/-- A pattern names declared types and fields they have. -/
def validate (types : Array StructType) : Pattern → Except Failure Unit
  | .bind => .ok ()
  | .ignore => .ok ()
  | .unpack ty fields => do validateFields types ty (← ty.width types) fields

/-- The fields of a pattern exist and their patterns are in order. -/
def validateFields (types : Array StructType) (ty : ObjType) (width : Nat) :
    List (Nat × Pattern) → Except Failure Unit
  | [] => .ok ()
  | (offset, p) :: rest => do
    if width ≤ offset then throw (.refused (.noSuchField (← ty.nameIn types) offset))
    validate types p
    validateFields types ty width rest

end

/-- The pattern binds nothing and asks nothing. -/
def isIgnore : Pattern → Bool
  | .ignore => true
  | _ => false

end Pattern

namespace Gen

/-- Refuse a pattern that is not in order. -/
def validatePattern (ctx : Context) (p : Pattern) : Gen Unit :=
  match p.validate ctx.types with
  | .ok _ => pure ()
  | .error e => throw e

/-- Load a field of a value of a type. The only field of an error value is its tag. -/
def readField (src : Reg) (ty : ObjType) (idx : Nat) : Gen Reg := do
  let dst ← freshReg .temp (if ty = .undefined then some .str else none)
  write (.field dst src idx)
  return dst

mutual

/-- Bind a pattern that must match; a value of another type ends the program. -/
def bindWhole (ctx : Context) (v : Reg) : Pattern → Gen Unit
  | .bind => bindReg v
  | .ignore => pure ()
  | .unpack ty fields => do
    validatePattern ctx (.unpack ty fields)
    if (← knownType v) ≠ some (.obj ty) then write (.guard v ty)
    bindParts ctx v ty fields

/-- Load and bind the fields of a value of a type, one after the other. -/
def bindParts (ctx : Context) (v : Reg) (ty : ObjType) : List (Nat × Pattern) → Gen Unit
  | [] => pure ()
  | (offset, p) :: rest => do
    if !p.isIgnore then
      let f ← readField v ty offset
      bindWhole ctx f p
    bindParts ctx v ty rest

end

/-- Test the type of a value, and open a branch on the outcome. -/
def openTest (v : Reg) (ty : ObjType) : Gen Branch := do
  let t ← freshReg .flag none
  write (.testType t v ty)
  openBranch t

mutual

/-- Test and take apart a value level by level. Every level that needs a test leaves a branch open;
the branches are returned in the order in which they were opened. -/
def descend (v : Reg) : Pattern → Gen (List Branch)
  | .bind => do
    bindReg v
    return []
  | .ignore => return []
  | .unpack ty fields => do
    let level ← if (← knownType v) ≠ some (.obj ty) then (fun b => [b]) <$> openTest v ty
      else pure []
    return level ++ (← descendParts v ty fields)

/-- Load and take apart the fields of a value of a type. -/
def descendParts (v : Reg) (ty : ObjType) : List (Nat × Pattern) → Gen (List Branch)
  | [] => return []
  | (offset, p) :: rest => do
    let levels ← if p.isIgnore then pure [] else do
      let f ← readField v ty offset
      descend f p
    return levels ++ (← descendParts v ty rest)

end

/-- Close the branches of a nested pattern, the innermost first. -/
def ascend : List Branch → Gen Unit
  | [] => pure ()
  | branch :: outer => do
    closeBranch branch none
    ascend outer

/-- How code for sub-expressions is generated: with a register for the value unless the code ends
the unit, always with a register, or as the last thing the unit does. -/
structure Sub where
  expr : Expr → Bool → Gen (Option Reg)
  value : Expr → Gen Reg
  tail : Expr → Gen Unit

/-- The register that merges the values of two arms; in tail position there is none. -/
def mergeReg (tail : Bool) : Gen (Option Reg) :=
  if tail then pure none else some <$> freshReg .merged none

/-- Code for an arm, whose value is moved into the merge register; without one, as a tail. What is
bound above the height is forgotten after it. -/
def genArm (sub : Sub) (body : Expr) (merged : Option Reg) (n : Nat) : Gen (Option Reg) := do
  match merged with
  | some dst =>
    let src ← sub.value body
    write (.move dst src)
    forgetAbove n
    return some src
  | none =>
    sub.tail body
    forgetAbove n
    return none

/-- Code for the two arms of an open branch. -/
def genArms (sub : Sub) (branch : Branch) (merged : Option Reg) (n : Nat) (yes no : Expr) :
    Gen (Option Reg) := do
  let x ← genArm sub yes merged n
  let branch ← beginElse branch
  let y ← genArm sub no merged n
  meet branch merged
  match merged, x, y with
  | some merged, some x, some y => agree merged x y
  | _, _, _ => pure ()
  return merged

/-- A match that is certain to fit. -/
def genFitting (ctx : Context) (sub : Sub) (v : Reg) (p : Pattern) (yes : Expr) (tail : Bool) :
    Gen (Option Reg) := do
  let n ← height
  bindWhole ctx v p
  let out ← sub.expr yes tail
  forgetAbove n
  return out

/-- A match of one level: one test and one branch. -/
def genOneLevel (ctx : Context) (sub : Sub) (v : Reg) (p : Pattern) (yes no : Expr) (tail : Bool) :
    Gen (Option Reg) := do
  match p with
  | .unpack ty fields =>
    validatePattern ctx (.unpack ty fields)
    let n ← height
    let branch ← openTest v ty
    let merged ← mergeReg tail
    bindParts ctx v ty fields
    genArms sub branch merged n yes no
  | _ => throw (.fault .irrefutable)

/-- A nested match in tail position: the alternative follows where the levels are closed. -/
def genLevelsTail (sub : Sub) (v : Reg) (p : Pattern) (yes no : Expr) : Gen (Option Reg) := do
  let n ← height
  let levels ← descend v p
  sub.tail yes
  forgetAbove n
  ascend levels.reverse
  sub.tail no
  return none

/-- The value of a nested match where the pattern fits; then the flag is cleared. -/
def genMatched (sub : Sub) (v : Reg) (p : Pattern) (unmatched merged : Reg) (n : Nat) (yes : Expr) :
    Gen Reg := do
  let levels ← descend v p
  write (.flag unmatched false)
  let x ← sub.value yes
  write (.move merged x)
  forgetAbove n
  ascend levels.reverse
  return x

/-- The value of a nested match where the flag is still set. -/
def genUnmatched (sub : Sub) (unmatched merged : Reg) (n : Nat) (no : Expr) : Gen Reg := do
  let branch ← openBranch unmatched
  let y ← sub.value no
  write (.move merged y)
  forgetAbove n
  closeBranch branch (some merged)
  return y

/-- A nested match whose value is used: a flag says whether the alternative is to run. -/
def genLevelsValue (sub : Sub) (v : Reg) (p : Pattern) (yes no : Expr) : Gen (Option Reg) := do
  let n ← height
  let unmatched ← freshReg .flag none
  write (.flag unmatched true)
  let merged ← freshReg .merged none
  let x ← genMatched sub v p unmatched merged n yes
  let y ← genUnmatched sub unmatched merged n no
  agree merged x y
  return some merged

/-- A nested match. -/
def genLevels (ctx : Context) (sub : Sub) (v : Reg) (p : Pattern) (yes no : Expr) (tail : Bool) :
    Gen (Option Reg) := do
  validatePattern ctx p
  if tail then genLevelsTail sub v p yes no else genLevelsValue sub v p yes no

/-- A match with an alternative. -/
def genAlternatives (ctx : Context) (sub : Sub) (v : Reg) (p : Pattern) (yes no : Expr)
    (tail : Bool) : Gen (Option Reg) := do
  match Forecast.of (← knownType v) p with
  | .fits => genFitting ctx sub v p yes tail
  | .fails =>
    validatePattern ctx p
    sub.expr no tail
  | .undecided =>
    if p.depth ≤ 1 then genOneLevel ctx sub v p yes no tail
    else genLevels ctx sub v p yes no tail

/-- **Code for a match.** -/
def genMatch (ctx : Context) (sub : Sub) (p : Pattern) (e yes : Expr) (no : Option Expr)
    (tail : Bool) : Gen (Option Reg) := do
  let v ← sub.value e
  match no with
  | none => genFitting ctx sub v p yes tail
  | some no => genAlternatives ctx sub v p yes no tail

end Gen

end CountedMachine
