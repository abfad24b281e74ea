import CountedMachine.Expr.Measure
import CountedMachine.Generation.Unit

/-! # Calls

The arguments are evaluated first, then the callee. When the callee is known to be a function
without captures that takes as many arguments, its body may take the place of the call; if it does
not, the call at least needs no check. A variable called in tail position is a tail call. -/

namespace CountedMachine.Gen

/-- The known function in a register, when it takes the given number of arguments. -/
def knownCallee (func : Reg) (nargs : Nat) : Gen (Option KnownFunction) := do
  let s ← get
  return (s.draft.known[func]?.bind fun i => s.functions[i]?).filter fun k => k.arity = nargs

/-- The body of a known function may take the place of a call, `depth` such bodies deep. A body that
may return or yield may not. -/
def mayInline (settings : Settings) (depth : Nat) (k : KnownFunction) : Bool :=
  settings.inlining && depth < settings.inlineLevels && k.body.size ≤ settings.inlineSize
    && !k.body.escapes

/-- Code for the body of a known function in place of a call, with its parameters bound to the
arguments. -/
def genInlined (ctx : Context) (sub : Sub) (body : Expr) (args : List Reg) (guard : Bool)
    (loc : Option Location) (tail : Bool) : Gen (Option Reg) := do
  let outer := (← draft).stack
  modifyDraft fun d => { d with
    stack := (args.map fun r => ⟨r, false⟩).reverse
    inlined := d.inlined + 1 }
  let out ← sub.expr body tail
  modifyDraft fun d => { d with stack := outer, inlined := d.inlined - 1 }
  match out with
  | some r => if guard && !tail then returnErrors ctx r loc
  | none => pure ()
  return out

/-- Push the arguments of a call. -/
def pushArgs : List Reg → Gen Unit
  | [] => pure ()
  | r :: rest => do
    write (.push r)
    pushArgs rest

/-- The expression is a variable. -/
def isVar : Expr → Bool
  | .var _ _ => true
  | _ => false

/-- A call at run time. -/
def genRuntimeCall (ctx : Context) (func : Reg) (args : List Reg) (checked guard tailCall : Bool)
    (loc : Option Location) : Gen (Option Reg) := do
  pushArgs args
  if tailCall then
    write (.tailCall func args.length)
    return none
  else
    let dst ← freshReg .temp none
    write (.call dst func args.length checked)
    if guard then returnErrors ctx dst loc
    return some dst

/-- **Code for a call.** -/
def genCall (ctx : Context) (sub : Sub) (callee : Expr) (args : List Expr) (guard : Bool)
    (loc : Option Location) (tail : Bool) : Gen (Option Reg) := do
  let regs ← args.mapM sub.value
  let func ← sub.value callee
  match ← knownCallee func regs.length with
  | some k =>
    if mayInline ctx.settings (← draft).inlined k then
      genInlined ctx sub k.body regs guard loc tail
    else genRuntimeCall ctx func regs false guard (tail && isVar callee) loc
  | none => genRuntimeCall ctx func regs true guard (tail && isVar callee) loc

end CountedMachine.Gen
