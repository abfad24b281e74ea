import CountedMachine.Fault

/-! # Settings and refusals

The choices a caller can make, and what code generation refuses. It fails in one of two ways: the
module is refused, for one of six reasons, or a fault of the listing or of the ownership analysis
ends it. -/

namespace CountedMachine

/-- The choices for code generation: put known functions of at most `inlineSize` nodes in place of
their calls, nested at most `inlineLevels` deep; record the places errors come through; tidy every
unit; audit the ownership of every unit. -/
structure Settings where
  inlining : Bool := true
  inlineSize : Nat := 64
  inlineLevels : Nat := 4
  traces : Bool := true
  tidy : Bool := true
  verify : Bool := true
  deriving Repr, DecidableEq

/-- Why a module is refused. -/
inductive Refusal
  | unboundOffset (offset depth : Nat)
  | immutableBinding (offset : Nat)
  | undeclaredStruct (ty : Nat)
  | wrongFieldCount (ty expected got : Nat)
  | noSuchField (ty : String) (field : Nat)
  | notAFunctionLiteral (index : Nat)
  deriving Repr, DecidableEq

/-- A refusal in words. -/
def Refusal.message : Refusal → String
  | .unboundOffset offset depth => s!"variable offset {offset} out of range (stack depth {depth})"
  | .immutableBinding offset => s!"binding at offset {offset} is not mutable"
  | .undeclaredStruct ty => s!"unknown struct type #{ty}"
  | .wrongFieldCount ty expected got => s!"struct #{ty} expects {expected} fields, got {got}"
  | .noSuchField ty field => s!"field offset {field} out of range for {ty}"
  | .notAFunctionLiteral index => s!"fix binding {index} is not a function literal"

/-- Why there is no program. -/
inductive Failure
  | refused (e : Refusal)
  | fault (f : Fault)
  deriving Repr, DecidableEq

end CountedMachine
