/-! # Expressions with resolved names

The programs of the machine: expressions in which every variable is an offset into the stack of
values bound so far (`0` is the most recent one) and every pattern names its types and field
positions. A `SourceModule` is a list of struct declarations and one expression to evaluate. -/

namespace CountedMachine

/-- A struct type: its name and the names of its fields. -/
structure StructType where
  name : String
  fields : List String
  deriving Repr, DecidableEq

/-- A place in a source text, attached to calls for the traces of errors. -/
structure Location where
  file : String
  line : Nat
  deriving Repr, DecidableEq

/-- A place as it is shown. -/
def Location.text (l : Location) : String := l.file ++ ":" ++ toString l.line

/-- A literal. `undefined` raises an error value with a tag. -/
inductive Literal
  | nil
  | bool (b : Bool)
  | num (x : Float)
  | str (s : String)
  | undefined (tag : String)

/-- The binary operators. -/
inductive Operator
  | add | sub | mul | div | mod
  | eq | ne
  | lt | le | gt | ge
  | cons
  deriving Repr, DecidableEq

namespace Operator

/-- The operators that compare by order. -/
def comparesOrder : Operator → Bool
  | .lt | .le | .gt | .ge => true
  | _ => false

/-- The operator as it is written in a listing. -/
def symbol : Operator → String
  | .add => "+"
  | .sub => "-"
  | .mul => "*"
  | .div => "/"
  | .mod => "%"
  | .eq => "=="
  | .ne => "!="
  | .lt => "<"
  | .le => "<="
  | .gt => ">"
  | .ge => ">="
  | .cons => "::"

end Operator

/-- The types a pattern can ask for. -/
inductive ObjType
  | cons
  | undefined
  | struct (id : Nat)
  deriving Repr, DecidableEq, Hashable

/-- A pattern: bind the value, ignore it, or unpack a value of a type field by field. -/
inductive Pattern
  | bind
  | ignore
  | unpack (ty : ObjType) (fields : List (Nat × Pattern))
  deriving Repr, Inhabited

/-- One binding of a `let`. -/
structure Binding (ε : Type) where
  value : ε
  mutable : Bool

/-- A function literal: the number of its parameters, the offsets of the variables it captures,
its body and its name, if it has one. -/
structure Lambda (ε : Type) where
  arity : Nat
  captures : List Nat
  body : ε
  name : Option String

/-- An expression.

* `apply`: the call returns early with an error value when `guard` holds.
* `letIn`, `fix`: without a body the bindings extend over the rest of the enclosing block.
* `matchWith`: without an alternative the match must succeed.
* `block`: with `keep` the bindings stay visible after the block.
* `ret` ends the function with a value, `yield` suspends it with one. -/
inductive Expr
  | lit (c : Literal)
  | var (offset : Nat) (mutable : Bool)
  | apply (callee : Expr) (args : List Expr) (guard : Bool) (loc : Option Location)
  | operate (op : Operator) (lhs rhs : Expr)
  | fn (lambda : Lambda Expr)
  | letIn (binds : List (Binding Expr)) (body : Option Expr)
  | fix (fns : List Expr) (body : Option Expr)
  | ite (test yes no : Expr)
  | matchWith (pattern : Pattern) (value yes : Expr) (no : Option Expr)
  | block (exprs : List Expr) (keep : Bool)
  | ret (value : Expr)
  | assign (offset : Nat) (value : Expr)
  | yield (value : Expr)
  | struct (ty : Nat) (fields : List Expr)

/-- A module: struct declarations and the expression to evaluate. -/
structure SourceModule where
  types : List StructType
  body : Expr

end CountedMachine
