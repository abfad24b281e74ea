import CountedMachine.Expr.Basic

/-! # Measures of expressions

`Expr.size` counts nodes, `Expr.escapes` tells whether evaluating the expression may leave the
enclosing function, and `Pattern.depth` counts nested unpackings. -/

namespace CountedMachine

namespace Pattern

mutual

/-- How deeply unpackings are nested. -/
def depth : Pattern → Nat
  | .bind => 0
  | .ignore => 0
  | .unpack _ fields => 1 + depthFields fields

/-- The greatest depth among the fields. -/
def depthFields : List (Nat × Pattern) → Nat
  | [] => 0
  | (_, p) :: rest => max (depth p) (depthFields rest)

end

end Pattern

namespace Expr

mutual

/-- The number of nodes. -/
def size : Expr → Nat
  | .lit _ => 1
  | .var _ _ => 1
  | .apply callee args _ _ => 1 + (size callee + sizeList args)
  | .operate _ lhs rhs => 1 + (size lhs + size rhs)
  | .fn ⟨_, _, body, _⟩ => 1 + size body
  | .letIn binds body => 1 + (sizeBinds binds + sizeOption body)
  | .fix fns body => 1 + (sizeList fns + sizeOption body)
  | .ite test yes no => 1 + (size test + size yes + size no)
  | .matchWith _ value yes no => 1 + (size value + size yes + sizeOption no)
  | .block exprs _ => 1 + sizeList exprs
  | .ret value => 1 + size value
  | .assign _ value => 1 + size value
  | .yield value => 1 + size value
  | .struct _ fields => 1 + sizeList fields

/-- The number of nodes in a list of expressions. -/
def sizeList : List Expr → Nat
  | [] => 0
  | e :: rest => size e + sizeList rest

/-- The number of nodes in a list of bindings. -/
def sizeBinds : List (Binding Expr) → Nat
  | [] => 0
  | ⟨e, _⟩ :: rest => size e + sizeBinds rest

/-- The number of nodes of an expression that may be absent. -/
def sizeOption : Option Expr → Nat
  | none => 0
  | some e => size e

end

mutual

/-- Some node outside nested function literals returns or yields. -/
def escapes : Expr → Bool
  | .ret _ => true
  | .yield _ => true
  | .lit _ => false
  | .var _ _ => false
  | .fn _ => false
  | .apply callee args _ _ => escapes callee || escapesList args
  | .operate _ lhs rhs => escapes lhs || escapes rhs
  | .letIn binds body => escapesBinds binds || escapesOption body
  | .fix _ body => escapesOption body
  | .ite test yes no => escapes test || escapes yes || escapes no
  | .matchWith _ value yes no => escapes value || escapes yes || escapesOption no
  | .block exprs _ => escapesList exprs
  | .assign _ value => escapes value
  | .struct _ fields => escapesList fields

/-- Some expression of the list escapes. -/
def escapesList : List Expr → Bool
  | [] => false
  | e :: rest => escapes e || escapesList rest

/-- Some bound value escapes. -/
def escapesBinds : List (Binding Expr) → Bool
  | [] => false
  | ⟨e, _⟩ :: rest => escapes e || escapesBinds rest

/-- An expression that may be absent escapes. -/
def escapesOption : Option Expr → Bool
  | none => false
  | some e => escapes e

end

end Expr

end CountedMachine
