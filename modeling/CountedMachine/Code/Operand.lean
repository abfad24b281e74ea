import CountedMachine.Expr.Basic

/-! # Operands

What instructions speak about: registers, nodes of a listing, code units and constants, each a
numbered name, and what is known about a register while code is generated: its role and, where it
is fixed, the type of the value in it. -/

namespace CountedMachine

/-- A virtual register. -/
structure Reg where
  index : Nat
  deriving Repr, DecidableEq, Hashable, Inhabited

/-- A node of a listing, and so a label while code is generated. -/
structure NodeId where
  index : Nat
  deriving Repr, DecidableEq, Hashable, Inhabited

/-- A code unit of a program. -/
structure UnitId where
  index : Nat
  deriving Repr, DecidableEq, Hashable, Inhabited

/-- An entry of the constant pool. -/
structure ConstId where
  index : Nat
  deriving Repr, DecidableEq, Hashable, Inhabited

/-- A register as it is shown. -/
def Reg.text (r : Reg) : String := "r" ++ toString r.index

/-- A node as it is shown. -/
def NodeId.text (n : NodeId) : String := "@" ++ toString n.index

/-- The role of a register: an intermediate value, a parameter, a value loaded from the captures,
the merge of two arms, or a truth value. -/
inductive RegRole
  | temp
  | param
  | captured
  | merged
  | flag
  deriving Repr, DecidableEq

/-- A type known while code is generated. -/
inductive StaticType
  | nil
  | bool
  | num
  | str
  | fn
  | cell
  | obj (ty : ObjType)
  deriving Repr, DecidableEq, Hashable

namespace StaticType

/-- Values of this type carry no reference count. -/
def isUncounted : StaticType → Bool
  | .nil | .bool | .num => true
  | _ => false

/-- Values of this type are not the undefined value. -/
def neverUndefined (t : StaticType) : Bool := t ≠ .obj .undefined

end StaticType

/-- What is known about a register. -/
structure RegFacts where
  role : RegRole
  type : Option StaticType
  deriving Repr, DecidableEq

namespace RegFacts

/-- The register's ownership is managed: it is no flag and not known to be immediate. -/
def counted (f : RegFacts) : Bool :=
  f.role ≠ .flag && !(f.type.any StaticType.isUncounted)

/-- The register holds a reference of its own as soon as it exists. -/
def bornOwned (f : RegFacts) : Bool := f.role = .merged

end RegFacts

/-- The four ownership operations: take a reference, give one up without freeing, free what nobody
owns, give one up and free what nobody owns then. -/
inductive CountOp
  | inc
  | dec
  | drop
  | unref
  deriving Repr, DecidableEq, Hashable

/-- The mnemonic of an ownership operation. -/
def CountOp.mnemonic : CountOp → String
  | .inc => "INC"
  | .dec => "DEC"
  | .drop => "DROP"
  | .unref => "UNREF"

/-- A pattern's type as it stands in a listing. -/
def ObjType.text : ObjType → String
  | .cons => "cons"
  | .undefined => "undefined"
  | .struct id => "struct#" ++ toString id

/-- A pattern's type as a failed guard names it. -/
def ObjType.describe : ObjType → String
  | .cons => "Cons"
  | .undefined => "Undefined"
  | .struct id => "Struct(" ++ toString id ++ ")"

end CountedMachine
