import CountedMachine.Expr.Basic
import CountedMachine.Json.Basic

/-! # Modules as JSON

Every kind of node is an object with one member named for it; a node without parts is its bare
name. Every field is written, an absent part as `null`. -/

namespace CountedMachine

/-- The object with one member. -/
def Json.tagged (name : String) (content : Json) : Json := .object [(name, content)]

/-- A whole number. -/
def Json.ofNat (n : Nat) : Json := .number (.natural n)

/-- A text that may be absent. -/
def Json.ofTextOption : Option String → Json
  | none => .null
  | some s => .text s

/-- The name of an operator in JSON. -/
def Operator.name : Operator → String
  | .add => "Add"
  | .sub => "Sub"
  | .mul => "Mul"
  | .div => "Div"
  | .mod => "Mod"
  | .eq => "Eq"
  | .ne => "Ne"
  | .lt => "Lt"
  | .le => "Le"
  | .gt => "Gt"
  | .ge => "Ge"
  | .cons => "Cons"

/-- A pattern's type as JSON. -/
def ObjType.toJson : ObjType → Json
  | .cons => .text "Cons"
  | .undefined => .text "Undefined"
  | .struct id => .tagged "Struct" (.ofNat id)

/-- A literal as JSON. -/
def Literal.toJson : Literal → Json
  | .nil => .text "Nil"
  | .bool b => .tagged "Bool" (.bool b)
  | .num x => .tagged "Num" (.number (.real x))
  | .str s => .tagged "Str" (.text s)
  | .undefined tag => .tagged "Undefined" (.text tag)

/-- A place that may be absent, as JSON. -/
def Location.toJson : Option Location → Json
  | none => .null
  | some l => .object [("file", .text l.file), ("line", .ofNat l.line)]

namespace Pattern

mutual

/-- A pattern as JSON. -/
def toJson : Pattern → Json
  | .bind => .text "Bind"
  | .ignore => .text "Ignore"
  | .unpack ty fields =>
    .tagged "Unpack" (.object [("ty", ty.toJson), ("fields", .array (fieldsToJson fields))])

/-- The fields of a pattern, each as a pair of its position and its pattern. -/
def fieldsToJson : List (Nat × Pattern) → List Json
  | [] => []
  | (offset, p) :: rest => .array [.ofNat offset, toJson p] :: fieldsToJson rest

end

end Pattern

namespace Expr

mutual

/-- An expression as JSON. -/
def toJson : Expr → Json
  | .lit c => .tagged "Const" c.toJson
  | .var offset mutable =>
    .tagged "Var" (.object [("offset", .ofNat offset), ("mutable", .bool mutable)])
  | .apply callee args guard loc =>
    .tagged "Apply" (.object [("callee", toJson callee), ("args", .array (listToJson args)),
      ("guard", .bool guard), ("loc", Location.toJson loc)])
  | .operate op lhs rhs =>
    .tagged "Binop" (.object [("op", .text op.name), ("lhs", toJson lhs), ("rhs", toJson rhs)])
  | .fn ⟨arity, captures, body, name⟩ =>
    .tagged "Fn" (.object [("arity", .ofNat arity), ("captures", .array (captures.map .ofNat)),
      ("body", toJson body), ("name", .ofTextOption name)])
  | .letIn binds body =>
    .tagged "Let" (.object [("binds", .array (bindsToJson binds)), ("body", optionToJson body)])
  | .fix fns body =>
    .tagged "Fix" (.object [("fns", .array (listToJson fns)), ("body", optionToJson body)])
  | .ite test yes no =>
    .tagged "If" (.object [("test", toJson test), ("then", toJson yes), ("else", toJson no)])
  | .matchWith pattern value yes no =>
    .tagged "Match" (.object [("pattern", pattern.toJson), ("value", toJson value),
      ("then", toJson yes), ("else", optionToJson no)])
  | .block exprs keep =>
    .tagged "Block" (.object [("exprs", .array (listToJson exprs)), ("keep", .bool keep)])
  | .ret value => .tagged "Return" (toJson value)
  | .assign offset value =>
    .tagged "SetRef" (.object [("offset", .ofNat offset), ("value", toJson value)])
  | .yield value => .tagged "Yield" (toJson value)
  | .struct ty fields =>
    .tagged "Struct" (.object [("ty", .ofNat ty), ("fields", .array (listToJson fields))])

/-- A list of expressions as JSON. -/
def listToJson : List Expr → List Json
  | [] => []
  | e :: rest => toJson e :: listToJson rest

/-- A list of bindings as JSON. -/
def bindsToJson : List (Binding Expr) → List Json
  | [] => []
  | ⟨value, mutable⟩ :: rest =>
    .object [("value", toJson value), ("mutable", .bool mutable)] :: bindsToJson rest

/-- An expression that may be absent, as JSON. -/
def optionToJson : Option Expr → Json
  | none => .null
  | some e => toJson e

end

end Expr

/-- A struct declaration as JSON. -/
def StructType.toJson (d : StructType) : Json :=
  .object [("name", .text d.name), ("fields", .array (d.fields.map .text))]

/-- **A module as JSON.** -/
def SourceModule.toJson (m : SourceModule) : Json :=
  .object [("types", .array (m.types.map StructType.toJson)), ("body", m.body.toJson)]

end CountedMachine
