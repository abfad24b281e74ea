import CountedMachine.Expr.Encode
import CountedMachine.Json.Reader

/-! # Modules from JSON

Reading accepts a node without parts by its bare name or with `null` beside it. What has fields is an
object with a member for each field, or the list of the fields in the order of their declaration. Absent
fields that have a default are filled in, and members that are not known are ignored. A known member
given twice is refused, and so are a list with too many fields, and offsets and arities beyond 64 bits. -/

namespace CountedMachine

namespace Json

/-- The one value given to `key`. -/
def required (ps : List (String × Json)) (key : String) : Option Json :=
  match named key ps with
  | [v] => some v
  | _ => none

/-- The value given to `key`, read by `f`, or the default where there is none. -/
def defaulted {α : Type} (ps : List (String × Json)) (key : String) (default : α)
    (f : Json → Option α) : Option α :=
  match named key ps with
  | [] => some default
  | [v] => f v
  | _ => none

/-- A value that may be `null`. -/
def nullable {α : Type} (f : Json → Option α) : Json → Option (Option α)
  | .null => some none
  | v => (f v).map some

/-- The fields with the given names: the members of an object, or the items of a list, in the order of the
names. The last ones may be absent from a list. -/
def asFields? (names : List String) : Json → Option (List (String × Json))
  | .object ps => some ps
  | .array items => if items.length ≤ names.length then some (names.zip items) else none
  | _ => none

/-- The name of a node and what stands beside it. -/
def asNode? : Json → Option (String × Option Json)
  | .text s => some (s, none)
  | .object [(name, content)] => some (name, some content)
  | _ => none

/-- The name of a node without parts. -/
def asName? (v : Json) : Option String :=
  match v.asNode? with
  | some (name, none) => some name
  | some (name, some .null) => some name
  | _ => none

/-- An unsigned 32-bit number. -/
def asWord32? : Json → Option Nat := asNatBelow? 0x100000000

/-- An unsigned 64-bit number. -/
def asWord64? : Json → Option Nat := asNatBelow? 0x10000000000000000

/-- A list read item by item. -/
def asListOf? {α : Type} (f : Json → Option α) : Json → Option (List α)
  | .array items => items.mapM f
  | _ => none

end Json

/-- The operator with a given name. -/
def Operator.ofName? (name : String) : Option Operator :=
  [Operator.add, .sub, .mul, .div, .mod, .eq, .ne, .lt, .le, .gt, .ge, .cons].find? (·.name == name)

/-- Read a pattern's type. -/
def ObjType.ofJson? (v : Json) : Option ObjType :=
  match v.asNode? with
  | some ("Struct", some id) => id.asWord32?.map .struct
  | _ =>
    match v.asName? with
    | some "Cons" => some .cons
    | some "Undefined" => some .undefined
    | _ => none

/-- Read a literal. -/
def Literal.ofJson? (v : Json) : Option Literal :=
  match v.asNode? with
  | some ("Bool", some b) => b.asBool?.map .bool
  | some ("Num", some x) => x.asFloat?.map .num
  | some ("Str", some s) => s.asText?.map .str
  | some ("Undefined", some tag) => tag.asText?.map .undefined
  | _ => if v.asName? = some "Nil" then some .nil else none

/-- Read a place. -/
def Location.ofJson? (v : Json) : Option Location := do
  let ps ← v.asFields? ["file", "line"]
  let file ← (← Json.required ps "file").asText?
  let line ← (← Json.required ps "line").asWord32?
  some ⟨file, line⟩

namespace Pattern

/-- Read a field of a pattern, a pair of its position and its pattern. -/
def fieldOfJson? (sub : Json → Option Pattern) : Json → Option (Nat × Pattern)
  | .array [offset, p] => do some (← offset.asWord64?, ← sub p)
  | _ => none

/-- Read a pattern whose parts are read by `sub`. -/
def nodeOfJson? (sub : Json → Option Pattern) (v : Json) : Option Pattern :=
  match v.asNode? with
  | some ("Unpack", some content) => do
    let ps ← content.asFields? ["ty", "fields"]
    let ty ← ObjType.ofJson? (← Json.required ps "ty")
    let fields ← (← Json.required ps "fields").asListOf? (fieldOfJson? sub)
    some (.unpack ty fields)
  | _ =>
    match v.asName? with
    | some "Bind" => some .bind
    | some "Ignore" => some .ignore
    | _ => none

/-- Read a pattern of at most the given nesting. -/
def ofJsonWithin? : Nat → Json → Option Pattern
  | 0, _ => none
  | n + 1, v => nodeOfJson? (ofJsonWithin? n) v

/-- **Read a pattern.** -/
def ofJson? (v : Json) : Option Pattern := ofJsonWithin? (v.depth + 1) v

end Pattern

namespace Expr

/-- Read a binding. -/
def bindingOfJson? (sub : Json → Option Expr) (v : Json) : Option (Binding Expr) := do
  let ps ← v.asFields? ["value", "mutable"]
  let value ← sub (← Json.required ps "value")
  let mutable ← Json.defaulted ps "mutable" false Json.asBool?
  some ⟨value, mutable⟩

/-- Read a function literal. -/
def lambdaOfJson? (sub : Json → Option Expr) (v : Json) : Option (Lambda Expr) := do
  let ps ← v.asFields? ["arity", "captures", "body", "name"]
  let arity ← (← Json.required ps "arity").asWord64?
  let captures ← Json.defaulted ps "captures" [] (Json.asListOf? Json.asWord64?)
  let body ← sub (← Json.required ps "body")
  let name ← Json.defaulted ps "name" none (Json.nullable Json.asText?)
  some ⟨arity, captures, body, name⟩

/-- The fields of a node named `name`, in the order of their declaration. -/
def fieldNames (name : String) : List String :=
  match name with
  | "Var" => ["offset", "mutable"]
  | "Apply" => ["callee", "args", "guard", "loc"]
  | "Binop" => ["op", "lhs", "rhs"]
  | "Let" => ["binds", "body"]
  | "Fix" => ["fns", "body"]
  | "If" => ["test", "then", "else"]
  | "Match" => ["pattern", "value", "then", "else"]
  | "Block" => ["exprs", "keep"]
  | "SetRef" => ["offset", "value"]
  | "Struct" => ["ty", "fields"]
  | _ => []

/-- Read a node named `name` from its fields. -/
def fieldsOfJson? (sub : Json → Option Expr) (name : String) (ps : List (String × Json)) :
    Option Expr :=
  match name with
  | "Var" => do
    let offset ← (← Json.required ps "offset").asWord64?
    let mutable ← Json.defaulted ps "mutable" false Json.asBool?
    some (.var offset mutable)
  | "Apply" => do
    let callee ← sub (← Json.required ps "callee")
    let args ← (← Json.required ps "args").asListOf? sub
    let guard ← Json.defaulted ps "guard" true Json.asBool?
    let loc ← Json.defaulted ps "loc" none (Json.nullable Location.ofJson?)
    some (.apply callee args guard loc)
  | "Binop" => do
    let op ← Operator.ofName? (← (← Json.required ps "op").asName?)
    let lhs ← sub (← Json.required ps "lhs")
    let rhs ← sub (← Json.required ps "rhs")
    some (.operate op lhs rhs)
  | "Let" => do
    let binds ← (← Json.required ps "binds").asListOf? (bindingOfJson? sub)
    let body ← Json.defaulted ps "body" none (Json.nullable sub)
    some (.letIn binds body)
  | "Fix" => do
    let fns ← (← Json.required ps "fns").asListOf? sub
    let body ← Json.defaulted ps "body" none (Json.nullable sub)
    some (.fix fns body)
  | "If" => do
    let test ← sub (← Json.required ps "test")
    let yes ← sub (← Json.required ps "then")
    let no ← sub (← Json.required ps "else")
    some (.ite test yes no)
  | "Match" => do
    let pattern ← Pattern.ofJson? (← Json.required ps "pattern")
    let value ← sub (← Json.required ps "value")
    let yes ← sub (← Json.required ps "then")
    let no ← Json.defaulted ps "else" none (Json.nullable sub)
    some (.matchWith pattern value yes no)
  | "Block" => do
    let exprs ← (← Json.required ps "exprs").asListOf? sub
    let keep ← Json.defaulted ps "keep" false Json.asBool?
    some (.block exprs keep)
  | "SetRef" => do
    let offset ← (← Json.required ps "offset").asWord64?
    let value ← sub (← Json.required ps "value")
    some (.assign offset value)
  | "Struct" => do
    let ty ← (← Json.required ps "ty").asWord32?
    let fields ← (← Json.required ps "fields").asListOf? sub
    some (.struct ty fields)
  | _ => none

/-- Read an expression whose parts are read by `sub`. -/
def nodeOfJson? (sub : Json → Option Expr) (v : Json) : Option Expr :=
  match v with
  | .object [(name, content)] =>
    match name with
    | "Const" => (Literal.ofJson? content).map .lit
    | "Return" => (sub content).map .ret
    | "Yield" => (sub content).map .yield
    | "Fn" => (lambdaOfJson? sub content).map .fn
    | _ => (content.asFields? (fieldNames name)).bind (fieldsOfJson? sub name)
  | _ => none

/-- Read an expression of at most the given nesting. -/
def ofJsonWithin? : Nat → Json → Option Expr
  | 0, _ => none
  | n + 1, v => nodeOfJson? (ofJsonWithin? n) v

/-- **Read an expression.** -/
def ofJson? (v : Json) : Option Expr := ofJsonWithin? (v.depth + 1) v

end Expr

/-- Read a struct declaration. -/
def StructType.ofJson? (v : Json) : Option StructType := do
  let ps ← v.asFields? ["name", "fields"]
  let name ← (← Json.required ps "name").asText?
  let fields ← (← Json.required ps "fields").asListOf? Json.asText?
  some ⟨name, fields⟩

/-- **Read a module.** -/
def SourceModule.ofJson? (v : Json) : Option SourceModule := do
  let ps ← v.asFields? ["types", "body"]
  let types ← Json.defaulted ps "types" [] (Json.asListOf? StructType.ofJson?)
  let body ← Expr.ofJson? (← Json.required ps "body")
  some ⟨types, body⟩

/-- Text may nest arrays and objects this deep. -/
def SourceModule.nestingLimit : Nat := 127

/-- **Read a module from text.** -/
def SourceModule.read? (s : String) : Option SourceModule := do
  ofJson? (← Json.read? (some nestingLimit) s)

end CountedMachine
