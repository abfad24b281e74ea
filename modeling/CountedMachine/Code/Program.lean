import CountedMachine.Code.Printer
import CountedMachine.Decimal.Positional
import CountedMachine.Text.Quoted

/-! # Programs

A program is a list of finished code units, a pool of constants, the struct declarations and the
unit to start with. `Program.text` shows it. -/

namespace CountedMachine

/-- An entry of the constant pool. A closure names a unit without captures. -/
inductive Constant
  | nil
  | bool (b : Bool)
  | num (x : Float)
  | str (s : String)
  | undefined (tag : String)
  | closure (unit : UnitId)

namespace Constant

/-- Two constants are interchangeable; numbers are compared as numbers. -/
def same : Constant → Constant → Bool
  | .nil, .nil => true
  | .bool a, .bool b => a == b
  | .num x, .num y => x == y
  | .str s, .str t => s == t
  | .undefined s, .undefined t => s == t
  | .closure u, .closure v => u == v
  | _, _ => false

/-- A constant as it is shown. -/
def text : Constant → String
  | .nil => "nil"
  | .bool b => boolText b
  | .num x => Decimal.text x
  | .str s => Text.quote s
  | .undefined tag => "undefined(" ++ tag ++ ")"
  | .closure unit => s!"<fn unit{unit.index}>"

/-- The type of a constant. -/
def type : Constant → StaticType
  | .nil => .nil
  | .bool _ => .bool
  | .num _ => .num
  | .str _ => .str
  | .undefined _ => .obj .undefined
  | .closure _ => .fn

/-- The constant is nil. -/
def isNil : Constant → Bool
  | .nil => true
  | _ => false

end Constant

/-- A finished code unit. -/
structure CodeUnit where
  name : String
  arity : Nat
  ncaps : Nat
  nregs : Nat
  code : Array (Instr Nat)

/-- A finished program. -/
structure Program where
  units : Array CodeUnit
  consts : Array Constant
  types : Array StructType
  entry : UnitId

namespace Program

/-- The lines of the constant pool. -/
def constLines (p : Program) : List String :=
  if p.consts.isEmpty then []
  else "constants:\n" :: p.consts.toList.mapIdx fun i k => s!"  k{i} = {k.text}\n"

/-- The mark of the unit to start with. -/
def entryMark (p : Program) (i : Nat) : String := if p.entry = ⟨i⟩ then " (entry)" else ""

/-- The lines of a unit. -/
def unitLines (p : Program) (i : Nat) (u : CodeUnit) : List String :=
  s!"unit{i} {u.name}{p.entryMark i}: arity={u.arity} caps={u.ncaps} regs={u.nregs}\n"
    :: u.code.toList.mapIdx fun pc instr =>
      "  " ++ padLeft 4 (toString pc) ++ "  " ++ instr.text toString ++ "\n"

/-- **A program as text.** -/
def text (p : Program) : String :=
  String.join (p.constLines ++ (p.units.toList.mapIdx p.unitLines).flatten)

end Program

end CountedMachine
