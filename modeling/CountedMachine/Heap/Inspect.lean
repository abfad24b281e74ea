import CountedMachine.Code.Printer
import CountedMachine.Decimal.Positional
import CountedMachine.Heap.Basic
import CountedMachine.Text.Quoted

/-! # Looking at values

Equality of values is structural on texts, pairs and structs, and identity on all other objects;
numbers are equal as numbers. Rendering shows a value as text, with structs by their declared
names. Both go no deeper than the heap has slots, which is enough for values without cycles. -/

namespace CountedMachine.Heap

/-- Equality of values of which not both are objects. -/
def sameImmediate : Value → Value → Bool
  | .nil, .nil => true
  | .bool a, .bool b => a == b
  | .num x, .num y => x == y
  | _, _ => false

/-- All pairs satisfy a test, which is applied until it fails. -/
def allPairs (test : Value → Value → Except Fault Bool) :
    List Value → List Value → Except Fault Bool
  | a :: as, b :: bs => do if ← test a b then allPairs test as bs else return false
  | _, _ => .ok true

/-- Equality of values nested at most `fuel` deep. -/
def equalWithin (h : Heap) : Nat → Value → Value → Except Fault Bool
  | 0, _, _ => .error .exhausted
  | fuel + 1, .obj x, .obj y =>
    if x = y then .ok true
    else do
      match ← h.get x, ← h.get y with
      | .str s, .str t => return s == t
      | .cons a b, .cons c d =>
        if ← equalWithin h fuel a c then equalWithin h fuel b d else return false
      | .struct t fs, .struct u gs =>
        if t = u && fs.length = gs.length then allPairs (equalWithin h fuel) fs gs
        else return false
      | _, _ => return false
  | _ + 1, a, b => .ok (sameImmediate a b)

/-- **Equality of values.** -/
def equal (h : Heap) (a b : Value) : Except Fault Bool := h.equalWithin (h.slots.size + 1) a b

/-- The name of a struct type, `struct` where it is not declared. -/
def structName (types : Array StructType) (ty : Nat) : String :=
  match types[ty]? with
  | some d => d.name
  | none => "struct"

/-- A place an error value came through. -/
def traceLine (l : Location) : String := "\n  at " ++ l.text

/-- The text of a value nested at most `fuel` deep. -/
def displayWithin (h : Heap) (types : Array StructType) : Nat → Value → Except Fault String
  | 0, _ => .error .exhausted
  | _ + 1, .nil => .ok "nil"
  | _ + 1, .bool b => .ok (boolText b)
  | _ + 1, .num x => .ok (Decimal.text x)
  | fuel + 1, .obj r => do
    match ← h.get r with
    | .str s => return Text.quote s
    | .cons a b =>
      return "(" ++ (← displayWithin h types fuel a) ++ " . "
        ++ (← displayWithin h types fuel b) ++ ")"
    | .struct ty fields =>
      let parts ← fields.mapM (displayWithin h types fuel)
      return structName types ty ++ "(" ++ String.intercalate ", " parts ++ ")"
    | .cell v => return "ref " ++ (← displayWithin h types fuel v)
    | .closure c => return s!"<fn unit{c.unit.index}>"
    | .undefined tag trace =>
      return "undefined(" ++ tag ++ ")" ++ String.join (trace.map traceLine)

/-- **The text of a value.** -/
def display (h : Heap) (types : Array StructType) (v : Value) : Except Fault String :=
  h.displayWithin types (h.slots.size + 1) v

end CountedMachine.Heap
