/-! # JSON values

A JSON value as it was written: the members of an object keep their order and their repetitions,
and a number keeps whether it was written as a whole number. A literal of the right shape that
stands for no value (a number beyond every float, text with an unpaired surrogate, a nesting
beyond the limit) is kept as `garbled`: it may stand where nobody reads it, and nowhere else. -/

namespace CountedMachine

/-- A number literal: `0 ≤ n`, `-n` with `0 < n`, or a float. -/
inductive Json.Number
  | natural (n : Nat)
  | negative (n : Nat)
  | real (x : Float)
  deriving Inhabited

/-- A JSON value. -/
inductive Json
  | null
  | bool (b : Bool)
  | number (n : Json.Number)
  | text (s : String)
  | array (items : List Json)
  | object (members : List (String × Json))
  | garbled
  deriving Inhabited

namespace Json

/-- The float nearest to a number literal. -/
def Number.toFloat : Number → Float
  | .natural n => n.toUInt64.toFloat
  | .negative n => -n.toUInt64.toFloat
  | .real x => x

mutual

/-- How deeply arrays and objects are nested in a value. -/
def depth : Json → Nat
  | .array items => depthItems items + 1
  | .object members => depthMembers members + 1
  | _ => 0

/-- The greatest depth among the items. -/
def depthItems : List Json → Nat
  | [] => 0
  | v :: rest => max (depth v) (depthItems rest)

/-- The greatest depth among the members. -/
def depthMembers : List (String × Json) → Nat
  | [] => 0
  | (_, v) :: rest => max (depth v) (depthMembers rest)

end

mutual

/-- No part of the value is garbled. -/
def sound : Json → Bool
  | .garbled => false
  | .array items => soundItems items
  | .object members => soundMembers members
  | _ => true

/-- No item has a garbled part. -/
def soundItems : List Json → Bool
  | [] => true
  | v :: rest => sound v && soundItems rest

/-- No member has a garbled part. -/
def soundMembers : List (String × Json) → Bool
  | [] => true
  | (_, v) :: rest => sound v && soundMembers rest

end

/-- The members of `ps` named `key`, in order. -/
def named (key : String) (ps : List (String × Json)) : List Json :=
  (ps.filter (·.1 == key)).map (·.2)

/-- The value last given to `key` in an object. -/
def member? (key : String) : Json → Option Json
  | .object ps => (named key ps).getLast?
  | _ => none

/-- A truth value. -/
def asBool? : Json → Option Bool
  | .bool b => some b
  | _ => none

/-- A text. -/
def asText? : Json → Option String
  | .text s => some s
  | _ => none

/-- A number, whole or not. -/
def asFloat? : Json → Option Float
  | .number n => some n.toFloat
  | _ => none

/-- A whole number below `bound`. -/
def asNatBelow? (bound : Nat) : Json → Option Nat
  | .number (.natural n) => if n < bound then some n else none
  | _ => none

/-- A list of values. -/
def asItems? : Json → Option (List Json)
  | .array items => some items
  | _ => none

end Json

end CountedMachine
