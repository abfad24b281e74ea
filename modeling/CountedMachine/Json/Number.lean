import CountedMachine.Json.Basic

/-! # Reading a number literal

A literal is an optional minus, a whole part without leading zeros, an optional fraction and an
optional exponent. The digits are gathered into a 64-bit significand; once a further digit would
not fit, the rest of the whole part only counts towards the decimal exponent and the rest of the
fraction is dropped. The value is the significand, rounded to a float, times or divided by a
power of ten, so it may miss the nearest float by a unit in the last place. A literal
without fraction and exponent that fits 64 bits stays a whole number. -/

namespace CountedMachine.Json

/-- A number literal in the making: 64 bits of significand and a decimal exponent. -/
structure Gathered where
  significand : Nat := 0
  exponent : Int := 0
  full : Bool := false
  deriving Repr, DecidableEq

/-- The largest 64-bit word. -/
def wordMax : Nat := 0xffffffffffffffff

/-- The largest decimal exponent that is told apart. -/
def exponentMax : Nat := 0x7fffffff

/-- The value of a decimal digit. -/
def digitValue (c : Char) : Nat := c.toNat - '0'.toNat

/-- Take in one more digit of the whole part. -/
def Gathered.whole (g : Gathered) (c : Char) : Gathered :=
  if g.full || wordMax < g.significand * 10 + digitValue c then
    { g with exponent := g.exponent + 1, full := true }
  else { g with significand := g.significand * 10 + digitValue c }

/-- Take in one more digit of the fraction. -/
def Gathered.fraction (g : Gathered) (c : Char) : Gathered :=
  if g.full || wordMax < g.significand * 10 + digitValue c then { g with full := true }
  else { g with significand := g.significand * 10 + digitValue c, exponent := g.exponent - 1 }

/-- The digits at the front and what follows them. -/
def digits (cs : List Char) : List Char × List Char :=
  (cs.takeWhile Char.isDigit, cs.dropWhile Char.isDigit)

/-- The float `10 ^ n`. -/
def powerOfTen (n : Nat) : Float := Float.ofScientific 1 false n

/-- Divide by ever smaller powers of ten until the exponent is within `-308 … 308`; `none` where
the number exceeds every float. -/
def scale : Nat → Float → Int → Option Float
  | 0, x, _ => some x
  | fuel + 1, x, e =>
    if e.natAbs ≤ 308 then
      if 0 ≤ e then
        let y := x * powerOfTen e.natAbs
        if y.isInf then none else some y
      else some (x / powerOfTen e.natAbs)
    else if x == 0.0 then some x
    else if 0 ≤ e then none
    else scale fuel (x / powerOfTen 308) (e + 308)

/-- Bring an exponent into the range of 32-bit words. -/
def saturate (e : Int) : Int := max (-0x80000000) (min 0x7fffffff e)

/-- The float a significand and an exponent stand for. The divisions underflow to zero after a few
rounds, so six of them decide every exponent. -/
def Gathered.value? (g : Gathered) : Option Float :=
  scale 6 g.significand.toUInt64.toFloat g.exponent

/-- The outcome of reading a literal: its value, or `none` for one beyond every float. -/
abbrev Reading := Option Number

/-- A float with its sign. -/
def signed (minus : Bool) (x : Float) : Float := if minus then -x else x

/-- The value of a literal with a fraction or an exponent. -/
def Gathered.real (g : Gathered) (minus : Bool) : Reading :=
  g.value?.map fun x => .real (signed minus x)

/-- The value of a literal without fraction and exponent. -/
def Gathered.integer (g : Gathered) (minus : Bool) : Reading :=
  if g.full then g.real minus
  else if !minus then some (.natural g.significand)
  else if g.significand = 0 || 0x8000000000000000 < g.significand then
    some (.real (-g.significand.toUInt64.toFloat))
  else some (.negative g.significand)

/-- The value of a literal whose exponent digits are `es`. An exponent too large to be told apart
makes zero of a zero significand and of a negative exponent, and is refused otherwise. -/
def Gathered.withExponent (g : Gathered) (minus down : Bool) (es : List Char) : Reading :=
  let e := es.foldl (fun n c => n * 10 + digitValue c) 0
  if exponentMax < e then
    if g.significand ≠ 0 && !down then none else some (.real (signed minus 0.0))
  else
    { g with exponent := saturate (if down then g.exponent - e else g.exponent + e) }.real minus

/-- Read the exponent part, if there is one; `plain` is the value without it. -/
def readExponent (g : Gathered) (minus : Bool) (plain : Reading) :
    List Char → Option (Reading × List Char)
  | c :: rest =>
    if c = 'e' || c = 'E' then
      let (down, body) := match rest with
        | '-' :: body => (true, body)
        | '+' :: body => (false, body)
        | body => (false, body)
      match digits body with
      | ([], _) => none
      | (es, rest) => some (g.withExponent minus down es, rest)
    else some (plain, c :: rest)
  | [] => some (plain, [])

/-- Read the fraction, if there is one, and then the exponent. -/
def readFraction (g : Gathered) (minus : Bool) : List Char → Option (Reading × List Char)
  | '.' :: rest =>
    match digits rest with
    | ([], _) => none
    | (fs, rest) =>
      let g := fs.foldl Gathered.fraction { g with full := false }
      readExponent g minus (g.real minus) rest
  | rest => readExponent g minus (g.integer minus) rest

/-- Read a literal after its sign: a lone zero or digits that start with another one. -/
def readMagnitude (minus : Bool) (cs : List Char) : Option (Reading × List Char) :=
  match digits cs with
  | ([], _) => none
  | (['0'], rest) => readFraction {} minus rest
  | ('0' :: _, _) => none
  | (ds, rest) => readFraction (ds.foldl Gathered.whole {}) minus rest

/-- **Read a number literal**, giving its value and what follows it. -/
def readNumber : List Char → Option (Reading × List Char)
  | '-' :: rest => readMagnitude true rest
  | cs => readMagnitude false cs

end CountedMachine.Json
