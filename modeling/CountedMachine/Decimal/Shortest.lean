/-! # The shortest decimal that reads back

A positive binary float is `m * 2 ^ q`. The reals that round to it form an interval around it,
whose ends belong to it when `m` is even. Of all decimals `n * 10 ^ i` in this interval,
`shortest` finds one with the largest `i`, hence with the fewest digits, and among those the one
nearest to the float; an exact tie goes up.

All comparisons are made on a common denominator, in exact natural-number arithmetic. -/

namespace CountedMachine.Decimal

/-- A positive number `significand * 2 ^ exponent` with the grid step below it:
`narrow` says that the next smaller float is only half a step away. -/
structure Magnitude where
  significand : Nat
  exponent : Int
  narrow : Bool
  deriving Repr, DecidableEq

/-- A magnitude and the ends of its rounding interval, as integers over the common
denominator `den`. -/
structure RoundingRange where
  low : Nat
  value : Nat
  high : Nat
  den : Nat
  closed : Bool
  deriving Repr, DecidableEq

/-- The reals that round to `d`: half a step up, half a step down (a quarter of one when the next
smaller float is nearer). -/
def Magnitude.interval (d : Magnitude) : RoundingRange :=
  let up := Nat.pow 2 d.exponent.toNat
  let den := 4 * Nat.pow 2 (-d.exponent).toNat
  { low := (4 * d.significand - if d.narrow then 1 else 2) * up
    value := 4 * d.significand * up
    high := (4 * d.significand + 2) * up
    den := den
    closed := d.significand % 2 == 0 }

/-- `n` steps of the decimal grid `unit / scale` lie inside the interval. -/
def RoundingRange.holds (v : RoundingRange) (unit scale n : Nat) : Bool :=
  let x := n * unit * v.den
  if v.closed then v.low * scale ≤ x && x ≤ v.high * scale
  else v.low * scale < x && x < v.high * scale

/-- The point of the decimal grid `unit / scale` that lies in the interval and is nearest to the
value, if there is one; it is one of the value's two neighbours on the grid. -/
def RoundingRange.nearest? (v : RoundingRange) (unit scale : Nat) : Option Nat :=
  let below := v.value * scale / (v.den * unit)
  let twice := 2 * (v.value * scale)
  let middle := (2 * below + 1) * (unit * v.den)
  let first := if middle ≤ twice then below + 1 else below
  let second := if middle ≤ twice then below else below + 1
  if first ≠ 0 && v.holds unit scale first then some first
  else if second ≠ 0 && v.holds unit scale second then some second
  else none

/-- The nearest point on the grid `10 ^ i`. -/
def RoundingRange.nearestAt? (v : RoundingRange) (i : Int) : Option Nat :=
  v.nearest? (Nat.pow 10 i.toNat) (Nat.pow 10 (-i).toNat)

/-- Search the grids from `10 ^ i` downwards, `fuel` of them. -/
def RoundingRange.search (v : RoundingRange) : Nat → Int → Nat × Int
  | 0, i => (v.value / v.den, i)
  | fuel + 1, i =>
    match v.nearestAt? i with
    | some n => (n, i)
    | none => v.search fuel (i - 1)

/-- An exponent `i` with `10 ^ i` above the value: `2 ^ k ≤ 10 ^ ⌈k * 3 / 10⌉` up to one unit. -/
def Magnitude.ceiling (d : Magnitude) : Int :=
  (d.significand.log2 + 1 + d.exponent) * 30103 / 100000 + 1

/-- **The shortest decimal** `n * 10 ^ i` that rounds to `d`, as the pair `(n, i)`. -/
def Magnitude.shortest (d : Magnitude) : Nat × Int :=
  d.interval.search 20 d.ceiling

end CountedMachine.Decimal
