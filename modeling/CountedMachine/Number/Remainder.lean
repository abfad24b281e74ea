import CountedMachine.Decimal.Positional

/-! # The remainder of a truncated division

For finite `x` and `y ≠ 0` the remainder is `x - n * y`, with `n` the quotient rounded toward
zero. It is exact: both are integers over the smaller of their two powers of two, and the
remainder is smaller than either significand, so it fits a float. The result has the sign
of the dividend. -/

namespace CountedMachine.Number

/-- The remainder of two magnitudes, as a multiple of the smaller power of two. -/
def remainderMagnitude (a b : Decimal.Magnitude) : Nat × Int :=
  let e := min a.exponent b.exponent
  let x := a.significand * Nat.pow 2 (a.exponent - e).toNat
  let y := b.significand * Nat.pow 2 (b.exponent - e).toNat
  (x % y, e)

/-- The float `n * 2 ^ e`, negated on demand. -/
def ofMagnitude (negative : Bool) (n : Nat) (e : Int) : Float :=
  let x := Float.scaleB n.toUInt64.toFloat e
  if negative then -x else x

/-- The remainder of `x` by `y`: a dividend that is infinite or a zero divisor has none, and an
infinite divisor leaves the dividend as it is. -/
def remainder (x y : Float) : Float :=
  match Decimal.classify x.toBits.toNat, Decimal.classify y.toBits.toNat with
  | .finite negative a, .finite _ b =>
    let r := remainderMagnitude a b
    ofMagnitude negative r.1 r.2
  | .finite _ _, .infinite _ => x
  | .zero _, .finite _ _ => x
  | .zero _, .infinite _ => x
  | _, _ => 0.0 / 0.0

end CountedMachine.Number
