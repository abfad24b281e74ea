import CountedMachine.Decimal.Shortest

/-! # The text of a number

Numbers are written positionally, whatever their size: the shortest digits that read back, zeros
up to the point or after it, no exponent and no trailing point. Zero keeps its sign. -/

namespace CountedMachine.Decimal

/-- A float taken apart: a sign and a magnitude. -/
inductive Class
  | nan
  | infinite (negative : Bool)
  | zero (negative : Bool)
  | finite (negative : Bool) (magnitude : Magnitude)
  deriving Repr, DecidableEq

/-- Read the sign, exponent and fraction fields of a 64-bit float. -/
def classify (bits : Nat) : Class :=
  let hidden : Nat := 1 <<< 52
  let negative := (bits >>> 63) % 2 == 1
  let exponent : Nat := (bits >>> 52) % 2048
  let fraction : Nat := bits % hidden
  if exponent = 2047 then
    if fraction = 0 then .infinite negative else .nan
  else if exponent = 0 then
    if fraction = 0 then .zero negative else .finite negative ⟨fraction, -1074, false⟩
  else
    .finite negative ⟨hidden + fraction, (exponent : Int) - 1075, fraction = 0 && exponent ≠ 1⟩

/-- `n` zeros. -/
def zeros (n : Nat) : String := String.ofList (List.replicate n '0')

/-- The positional text of `n * 10 ^ i`. -/
def positional (n : Nat) (i : Int) : String :=
  let digits := (toString n).toList
  if 0 ≤ i then toString n ++ zeros i.toNat
  else
    let places := (-i).toNat
    if places < digits.length then
      String.ofList (digits.take (digits.length - places)) ++ "."
        ++ String.ofList (digits.drop (digits.length - places))
    else "0." ++ zeros (places - digits.length) ++ toString n

/-- The sign that stands before a magnitude. -/
def signText (negative : Bool) : String := if negative then "-" else ""

/-- The text of a float that has been taken apart. -/
def Class.text : Class → String
  | .nan => "NaN"
  | .infinite negative => signText negative ++ "inf"
  | .zero negative => signText negative ++ "0"
  | .finite negative d => signText negative ++ positional d.shortest.1 d.shortest.2

/-- **The text of a number.** -/
def text (x : Float) : String := (classify x.toBits.toNat).text

end CountedMachine.Decimal
