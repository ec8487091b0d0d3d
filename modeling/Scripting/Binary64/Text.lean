import Scripting.Binary64.Shortest

/-!
# Floats as text

* `Parts` : sign, mantissa and exponent of a float, read from its bits;
* `Decimal.positional` : a decimal written without an exponent;
* `text` : the text of a float.
-/

namespace Scripting.Binary64

set_option autoImplicit false

/-- What the bits of a float say. A finite float is `mantissa * 2 ^ exponent`, with a sign. -/
inductive Parts
  | nan
  | infinite (negative : Bool)
  | finite (negative : Bool) (mantissa : Nat) (exponent : Int) (lowerIsNear : Bool)

/-- The parts of the float whose bits are the number `bits`. -/
def Parts.ofBits (bits : Nat) : Parts :=
  let negative := bits / pow2 63 % 2 = 1
  let field : Nat := bits / pow2 52 % pow2 11
  let fraction : Nat := bits % pow2 52
  if field = 2047 then (if fraction = 0 then infinite negative else nan)
  else if field = 0 then finite negative fraction (-1074) false
  else finite negative (pow2 52 + fraction) ((field : Int) - 1075) (fraction = 0 && 1 < field)

/-- The decimal written without an exponent; a fraction has a zero before its point. -/
def Decimal.positional (d : Decimal) : String :=
  let digits := Nat.toDigits 10 d.digits
  if 0 ≤ d.exponent then String.ofList (digits ++ List.replicate d.exponent.toNat '0')
  else
    let places := (-d.exponent).toNat
    let padded := List.replicate (places + 1 - digits.length) '0' ++ digits
    let point := padded.length - places
    String.ofList (padded.take point ++ '.' :: padded.drop point)

/-- Whether the float `mantissa * 2 ^ exponent` is a whole number below `10 ^ 16`. -/
def isSmallWhole (mantissa : Nat) (exponent : Int) : Bool :=
  let unit := pow2 (-exponent).toNat
  mantissa % unit = 0 && mantissa * pow2 exponent.toNat < pow10 16 * unit

/-- The text of a finite float without its sign. Whole numbers below `10 ^ 16` show one decimal, all
others the shortest digits that stand for the float, without an exponent. -/
def magnitudeText (mantissa : Nat) (exponent : Int) (lowerIsNear : Bool) : String :=
  if isSmallWhole mantissa exponent then
    String.ofList (Nat.toDigits 10 (mantissa * pow2 exponent.toNat / pow2 (-exponent).toNat)) ++ ".0"
  else (Interval.ofParts mantissa exponent lowerIsNear).shortest.positional

/-- The text of a float. Infinity has a sign, "not a number" has none. -/
def text (x : Float) : String :=
  match Parts.ofBits x.toBits.toNat with
  | .nan => "NaN"
  | .infinite negative => if negative then "-inf" else "inf"
  | .finite negative mantissa exponent lowerIsNear =>
    (if negative then "-" else "") ++ magnitudeText mantissa exponent lowerIsNear

end Scripting.Binary64
