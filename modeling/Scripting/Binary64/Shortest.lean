/-!
# The shortest decimal that stands for a binary64 number

* `Interval` : the reals that round to a positive number, as numerators over a common denominator;
* `Interval.ofParts` : the interval of `mantissa * 2 ^ exponent`;
* `Interval.onGrid?` : the point nearest to the number among the multiples of a power of ten in the
  interval;
* `Interval.shortest` : the digits and the power of ten of the shortest decimal in the interval.
-/

namespace Scripting.Binary64

set_option autoImplicit false

/-- Powers of two. -/
def pow2 (n : Nat) : Nat := Nat.pow 2 n

/-- Powers of ten. -/
def pow10 (n : Nat) : Nat := Nat.pow 10 n

/-- A positive real with the reals around it that round to it, all as numerators over `unit`. -/
structure Interval where
  low : Nat
  value : Nat
  high : Nat
  unit : Nat
  closed : Bool
  deriving Repr

/-- A decimal: `digits * 10 ^ exponent`. -/
structure Decimal where
  digits : Nat
  exponent : Int
  deriving DecidableEq, Repr

/-- The same decimal without the zeros, at most `count` of them, at the end of its digits. -/
def Decimal.dropZeros (d : Decimal) : (count : Nat) → Decimal
  | 0 => d
  | count + 1 => if d.digits % 10 = 0 then dropZeros ⟨d.digits / 10, d.exponent + 1⟩ count else d

/-- The number of decimal digits of `n`; zero has none. -/
def digitCount (n : Nat) : Nat := if n = 0 then 0 else (Nat.toDigits 10 n).length

namespace Interval

/-- The reals that round to `mantissa * 2 ^ exponent`. The ends are half way to the neighbours, of
which the lower one is nearer if `lowerIsNear`; they belong to the interval if the mantissa is even.
-/
def ofParts (mantissa : Nat) (exponent : Int) (lowerIsNear : Bool) : Interval :=
  let up := pow2 exponent.toNat
  { low := (4 * mantissa - if lowerIsNear then 1 else 2) * up
    value := 4 * mantissa * up
    high := (4 * mantissa + 2) * up
    unit := 4 * pow2 (-exponent).toNat
    closed := mantissa % 2 = 0 }

/-- The power of ten just above the number: `10 ^ (order - 1) ≤ number < 10 ^ order`. -/
def order (i : Interval) : Int :=
  if i.unit ≤ i.value then digitCount (i.value / i.unit)
  else 1 - digitCount ((i.unit + i.value - 1) / i.value - 1)

/-- Whether `digits * 10 ^ exponent` lies in the interval. -/
def holds (i : Interval) (d : Decimal) : Bool :=
  let point := d.digits * pow10 d.exponent.toNat * i.unit
  let scale := pow10 (-d.exponent).toNat
  if i.closed then i.low * scale ≤ point && point ≤ i.high * scale
  else i.low * scale < point && point < i.high * scale

/-- The multiple of `10 ^ exponent` in the interval that is nearest to the number; of two that are
as near, the greater. -/
def onGrid? (i : Interval) (exponent : Int) : Option Decimal :=
  let step := pow10 exponent.toNat * i.unit
  let number := i.value * pow10 (-exponent).toNat
  let below : Decimal := ⟨number / step, exponent⟩
  let above : Decimal := ⟨number / step + 1, exponent⟩
  let nearest := if 2 * (number % step) < step then below else above
  let other := if 2 * (number % step) < step then above else below
  if i.holds nearest then some nearest else if i.holds other then some other else none

/-- The decimal with the fewest digits in the interval, at most `count + digits` of them, searched
from `digits` on. -/
def search (i : Interval) (digits : Nat) : (count : Nat) → Decimal
  | 0 => ⟨i.value / i.unit, 0⟩
  | count + 1 => (i.onGrid? (i.order - digits)).getD (search i (digits + 1) count)

/-- The decimal with the fewest digits in the interval; seventeen always suffice. A point of a grid
may be the next power of ten, which has zeros at its end. -/
def shortest (i : Interval) : Decimal := (i.search 1 17).dropZeros 17

end Interval

end Scripting.Binary64
