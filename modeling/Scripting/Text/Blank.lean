/-!
# Blank characters

* `isBlank` : the characters with the Unicode property White_Space;
* `trimBlank` : a text without the blank characters at its two ends.
-/

namespace Scripting.Text

set_option autoImplicit false

/-- The ranges of code points that have the property White_Space, both ends included. -/
def blankRanges : List (Nat × Nat) :=
  [(0x9, 0xD), (0x20, 0x20), (0x85, 0x85), (0xA0, 0xA0), (0x1680, 0x1680), (0x2000, 0x200A),
    (0x2028, 0x2029), (0x202F, 0x202F), (0x205F, 0x205F), (0x3000, 0x3000)]

/-- Whether `c` has the property White_Space. -/
def isBlank (c : Char) : Bool := blankRanges.any fun r => r.1 ≤ c.toNat && c.toNat ≤ r.2

/-- The text without blank characters at its ends. -/
def trimBlankChars (cs : List Char) : List Char :=
  ((cs.dropWhile isBlank).reverse.dropWhile isBlank).reverse

/-- The text without blank characters at its ends. -/
def trimBlank (s : String) : String := String.ofList (trimBlankChars s.toList)

end Scripting.Text
