/-!
# Text in 16-bit units

Some limits on a text count units of 16 bits: a character below U+10000 is one unit, and a character
from there on is a pair of units. `unitCount` measures a text, and `takeUnits` and `takeLastUnits`
cut one down to so many units. A cut may fall into a pair: the half that is kept is no character,
and U+FFFD stands for it.
-/

set_option autoImplicit false

namespace SummaryInlining

namespace Text

/-- The number of units of a character. -/
def unitWidth (c : Char) : Nat := if c.toNat < 0x10000 then 1 else 2

/-- The number of units of a text. -/
def unitCount (text : List Char) : Nat := text.foldr (fun c n => unitWidth c + n) 0

/-- The character that stands for half a pair. -/
def halfPair : Char := Char.ofNat 0xFFFD

/-- The first `n` units of a text. -/
def takeUnits : Nat → List Char → List Char
  | _, [] => []
  | 0, _ :: _ => []
  | n + 1, c :: rest =>
    if n + 1 < unitWidth c then [halfPair] else c :: takeUnits (n + 1 - unitWidth c) rest

/-- The last `n` units of a text. -/
def takeLastUnits (n : Nat) (text : List Char) : List Char := (takeUnits n text.reverse).reverse

end Text

end SummaryInlining
