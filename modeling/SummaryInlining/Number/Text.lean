import SummaryInlining.Number.Basic

/-!
# The text of a number

A number is written with the fewest digits that read back as it. Of two candidates with equally
many digits the nearer one is written, and of two equally near ones the even one.
`Number.shortestDecimal` finds these digits by reading candidates back in exact arithmetic.
How the digits are laid out is the second half: positional from `1e-6` up to below `1e21`, and
with an exponent elsewhere.
-/

set_option autoImplicit false

namespace SummaryInlining

/-- The positive decimal `digits * 10 ^ exponent`. -/
structure Decimal where
  /-- The digits, as one natural number. -/
  digits : Nat
  /-- The place value of the last digit. -/
  exponent : Int
  deriving DecidableEq

namespace Decimal

/-- The exact value of a decimal. -/
def value (d : Decimal) : Rat :=
  if d.exponent < 0 then mkRat d.digits (tenTo d.exponent.natAbs)
  else ((d.digits * tenTo d.exponent.natAbs : Nat) : Rat)

/-- Whether reading the decimal gives the number `q`. -/
def readsBack (d : Decimal) (q : Rat) : Bool :=
  Number.ofRat d.value = .finite q

/-- The digits without the zeros at their end, and how many zeros were taken off. -/
def withoutTrailingZeros (digits : List Char) : List Char × Nat :=
  let zeros := (digits.reverse.takeWhile (· == '0')).length
  (digits.take (digits.length - zeros), zeros)

/-- The layout of a decimal: positional when its first digit stands at most six places after the
point or at most twenty-one places before it, and with an exponent elsewhere. -/
def text (d : Decimal) : String :=
  let shown := withoutTrailingZeros (Nat.toDigits 10 d.digits)
  let digits := shown.1
  let point : Int := d.exponent + shown.2 + digits.length
  let written : List Char :=
    if (digits.length : Int) ≤ point ∧ point ≤ 21 then
      digits ++ List.replicate (point.natAbs - digits.length) '0'
    else if 0 < point ∧ point ≤ 21 then
      digits.take point.natAbs ++ '.' :: digits.drop point.natAbs
    else if -6 < point ∧ point ≤ 0 then
      '0' :: '.' :: List.replicate point.natAbs '0' ++ digits
    else
      let fraction := if digits.length = 1 then [] else '.' :: digits.drop 1
      let sign := if 0 ≤ point - 1 then '+' else '-'
      digits.take 1 ++ fraction ++ 'e' :: sign :: Nat.toDigits 10 (point - 1).natAbs
  String.ofList written

end Decimal

namespace Number

/-- The number of digits before the point of the positive `num / den`; zero or negative when the
first digit other than zero stands after the point. -/
def pointPosition (num den : Nat) : Int :=
  let estimate : Int := ((Nat.toDigits 10 num).length : Int) - (Nat.toDigits 10 den).length
  let reached : Bool :=
    if estimate < 0 then den ≤ num * tenTo estimate.natAbs
    else den * tenTo estimate.natAbs ≤ num
  if reached then estimate + 1 else estimate

/-- The decimals of `count` digits next to `num / den`, from below and from above. -/
def neighbours (num den count : Nat) : Decimal × Decimal :=
  let exponent := pointPosition num den - count
  let below :=
    if exponent < 0 then num * tenTo exponent.natAbs / den
    else num / (den * tenTo exponent.natAbs)
  (⟨below, exponent⟩, ⟨below + 1, exponent⟩)

/-- Of the two neighbours of `q` that have `count` digits, the one that reads back as `q`. When
both do it is the nearer one, and the even one when they are equally near. -/
def decimalOfLength? (q : Rat) (count : Nat) : Option Decimal :=
  let (below, above) := neighbours q.num.natAbs q.den count
  match below.readsBack q, above.readsBack q with
  | false, false => none
  | true, false => some below
  | false, true => some above
  | true, true =>
    let lower := q - below.value
    let upper := above.value - q
    if lower < upper then some below
    else if upper < lower then some above
    else if below.digits % 2 = 0 then some below
    else some above

/-- The decimal that is exactly `q`, for a denominator that is a power of two. -/
def exactDecimal (q : Rat) : Decimal :=
  ⟨q.num.natAbs * tenTo q.den.log2 / q.den, -(q.den.log2 : Int)⟩

/-- The decimal with the fewest digits, at most seventeen of them, that reads back as the positive
number `q`. Every number of the format has one; a value outside the format is written exactly. -/
def shortestDecimal (q : Rat) : Decimal :=
  ((List.range' 1 17).findSome? (decimalOfLength? q)).getD (exactDecimal q)

/-- The text of a finite number. -/
def finiteText (q : Rat) : String :=
  if q = 0 then "0"
  else if q < 0 then "-" ++ (shortestDecimal (-q)).text
  else (shortestDecimal q).text

def text : Number → String
  | .finite q => finiteText q
  | .infinite negative => if negative then "-Infinity" else "Infinity"
  | .undetermined => "NaN"

/-- The text of the number that an integer is. Below `2 ^ 53` in magnitude the shortest digits are
all digits. -/
def integerText (n : Int) : String :=
  if n.natAbs < twoTo 53 then toString n else finiteText n

/-- The text of an integer with all its digits, as long as it is below `10 ^ 21` in magnitude. -/
def fixedText (n : Int) : String :=
  if n.natAbs < tenTo 21 then toString n else integerText n

end Number

end SummaryInlining
