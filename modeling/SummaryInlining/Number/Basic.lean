/-!
# Numbers of summary files

A summary file holds its numbers in the binary64 format: a finite value is a fraction of at most
fifty-three significant bits, and what lies beyond the largest of them is infinite. `Number` keeps
the exact value, so that equality of numbers is equality of values (there is one zero), and
`Number.ofRat` is the only place where a value is rounded: to the nearest binary64 value, a tie
going to the even significand.
-/

set_option autoImplicit false

namespace SummaryInlining

/-- A number in the binary64 format, by its exact value. -/
inductive Number where
  /-- The number of this exact value. -/
  | finite (value : Rat)
  /-- A number whose magnitude is beyond the largest finite one. -/
  | infinite (negative : Bool)
  /-- The difference of two infinities of one sign, which has no value. -/
  | undetermined
  deriving DecidableEq, Inhabited

def twoTo (n : Nat) : Nat := Nat.pow 2 n

def tenTo (n : Nat) : Nat := Nat.pow 10 n

/-- The integer nearest to `num / den`; a tie goes to the even one. -/
def divNearestEven (num den : Nat) : Nat :=
  let quotient := num / den
  let twice := 2 * (num % den)
  if twice < den then quotient
  else if den < twice then quotient + 1
  else if quotient % 2 = 0 then quotient
  else quotient + 1

/-- The integer nearest to `num / den`; a tie goes to the larger one. -/
def divNearestUp (num den : Nat) : Nat :=
  (2 * num + den) / (2 * den)

/-- The fraction `num / den`, scaled by the power of two with exponent `-shift`. -/
def scaleDown (num den : Nat) (shift : Int) : Nat × Nat :=
  if shift < 0 then (num * twoTo shift.natAbs, den) else (num, den * twoTo shift.natAbs)

/-- The exponent of the largest power of two that does not exceed the positive `num / den`. -/
def binaryExponent (num den : Nat) : Int :=
  let estimate : Int := (num.log2 : Int) - (den.log2 : Int)
  let scaled := scaleDown num den estimate
  if scaled.1 < scaled.2 then estimate - 1 else estimate

namespace Number

/-- The number of significant bits of a finite number. -/
def significantBits : Nat := 53

/-- The exponent of the last place of the smallest positive number. -/
def leastExponent : Int := -1074

/-- The largest finite number is the one just below two to this power. -/
def overflowExponent : Nat := 1024

/-- The magnitude nearest to the positive `num / den`, if it is not beyond the largest one. -/
def nearestMagnitude (num den : Nat) : Option Rat :=
  let place := max (binaryExponent num den - (significantBits - 1 : Nat)) leastExponent
  let scaled := scaleDown num den place
  let significand := divNearestEven scaled.1 scaled.2
  let value : Rat :=
    if place < 0 then mkRat significand (twoTo place.natAbs)
    else ((significand * twoTo place.natAbs : Nat) : Rat)
  if value < ((twoTo overflowExponent : Nat) : Rat) then some value else none

/-- The number nearest to the value `q`. -/
def ofRat (q : Rat) : Number :=
  if q = 0 then .finite 0
  else
    match nearestMagnitude q.num.natAbs q.den with
    | some magnitude => .finite (if q < 0 then -magnitude else magnitude)
    | none => .infinite (q < 0)

/-- The number of the integer `n`, which is taken to be one of the format. -/
def ofInt (n : Int) : Number := .finite (n : Rat)

/-- The number of the natural number `n`, which is taken to be one of the format. -/
def ofNat (n : Nat) : Number := ofInt n

/-- The integer that a number is, unless it has a fraction or is not finite. -/
def toInt? : Number → Option Int
  | .finite q => if q.den = 1 then some q.num else none
  | .infinite _ => none
  | .undetermined => none

/-- The number of an integer stands for this integer. -/
@[simp] theorem toInt?_ofInt (n : Int) : (ofInt n).toInt? = some n := by
  simp [ofInt, toInt?]

def neg : Number → Number
  | .finite q => .finite (-q)
  | .infinite negative => .infinite !negative
  | .undetermined => .undetermined

/-- The sum of two numbers, rounded to the nearest one. -/
def add : Number → Number → Number
  | .finite a, .finite b => ofRat (a + b)
  | .finite _, .infinite s => .infinite s
  | .infinite s, .finite _ => .infinite s
  | .infinite s, .infinite t => if s = t then .infinite s else .undetermined
  | .undetermined, _ => .undetermined
  | _, .undetermined => .undetermined

instance : Add Number := ⟨add⟩

instance : Sub Number := ⟨fun a b => add a (neg b)⟩

/-- The number nearest to the decimal `digits * 10 ^ exponent`, or to its negation. A decimal far
outside the range of the format is decided by its order of magnitude alone, so that reading one
costs no more than its length. -/
def ofDecimal (negative : Bool) (digits : Nat) (exponent : Int) : Number :=
  let magnitude : Int := ((Nat.toDigits 10 digits).length : Int) + exponent
  if digits = 0 then .finite 0
  else if 310 < magnitude then .infinite negative
  else if magnitude < -330 then .finite 0
  else
    let value : Rat :=
      if exponent < 0 then mkRat digits (tenTo exponent.natAbs)
      else ((digits * tenTo exponent.natAbs : Nat) : Rat)
    ofRat (if negative then -value else value)

/-- The number rounded to three places after the point, a tie going away from zero. A number of
magnitude `10 ^ 21` or more has no fraction and is left as it is. -/
def toThousandths : Number → Number
  | .finite q =>
    if tenTo 21 ≤ q.num.natAbs / q.den then .finite q
    else
      let thousandths := divNearestUp (q.num.natAbs * 1000) q.den
      let value := mkRat thousandths 1000
      ofRat (if q < 0 then -value else value)
  | .infinite negative => .infinite negative
  | .undetermined => .undetermined

end Number

end SummaryInlining
