import Mathlib.Data.List.TakeWhile
import Mathlib.Tactic.IntervalCases
import SummaryInlining.Json.Parser
import SummaryInlining.Proofs.Rounding

/-!
# Reading numbers back

The text of an integer is a numeral of the grammar of numbers, and `Json.numeral` reads the integer
back from it (`numeral_integerText`, `numeral_fixedText`), provided that the integer is a number of
the format. This does not depend on how the digits were found, only on their reading back, and not
on which layout was chosen for them, since all four layouts have the value of the decimal
(`magnitude_text`). So different integers have different texts.
-/

set_option autoImplicit false

namespace SummaryInlining

namespace Json

/-- The characters that numbers are written with. -/
def isNumeralChar (c : Char) : Bool := isDigit c || ['+', '-', '.', 'e', 'E'].contains c

/-- The text goes on with something that is no part of a number, if it goes on. -/
def EndsNumeral (rest : List Char) : Prop := ∀ c ∈ rest.head?, isNumeralChar c = false

/-- The text is made of characters of numbers, and begins with a digit or the sign. -/
structure IsNumeral (written : List Char) : Prop where
  numeral : ∀ c ∈ written, isNumeralChar c = true
  first : ∃ c rest, written = c :: rest ∧ (c = '-' ∨ isDigit c = true)

/-- The value of a row of digits is the one that the library gives it. -/
theorem digitsValue_eq (digits : List Char) :
    digitsValue digits = Nat.ofDigitChars 10 digits 0 := by
  simp only [digitsValue, Nat.ofDigitChars_eq_foldl, Nat.mul_comm]

/-- What comes after a number does not begin with a character of numbers. -/
theorem EndsNumeral.head_ne {rest : List Char} (h : EndsNumeral rest) {c : Char}
    (hc : isNumeralChar c = true) : rest.head? ≠ some c := by
  intro hhead
  rw [h c hhead] at hc
  cases hc

/-- What comes after a number does not begin with a digit. -/
theorem EndsNumeral.isDigit {rest : List Char} (h : EndsNumeral rest) :
    ∀ c ∈ rest.head?, Json.isDigit c = false := by
  intro c hc
  have := h c hc
  rw [isNumeralChar, Bool.or_eq_false_iff] at this
  exact this.1

section

variable {p : Char → Bool} {written rest : List Char}

/-- What a text is cut into where a property of its characters ends. -/
theorem takeWhile_append_eq_left (hwritten : ∀ c ∈ written, p c = true)
    (hrest : ∀ c ∈ rest.head?, p c = false) : (written ++ rest).takeWhile p = written := by
  have htake : rest.takeWhile p = [] := by
    cases rest with
    | nil => rfl
    | cons c rest => exact List.takeWhile_cons_of_neg (by simp [hrest c rfl])
  rw [List.takeWhile_append_of_pos hwritten, htake, List.append_nil]

/-- Dropping characters of one kind stops where a text of this kind ends. -/
theorem dropWhile_append_eq_right (hwritten : ∀ c ∈ written, p c = true)
    (hrest : ∀ c ∈ rest.head?, p c = false) : (written ++ rest).dropWhile p = rest := by
  rw [List.dropWhile_append_of_pos hwritten]
  cases rest with
  | nil => rfl
  | cons c rest => exact List.dropWhile_cons_of_neg (by simp [hrest c rfl])

end

/-! ## The parts of a numeral -/

section

variable {digits rest : List Char}

/-- A row of digits is read up to the end of the digits. -/
theorem digits1_append (hne : digits ≠ []) (hdigits : ∀ c ∈ digits, isDigit c = true)
    (hrest : ∀ c ∈ rest.head?, isDigit c = false) :
    digits1 (digits ++ rest) = .ok (digits, rest) := by
  simp only [digits1, takeWhile_append_eq_left hdigits hrest,
    dropWhile_append_eq_right hdigits hrest, List.isEmpty_iff, if_neg hne]

/-- Digits that do not begin with a zero are read as a whole part. -/
theorem integerPart_append (hne : digits ≠ []) (hdigits : ∀ c ∈ digits, isDigit c = true)
    (hhead : digits.head? ≠ some '0') (hrest : ∀ c ∈ rest.head?, isDigit c = false) :
    integerPart (digits ++ rest) = .ok (digits, rest) := by
  unfold integerPart
  split
  · next behind htext =>
    cases digits with
    | nil => exact absurd rfl hne
    | cons c digits =>
      cases htext
      exact absurd rfl hhead
  · exact digits1_append hne hdigits hrest

/-- Without a point there is no fraction. -/
theorem fractionPart_of_ne (h : rest.head? ≠ some '.') : fractionPart rest = .ok ([], rest) := by
  unfold fractionPart
  split
  · exact absurd rfl h
  · rfl

/-- Without its mark there is no exponent. -/
theorem exponentPart_of_ne (he : rest.head? ≠ some 'e') (hE : rest.head? ≠ some 'E') :
    exponentPart rest = .ok (0, rest) := by
  unfold exponentPart
  split
  · exact absurd rfl he
  · exact absurd rfl hE
  · rfl

/-- Behind the sign of an exponent all that counts is the number that its digits write. -/
theorem exponentPart_append (point : Int) (hrest : ∀ c ∈ rest.head?, isDigit c = false) :
    exponentPart ('e' :: (if 0 ≤ point then '+' else '-') ::
      (Nat.toDigits 10 point.natAbs ++ rest)) = .ok (point, rest) := by
  have hdigits : digits1 (Nat.toDigits 10 point.natAbs ++ rest) =
      .ok (Nat.toDigits 10 point.natAbs, rest) :=
    digits1_append Nat.toDigits_ne_nil
      (fun c hc => Nat.isDigit_of_mem_toDigits (by decide) (by decide) hc) hrest
  have hvalue : digitsValue (Nat.toDigits 10 point.natAbs) = point.natAbs := by
    rw [digitsValue_eq, Nat.ofDigitChars_ten_toDigits]
  split
  · next h =>
    simp only [exponentPart, signedDigits, hdigits, Except.map, hvalue,
      Int.natAbs_of_nonneg h]
  · next h =>
    have hneg : -(point.natAbs : Int) = point := by omega
    simp only [exponentPart, signedDigits, hdigits, Except.map, hvalue, hneg]

end

/-- The parts of a numeral make a decimal, and its value is rounded. -/
theorem magnitude_of_parts (negative : Bool) {text afterWhole afterFraction rest : List Char}
    {whole fraction : List Char} {exponent : Int}
    (hwhole : integerPart text = .ok (whole, afterWhole))
    (hfraction : fractionPart afterWhole = .ok (fraction, afterFraction))
    (hexponent : exponentPart afterFraction = .ok (exponent, rest)) {value : ℚ}
    (hvalue : digitsValue (whole ++ fraction) * 10 ^ (exponent - fraction.length) = value) :
    magnitude negative text =
      .ok (Number.ofRat (if negative then -value else value), rest) := by
  subst hvalue
  have hround := Number.ofDecimal_eq_ofRat negative
    ⟨digitsValue (whole ++ fraction), exponent - fraction.length⟩
  rw [Decimal.value_eq] at hround
  simp only [magnitude, bind, Except.bind, pure, Except.pure, hwhole, hfraction, hexponent, hround]

end Json

namespace Decimal

/-- The digits that are shown of a decimal, and the zeros that are not. -/
def shown (d : Decimal) : List Char × Nat := withoutTrailingZeros (Nat.toDigits 10 d.digits)

/-- The layout of some digits with the point behind so many of them. -/
def layout (digits : List Char) (point : Int) : List Char :=
  if (digits.length : Int) ≤ point ∧ point ≤ 21 then
    digits ++ List.replicate (point.natAbs - digits.length) '0'
  else if 0 < point ∧ point ≤ 21 then
    digits.take point.natAbs ++ '.' :: digits.drop point.natAbs
  else if -6 < point ∧ point ≤ 0 then
    '0' :: '.' :: List.replicate point.natAbs '0' ++ digits
  else
    let fraction := if digits.length = 1 then [] else '.' :: digits.drop 1
    let sign := if 0 ≤ point - 1 then '+' else '-'
    digits.take 1 ++ fraction ++ 'e' :: sign :: Nat.toDigits 10 (point - 1).natAbs

/-- The text of a decimal is the layout of the digits that are shown of it. -/
theorem toList_text (d : Decimal) :
    d.text.toList = layout d.shown.1 (d.exponent + d.shown.2 + d.shown.1.length) := by
  rw [text, String.toList_ofList]
  rfl

/-- The zeros that were taken away give the digits again. -/
theorem withoutTrailingZeros_append (digits : List Char) :
    (withoutTrailingZeros digits).1 ++ List.replicate (withoutTrailingZeros digits).2 '0' =
      digits := by
  have hzeros : digits.reverse.takeWhile (· == '0') =
      List.replicate (withoutTrailingZeros digits).2 '0' :=
    List.eq_replicate_iff.mpr ⟨rfl, fun c hc => by simpa using List.mem_takeWhile_imp hc⟩
  have hprefix : digits.reverse.take (withoutTrailingZeros digits).2 =
      digits.reverse.takeWhile (· == '0') :=
    (List.prefix_iff_eq_take.mp (List.takeWhile_prefix _)).symm
  have hdrop : digits.drop (digits.length - (withoutTrailingZeros digits).2) =
      List.replicate (withoutTrailingZeros digits).2 '0' := by
    rw [← List.reverse_replicate, ← hzeros, ← hprefix, List.reverse_take, List.reverse_reverse,
      List.length_reverse]
  calc (withoutTrailingZeros digits).1 ++ List.replicate (withoutTrailingZeros digits).2 '0'
      = digits.take (digits.length - (withoutTrailingZeros digits).2) ++
          digits.drop (digits.length - (withoutTrailingZeros digits).2) := by rw [hdrop]; rfl
    _ = digits := List.take_append_drop _ digits

/-- The digits that are shown and the zeros that are not are all digits of the decimal. -/
theorem shown_append (d : Decimal) :
    d.shown.1 ++ List.replicate d.shown.2 '0' = Nat.toDigits 10 d.digits :=
  withoutTrailingZeros_append _

/-- The digits of a positive number do not begin with a zero. -/
theorem head?_toDigits_ne {n : Nat} (hn : 0 < n) : (Nat.toDigits 10 n).head? ≠ some '0' := by
  induction n using Nat.strongRecOn with
  | ind n ih =>
    by_cases hlt : n < 10
    · rw [Nat.toDigits_of_lt_base hlt]
      interval_cases n <;> decide
    · rw [Nat.toDigits_of_base_le (by decide) (by omega), List.head?_append_of_ne_nil _
        Nat.toDigits_ne_nil]
      exact ih (n / 10) (by omega) (by omega)

/-- Some digits that a number other than zero begins with. -/
structure Leads (digits : List Char) : Prop where
  ne_nil : digits ≠ []
  digit : ∀ c ∈ digits, Json.isDigit c = true
  head_ne : digits.head? ≠ some '0'

/-- The digits of a positive number do not begin with a zero. -/
theorem leads_toDigits {n : Nat} (hn : 0 < n) : Leads (Nat.toDigits 10 n) :=
  ⟨Nat.toDigits_ne_nil, fun _ hc => Nat.isDigit_of_mem_toDigits (by decide) (by decide) hc,
    head?_toDigits_ne hn⟩

/-- A positive decimal does not begin with a zero. -/
theorem leads_shown {d : Decimal} (h : 0 < d.digits) : Leads d.shown.1 := by
  have hleads := leads_toDigits h
  rw [← shown_append] at hleads
  have hne : d.shown.1 ≠ [] := by
    intro hnil
    have hzeros : List.replicate d.shown.2 '0' = Nat.toDigits 10 d.digits := by
      rw [← shown_append, hnil, List.nil_append]
    have hvalue := congrArg (Nat.ofDigitChars 10 · 0) hzeros
    simp only [Nat.ofDigitChars_replicate_zero, Nat.ofDigitChars_ten_toDigits] at hvalue
    omega
  refine ⟨hne, fun c hc => hleads.digit c (List.mem_append_left _ hc), ?_⟩
  have := hleads.head_ne
  rwa [List.head?_append_of_ne_nil _ hne] at this

/-- The value of a decimal by what is shown of it. -/
theorem value_eq_shown (d : Decimal) :
    d.value = Json.digitsValue d.shown.1 * 10 ^ (d.exponent + d.shown.2) := by
  have hdigits : d.digits = Json.digitsValue d.shown.1 * 10 ^ d.shown.2 := by
    have hall := congrArg (Nat.ofDigitChars 10 · 0) d.shown_append
    simp only [Nat.ofDigitChars_append, Nat.ofDigitChars_replicate_zero,
      Nat.ofDigitChars_ten_toDigits] at hall
    rw [← hall, Json.digitsValue_eq, Nat.mul_comm]
  rw [value_eq, hdigits, zpow_add₀ (by norm_num), zpow_natCast]
  push_cast
  ring

/-! ## The four layouts -/

section

variable {digits rest : List Char}

/-- Digits alone are read as the number that they write. -/
theorem magnitude_digits (negative : Bool) (h : Leads digits) (hrest : Json.EndsNumeral rest)
    {value : ℚ} (hvalue : Json.digitsValue digits = value) :
    Json.magnitude negative (digits ++ rest) =
      .ok (Number.ofRat (if negative then -value else value), rest) := by
  refine Json.magnitude_of_parts negative
    (Json.integerPart_append h.ne_nil h.digit h.head_ne hrest.isDigit)
    (Json.fractionPart_of_ne (hrest.head_ne rfl))
    (Json.exponentPart_of_ne (hrest.head_ne rfl) (hrest.head_ne rfl)) ?_
  simp [hvalue]

/-- Zeros behind some digits do not change what these begin with. -/
theorem Leads.append_zeros (h : Leads digits) (count : Nat) :
    Leads (digits ++ List.replicate count '0') := by
  refine ⟨List.append_ne_nil_of_left_ne_nil h.ne_nil _, fun c hc => ?_, ?_⟩
  · rcases List.mem_append.mp hc with hc | hc
    · exact h.digit c hc
    · rw [List.eq_of_mem_replicate hc]
      rfl
  · rw [List.head?_append_of_ne_nil _ h.ne_nil]
    exact h.head_ne

/-- Each zero behind some digits multiplies their value by ten. -/
theorem digitsValue_append_zeros (digits : List Char) (count : Nat) :
    Json.digitsValue (digits ++ List.replicate count '0') =
      Json.digitsValue digits * 10 ^ count := by
  rw [Json.digitsValue_eq, Json.digitsValue_eq, Nat.ofDigitChars_append,
    Nat.ofDigitChars_replicate_zero, Nat.mul_comm]

/-- Zeros in front of some digits do not change their value. -/
theorem digitsValue_zeros_append (digits : List Char) (count : Nat) :
    Json.digitsValue ('0' :: (List.replicate count '0' ++ digits)) = Json.digitsValue digits := by
  rw [← List.cons_append, ← List.replicate_succ, Json.digitsValue_eq, Json.digitsValue_eq,
    Nat.ofDigitChars_append, Nat.ofDigitChars_replicate_zero, Nat.mul_zero]

/-- A fraction is read up to its last digit. -/
theorem fractionPart_append {fraction : List Char} (hne : fraction ≠ [])
    (hdigits : ∀ c ∈ fraction, Json.isDigit c = true)
    (hrest : ∀ c ∈ rest.head?, Json.isDigit c = false) :
    Json.fractionPart ('.' :: (fraction ++ rest)) = .ok (fraction, rest) :=
  Json.digits1_append hne hdigits hrest

/-- The digits before the point are read up to the point. -/
theorem integerPart_take (h : Leads digits) {place : Nat} (hpos : 0 < place)
    (hrest : ∀ c ∈ rest.head?, Json.isDigit c = false) :
    Json.integerPart (digits.take place ++ rest) = .ok (digits.take place, rest) := by
  refine Json.integerPart_append ?_ (fun c hc => h.digit c (List.mem_of_mem_take hc)) ?_ hrest
  · rw [ne_eq, List.take_eq_nil_iff, not_or]
    exact ⟨hpos.ne', h.ne_nil⟩
  · rw [List.head?_take, if_neg hpos.ne']
    exact h.head_ne

/-- The digits behind a point are read as the fraction. -/
theorem fractionPart_drop (h : Leads digits) {place : Nat} (hlt : place < digits.length)
    (hrest : ∀ c ∈ rest.head?, Json.isDigit c = false) :
    Json.fractionPart ('.' :: (digits.drop place ++ rest)) = .ok (digits.drop place, rest) :=
  fractionPart_append (by rwa [ne_eq, List.drop_eq_nil_iff, not_le])
    (fun c hc => h.digit c (List.mem_of_mem_drop hc)) hrest

/-- A point is no digit, so it ends a whole part. -/
theorem point_not_digit (rest : List Char) : ∀ c ∈ ('.' :: rest).head?, Json.isDigit c = false := by
  rintro c ⟨⟩
  rfl

/-- Digits with the point between them are read as the number that they write. -/
theorem magnitude_inside (negative : Bool) (h : Leads digits) {place : Nat} (hpos : 0 < place)
    (hlt : place < digits.length) (hrest : Json.EndsNumeral rest) {value : ℚ}
    (hvalue : Json.digitsValue digits * 10 ^ ((place : Int) - digits.length) = value) :
    Json.magnitude negative (digits.take place ++ '.' :: digits.drop place ++ rest) =
      .ok (Number.ofRat (if negative then -value else value), rest) := by
  rw [List.append_assoc, List.cons_append]
  refine Json.magnitude_of_parts negative (integerPart_take h hpos (point_not_digit _))
    (fractionPart_drop h hlt hrest.isDigit)
    (Json.exponentPart_of_ne (hrest.head_ne rfl) (hrest.head_ne rfl)) ?_
  rw [List.take_append_drop, List.length_drop, ← hvalue]
  congr 2
  omega

/-- Digits behind a zero, the point and more zeros are read as the number that they write. -/
theorem magnitude_before (negative : Bool) (h : Leads digits) (count : Nat)
    (hrest : Json.EndsNumeral rest) {value : ℚ}
    (hvalue : Json.digitsValue digits * 10 ^ (-(count : Int) - digits.length) = value) :
    Json.magnitude negative ('0' :: '.' :: (List.replicate count '0' ++ digits) ++ rest) =
      .ok (Number.ofRat (if negative then -value else value), rest) := by
  have hfraction : Json.fractionPart ('.' :: (List.replicate count '0' ++ digits ++ rest)) =
      .ok (List.replicate count '0' ++ digits, rest) := by
    refine fractionPart_append (List.append_ne_nil_of_right_ne_nil _ h.ne_nil) (fun c hc => ?_)
      hrest.isDigit
    rcases List.mem_append.mp hc with hc | hc
    · rw [List.eq_of_mem_replicate hc]
      rfl
    · exact h.digit c hc
  refine Json.magnitude_of_parts negative rfl hfraction
    (Json.exponentPart_of_ne (hrest.head_ne rfl) (hrest.head_ne rfl)) ?_
  rw [List.singleton_append, digitsValue_zeros_append, List.length_append, List.length_replicate,
    ← hvalue]
  congr 2
  push_cast
  ring

/-- Digits with the point behind the first one, and with an exponent, are read as the number that
they write. -/
theorem magnitude_exponent (negative : Bool) (h : Leads digits) (exponent : Int)
    (hrest : Json.EndsNumeral rest) {value : ℚ}
    (hvalue : Json.digitsValue digits * 10 ^ (exponent + 1 - digits.length) = value) :
    Json.magnitude negative
        (digits.take 1 ++ (if digits.length = 1 then [] else '.' :: digits.drop 1) ++
          'e' :: (if 0 ≤ exponent then '+' else '-') :: Nat.toDigits 10 exponent.natAbs ++ rest) =
      .ok (Number.ofRat (if negative then -value else value), rest) := by
  have hexponent := Json.exponentPart_append exponent hrest.isDigit
  generalize htail : 'e' :: (if 0 ≤ exponent then '+' else '-') ::
    (Nat.toDigits 10 exponent.natAbs ++ rest) = tail at hexponent
  have hmark : tail.head? = some 'e' := by
    rw [← htail]
    rfl
  -- the digits end where the exponent begins
  have hstop : ∀ c ∈ tail.head?, Json.isDigit c = false := by
    rw [hmark]
    rintro c ⟨⟩
    rfl
  simp only [List.append_assoc, List.cons_append, htail]
  have hlength : 0 < digits.length := List.length_pos_iff.mpr h.ne_nil
  -- a single digit is written without a point
  split
  · next hone =>
    have hfraction : Json.fractionPart tail = .ok ([], tail) :=
      Json.fractionPart_of_ne (by rw [hmark]; decide)
    refine Json.magnitude_of_parts negative (integerPart_take h one_pos hstop) hfraction
      hexponent ?_
    rw [List.append_nil, List.take_of_length_le hone.le, ← hvalue, hone]
    simp
  · next hmore =>
    refine Json.magnitude_of_parts negative (integerPart_take h one_pos (point_not_digit _))
      (fractionPart_drop h (by omega) hstop) hexponent ?_
    rw [List.take_append_drop, List.length_drop, ← hvalue]
    congr 2
    omega

/-- Whatever layout is chosen for some digits, it is read as their value at the point. -/
theorem magnitude_layout (negative : Bool) (h : Leads digits) (point : Int)
    (hrest : Json.EndsNumeral rest) {value : ℚ}
    (hvalue : Json.digitsValue digits * 10 ^ (point - digits.length) = value) :
    Json.magnitude negative (layout digits point ++ rest) =
      .ok (Number.ofRat (if negative then -value else value), rest) := by
  unfold layout
  split
  · next hbehind =>
    refine magnitude_digits negative (h.append_zeros _) hrest ?_
    rw [digitsValue_append_zeros, ← hvalue, zpow_of_not_neg (by omega)]
    push_cast
    congr 2
    omega
  split
  · next hinside =>
    refine magnitude_inside negative h (by omega) (by omega) hrest ?_
    rw [← hvalue, Int.natAbs_of_nonneg hinside.1.le]
  split
  · next hbefore =>
    refine magnitude_before negative h _ hrest ?_
    rw [← hvalue, Int.ofNat_natAbs_of_nonpos hbefore.2, neg_neg]
  · refine magnitude_exponent negative h (point - 1) hrest ?_
    rw [← hvalue, sub_add_cancel]

end

/-- Every decimal is read back from its text, with the number nearest to it. -/
theorem magnitude_text (negative : Bool) {d : Decimal} (h : 0 < d.digits) {rest : List Char}
    (hrest : Json.EndsNumeral rest) : Json.magnitude negative (d.text.toList ++ rest) =
      .ok (Number.ofRat (if negative then -d.value else d.value), rest) := by
  rw [toList_text]
  refine magnitude_layout negative (leads_shown h) _ hrest ?_
  rw [value_eq_shown, add_sub_cancel_right]

/-- Numbers are written with digits. -/
theorem isNumeralChar_of_isDigit {c : Char} (h : Json.isDigit c = true) :
    Json.isNumeralChar c = true := by
  rw [Json.isNumeralChar, h, Bool.true_or]

/-- The digits of a natural number are characters of numbers. -/
theorem isNumeralChar_of_mem_toDigits {n : Nat} {c : Char} (h : c ∈ Nat.toDigits 10 n) :
    Json.isNumeralChar c = true :=
  isNumeralChar_of_isDigit (Nat.isDigit_of_mem_toDigits (by decide) (by decide) h)

/-- Every layout is made of characters of numbers. -/
theorem isNumeralChar_of_mem_layout {digits : List Char} (h : Leads digits) (point : Int) :
    ∀ c ∈ layout digits point, Json.isNumeralChar c = true := by
  have hdigits : ∀ c ∈ digits, Json.isNumeralChar c = true := fun c hc =>
    isNumeralChar_of_isDigit (h.digit c hc)
  have hzeros : ∀ count, ∀ c ∈ List.replicate count '0', Json.isNumeralChar c = true := by
    intro count c hc
    rw [List.eq_of_mem_replicate hc]
    rfl
  have htake : ∀ count, ∀ c ∈ digits.take count, Json.isNumeralChar c = true := fun _ c hc =>
    hdigits c (List.mem_of_mem_take hc)
  have hdrop : ∀ count, ∀ c ∈ digits.drop count, Json.isNumeralChar c = true := fun _ c hc =>
    hdigits c (List.mem_of_mem_drop hc)
  have hsign : Json.isNumeralChar (if 0 ≤ point - 1 then '+' else '-') = true := by
    split <;> rfl
  have hexponent : ∀ c ∈ Nat.toDigits 10 (point - 1).natAbs, Json.isNumeralChar c = true :=
    fun _ => isNumeralChar_of_mem_toDigits
  have hmarks : Json.isNumeralChar '0' = true ∧ Json.isNumeralChar '.' = true ∧
      Json.isNumeralChar 'e' = true := by decide
  have hfraction : ∀ c ∈ (if digits.length = 1 then [] else '.' :: digits.drop 1),
      Json.isNumeralChar c = true := by
    split
    · exact List.forall_mem_nil _
    · exact List.forall_mem_cons.mpr ⟨hmarks.2.1, hdrop _⟩
  unfold layout
  split
  · exact List.forall_mem_append.mpr ⟨hdigits, hzeros _⟩
  split
  · exact List.forall_mem_append.mpr ⟨htake _, List.forall_mem_cons.mpr ⟨hmarks.2.1, hdrop _⟩⟩
  split
  · exact List.forall_mem_cons.mpr ⟨hmarks.1, List.forall_mem_cons.mpr
      ⟨hmarks.2.1, List.forall_mem_append.mpr ⟨hzeros _, hdigits⟩⟩⟩
  · simp only [List.forall_mem_append, List.forall_mem_cons]
    exact ⟨⟨htake _, hfraction⟩, hmarks.2.2, hsign, hexponent⟩

/-- Every layout begins with a digit. -/
theorem any_isDigit_head?_layout {digits : List Char} (h : Leads digits) (point : Int) :
    (layout digits point).head?.any Json.isDigit = true := by
  obtain ⟨first, others, rfl⟩ := List.exists_cons_of_ne_nil h.ne_nil
  have hfirst : Json.isDigit first = true := h.digit first List.mem_cons_self
  unfold layout
  split
  · exact hfirst
  split
  · next hinside =>
    obtain ⟨place, hplace⟩ : ∃ place, point.natAbs = place + 1 := ⟨point.natAbs - 1, by omega⟩
    rw [hplace]
    exact hfirst
  split
  · rfl
  · exact hfirst

end Decimal

namespace Number

/-! ## Integers -/

/-- The integer is a number of the format. -/
def IsExact (n : Int) : Prop := ofRat n = ofInt n

/-- The magnitude of a number of the format is one, too. -/
theorem IsExact.natAbs {n : Int} (h : IsExact n) : IsExact n.natAbs := by
  rcases Int.natAbs_eq n with hn | hn
  · rwa [← hn]
  rcases n.natAbs.eq_zero_or_pos with hzero | hpos
  · rw [hzero]
    rfl
  have hneg : (ofRat (n.natAbs : Int)).neg = finite (-((n.natAbs : Int) : ℚ)) := by
    rw [← ofRat_neg_of_pos (by exact_mod_cast hpos), ← Int.cast_neg, ← hn]
    exact h
  unfold IsExact
  cases hround : ofRat (n.natAbs : Int) with
  | finite q =>
    rw [hround] at hneg
    have hq : -q = -((n.natAbs : Int) : ℚ) := finite.inj hneg
    rw [neg_inj.mp hq]
    rfl
  | infinite negative =>
    rw [hround] at hneg
    cases hneg
  | undetermined =>
    rw [hround] at hneg
    cases hneg

/-- A decimal of some length is chosen only if it is read back as the number. -/
theorem readsBack_of_decimalOfLength? {q : ℚ} {count : Nat} {d : Decimal}
    (h : decimalOfLength? q count = some d) : d.readsBack q = true := by
  unfold decimalOfLength? at h
  revert h
  generalize neighbours q.num.natAbs q.den count = candidates
  intro h
  dsimp only at h
  split at h
  · cases h
  · next hbelow _ =>
    cases h
    exact hbelow
  · next _ habove =>
    cases h
    exact habove
  · next hbelow habove =>
    split_ifs at h <;> cases h <;> assumption

/-- The digits that are found for a natural number read back as it, or are exactly its value. -/
theorem shortestDecimal_reads (m : Nat) :
    (shortestDecimal m).readsBack m = true ∨ (shortestDecimal m).value = m := by
  unfold shortestDecimal
  cases hfound : (List.range' 1 17).findSome? (decimalOfLength? m) with
  | none =>
    right
    have hexact : exactDecimal m = ⟨m * 1 / 1, -((0 : Nat) : Int)⟩ := by
      rw [exactDecimal, Rat.num_natCast, Rat.den_natCast, Int.natAbs_natCast]
      rfl
    rw [Option.getD_none, hexact, Decimal.value_eq, Nat.mul_one, Nat.div_one, Nat.cast_zero,
      neg_zero, zpow_zero, mul_one]
  | some d =>
    left
    obtain ⟨count, -, hcount⟩ := List.exists_of_findSome?_eq_some hfound
    exact readsBack_of_decimalOfLength? hcount

/-- The shortest decimal of a positive number has a digit other than zero. -/
theorem digits_shortestDecimal_pos {m : Nat} (hm : 0 < m) : 0 < (shortestDecimal m).digits := by
  refine Nat.pos_of_ne_zero fun hzero => ?_
  have hvalue : (shortestDecimal m).value = 0 := by
    rw [Decimal.value_eq, hzero, Nat.cast_zero, zero_mul]
  have hne : (0 : ℚ) ≠ m := by exact_mod_cast hm.ne
  rcases shortestDecimal_reads m with h | h
  · rw [Decimal.readsBack, hvalue, decide_eq_true_eq] at h
    exact hne (finite.inj h)
  · exact hne (hvalue.symm.trans h)

/-- The shortest decimal of a number of the format is rounded to this number. -/
theorem ofRat_shortestDecimal {m : Nat} (h : IsExact m) :
    ofRat (shortestDecimal m).value = ofRat m := by
  rcases shortestDecimal_reads m with hreads | hvalue
  · rw [Decimal.readsBack, decide_eq_true_eq] at hreads
    exact hreads.trans h.symm
  · rw [hvalue]

/-- A numeral without a sign that is read as the natural number `m`, if this is a number of the
format. -/
structure Writes (written : List Char) (m : Nat) : Prop where
  digit : written.head?.any Json.isDigit = true
  numeral : ∀ c ∈ written, Json.isNumeralChar c = true
  reads : IsExact m → ∀ (negative : Bool) {rest : List Char}, Json.EndsNumeral rest →
    Json.magnitude negative (written ++ rest) =
      .ok (ofRat (if negative then -(m : ℚ) else m), rest)

/-- A natural number is written by its digits. -/
theorem writes_toDigits (m : Nat) : Writes (Nat.toDigits 10 m) m := by
  have hdigit : ∀ c ∈ Nat.toDigits 10 m, Json.isDigit c = true := fun c hc =>
    Nat.isDigit_of_mem_toDigits (by decide) (by decide) hc
  refine ⟨?_, fun c hc => Decimal.isNumeralChar_of_isDigit (hdigit c hc), ?_⟩
  · obtain ⟨first, others, hfirst⟩ := List.exists_cons_of_ne_nil (Nat.toDigits_ne_nil (n := m))
    rw [hfirst]
    exact hdigit first (hfirst ▸ List.mem_cons_self)
  · intro _ negative rest hrest
    rcases m.eq_zero_or_pos with rfl | hpos
    · refine Json.magnitude_of_parts negative rfl
        (Json.fractionPart_of_ne (hrest.head_ne rfl))
        (Json.exponentPart_of_ne (hrest.head_ne rfl) (hrest.head_ne rfl)) ?_
      simp [Json.digitsValue]
    · refine Decimal.magnitude_digits negative (Decimal.leads_toDigits hpos) hrest ?_
      rw [Json.digitsValue_eq, Nat.ofDigitChars_ten_toDigits]

/-- A positive number is written by the layout of its shortest decimal. -/
theorem writes_text {m : Nat} (hm : 0 < m) : Writes (shortestDecimal m).text.toList m := by
  have hdigits := digits_shortestDecimal_pos hm
  refine ⟨?_, ?_, ?_⟩
  · rw [Decimal.toList_text]
    exact Decimal.any_isDigit_head?_layout (Decimal.leads_shown hdigits) _
  · rw [Decimal.toList_text]
    exact Decimal.isNumeralChar_of_mem_layout (Decimal.leads_shown hdigits) _
  · intro hexact negative rest hrest
    rw [Decimal.magnitude_text negative hdigits hrest,
      ofRat_signed (Decimal.value_pos hdigits), ofRat_shortestDecimal hexact,
      ofRat_signed (Nat.cast_pos.mpr hm)]

/-- A numeral behind the sign of the integer `n`. -/
def signed (n : Int) (written : List Char) : List Char :=
  if n < 0 then '-' :: written else written

/-- The text of an integer is its sign and the digits of its magnitude. -/
theorem toList_toString (n : Int) :
    (toString n).toList = signed n (Nat.toDigits 10 n.natAbs) := by
  cases n with
  | ofNat m =>
    rw [signed, if_neg (by simp)]
    exact Nat.toList_repr
  | negSucc m =>
    rw [signed, if_pos (Int.negSucc_lt_zero m)]
    show ("-" ++ (m + 1).repr).toList = _
    rw [String.toList_append, Nat.toList_repr]
    rfl

/-- The text of a finite number is its sign and the layout of its shortest decimal. -/
theorem toList_finiteText {n : Int} (hn : n ≠ 0) :
    (finiteText n).toList = signed n (shortestDecimal n.natAbs).text.toList := by
  rw [finiteText, if_neg (Int.cast_ne_zero.mpr hn), signed]
  by_cases hneg : n < 0
  · have habs : -(n : ℚ) = (n.natAbs : ℚ) := by
      rw [Nat.cast_natAbs, abs_of_neg hneg, Int.cast_neg]
    rw [if_pos hneg, if_pos (Int.cast_lt_zero.mpr hneg), habs, String.toList_append]
    rfl
  · have habs : (n : ℚ) = (n.natAbs : ℚ) := by
      rw [Nat.cast_natAbs, abs_of_nonneg (not_lt.mp hneg)]
    rw [if_neg hneg, if_neg (mt Int.cast_lt_zero.mp hneg), habs]

/-- The text of an integer is its sign and a numeral of its magnitude. -/
theorem exists_writes_integerText (n : Int) :
    ∃ written, (integerText n).toList = signed n written ∧ Writes written n.natAbs := by
  unfold integerText
  split
  · exact ⟨_, toList_toString n, writes_toDigits n.natAbs⟩
  · next h =>
    have hpos : 0 < n.natAbs := lt_of_lt_of_le (Nat.pow_pos Nat.two_pos) (not_lt.mp h)
    exact ⟨_, toList_finiteText (Int.natAbs_pos.mp hpos), writes_text hpos⟩

/-- The text of an integer with all of its digits is its sign and a numeral of its magnitude. -/
theorem exists_writes_fixedText (n : Int) :
    ∃ written, (fixedText n).toList = signed n written ∧ Writes written n.natAbs := by
  unfold fixedText
  split
  · exact ⟨_, toList_toString n, writes_toDigits n.natAbs⟩
  · exact exists_writes_integerText n

section

variable {n : Int} {written rest : List Char}

/-- A signed numeral is read as the integer, with what comes behind it left over. -/
theorem Writes.numeral_signed (h : Writes written n.natAbs) (hexact : IsExact n)
    (hrest : Json.EndsNumeral rest) :
    Json.numeral (signed n written ++ rest) = .ok (ofInt n, rest) := by
  have hreads := h.reads hexact.natAbs
  obtain ⟨first, others, rfl⟩ : ∃ first others, written = first :: others :=
    List.exists_cons_of_ne_nil fun hnil => by
      have := h.digit
      rw [hnil] at this
      cases this
  by_cases hneg : n < 0
  · have hvalue : -(n.natAbs : ℚ) = n := by
      rw [Nat.cast_natAbs, abs_of_neg hneg, Int.cast_neg, neg_neg]
    have hfirst : ((first :: others) ++ rest).head?.any Json.isDigit = true := h.digit
    rw [signed, if_pos hneg, List.cons_append]
    simp only [Json.numeral, hfirst, if_true, hreads true hrest, hvalue]
    rw [hexact]
  · have hvalue : (n.natAbs : ℚ) = n := by
      rw [Nat.cast_natAbs, abs_of_nonneg (not_lt.mp hneg)]
    have hmagnitude := hreads false hrest
    rw [if_neg Bool.false_ne_true, hvalue, hexact] at hmagnitude
    rw [signed, if_neg hneg, ← hmagnitude]
    unfold Json.numeral
    split
    · next htext =>
      cases htext
      cases h.digit
    · rfl

/-- A sign and a numeral of the magnitude make up a number. -/
theorem Writes.isNumeral_signed (h : Writes written n.natAbs) :
    Json.IsNumeral (signed n written) := by
  unfold signed
  split
  · exact ⟨List.forall_mem_cons.mpr ⟨rfl, h.numeral⟩, '-', written, rfl, .inl rfl⟩
  · refine ⟨h.numeral, ?_⟩
    cases written with
    | nil => cases h.digit
    | cons first others => exact ⟨first, others, rfl, .inr h.digit⟩

/-- The text of an integer is a number. -/
theorem isNumeral_integerText (n : Int) : Json.IsNumeral (integerText n).toList := by
  obtain ⟨written, htext, hwrites⟩ := exists_writes_integerText n
  rw [htext]
  exact hwrites.isNumeral_signed

/-- The text of an integer with all of its digits is a number. -/
theorem isNumeral_fixedText (n : Int) : Json.IsNumeral (fixedText n).toList := by
  obtain ⟨written, htext, hwrites⟩ := exists_writes_fixedText n
  rw [htext]
  exact hwrites.isNumeral_signed

/-- The text of an integer of the format is read as this integer. -/
theorem numeral_integerText (hexact : IsExact n) (hrest : Json.EndsNumeral rest) :
    Json.numeral ((integerText n).toList ++ rest) = .ok (ofInt n, rest) := by
  obtain ⟨written, htext, hwrites⟩ := exists_writes_integerText n
  rw [htext]
  exact hwrites.numeral_signed hexact hrest

/-- The text of an integer with all of its digits is read as this integer. -/
theorem numeral_fixedText (hexact : IsExact n) (hrest : Json.EndsNumeral rest) :
    Json.numeral ((fixedText n).toList ++ rest) = .ok (ofInt n, rest) := by
  obtain ⟨written, htext, hwrites⟩ := exists_writes_fixedText n
  rw [htext]
  exact hwrites.numeral_signed hexact hrest

end

/-- Different integers have different numbers. -/
theorem eq_of_ofInt_eq {m n : Int} (h : ofInt m = ofInt n) : m = n := by
  have := congrArg toInt? h
  rwa [toInt?_ofInt, toInt?_ofInt, Option.some_inj] at this

/-- A text from which every number of the format is read back tells them apart. -/
theorem injOn_of_numeral {text : Int → String}
    (h : ∀ {n : Int} {rest : List Char}, IsExact n → Json.EndsNumeral rest →
      Json.numeral ((text n).toList ++ rest) = .ok (ofInt n, rest)) :
    Set.InjOn text {n | IsExact n} := by
  intro m hm n hn htext
  have hend : Json.EndsNumeral [] := by
    rintro c ⟨⟩
  have hread := h hm hend
  rw [htext, h hn hend, Except.ok.injEq, Prod.mk.injEq] at hread
  exact (eq_of_ofInt_eq hread.1).symm

/-- Integers of the format have different texts. -/
theorem injOn_integerText : Set.InjOn integerText {n | IsExact n} :=
  injOn_of_numeral numeral_integerText

/-- Integers of the format have different texts with all of their digits. -/
theorem injOn_fixedText : Set.InjOn fixedText {n | IsExact n} :=
  injOn_of_numeral numeral_fixedText

/-- The integers that fit into the significand are numbers of the format. -/
theorem isExact_of_natAbs_lt {n : Int} (h : n.natAbs < 2 ^ significantBits) : IsExact n := by
  have habs := ofRat_natCast h
  by_cases hneg : n < 0
  · have hvalue : (n : ℚ) = -(n.natAbs : ℚ) := by
      rw [Nat.cast_natAbs, abs_of_neg hneg, Int.cast_neg, neg_neg]
    have hpos : (0 : ℚ) < n.natAbs := Nat.cast_pos.mpr (Int.natAbs_pos.mpr hneg.ne)
    rw [IsExact, ofInt, hvalue, ofRat_neg_of_pos hpos, habs, neg]
  · have hvalue : (n : ℚ) = (n.natAbs : ℚ) := by
      rw [Nat.cast_natAbs, abs_of_nonneg (not_lt.mp hneg)]
    rw [IsExact, ofInt, hvalue, habs]

end Number

end SummaryInlining
