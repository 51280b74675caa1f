import Mathlib.Algebra.Order.Field.Power
import Mathlib.Tactic.Linarith
import Mathlib.Tactic.Positivity
import Mathlib.Tactic.Ring
import SummaryInlining.Number.Text

/-!
# Rounding to numbers of the format

A magnitude is rounded to a multiple of the power of two that is its last place, and the error is at
most half of that place (`exists_significand_of_nearestMagnitude`). So what is rounded to nothing is
beyond the format by far, and what is below half of the least number is rounded to zero. From this
it follows that `Number.ofDecimal`, which decides a decimal far outside of the range by its order of
magnitude alone, always answers what rounding the exact value gives (`ofDecimal_eq_ofRat`).
-/

set_option autoImplicit false

namespace SummaryInlining

/-- The powers of two are those of the rational numbers. -/
theorem cast_twoTo (n : Nat) : (twoTo n : ℚ) = 2 ^ n := Nat.cast_pow 2 n

/-- The powers of ten are those of the rational numbers. -/
theorem cast_tenTo (n : Nat) : (tenTo n : ℚ) = 10 ^ n := Nat.cast_pow 10 n

/-- A power with a negative exponent is the inverse of one with a natural exponent. -/
theorem zpow_of_neg {b : ℚ} {k : Int} (h : k < 0) : b ^ k = (b ^ k.natAbs)⁻¹ := by
  obtain ⟨n, rfl⟩ : ∃ n : Nat, k = -(n : Int) := ⟨k.natAbs, by omega⟩
  rw [zpow_neg, zpow_natCast, Int.natAbs_neg, Int.natAbs_natCast]

/-- A power with another exponent is one with a natural exponent. -/
theorem zpow_of_not_neg {b : ℚ} {k : Int} (h : ¬k < 0) : b ^ k = b ^ k.natAbs := by
  obtain ⟨n, rfl⟩ : ∃ n : Nat, k = n := ⟨k.natAbs, by omega⟩
  rw [zpow_natCast, Int.natAbs_natCast]

/-- The exact value is what the digits and the exponent say. -/
theorem Decimal.value_eq (d : Decimal) : d.value = d.digits * 10 ^ d.exponent := by
  unfold value
  split
  · next h => rw [zpow_of_neg h, Rat.mkRat_eq_div, Int.cast_natCast, cast_tenTo, div_eq_mul_inv]
  · next h => rw [zpow_of_not_neg h, Nat.cast_mul, cast_tenTo]

/-- A decimal with a digit other than zero is positive. -/
theorem Decimal.value_pos {d : Decimal} (h : 0 < d.digits) : 0 < d.value := by
  rw [value_eq]
  positivity

/-! ## The error of rounding -/

/-- Scaling a fraction divides it by a power of two. -/
theorem scaleDown_eq (num den : Nat) (shift : Int) :
    ((scaleDown num den shift).1 : ℚ) / (scaleDown num den shift).2 = num / den / 2 ^ shift := by
  unfold scaleDown
  split
  · next h =>
    rw [zpow_of_neg h, Nat.cast_mul, cast_twoTo, div_inv_eq_mul]
    ring
  · next h => rw [zpow_of_not_neg h, Nat.cast_mul, cast_twoTo, div_div]

/-- A scaled fraction still has a positive denominator. -/
theorem scaleDown_pos (num : Nat) {den : Nat} (hden : 0 < den) (shift : Int) :
    0 < (scaleDown num den shift).2 := by
  unfold scaleDown
  split
  · exact hden
  · exact Nat.mul_pos hden (Nat.pow_pos Nat.two_pos)

/-- The nearest integer is at most one half away. -/
theorem abs_divNearestEven_sub_le (num : Nat) {den : Nat} (hden : 0 < den) :
    |(divNearestEven num den : ℚ) - num / den| ≤ 1 / 2 := by
  have hbounds : 2 * (den * divNearestEven num den) ≤ 2 * num + den ∧
      2 * num ≤ 2 * (den * divNearestEven num den) + den := by
    have hsplit := Nat.div_add_mod num den
    have hmod := Nat.mod_lt num hden
    have hup : den * (num / den + 1) = den * (num / den) + den := Nat.mul_succ den _
    simp only [divNearestEven]
    split_ifs <;> omega
  have hpos : (0 : ℚ) < den := Nat.cast_pos.mpr hden
  obtain ⟨hle, hge⟩ := hbounds
  have hle' : 2 * ((den : ℚ) * divNearestEven num den) ≤ 2 * num + den := mod_cast hle
  have hge' : 2 * (num : ℚ) ≤ 2 * (den * divNearestEven num den) + den := mod_cast hge
  have hvalue : (den : ℚ) * (num / den) = num := mul_div_cancel₀ _ hpos.ne'
  rw [abs_sub_le_iff]
  constructor
  · refine le_of_mul_le_mul_left ?_ hpos
    linarith
  · refine le_of_mul_le_mul_left ?_ hpos
    linarith

/-- The binary exponent does not overestimate. -/
theorem zpow_binaryExponent_le {num den : Nat} (hnum : 0 < num) (hden : 0 < den) :
    (2 : ℚ) ^ binaryExponent num den ≤ num / den := by
  have hpos : (0 : ℚ) < den := Nat.cast_pos.mpr hden
  have hlow : (2 : ℚ) ^ num.log2 ≤ num := mod_cast Nat.log2_self_le hnum.ne'
  have hhigh : (den : ℚ) ≤ 2 ^ (den.log2 + 1) := mod_cast Nat.lt_log2_self.le
  simp only [binaryExponent]
  split
  · rw [le_div_iff₀ hpos]
    calc (2 : ℚ) ^ ((num.log2 : Int) - den.log2 - 1) * den
        ≤ 2 ^ ((num.log2 : Int) - den.log2 - 1) * 2 ^ (den.log2 + 1) := by gcongr
      _ = 2 ^ num.log2 := by
          rw [← zpow_natCast, ← zpow_natCast, ← zpow_add₀ two_ne_zero]
          congr 1
          push_cast
          ring
      _ ≤ num := hlow
  · next h =>
    have hratio := scaleDown_eq num den ((num.log2 : Int) - den.log2)
    have hone : 1 ≤ (num : ℚ) / den / 2 ^ ((num.log2 : Int) - den.log2) := by
      rw [← hratio, one_le_div (Nat.cast_pos.mpr (scaleDown_pos num hden _))]
      exact Nat.cast_le.mpr (not_lt.mp h)
    rwa [one_le_div (by positivity)] at hone

namespace Number

/-- The exponent of the last place that a magnitude is rounded to. -/
def lastPlace (num den : Nat) : Int :=
  max (binaryExponent num den - (significantBits - 1 : Nat)) leastExponent

/-- The multiple of its last place that a magnitude is rounded to. -/
def significand (num den : Nat) : Nat :=
  let scaled := scaleDown num den (lastPlace num den)
  divNearestEven scaled.1 scaled.2

/-- The nearest magnitude is the significand in its last place, unless this overflows. -/
theorem nearestMagnitude_eq (num den : Nat) :
    nearestMagnitude num den =
      if (significand num den : ℚ) * 2 ^ lastPlace num den < 2 ^ overflowExponent then
        some ((significand num den : ℚ) * 2 ^ lastPlace num den)
      else none := by
  have hvalue : (if lastPlace num den < 0 then
        mkRat (significand num den) (twoTo (lastPlace num den).natAbs)
      else ((significand num den * twoTo (lastPlace num den).natAbs : Nat) : Rat)) =
      (significand num den : ℚ) * 2 ^ lastPlace num den := by
    split
    · next h => rw [zpow_of_neg h, Rat.mkRat_eq_div, Int.cast_natCast, cast_twoTo, div_eq_mul_inv]
    · next h => rw [zpow_of_not_neg h, Nat.cast_mul, cast_twoTo]
  rw [← hvalue, ← cast_twoTo]
  rfl

/-- The significand is at most one half away from the fraction, counted in the last place. -/
theorem abs_significand_sub_le (num : Nat) {den : Nat} (hden : 0 < den) :
    |(significand num den : ℚ) - num / den / 2 ^ lastPlace num den| ≤ 1 / 2 := by
  rw [← scaleDown_eq]
  exact abs_divNearestEven_sub_le _ (scaleDown_pos num hden _)

/-- The powers of ten that `ofDecimal` compares with are beyond the format on either side. -/
theorem two_pow_le_ten_pow : 2 * 2 ^ overflowExponent ≤ 10 ^ 310 ∧ 2 ^ 1075 ≤ 10 ^ 330 := by
  decide +kernel

/-- The last place of a magnitude from one on is not beyond the magnitude. -/
theorem zpow_lastPlace_le {num den : Nat} (hnum : 0 < num) (hden : 0 < den)
    (hone : 1 ≤ (num : ℚ) / den) : (2 : ℚ) ^ lastPlace num den ≤ num / den := by
  rcases max_cases (binaryExponent num den - (significantBits - 1 : Nat)) leastExponent with
    ⟨hplace, -⟩ | ⟨hplace, -⟩
  · refine le_trans ?_ (zpow_binaryExponent_le hnum hden)
    rw [lastPlace, hplace]
    exact zpow_le_zpow_right₀ one_le_two (by omega)
  · refine le_trans ?_ hone
    rw [lastPlace, hplace]
    exact zpow_le_one_of_nonpos₀ one_le_two (by decide)

/-- A fraction of `10 ^ 310` or more is beyond the largest magnitude. -/
theorem nearestMagnitude_of_large {num den : Nat} (hnum : 0 < num) (hden : 0 < den)
    (h : (10 : ℚ) ^ 310 ≤ num / den) : nearestMagnitude num den = none := by
  have hplace := zpow_lastPlace_le hnum hden (le_trans (one_le_pow₀ (by norm_num)) h)
  have herror := (abs_sub_le_iff.mp (abs_significand_sub_le num hden)).2
  have hpos : (0 : ℚ) < 2 ^ lastPlace num den := by positivity
  have hhalf : (num : ℚ) / den ≤
      significand num den * 2 ^ lastPlace num den + 2 ^ lastPlace num den / 2 := by
    have hscaled : (num : ℚ) / den / 2 ^ lastPlace num den ≤ significand num den + 1 / 2 := by
      linarith
    rw [div_le_iff₀ hpos] at hscaled
    linarith
  have hten : 2 * (2 : ℚ) ^ overflowExponent ≤ num / den :=
    le_trans (mod_cast two_pow_le_ten_pow.1) h
  rw [nearestMagnitude_eq, if_neg]
  rw [not_lt]
  linarith only [hten, hhalf, hplace]

/-- A fraction below half of the smallest magnitude is rounded to zero. -/
theorem nearestMagnitude_of_small {num den : Nat} (hnum : 0 < num) (hden : 0 < den)
    (h : (num : ℚ) / den < 2 ^ (-1075 : Int)) : nearestMagnitude num den = some 0 := by
  have hplace : lastPlace num den = leastExponent := by
    have hexponent := (zpow_binaryExponent_le hnum hden).trans_lt h
    rw [zpow_lt_zpow_iff_right₀ one_lt_two] at hexponent
    rw [lastPlace, leastExponent]
    omega
  have hscaled : (num : ℚ) / den / 2 ^ lastPlace num den < 1 / 2 := by
    rw [hplace, div_lt_iff₀ (by positivity)]
    refine h.trans_eq ?_
    rw [show (-1075 : Int) = -1 + leastExponent from rfl, zpow_add₀ two_ne_zero, zpow_neg_one,
      one_div]
  have hzero : significand num den = 0 := by
    have herror := (abs_sub_le_iff.mp (abs_significand_sub_le num hden)).1
    have hlt : (significand num den : ℚ) < (1 : Nat) := by
      push_cast
      linarith
    have := Nat.cast_lt.mp hlt
    omega
  rw [nearestMagnitude_eq, hzero, Nat.cast_zero, zero_mul, if_pos (by positivity)]

/-- A natural number that fits into the significand is not rounded. -/
theorem nearestMagnitude_natCast {m : Nat} (hm : 0 < m) (h : m < 2 ^ significantBits) :
    nearestMagnitude m 1 = some (m : ℚ) := by
  have hplace : lastPlace m 1 ≤ 0 := by
    have hexponent := zpow_binaryExponent_le hm Nat.one_pos
    have hlt : (m : ℚ) / (1 : Nat) < 2 ^ (significantBits : Int) := by
      rw [Nat.cast_one, div_one, zpow_natCast]
      exact_mod_cast h
    have := (zpow_lt_zpow_iff_right₀ one_lt_two).mp (hexponent.trans_lt hlt)
    simp only [lastPlace, leastExponent, significantBits] at this ⊢
    omega
  -- the last place is not above the units, so the number is a multiple of it
  obtain ⟨k, hk⟩ : ∃ k : Nat, lastPlace m 1 = -(k : Int) := ⟨(lastPlace m 1).natAbs, by omega⟩
  have hsignificand : significand m 1 = m * 2 ^ k := by
    have herror := abs_significand_sub_le m Nat.one_pos
    rw [hk, Nat.cast_one, div_one, zpow_neg, zpow_natCast, div_inv_eq_mul] at herror
    have hnear : |((significand m 1 : Int) - (m * 2 ^ k : Nat) : ℚ)| < 1 := by
      push_cast
      exact herror.trans_lt (by norm_num)
    have hint : |(significand m 1 : Int) - (m * 2 ^ k : Nat)| < 1 := by exact_mod_cast hnear
    have := Int.abs_lt_one_iff.mp hint
    omega
  have hvalue : (significand m 1 : ℚ) * 2 ^ lastPlace m 1 = m := by
    rw [hsignificand, hk, zpow_neg, zpow_natCast, Nat.cast_mul, Nat.cast_pow, Nat.cast_ofNat,
      mul_assoc, mul_inv_cancel₀ (by positivity), mul_one]
  have hlt : (m : ℚ) < 2 ^ overflowExponent := by
    calc (m : ℚ) < 2 ^ significantBits := by exact_mod_cast h
      _ ≤ 2 ^ overflowExponent := pow_le_pow_right₀ one_le_two (by decide)
  rw [nearestMagnitude_eq, hvalue, if_pos hlt]

/-! ## Numbers nearest to a value -/

/-- The number nearest to zero is zero. -/
theorem ofRat_zero : ofRat 0 = .finite 0 := rfl

/-- The number nearest to a positive value has the nearest magnitude, or is infinite. -/
theorem ofRat_of_pos {q : ℚ} (h : 0 < q) :
    ofRat q = ((nearestMagnitude q.num.natAbs q.den).map finite).getD (.infinite false) := by
  rw [ofRat, if_neg h.ne']
  cases nearestMagnitude q.num.natAbs q.den with
  | none => simp [h.le]
  | some magnitude => simp [h.le]

/-- Rounding does not depend on the sign. -/
theorem ofRat_neg_of_pos {q : ℚ} (h : 0 < q) : ofRat (-q) = (ofRat q).neg := by
  rw [ofRat_of_pos h, ofRat, if_neg (neg_ne_zero.mpr h.ne'), Rat.num_neg_eq_neg_num,
    Rat.den_neg_eq_den, Int.natAbs_neg]
  cases nearestMagnitude q.num.natAbs q.den with
  | none => simp [neg, h]
  | some magnitude => simp [neg, h]

/-- A positive value is the quotient of its numerator and its denominator. -/
theorem cast_num_div_den_of_pos {q : ℚ} (h : 0 < q) : (q.num.natAbs : ℚ) / q.den = q := by
  rw [Nat.cast_natAbs, abs_of_pos (Rat.num_pos.mpr h), Rat.num_div_den]

/-- A value of `10 ^ 310` or more is rounded to infinity. -/
theorem ofRat_of_large {q : ℚ} (h : 10 ^ 310 ≤ q) : ofRat q = .infinite false := by
  have hpos : 0 < q := lt_of_lt_of_le (by positivity) h
  rw [ofRat_of_pos hpos, nearestMagnitude_of_large _ q.den_pos]
  · rfl
  · rwa [cast_num_div_den_of_pos hpos]
  · exact Int.natAbs_pos.mpr (Rat.num_ne_zero.mpr hpos.ne')

/-- A positive value below half of the smallest number is rounded to zero. -/
theorem ofRat_of_small {q : ℚ} (hpos : 0 < q) (h : q < 2 ^ (-1075 : Int)) :
    ofRat q = .finite 0 := by
  rw [ofRat_of_pos hpos, nearestMagnitude_of_small _ q.den_pos]
  · rfl
  · rwa [cast_num_div_den_of_pos hpos]
  · exact Int.natAbs_pos.mpr (Rat.num_ne_zero.mpr hpos.ne')

/-- A natural number with at most as many bits as a significand is not rounded. -/
theorem ofRat_natCast {m : Nat} (h : m < 2 ^ significantBits) : ofRat m = .finite m := by
  rcases m.eq_zero_or_pos with rfl | hpos
  · rfl
  · rw [ofRat_of_pos (Nat.cast_pos.mpr hpos), Rat.num_natCast, Rat.den_natCast,
      Int.natAbs_natCast, nearestMagnitude_natCast hpos h]
    rfl

/-- A value with a sign is rounded to the rounded value with this sign. -/
theorem ofRat_signed {q : ℚ} (hpos : 0 < q) (negative : Bool) :
    ofRat (if negative then -q else q) = if negative then (ofRat q).neg else ofRat q := by
  cases negative
  · rfl
  · exact ofRat_neg_of_pos hpos

/-- The order of magnitude of a decimal, by the number of its digits. -/
theorem value_bounds {d : Decimal} (h : 0 < d.digits) :
    (10 : ℚ) ^ ((Nat.toDigits 10 d.digits).length + d.exponent - 1) ≤ d.value ∧
      d.value < 10 ^ ((Nat.toDigits 10 d.digits).length + d.exponent) := by
  obtain ⟨n, hn⟩ : ∃ n, (Nat.toDigits 10 d.digits).length = n + 1 :=
    ⟨_, (Nat.succ_pred_eq_of_pos Nat.length_toDigits_pos).symm⟩
  have hlt : d.digits < 10 ^ (n + 1) :=
    (Nat.length_toDigits_le_iff (by decide) n.succ_pos).mp hn.le
  have hge : 10 ^ n ≤ d.digits := by
    rcases n.eq_zero_or_pos with rfl | hpos
    · exact h
    · refine not_lt.mp fun hsmall => ?_
      have := (Nat.length_toDigits_le_iff (by decide) hpos).mpr hsmall
      omega
  rw [Decimal.value_eq, hn]
  constructor
  · calc (10 : ℚ) ^ (((n + 1 : Nat) : Int) + d.exponent - 1) = 10 ^ n * 10 ^ d.exponent := by
          rw [← zpow_natCast, ← zpow_add₀ (by norm_num)]
          congr 1
          push_cast
          ring
      _ ≤ d.digits * 10 ^ d.exponent := by gcongr; exact_mod_cast hge
  · calc (d.digits : ℚ) * 10 ^ d.exponent < 10 ^ (n + 1) * 10 ^ d.exponent := by
          gcongr
          exact_mod_cast hlt
      _ = 10 ^ (((n + 1 : Nat) : Int) + d.exponent) := by
          rw [← zpow_natCast, ← zpow_add₀ (by norm_num)]

/-- What is decided by the order of magnitude alone is what rounding the exact value gives. -/
theorem ofDecimal_eq_ofRat (negative : Bool) (d : Decimal) :
    ofDecimal negative d.digits d.exponent = ofRat (if negative then -d.value else d.value) := by
  rcases d.digits.eq_zero_or_pos with hzero | hpos
  · have hvalue : d.value = 0 := by rw [Decimal.value_eq, hzero, Nat.cast_zero, zero_mul]
    rw [ofDecimal, if_pos hzero, hvalue, neg_zero, ite_self, ofRat_zero]
  have hvalue := Decimal.value_pos hpos
  obtain ⟨hlow, hhigh⟩ := value_bounds hpos
  rw [ofDecimal]
  simp only [if_neg hpos.ne']
  -- the bounds on the exponent are only shortcuts: beyond them the value rounds to the same
  split
  · next hlarge =>
    have hinfinite : 10 ^ 310 ≤ d.value := by
      refine le_trans ?_ hlow
      rw [← zpow_natCast]
      exact zpow_le_zpow_right₀ (by norm_num) (by omega)
    rw [ofRat_signed hvalue, ofRat_of_large hinfinite]
    cases negative <;> rfl
  · split
    · next hsmall =>
      have hten : (2 : ℚ) ^ 1075 ≤ 10 ^ 330 := mod_cast two_pow_le_ten_pow.2
      have hlittle : d.value < 2 ^ (-1075 : Int) := by
        refine hhigh.trans_le ?_
        calc (10 : ℚ) ^ ((Nat.toDigits 10 d.digits).length + d.exponent) ≤ 10 ^ (-330 : Int) :=
              zpow_le_zpow_right₀ (by norm_num) (by omega)
          _ = (10 ^ 330)⁻¹ := zpow_of_neg (show (-330 : Int) < 0 by decide)
          _ ≤ (2 ^ 1075)⁻¹ := inv_anti₀ (by positivity) hten
          _ = 2 ^ (-1075 : Int) := (zpow_of_neg (show (-1075 : Int) < 0 by decide)).symm
      rw [ofRat_signed hvalue, ofRat_of_small hvalue hlittle]
      cases negative
      · rfl
      · simp [neg]
    · rfl

end Number

end SummaryInlining
