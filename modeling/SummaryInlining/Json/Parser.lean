import SummaryInlining.Json.Basic
import SummaryInlining.Json.SyntaxError

/-!
# Reading JSON

The reader accepts exactly the strict grammar: no byte order mark, no comments, no trailing
commas, no raw control characters inside strings, no leading zeros, and digits on both sides of
a decimal point. Each rule takes a list of characters and answers what it read together with the
rest, which is shorter; that is why the recursion ends. Half a surrogate pair that stands alone in
an escape is read as U+FFFD, since a string holds characters only.
-/

set_option autoImplicit false

namespace SummaryInlining

namespace Json

/-- What a rule answers on `text`: a value, and the rest of the text after it. -/
abbrev Parsed (α : Type) (text : List Char) : Type :=
  α × { rest : List Char // rest.length < text.length }

/-- The four blanks of the grammar. -/
def isBlank (c : Char) : Bool := c = ' ' || c = '\n' || c = '\t' || c = '\r'

/-- The text after the blanks at its front. -/
def skipBlanks : List Char → List Char
  | [] => []
  | c :: rest => if isBlank c then skipBlanks rest else c :: rest

/-- Skipping blanks leaves no more text than there was. -/
theorem length_skipBlanks_le (text : List Char) : (skipBlanks text).length ≤ text.length := by
  induction text with
  | nil => simp [skipBlanks]
  | cons c rest ih =>
    simp only [skipBlanks]
    split
    · simp only [List.length_cons]; omega
    · simp

/-- The value of a hexadecimal digit in either case. -/
def hexValue? (c : Char) : Option Nat :=
  if '0' ≤ c ∧ c ≤ '9' then some (c.toNat - '0'.toNat)
  else if 'a' ≤ c ∧ c ≤ 'f' then some (c.toNat - 'a'.toNat + 10)
  else if 'A' ≤ c ∧ c ≤ 'F' then some (c.toNat - 'A'.toNat + 10)
  else none

/-- The code unit that four hexadecimal digits write. -/
def codeUnit? (a b c d : Char) : Option Nat := do
  return (((← hexValue? a) * 16 + (← hexValue? b)) * 16 + (← hexValue? c)) * 16 + (← hexValue? d)

/-- Whether a code unit opens a surrogate pair. -/
def opensPair (unit : Nat) : Bool := 0xD800 ≤ unit && unit < 0xDC00

/-- Whether a code unit closes a surrogate pair. -/
def closesPair (unit : Nat) : Bool := 0xDC00 ≤ unit && unit < 0xE000

/-- The character of a code unit that stands alone. Half a surrogate pair is no character, and every
such half is read as U+FFFD. -/
def loneUnit (unit : Nat) : Char :=
  if opensPair unit || closesPair unit then Char.ofNat 0xFFFD else Char.ofNat unit

/-- The character that two code units write, if they are a surrogate pair. -/
def pairedUnits? (first second : Nat) : Option Char :=
  if opensPair first && closesPair second then
    some (Char.ofNat (0x10000 + (first - 0xD800) * 1024 + (second - 0xDC00)))
  else none

/-- The character of the surrogate pair that the code unit `first` opens, if the text goes on with
an escape that closes it, and the text behind that escape. -/
def pairBehind? (first : Nat) : List Char → Option (Char × List Char)
  | '\\' :: 'u' :: a :: b :: c :: d :: rest =>
    ((codeUnit? a b c d).bind (pairedUnits? first)).map (·, rest)
  | _ => none

/-- The character that an escape of a single letter stands for. -/
def letterEscape? (c : Char) : Option Char :=
  if c = '"' then some '"'
  else if c = '\\' then some '\\'
  else if c = '/' then some '/'
  else if c = 'b' then some (Char.ofNat 8)
  else if c = 'f' then some (Char.ofNat 12)
  else if c = 'n' then some '\n'
  else if c = 'r' then some '\r'
  else if c = 't' then some '\t'
  else none

/-- The character that an escape stands for, given the text behind its backslash, and the text
behind the escape. -/
def escape (text : List Char) : Except Refusal (Char × List Char) :=
  match text with
  | 'u' :: a :: b :: c :: d :: rest =>
    match codeUnit? a b c d with
    | none => .error (.unexpected text)
    | some unit => .ok ((pairBehind? unit rest).getD (loneUnit unit, rest))
  | c :: rest =>
    match letterEscape? c with
    | none => .error (.unexpected text)
    | some meant => .ok (meant, rest)
  | [] => .error (.unexpected [])

/-- What is left behind the second half of a pair is no longer than the text in which it stands. -/
theorem length_le_of_pairBehind? {first : Nat} {text rest : List Char} {c : Char}
    (h : pairBehind? first text = some (c, rest)) : rest.length ≤ text.length := by
  unfold pairBehind? at h
  split at h
  · obtain ⟨d, _, he⟩ := Option.map_eq_some_iff.mp h
    cases he
    simp only [List.length_cons]
    omega
  · cases h

/-- An escape takes at least one character. -/
theorem length_lt_of_escape {text rest : List Char} {c : Char}
    (h : escape text = .ok (c, rest)) : rest.length < text.length := by
  unfold escape at h
  split at h
  · next a b c' d behind =>
    split at h
    · cases h
    · next unit _ =>
      cases hp : pairBehind? unit behind with
      | none =>
        simp only [hp, Option.getD_none] at h
        cases h
        simp only [List.length_cons]
        omega
      | some found =>
        simp only [hp, Option.getD_some] at h
        cases h
        have := length_le_of_pairBehind? hp
        simp only [List.length_cons]
        omega
  · split at h
    · cases h
    · cases h
      simp
  · cases h

/-- The string whose characters go on up to the closing quotation mark, and the text behind that
mark. The characters read so far are in `read`, the latest one first. -/
def stringBody (text read : List Char) : Except Refusal (String × List Char) :=
  match text with
  | [] => .error (.unexpected [])
  | '"' :: rest => .ok (String.ofList read.reverse, rest)
  | '\\' :: rest =>
    match h : escape rest with
    | .error e => .error e
    | .ok (c, behind) =>
      have := length_lt_of_escape h
      stringBody behind (c :: read)
  | c :: rest => if c.toNat < 32 then .error (.unexpected text) else stringBody rest (c :: read)
termination_by text.length
decreasing_by
  · simp only [List.length_cons]; omega
  · simp

/-- The rest of a string takes at least its closing quotation mark. -/
theorem length_lt_of_stringBody {text read rest : List Char} {s : String}
    (h : stringBody text read = .ok (s, rest)) : rest.length < text.length := by
  fun_induction stringBody text read with
  | case1 => cases h
  | case2 read rest' =>
    cases h
    simp
  | case3 => cases h
  | case4 read rest' c behind he shorter ih =>
    have := ih h
    simp only [List.length_cons]
    omega
  | case5 => cases h
  | case6 read c rest' _ _ _ ih =>
    have := ih h
    simp only [List.length_cons]
    omega

/-- Whether a character is a decimal digit. -/
def isDigit (c : Char) : Bool := '0' ≤ c && c ≤ '9'

/-- The number that a list of decimal digits writes. -/
def digitsValue (digits : List Char) : Nat :=
  digits.foldl (fun n c => n * 10 + (c.toNat - '0'.toNat)) 0

/-- The digits at the front of a text, at least one, and the rest behind them. -/
def digits1 (text : List Char) : Except Refusal (List Char × List Char) :=
  let digits := text.takeWhile isDigit
  if digits.isEmpty then .error (.unexpected text) else .ok (digits, text.dropWhile isDigit)

/-- The digits before the point: a zero alone, or digits that do not begin with a zero. -/
def integerPart (text : List Char) : Except Refusal (List Char × List Char) :=
  match text with
  | '0' :: rest => .ok (['0'], rest)
  | _ => digits1 text

/-- The digits behind a point, if the text begins with a point. -/
def fractionPart (text : List Char) : Except Refusal (List Char × List Char) :=
  match text with
  | '.' :: rest => digits1 rest
  | _ => .ok ([], text)

/-- The exponent that its digits and an optional sign write. -/
def signedDigits (text : List Char) : Except Refusal (Int × List Char) :=
  match text with
  | '-' :: rest => (digits1 rest).map fun read => (-(digitsValue read.1 : Int), read.2)
  | '+' :: rest => (digits1 rest).map fun read => ((digitsValue read.1 : Int), read.2)
  | _ => (digits1 text).map fun read => ((digitsValue read.1 : Int), read.2)

/-- The exponent behind its mark, or zero if the text does not begin with the mark. -/
def exponentPart (text : List Char) : Except Refusal (Int × List Char) :=
  match text with
  | 'e' :: rest => signedDigits rest
  | 'E' :: rest => signedDigits rest
  | _ => .ok (0, text)

/-- The number without its sign at the front of a text, and the rest behind it. -/
def magnitude (negative : Bool) (text : List Char) : Except Refusal (Number × List Char) := do
  let (whole, afterWhole) ← integerPart text
  let (fraction, afterFraction) ← fractionPart afterWhole
  let (exponent, behind) ← exponentPart afterFraction
  let digits := digitsValue (whole ++ fraction)
  return (Number.ofDecimal negative digits (exponent - fraction.length), behind)

/-- The number at the front of a text, and the rest behind it. -/
def numeral (text : List Char) : Except Refusal (Number × List Char) :=
  match text with
  | '-' :: rest => if rest.head?.any isDigit then magnitude true rest else .error (.noDigit rest)
  | _ => magnitude false text

/-- A word of the grammar at the front of a text. -/
def word (letters : List Char) (value : Json) (text : List Char) :
    Except Refusal (Json × List Char) :=
  match letters, text with
  | [], rest => .ok (value, rest)
  | _ :: _, [] => .error (.unexpected [])
  | l :: ls, c :: rest => if l = c then word ls value rest else .error (.unexpected text)

/-- A value that is neither a string nor an array nor an object. -/
def scalar (text : List Char) : Except Refusal (Json × List Char) :=
  match text with
  | [] => .error (.unexpected [])
  | c :: _ =>
    if c = 't' then word ['t', 'r', 'u', 'e'] (.bool true) text
    else if c = 'f' then word ['f', 'a', 'l', 's', 'e'] (.bool false) text
    else if c = 'n' then word ['n', 'u', 'l', 'l'] .null text
    else if c = '-' || isDigit c then do
      let (n, rest) ← numeral text
      return (.number n, rest)
    else .error (.unexpected text)

/-- A nonempty row of digits takes at least one character. -/
theorem length_lt_of_digits1 {text digits rest : List Char}
    (h : digits1 text = .ok (digits, rest)) : rest.length < text.length := by
  unfold digits1 at h
  cases text with
  | nil => cases h
  | cons c behind =>
    by_cases hc : isDigit c
    · simp [hc] at h
      have := (List.dropWhile_sublist (l := behind) isDigit).length_le
      simp only [List.length_cons, ← h.2]
      omega
    · simp [hc] at h

/-- The part of a numeral in front of the point takes at least one digit. -/
theorem length_lt_of_integerPart {text digits rest : List Char}
    (h : integerPart text = .ok (digits, rest)) : rest.length < text.length := by
  unfold integerPart at h
  split at h
  · cases h
    simp
  · exact length_lt_of_digits1 h

/-- The part of a numeral behind the point may be missing, and then takes nothing. -/
theorem length_le_of_fractionPart {text digits rest : List Char}
    (h : fractionPart text = .ok (digits, rest)) : rest.length ≤ text.length := by
  unfold fractionPart at h
  split at h
  · have := length_lt_of_digits1 h
    simp only [List.length_cons]
    omega
  · cases h
    simp

/-- Giving a row of digits a sign does not change what is left behind it. -/
theorem length_lt_of_map_digits1 {text rest : List Char} {n : Int} (signed : List Char → Int)
    (h : (digits1 text).map (fun read => (signed read.1, read.2)) = .ok (n, rest)) :
    rest.length < text.length := by
  cases hd : digits1 text with
  | error e =>
    rw [hd] at h
    cases h
  | ok read =>
    rw [hd] at h
    cases h
    exact length_lt_of_digits1 hd

/-- Digits with an optional sign take at least one character. -/
theorem length_lt_of_signedDigits {text rest : List Char} {n : Int}
    (h : signedDigits text = .ok (n, rest)) : rest.length < text.length := by
  unfold signedDigits at h
  split at h
  · have := length_lt_of_map_digits1 (fun digits => -(digitsValue digits : Int)) h
    simp only [List.length_cons]
    omega
  · have := length_lt_of_map_digits1 (fun digits => (digitsValue digits : Int)) h
    simp only [List.length_cons]
    omega
  · exact length_lt_of_map_digits1 (fun digits => (digitsValue digits : Int)) h

/-- An exponent may be missing, and then takes nothing. -/
theorem length_le_of_exponentPart {text rest : List Char} {n : Int}
    (h : exponentPart text = .ok (n, rest)) : rest.length ≤ text.length := by
  unfold exponentPart at h
  split at h
  · have := length_lt_of_signedDigits h
    simp only [List.length_cons]
    omega
  · have := length_lt_of_signedDigits h
    simp only [List.length_cons]
    omega
  · cases h
    simp

/-- A numeral without its sign takes at least one digit. -/
theorem length_lt_of_magnitude {negative : Bool} {text rest : List Char} {n : Number}
    (h : magnitude negative text = .ok (n, rest)) : rest.length < text.length := by
  simp only [magnitude, bind, Except.bind] at h
  split at h
  · cases h
  · next whole hw =>
    split at h
    · cases h
    · next fraction hf =>
      split at h
      · cases h
      · next exponent he =>
        cases h
        have := length_lt_of_integerPart hw
        have := length_le_of_fractionPart hf
        have := length_le_of_exponentPart he
        omega

/-- A numeral takes at least one digit. -/
theorem length_lt_of_numeral {text rest : List Char} {n : Number}
    (h : numeral text = .ok (n, rest)) : rest.length < text.length := by
  unfold numeral at h
  split at h
  · split at h
    · have := length_lt_of_magnitude h
      simp only [List.length_cons]
      omega
    · cases h
  · exact length_lt_of_magnitude h

/-- A literal word takes as many characters as it has letters. -/
theorem length_of_word {letters text rest : List Char} {v w : Json}
    (h : word letters v text = .ok (w, rest)) : rest.length + letters.length = text.length := by
  fun_induction word letters v text with
  | case1 text =>
    cases h
    simp
  | case2 => cases h
  | case3 ls c r ih =>
    have := ih h
    simp only [List.length_cons]
    omega
  | case4 => cases h

/-- A value without parts takes at least one character. -/
theorem length_lt_of_scalar {text rest : List Char} {v : Json}
    (h : scalar text = .ok (v, rest)) : rest.length < text.length := by
  unfold scalar at h
  split at h
  · cases h
  · next c behind =>
    split at h
    · have := length_of_word h
      simp only [List.length_cons, List.length_nil] at *
      omega
    split at h
    · have := length_of_word h
      simp only [List.length_cons, List.length_nil] at *
      omega
    split at h
    · have := length_of_word h
      simp only [List.length_cons, List.length_nil] at *
      omega
    split at h
    · simp only [bind, Except.bind] at h
      split at h
      · cases h
      · next n hn =>
        cases h
        exact length_lt_of_numeral hn
    · cases h

mutual

/-- The value at the front of a text, behind blanks. -/
def value (text : List Char) : Except Refusal (Parsed Json text) :=
  have blanks := length_skipBlanks_le text
  match h : skipBlanks text with
  | [] => .error (.unexpected [])
  | '"' :: rest =>
    match hs : stringBody rest [] with
    | .error e => .error e
    | .ok (s, r) =>
      have := length_lt_of_stringBody hs
      .ok (.string s, ⟨r, by simp only [h, List.length_cons] at blanks; omega⟩)
  | '[' :: rest => do
    have inner := length_skipBlanks_le rest
    match h' : skipBlanks rest with
    | ']' :: behind =>
      return (.array [], ⟨behind, by simp only [h, h', List.length_cons] at *; omega⟩)
    | _ => do
      let (vs, ⟨r, hr⟩) ← items rest
      return (.array vs, ⟨r, by simp only [h, List.length_cons] at *; omega⟩)
  | '\x7b' :: rest => do
    have inner := length_skipBlanks_le rest
    match h' : skipBlanks rest with
    | '\x7d' :: behind =>
      return (.object [], ⟨behind, by simp only [h, h', List.length_cons] at *; omega⟩)
    | _ => do
      let (ms, ⟨r, hr⟩) ← members rest
      return (Json.ofMembers ms, ⟨r, by simp only [h, List.length_cons] at *; omega⟩)
  | c :: rest =>
    match hs : scalar (c :: rest) with
    | .error e => .error e
    | .ok (v, r) =>
      have := length_lt_of_scalar hs
      .ok (v, ⟨r, by simp only [h, List.length_cons] at *; omega⟩)
termination_by (text.length, 0)
decreasing_by all_goals (simp only [h, List.length_cons] at *; simp [Prod.lex_def]; omega)

/-- The items of an array from its first one up to the closing bracket. -/
def items (text : List Char) : Except Refusal (Parsed (List Json) text) := do
  let (v, ⟨behindValue, hv⟩) ← value text
  have blanks := length_skipBlanks_le behindValue
  match h : skipBlanks behindValue with
  | ',' :: rest => do
    let (vs, ⟨r, hr⟩) ← items rest
    return (v :: vs, ⟨r, by simp only [h, List.length_cons] at *; omega⟩)
  | ']' :: rest => return ([v], ⟨rest, by simp only [h, List.length_cons] at *; omega⟩)
  | other => .error (.unexpected other)
termination_by (text.length, 1)
decreasing_by
  · simp [Prod.lex_def]
  · simp only [h, List.length_cons] at *; simp [Prod.lex_def]; omega

/-- The members of an object, from the first one up to the closing brace. -/
def members (text : List Char) : Except Refusal (Parsed (List (String × Json)) text) := do
  have beforeName := length_skipBlanks_le text
  match hn : skipBlanks text with
  | '"' :: afterQuote =>
    match hs : stringBody afterQuote [] with
    | .error e => .error e
    | .ok (name, behindName) => do
      have named := length_lt_of_stringBody hs
      have beforeColon := length_skipBlanks_le behindName
      match hc : skipBlanks behindName with
      | ':' :: afterColon => do
        let (v, ⟨behindValue, hv⟩) ← value afterColon
        have blanks := length_skipBlanks_le behindValue
        match h : skipBlanks behindValue with
        | ',' :: rest => do
          let (ms, ⟨r, hr⟩) ← members rest
          return ((name, v) :: ms, ⟨r, by simp only [h, hn, hc, List.length_cons] at *; omega⟩)
        | '\x7d' :: rest =>
          return ([(name, v)], ⟨rest, by simp only [h, hn, hc, List.length_cons] at *; omega⟩)
        | other => .error (.unexpected other)
      | other => .error (.unexpected other)
  | other => .error (.unexpected other)
termination_by (text.length, 1)
decreasing_by
  · simp only [hn, hc, List.length_cons] at *; simp [Prod.lex_def]; omega
  · simp only [h, hn, hc, List.length_cons] at *; simp [Prod.lex_def]; omega

end

/-- The value that a whole text writes, with blanks around it. -/
def wholeValue (text : List Char) : Except Refusal Json := do
  let (v, ⟨rest, _⟩) ← value text
  match skipBlanks rest with
  | [] => return v
  | other => .error (.unexpected other)

/-- The value that a text writes. -/
def parse (text : String) : Except SyntaxError Json :=
  (wholeValue text.toList).mapError fun refusal => ⟨text.toList, refusal⟩

end Json

end SummaryInlining
