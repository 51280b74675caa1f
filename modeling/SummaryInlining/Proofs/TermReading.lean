import SummaryInlining.Proofs.NumberReading
import SummaryInlining.Proofs.PlainTerms

/-!
# Reading terms back

A reader for the texts of terms, given a way to read their numerals. It decides by the first
character what it reads, and by what stands between two operands in parentheses what they are
operands of; the sorts of the operands say which of the equalities it is. Only one decision comes
later: whether a list is the list that an element is taken from shows in the bracket behind it
(`indexed`).

The reader gets each term back from its text, up to what is written alike (`restores_expr`),
whatever comes after the text, as long as this does not go on with a numeral. It needs a bound on
the depth of the term, and the size of the term is one.
-/

set_option autoImplicit false

namespace SummaryInlining

/-- The connectives that take any number of operands. -/
inductive Junction where
  | and
  | or

namespace Junction

/-- The character that stands twice between two operands. -/
def mark : Junction → Char
  | and => '&'
  | or => '|'

/-- The word between two operands. -/
def word (j : Junction) : String := String.ofList [j.mark, j.mark]

def build : Junction → List (Term .bool) → Term .bool
  | and => .and
  | or => .or

/-- The connective that a word stands for. -/
def ofWord? (word : String) : Option Junction :=
  if word = Junction.and.word then some .and
  else if word = Junction.or.word then some .or
  else none

/-- A connective is known by its word. -/
theorem ofWord?_word (j : Junction) : ofWord? j.word = some j := by
  cases j <;> rfl

end Junction

/-- What the numerals of a text are read as. Those behind the letter of a variable are written in
another way than the others. -/
structure NumberReader where
  id : List Char → Int
  value : List Char → Int

namespace Term

mutual

/-- The numbers that a term is written with: those of its variables, its literals and the positions
of elements. -/
def numbers {s : ValueSort} : Term s → List Int
  | .var _ id => [id]
  | .literal n => [n]
  | .length l => l.numbers
  | .element i l => i :: l.numbers
  | .arith _ l r => l.numbers ++ r.numbers
  | .list elements => elementNumbers elements
  | .broadcast l r => l.numbers ++ r.numbers
  | .truth _ => []
  | .not p => p.numbers
  | .and operands => operandNumbers operands
  | .or operands => operandNumbers operands
  | .compare _ l r => l.numbers ++ r.numbers
  | .listEq l r => l.numbers ++ r.numbers
  | .boolEq p q => p.numbers ++ q.numbers

def elementNumbers : List (Option (Term .int)) → List Int
  | [] => []
  | none :: rest => elementNumbers rest
  | some e :: rest => e.numbers ++ elementNumbers rest

def operandNumbers : List (Term .bool) → List Int
  | [] => []
  | p :: rest => p.numbers ++ operandNumbers rest

end

/-- The numbers of an element are among those of the list. -/
theorem mem_elementNumbers {es : List (Option (Term .int))} {e : Term .int} {n : Int}
    (he : some e ∈ es) (hn : n ∈ e.numbers) : n ∈ elementNumbers es := by
  induction es with
  | nil => cases he
  | cons o rest ih =>
    rcases List.mem_cons.mp he with rfl | hrest
    · exact List.mem_append_left _ hn
    · cases o with
      | none => exact ih hrest
      | some other => exact List.mem_append_right _ (ih hrest)

/-- The numbers of an operand are among those of the operands. -/
theorem mem_operandNumbers {ps : List (Term .bool)} {p : Term .bool} {n : Int} (hp : p ∈ ps)
    (hn : n ∈ p.numbers) : n ∈ operandNumbers ps := by
  induction ps with
  | nil => cases hp
  | cons q rest ih =>
    rcases List.mem_cons.mp hp with rfl | hrest
    · exact List.mem_append_left _ hn
    · exact List.mem_append_right _ (ih hrest)

end Term

namespace NumberReader

open Json (isNumeralChar EndsNumeral)

/-! ## The reader -/

/-- What comes after a word at the front of a text. -/
def skip (word text : List Char) : Option (List Char) :=
  if word.isPrefixOf text then some (text.drop word.length) else none

/-- Items with separators between them, up to and including the character that stops them. -/
def separated {α : Type} (item : List Char → Option (α × List Char)) (separator : List Char)
    (stop : Char) : Nat → List Char → Option (List α × List Char)
  | 0, _ => none
  | fuel + 1, text => do
    let (a, behind) ← item text
    if behind.head? = some stop then return ([a], behind.tail)
    else
      let (others, last) ← separated item separator stop fuel (← skip separator behind)
      return (a :: others, last)

variable (numbers : NumberReader) (read : List Char → Option (Expr × List Char))

/-- The variable of the number at the front of a text. -/
def var (s : ValueSort) (text : List Char) : Expr × List Char :=
  ((Term.var s (numbers.id (text.takeWhile isNumeralChar))).toExpr, text.dropWhile isNumeralChar)

/-- The number at the front of a text. -/
def literal (text : List Char) : Expr × List Char :=
  ((Term.literal (numbers.value (text.takeWhile isNumeralChar))).toExpr,
    text.dropWhile isNumeralChar)

/-- A list, or the element of it at the position that is written behind it. -/
def indexed (e : Expr) (text : List Char) : Option (Expr × List Char) :=
  match e with
  | ⟨.list, l⟩ =>
    if text.head? = some '[' then do
      let index := numbers.value (text.tail.takeWhile isNumeralChar)
      return ((Term.element index l).toExpr, ← skip [']'] (text.tail.dropWhile isNumeralChar))
    else some (⟨.list, l⟩, text)
  | e => some (e, text)

/-- The length of a list, behind `len(`. -/
def length (text : List Char) : Option (Expr × List Char) := do
  let (e, behind) ← read text
  return ((Term.length (← e.as? .list)).toExpr, ← skip [')'] behind)

/-- Two lists that are broadcast, behind `broadcast(`. -/
def broadcast (text : List Char) : Option (Expr × List Char) := do
  let (e, behind) ← read text
  let (e', last) ← read (← skip [',', ' '] behind)
  return ((Term.broadcast (← e.as? .list) (← e'.as? .list)).toExpr, ← skip [')'] last)

/-- A term of the sort `s`. -/
def term (s : ValueSort) (text : List Char) : Option (Term s × List Char) := do
  let (e, behind) ← read text
  return (← e.as? s, behind)

/-- An element of a list; a star is an unknown one. -/
def element (text : List Char) : Option (Option (Term .int) × List Char) :=
  if text.head? = some '*' then some (none, text.tail)
  else (term read .int text).map fun (e, behind) => (some e, behind)

/-- The elements of a list, behind the bracket that opens it. -/
def list (fuel : Nat) (text : List Char) : Option (Expr × List Char) :=
  if text.head? = some ']' then some ((Term.list []).toExpr, text.tail)
  else (separated (element read) [',', ' '] ']' fuel text).map fun (es, behind) =>
    ((Term.list es).toExpr, behind)

/-- The term that has two operands with a word between them. -/
def combine (word : String) : Expr → Expr → Option Expr
  | ⟨.int, l⟩, ⟨.int, r⟩ =>
    match ArithOp.all.find? (·.symbol = word), Comparison.all.find? (·.symbol = word) with
    | some op, _ => some (Term.arith op l r).toExpr
    | none, some op => some (Term.compare op l r).toExpr
    | none, none => none
  | ⟨.list, l⟩, ⟨.list, r⟩ => if word = "=" then some (Term.listEq l r).toExpr else none
  | ⟨.bool, p⟩, ⟨.bool, q⟩ => if word = "=" then some (Term.boolEq p q).toExpr else none
  | _, _ => none

/-- What comes after the first operand in parentheses and the word behind it. -/
def operands (fuel : Nat) (e : Expr) (word : String) (text : List Char) :
    Option (Expr × List Char) :=
  match Junction.ofWord? word with
  | some j => do
    let (ps, behind) ← separated (term read .bool) [' ', j.mark, j.mark, ' '] ')' fuel text
    return ((j.build ((← e.as? .bool) :: ps)).toExpr, behind)
  | none => do
    let (e', behind) ← read text
    return (← combine word e e', ← skip [')'] behind)

/-- The operands in parentheses and what they are operands of, behind the parenthesis that opens
them. -/
def parenthesized (fuel : Nat) (text : List Char) : Option (Expr × List Char) := do
  let (e, behind) ← read text
  if behind.head? = some ')' then return ((Term.and [← e.as? .bool]).toExpr, behind.tail)
  else
    operands read fuel e (String.ofList (behind.tail.takeWhile (· != ' ')))
      (behind.tail.dropWhile (· != ' ')).tail

/-- A term at the front of a text, up to a position that may be written behind a list. -/
def front (fuel : Nat) : List Char → Option (Expr × List Char)
  | [] => none
  | c :: rest =>
    if isNumeralChar c then some (numbers.literal (c :: rest))
    else if c = 'i' then some (numbers.var .int rest)
    else if c = 'l' then
      match skip ['e', 'n', '('] rest with
      | some inside => length read inside
      | none => some (numbers.var .list rest)
    else if c = 'b' then
      match skip ['r', 'o', 'a', 'd', 'c', 'a', 's', 't', '('] rest with
      | some inside => broadcast read inside
      | none => some (numbers.var .bool rest)
    else if c = 't' then
      (skip ['r', 'u', 'e'] rest).map fun behind => ((Term.truth true).toExpr, behind)
    else if c = 'f' then
      (skip ['a', 'l', 's', 'e'] rest).map fun behind => ((Term.truth false).toExpr, behind)
    else if c = '!' then
      (term read .bool rest).map fun (p, behind) => ((Term.not p).toExpr, behind)
    else if c = '[' then list read fuel rest
    else if c = '(' then parenthesized read fuel rest
    else none

/-- The term at the front of a text, if it is not deeper than the bound, and what comes after it. -/
def expr : Nat → List Char → Option (Expr × List Char)
  | 0, _ => none
  | fuel + 1, text => do
    let (e, behind) ← front numbers (expr fuel) fuel text
    numbers.indexed e behind

/-! ## What is read -/

/-- The numbers of `S` are read back from their texts. -/
def Reads (S : Set Int) : Prop :=
  ∀ n ∈ S, numbers.id (Number.integerText n).toList = n ∧
    numbers.value (Number.fixedText n).toList = n

/-- The text of a term is read as this term, up to what is written alike, and then as the element
of it if a position is written behind it. -/
def Restores {s : ValueSort} (e : Term s) : Prop :=
  ∀ rest, EndsNumeral rest → read (e.text.toList ++ rest) = numbers.indexed e.plain.toExpr rest

/-- The character comes after a term that is part of another one. -/
structure Delimits (c : Char) : Prop where
  not_numeral : isNumeralChar c = false
  not_index : c ≠ '['

/-- A character that comes after a term ends the last number of it. -/
theorem Delimits.ends {c : Char} (hc : Delimits c) (rest : List Char) :
    EndsNumeral (c :: rest) := by
  rintro d ⟨⟩
  exact hc.not_numeral

/-- A word is skipped where it stands. -/
theorem skip_append (word rest : List Char) : skip word (word ++ rest) = some rest := by
  simp [skip]

/-- A character is skipped where it stands. -/
theorem skip_singleton (c : Char) (rest : List Char) : skip [c] (c :: rest) = some rest :=
  skip_append [c] rest

/-- A term is the term of its sort that it was made into. -/
theorem as?_toExpr {s : ValueSort} (e : Term s) : e.toExpr.as? s = some e :=
  Expr.as?_eq_some_iff.mpr rfl

section

variable {numbers} {read} {s : ValueSort} {e : Term s} {c : Char} {fuel : Nat}

/-- Only a position is read as the place in a list. -/
theorem indexed_of_ne {rest : List Char} (h : rest.head? ≠ some '[') (e : Expr) :
    numbers.indexed e rest = some (e, rest) := by
  obtain ⟨s, e⟩ := e
  cases s with
  | list => exact if_neg h
  | int => rfl
  | bool => rfl

/-- In front of a character that comes after a term no position is read. -/
theorem Restores.delimited (h : numbers.Restores read e) (hc : Delimits c) (rest : List Char) :
    read (e.text.toList ++ c :: rest) = some (e.plain.toExpr, c :: rest) := by
  rw [h _ (hc.ends rest), indexed_of_ne]
  intro hhead
  exact hc.not_index (Option.some.inj hhead)

/-- Nothing is read where a term cannot begin. -/
structure Refuses (read : List Char → Option (Expr × List Char)) : Prop where
  nil : read [] = none
  star : ∀ rest, read ('*' :: rest) = none
  bracket : ∀ rest, read (']' :: rest) = none

/-- So the text of a term is not the star, and not the end of a list. -/
theorem Restores.exists_first (h : numbers.Restores read e) (hread : Refuses read) :
    ∃ first others, e.text.toList = first :: others ∧ first ≠ '*' ∧ first ≠ ']' := by
  have hread' := h [] (by rintro c ⟨⟩)
  rw [List.append_nil, indexed_of_ne (by simp)] at hread'
  cases htext : e.text.toList with
  | nil =>
    rw [htext, hread.nil] at hread'
    cases hread'
  | cons first others =>
    refine ⟨first, others, rfl, ?_, ?_⟩
    · rintro rfl
      rw [htext, hread.star] at hread'
      cases hread'
    · rintro rfl
      rw [htext, hread.bracket] at hread'
      cases hread'

/-- The text of a term is read as a term of its sort. -/
theorem Restores.term (h : numbers.Restores read e) (hc : Delimits c) (rest : List Char) :
    term read s (e.text.toList ++ c :: rest) = some (e.plain, c :: rest) := by
  simp only [NumberReader.term, h.delimited hc rest, Option.bind_eq_bind, Option.bind_some,
    as?_toExpr, Option.pure_def]

/-- Items that are read one by one are read as a list. -/
theorem separated_intercalate {α β : Type} {item : List Char → Option (α × List Char)}
    {mark stop : Char} (marks : List Char) (hne : mark ≠ stop) {f : β → List Char} {g : β → α}
    {items : List β} (hitems : items ≠ []) (hfuel : items.length ≤ fuel)
    (hitem : ∀ x ∈ items, ∀ c, c = mark ∨ c = stop → ∀ rest,
      item (f x ++ c :: rest) = some (g x, c :: rest)) (rest : List Char) :
    separated item (mark :: marks) stop fuel
      ((mark :: marks).intercalate (items.map f) ++ stop :: rest) = some (items.map g, rest) := by
  induction items generalizing fuel with
  | nil => exact absurd rfl hitems
  | cons x others ih =>
    obtain ⟨fuel, rfl⟩ : ∃ n, fuel = n + 1 := ⟨fuel - 1, by simp at hfuel; omega⟩
    have hx := hitem x List.mem_cons_self
    cases others with
    | nil =>
      simp [separated, hx stop (.inr rfl)]
    | cons y others =>
      have hothers := ih (List.cons_ne_nil y others) (Nat.le_of_succ_le_succ hfuel)
        fun z hz => hitem z (List.mem_cons_of_mem x hz)
      have hmark : (mark :: (marks ++ ((mark :: marks).intercalate ((y :: others).map f) ++
          stop :: rest))).head? ≠ some stop := fun h => hne (Option.some.inj h)
      have hskip := skip_append (mark :: marks)
        ((mark :: marks).intercalate ((y :: others).map f) ++ stop :: rest)
      rw [List.map_cons, List.map_cons, List.intercalate_cons_cons, ← List.map_cons,
        List.append_assoc, List.append_assoc, List.cons_append]
      simp only [separated, hx mark (.inl rfl), Option.bind_eq_bind, Option.bind_some, if_neg hmark]
      rw [← List.cons_append, hskip, Option.bind_some, hothers, Option.bind_some, List.map_cons]
      rfl

/-! ## What the first character decides -/

/-- A closing parenthesis comes after terms. -/
theorem delimits_close : Delimits ')' := ⟨rfl, by decide⟩

/-- A comma comes after terms. -/
theorem delimits_comma : Delimits ',' := ⟨rfl, by decide⟩

/-- A closing bracket comes after terms. -/
theorem delimits_bracket : Delimits ']' := ⟨rfl, by decide⟩

/-- A blank comes after terms. -/
theorem delimits_space : Delimits ' ' := ⟨rfl, by decide⟩

/-- The length of a list is read back behind `len(`, if the list is. -/
theorem length_text {l : Term .list} (h : numbers.Restores read l) (rest : List Char) :
    length read (l.text.toList ++ ')' :: rest) = some ((Term.length l.plain).toExpr, rest) := by
  rw [length, h.delimited delimits_close]
  simp only [Option.bind_eq_bind, Option.bind_some, as?_toExpr, skip_singleton]
  rfl

/-- A broadcast of two lists is read back behind `broadcast(`, if the lists are. -/
theorem broadcast_text {l r : Term .list} (hl : numbers.Restores read l)
    (hr : numbers.Restores read r) (rest : List Char) :
    broadcast read (l.text.toList ++ ',' :: ' ' :: (r.text.toList ++ ')' :: rest)) =
      some ((Term.broadcast l.plain r.plain).toExpr, rest) := by
  have hskip : ∀ inside, skip [',', ' '] (',' :: ' ' :: inside) = some inside :=
    skip_append [',', ' ']
  rw [broadcast, hl.delimited delimits_comma]
  simp only [Option.bind_eq_bind, Option.bind_some, hskip, hr.delimited delimits_close,
    as?_toExpr, skip_singleton]
  rfl

/-- An element of a list is read back, and a star as an unknown one. -/
theorem element_text (hread : Refuses read) {o : Option (Term .int)}
    (ho : ∀ e, o = some e → numbers.Restores read e) (hc : Delimits c) (rest : List Char) :
    element read ((Term.elementText o).toList ++ c :: rest) =
      some (o.map Term.plain, c :: rest) := by
  cases o with
  | none => rfl
  | some e =>
    obtain ⟨first, others, htext, hstar, -⟩ := (ho e rfl).exists_first hread
    have hhead : (e.text.toList ++ c :: rest).head? ≠ some '*' := by
      rw [htext]
      exact fun hfirst => hstar (Option.some.inj hfirst)
    rw [element, Term.elementText, if_neg hhead, (ho e rfl).term hc]
    rfl

/-- The elements of a list are read back up to the bracket that closes it, if each of them is. -/
theorem list_text (hread : Refuses read) {es : List (Option (Term .int))}
    (hes : ∀ e, some e ∈ es → numbers.Restores read e) (hfuel : es.length ≤ fuel)
    (rest : List Char) :
    list read fuel ([',', ' '].intercalate (es.map fun o => (Term.elementText o).toList) ++
      ']' :: rest) = some ((Term.list es).plain.toExpr, rest) := by
  have hitem : ∀ o ∈ es, ∀ c, c = ',' ∨ c = ']' → ∀ rest,
      element read ((Term.elementText o).toList ++ c :: rest) =
        some (o.map Term.plain, c :: rest) := by
    intro o ho c hc rest
    refine element_text hread (fun e he => hes e (he ▸ ho)) ?_ rest
    rcases hc with rfl | rfl
    · exact delimits_comma
    · exact delimits_bracket
  rw [Term.plain_list]
  rcases es with _ | ⟨o, others⟩
  · rfl
  obtain ⟨first, tail, hfirst, hstop⟩ : ∃ first tail,
      (Term.elementText o).toList = first :: tail ∧ first ≠ ']' := by
    cases o with
    | none => exact ⟨'*', [], rfl, by decide⟩
    | some e =>
      obtain ⟨first, tail, htext, -, hstop⟩ :=
        (hes e List.mem_cons_self).exists_first hread
      exact ⟨first, tail, htext, hstop⟩
  have hhead : ([',', ' '].intercalate ((o :: others).map fun o => (Term.elementText o).toList) ++
      ']' :: rest).head? ≠ some ']' := by
    cases others <;> simp [List.intercalate_cons_cons, hfirst, hstop]
  rw [list, if_neg hhead,
    separated_intercalate [' '] (by decide) (List.cons_ne_nil o others) hfuel hitem rest]
  rfl

/-- The text of operands in parentheses, behind the parenthesis that opens them. -/
def junctionText (mark : Char) (ps : List (Term .bool)) (rest : List Char) : List Char :=
  [' ', mark, mark, ' '].intercalate (ps.map fun p => p.text.toList) ++ ')' :: rest

/-- The operands behind the first one are read back up to the parenthesis that closes them. -/
theorem separated_junctionText {mark : Char} {ps : List (Term .bool)}
    (hps : ∀ p ∈ ps, numbers.Restores read p) (hne : ps ≠ []) (hfuel : ps.length ≤ fuel)
    (rest : List Char) :
    separated (term read .bool) [' ', mark, mark, ' '] ')' fuel (junctionText mark ps rest) =
      some (ps.map Term.plain, rest) := by
  refine separated_intercalate [mark, mark, ' '] (by decide) hne hfuel (fun p hp c hc rest => ?_)
    rest
  rcases hc with rfl | rfl
  · exact (hps p hp).term delimits_space rest
  · exact (hps p hp).term delimits_close rest

/-- A single operand in parentheses is read as a conjunction of it alone. -/
theorem parenthesized_singleton {p : Term .bool} (h : numbers.Restores read p)
    (rest : List Char) : parenthesized read fuel (p.text.toList ++ ')' :: rest) =
      some ((Term.and [p.plain]).toExpr, rest) := by
  rw [parenthesized, h.delimited delimits_close]
  simp only [Option.bind_eq_bind, Option.bind_some, as?_toExpr]
  rfl

/-- The word behind the first operand ends where the next blank is. -/
theorem parenthesized_word (h : numbers.Restores read e) {word : String}
    (hword : word.toList.all (· != ' ') = true) (right : List Char) :
    parenthesized read fuel (e.text.toList ++ ' ' :: (word.toList ++ ' ' :: right)) =
      operands read fuel e.plain.toExpr word right := by
  have hinside : ∀ c ∈ word.toList, (c != ' ') = true := List.all_eq_true.mp hword
  have hblank : ∀ c ∈ (' ' :: right).head?, (c != ' ') = false := by
    rintro c ⟨⟩
    rfl
  have hopen : (' ' :: (word.toList ++ ' ' :: right)).head? ≠ some ')' := by simp
  rw [parenthesized, h.delimited delimits_space]
  simp only [Option.bind_eq_bind, Option.bind_some, if_neg hopen, List.tail_cons,
    Json.takeWhile_append_eq_left hinside hblank, Json.dropWhile_append_eq_right hinside hblank,
    String.ofList_toList]

/-- Behind the first operand and the word of a connective, the other operands of the connective are
read back. -/
theorem operands_junction (j : Junction) {p : Term .bool} {ps : List (Term .bool)} (hne : ps ≠ [])
    (hps : ∀ q ∈ ps, numbers.Restores read q) (hfuel : ps.length ≤ fuel) (rest : List Char) :
    operands read fuel p.toExpr j.word (junctionText j.mark ps rest) =
      some ((j.build (p :: ps.map Term.plain)).toExpr, rest) := by
  simp only [operands, Junction.ofWord?_word, separated_junctionText hps hne hfuel,
    Option.bind_eq_bind, Option.bind_some, as?_toExpr]
  rfl

/-- The word is one that stands between two operands, and not between more of them. -/
structure IsInfix (word : String) : Prop where
  not_junction : Junction.ofWord? word = none
  not_blank : word.toList.all (· != ' ') = true

/-- The symbol of an arithmetic operation stands between two operands. -/
theorem isInfix_arith (op : ArithOp) : IsInfix op.symbol := by
  cases op <;> exact ⟨rfl, rfl⟩

/-- The symbol of a comparison stands between two operands. -/
theorem isInfix_compare (op : Comparison) : IsInfix op.symbol := by
  cases op <;> exact ⟨rfl, rfl⟩

/-- The sign of an equality stands between two operands. -/
theorem isInfix_eq : IsInfix "=" := isInfix_compare .eq

/-- The sorts of the operands tell the equalities apart, which are written with the same word. -/
theorem operands_pair {r : Term s} (hr : numbers.Restores read r) {l : Expr} {word : String}
    (hword : IsInfix word) {result : Expr} (hcombine : combine word l r.plain.toExpr = some result)
    (rest : List Char) :
    operands read fuel l word (r.text.toList ++ ')' :: rest) = some (result, rest) := by
  simp only [operands, hword.not_junction, hr.delimited delimits_close, Option.bind_eq_bind,
    Option.bind_some, hcombine, skip_singleton]
  rfl

/-- An arithmetic operation is known by its symbol, which no comparison has. -/
theorem combine_arith (op : ArithOp) (l r : Term .int) :
    combine op.symbol l.toExpr r.toExpr = some (Term.arith op l r).toExpr := by
  cases op <;> rfl

/-- A comparison is known by its symbol, which no arithmetic operation has. -/
theorem combine_compare (op : Comparison) (l r : Term .int) :
    combine op.symbol l.toExpr r.toExpr = some (Term.compare op l r).toExpr := by
  cases op <;> rfl

/-! ## What the first character decides -/

/-- A numeral does not go on like a word with a letter in front. -/
theorem skip_numeral {written : List Char} (h : Json.IsNumeral written) {first : Char}
    (hsign : first ≠ '-') (hdigit : Json.isDigit first = false) (word rest : List Char) :
    skip (first :: word) (written ++ rest) = none := by
  obtain ⟨head, tail, rfl, hkind⟩ := h.first
  have hne : first ≠ head := by
    rintro rfl
    rcases hkind with hminus | hdigit'
    · exact hsign hminus
    · rw [hdigit] at hdigit'
      cases hdigit'
  simp [skip, hne]

variable {S : Set Int}

/-- The number of a variable is read back behind the letter of its sort. -/
theorem var_numeral (hnumbers : numbers.Reads S) (s : ValueSort) {id : Int} (hid : id ∈ S)
    {rest : List Char} (hrest : EndsNumeral rest) :
    numbers.var s ((Number.integerText id).toList ++ rest) = ((Term.var s id).toExpr, rest) := by
  have hnumeral := (Number.isNumeral_integerText id).numeral
  rw [var, Json.takeWhile_append_eq_left hnumeral hrest,
    Json.dropWhile_append_eq_right hnumeral hrest, (hnumbers id hid).1]

/-- The text of a variable is read back. -/
theorem front_var (hnumbers : numbers.Reads S) (s : ValueSort) {id : Int} (hid : id ∈ S)
    {rest : List Char} (hrest : EndsNumeral rest) :
    front numbers read fuel ((Term.var s id).text.toList ++ rest) =
      some ((Term.var s id).toExpr, rest) := by
  have hnumeral := Number.isNumeral_integerText id
  have hvar := var_numeral hnumbers s hid hrest
  cases s with
  | int =>
    have htext : (Term.var .int id).text.toList ++ rest =
        'i' :: ((Number.integerText id).toList ++ rest) := by
      simp [Term.text, Var.text, ValueSort.letter]
    rw [htext]
    exact congrArg some hvar
  | list =>
    have htext : (Term.var .list id).text.toList ++ rest =
        'l' :: ((Number.integerText id).toList ++ rest) := by
      simp [Term.text, Var.text, ValueSort.letter]
    -- the letter is also that of a broadcast, whose name does not go on with a numeral
    have hskip : skip ['e', 'n', '('] ((Number.integerText id).toList ++ rest) = none :=
      skip_numeral hnumeral (by decide) rfl _ rest
    have hfront : ∀ text, front numbers read fuel ('l' :: text) =
        match skip ['e', 'n', '('] text with
        | some inside => length read inside
        | none => some (numbers.var .list text) := fun _ => rfl
    rw [htext, hfront, hskip, hvar]
  | bool =>
    have htext : (Term.var .bool id).text.toList ++ rest =
        'b' :: ((Number.integerText id).toList ++ rest) := by
      simp [Term.text, Var.text, ValueSort.letter]
    have hskip : skip ['r', 'o', 'a', 'd', 'c', 'a', 's', 't', '(']
        ((Number.integerText id).toList ++ rest) = none :=
      skip_numeral hnumeral (by decide) rfl _ rest
    have hfront : ∀ text, front numbers read fuel ('b' :: text) =
        match skip ['r', 'o', 'a', 'd', 'c', 'a', 's', 't', '('] text with
        | some inside => broadcast read inside
        | none => some (numbers.var .bool text) := fun _ => rfl
    rw [htext, hfront, hskip, hvar]

/-- The text of an integer literal is read back. -/
theorem front_literal (hnumbers : numbers.Reads S) {n : Int} (hn : n ∈ S)
    {rest : List Char} (hrest : EndsNumeral rest) :
    front numbers read fuel ((Term.literal n).text.toList ++ rest) =
      some ((Term.literal n).toExpr, rest) := by
  have hnumeral := Number.isNumeral_fixedText n
  obtain ⟨first, tail, htail, -⟩ := hnumeral.first
  have hchar : isNumeralChar first = true := hnumeral.numeral first (htail ▸ List.mem_cons_self)
  have hliteral : numbers.literal ((Number.fixedText n).toList ++ rest) =
      ((Term.literal n).toExpr, rest) := by
    rw [literal, Json.takeWhile_append_eq_left hnumeral.numeral hrest,
      Json.dropWhile_append_eq_right hnumeral.numeral hrest, (hnumbers n hn).2]
  rw [Term.text, ← hliteral, htail, List.cons_append, front, if_pos hchar]

/-- The text of a length is read back, if that of the list is. -/
theorem front_length {l : Term .list} (h : numbers.Restores read l) (rest : List Char) :
    front numbers read fuel ((Term.length l).text.toList ++ rest) =
      some ((Term.length l.plain).toExpr, rest) := by
  have htext : (Term.length l).text.toList ++ rest =
      'l' :: (['e', 'n', '('] ++ (l.text.toList ++ ')' :: rest)) := by
    simp [Term.text]
  rw [htext]
  exact length_text h rest

/-- The text of a broadcast is read back, if those of the two lists are. -/
theorem front_broadcast {l r : Term .list} (hl : numbers.Restores read l)
    (hr : numbers.Restores read r) (rest : List Char) :
    front numbers read fuel ((Term.broadcast l r).text.toList ++ rest) =
      some ((Term.broadcast l.plain r.plain).toExpr, rest) := by
  have htext : (Term.broadcast l r).text.toList ++ rest =
      'b' :: (['r', 'o', 'a', 'd', 'c', 'a', 's', 't', '('] ++
        (l.text.toList ++ ',' :: ' ' :: (r.text.toList ++ ')' :: rest))) := by
    simp [Term.text]
  rw [htext]
  exact broadcast_text hl hr rest

/-- The text of a boolean literal is read back. -/
theorem front_truth (b : Bool) (rest : List Char) :
    front numbers read fuel ((Term.truth b).text.toList ++ rest) =
      some ((Term.truth b).toExpr, rest) := by
  cases b <;> rfl

/-- The text of a negation is read back, if that of the negated condition is. -/
theorem front_not {p : Term .bool} (h : numbers.Restores read p) {rest : List Char}
    (hrest : EndsNumeral rest) :
    front numbers read fuel ((Term.not p).text.toList ++ rest) =
      some ((Term.not p.plain).toExpr, rest) := by
  have htext : (Term.not p).text.toList ++ rest = '!' :: (p.text.toList ++ rest) := by
    simp [Term.text]
  have hterm : term read .bool (p.text.toList ++ rest) = some (p.plain, rest) := by
    rw [term, h rest hrest]
    rfl
  rw [htext]
  exact congrArg (Option.map _) hterm

/-- The text of a list is read back, if those of its elements are. -/
theorem front_list (hread : Refuses read) {es : List (Option (Term .int))}
    (hes : ∀ e, some e ∈ es → numbers.Restores read e) (hfuel : es.length ≤ fuel)
    (rest : List Char) :
    front numbers read fuel ((Term.list es).text.toList ++ rest) =
      some ((Term.list es).plain.toExpr, rest) := by
  have htext : (Term.list es).text.toList ++ rest = '[' :: ([',', ' '].intercalate
      (es.map fun o => (Term.elementText o).toList) ++ ']' :: rest) := by
    simp [Term.text_list, Function.comp_def]
  rw [htext]
  exact list_text hread hes hfuel rest

/-- A single operand does not show what it is an operand of. -/
theorem front_singleton (j : Junction) {p : Term .bool} (h : numbers.Restores read p)
    (rest : List Char) : front numbers read fuel ((j.build [p]).text.toList ++ rest) =
      some ((Term.and [p.plain]).toExpr, rest) := by
  have htext : (j.build [p]).text.toList ++ rest = '(' :: (p.text.toList ++ ')' :: rest) := by
    cases j <;> simp [Junction.build, Term.text_and_cons, Term.text_or_cons]
  rw [htext]
  exact parenthesized_singleton h rest

/-- The text of two or more operands of a connective is read back, if those of the operands are. -/
theorem front_junction (j : Junction) {p : Term .bool} {ps : List (Term .bool)} (hne : ps ≠ [])
    (hp : numbers.Restores read p) (hps : ∀ q ∈ ps, numbers.Restores read q)
    (hfuel : ps.length ≤ fuel) (rest : List Char) :
    front numbers read fuel ((j.build (p :: ps)).text.toList ++ rest) =
      some ((j.build (p.plain :: ps.map Term.plain)).toExpr, rest) := by
  have htext : (j.build (p :: ps)).text.toList ++ rest = '(' :: (p.text.toList ++
      ' ' :: (j.word.toList ++ ' ' :: junctionText j.mark ps rest)) := by
    obtain ⟨q, others, rfl⟩ := List.exists_cons_of_ne_nil hne
    cases j <;> simp [Junction.build, Junction.word, Junction.mark, Term.text_and_cons,
      Term.text_or_cons, junctionText, Function.comp_def]
  have hword : j.word.toList.all (· != ' ') = true := by
    cases j <;> rfl
  rw [htext]
  exact (parenthesized_word hp hword _).trans (operands_junction j hne hps hfuel rest)

/-- The text of a conjunction is read back up to what is written alike, if those of its operands
are. -/
theorem front_and {ps : List (Term .bool)} (hps : ∀ p ∈ ps, numbers.Restores read p)
    (hfuel : ps.length ≤ fuel) (rest : List Char) :
    front numbers read fuel ((Term.and ps).text.toList ++ rest) =
      some ((Term.and ps).plain.toExpr, rest) := by
  rw [Term.plain_and]
  rcases ps with _ | ⟨p, _ | ⟨q, others⟩⟩
  · rfl
  · exact front_singleton .and (hps p List.mem_cons_self) rest
  · obtain ⟨hp, hothers⟩ := List.forall_mem_cons.mp hps
    exact front_junction .and (List.cons_ne_nil q others) hp hothers
      (Nat.le_of_succ_le hfuel) rest

/-- The text of a disjunction is read back up to what is written alike, if those of its operands
are. -/
theorem front_or {ps : List (Term .bool)} (hps : ∀ p ∈ ps, numbers.Restores read p)
    (hfuel : ps.length ≤ fuel) (rest : List Char) :
    front numbers read fuel ((Term.or ps).text.toList ++ rest) =
      some ((Term.or ps).plain.toExpr, rest) := by
  rw [Term.plain_or]
  rcases ps with _ | ⟨p, _ | ⟨q, others⟩⟩
  · rfl
  · exact front_singleton .or (hps p List.mem_cons_self) rest
  · obtain ⟨hp, hothers⟩ := List.forall_mem_cons.mp hps
    exact front_junction .or (List.cons_ne_nil q others) hp hothers
      (Nat.le_of_succ_le hfuel) rest

/-- Two operands with an operator between them. -/
theorem front_pair {l r : Term s} (hl : numbers.Restores read l) (hr : numbers.Restores read r)
    {word : String} (hword : IsInfix word) {result : Expr}
    (hcombine : combine word l.plain.toExpr r.plain.toExpr = some result) (rest : List Char) :
    front numbers read fuel ((infixText l.text word r.text).toList ++ rest) =
      some (result, rest) := by
  have htext : (infixText l.text word r.text).toList ++ rest = '(' :: (l.text.toList ++
      ' ' :: (word.toList ++ ' ' :: (r.text.toList ++ ')' :: rest))) := by
    simp [infixText]
  rw [htext]
  exact (parenthesized_word hl hword.not_blank _).trans (operands_pair hr hword hcombine rest)

/-! ## Terms are read back -/

/-- The reader of terms reads nothing where a term cannot begin. -/
theorem refuses_expr (n : Nat) : Refuses (numbers.expr n) := by
  cases n <;> exact ⟨rfl, fun _ => rfl, fun _ => rfl⟩

/-- A term is restored by the reader one level up, if its text is read back at the front. -/
theorem Restores.of_front {n : Nat} (h : ∀ rest, EndsNumeral rest →
    front numbers (numbers.expr n) n (e.text.toList ++ rest) = some (e.plain.toExpr, rest)) :
    numbers.Restores (numbers.expr (n + 1)) e := by
  intro rest hrest
  rw [expr, h rest hrest]
  rfl

/-- A list that is read is an element of it when a position is written behind it. -/
theorem indexed_element (hnumbers : numbers.Reads S) (l : Term .list) {i : Int} (hi : i ∈ S)
    (rest : List Char) :
    numbers.indexed l.toExpr ('[' :: ((Number.fixedText i).toList ++ ']' :: rest)) =
      some ((Term.element i l).toExpr, rest) := by
  have hnumeral := (Number.isNumeral_fixedText i).numeral
  have hrest := delimits_bracket.ends rest
  simp only [indexed, Term.toExpr, List.head?_cons, if_true, List.tail_cons,
    Json.takeWhile_append_eq_left hnumeral hrest, Json.dropWhile_append_eq_right hnumeral hrest,
    (hnumbers i hi).2, skip_singleton]
  rfl

/-- A list is no longer than its size. -/
theorem length_le_sizeOf {α : Type} [SizeOf α] (items : List α) :
    items.length ≤ sizeOf items := by
  induction items with
  | nil => simp
  | cons a rest ih =>
    simp only [List.length_cons, List.cons.sizeOf_spec]
    omega

/-- A bound for the size of a term is positive. -/
theorem exists_eq_succ_of_sizeOf_le {n : Nat} (h : sizeOf e ≤ n) : ∃ m, n = m + 1 := by
  have hpos : 0 < sizeOf e := by cases e <;> simp
  exact ⟨n - 1, by omega⟩

/-- The operands of a conjunction or disjunction are read with a bound below that of the term. -/
theorem restores_operands {ps : List (Term .bool)} {m : Nat}
    (ih : ∀ p ∈ ps, (∀ k ∈ p.numbers, k ∈ S) → ∀ {n : Nat}, sizeOf p ≤ n →
      numbers.Restores (numbers.expr n) p)
    (hps : ∀ k ∈ Term.operandNumbers ps, k ∈ S) (hm : sizeOf ps ≤ m) :
    (∀ p ∈ ps, numbers.Restores (numbers.expr m) p) ∧ ps.length ≤ m := by
  refine ⟨fun p hp => ?_, (length_le_sizeOf ps).trans hm⟩
  have hsize := List.sizeOf_lt_of_mem hp
  exact ih p hp (fun k hk => hps k (Term.mem_operandNumbers hp hk)) (by omega)

/-- The elements of a list are read back with a bound for the size of the list, and there are no
more of them than the bound. -/
theorem restores_elements {es : List (Option (Term .int))} {m : Nat}
    (ih : ∀ e, some e ∈ es → (∀ k ∈ e.numbers, k ∈ S) → ∀ {n : Nat}, sizeOf e ≤ n →
      numbers.Restores (numbers.expr n) e)
    (hes : ∀ k ∈ Term.elementNumbers es, k ∈ S) (hm : sizeOf es ≤ m) :
    (∀ e, some e ∈ es → numbers.Restores (numbers.expr m) e) ∧ es.length ≤ m := by
  refine ⟨fun e he => ?_, (length_le_sizeOf es).trans hm⟩
  have hsize := List.sizeOf_lt_of_mem he
  rw [Option.some.sizeOf_spec] at hsize
  exact ih e he (fun k hk => hes k (Term.mem_elementNumbers he hk)) (by omega)

/-- The text of a term whose numbers are read back is read as this term, up to what is written
alike. -/
theorem restores_expr (hnumbers : numbers.Reads S) (e : Term s) (he : ∀ n ∈ e.numbers, n ∈ S)
    {n : Nat} (hn : sizeOf e ≤ n) : numbers.Restores (numbers.expr n) e := by
  -- the size bounds the depth, and the parts of a term are read with the next smaller bound
  induction e using Term.induction generalizing n with
  | element i l ih =>
    -- the list is read first, and with the same bound
    obtain ⟨hi, hl⟩ := List.forall_mem_cons.mp he
    simp only [Term.element.sizeOf_spec] at hn
    intro rest hrest
    have htext : (Term.element i l).text.toList ++ rest = l.text.toList ++
        '[' :: ((Number.fixedText i).toList ++ ']' :: rest) := by
      simp [Term.text]
    have hopen : EndsNumeral ('[' :: ((Number.fixedText i).toList ++ ']' :: rest)) := by
      rintro c ⟨⟩
      rfl
    rw [htext, ih hl (by omega) _ hopen, indexed_element hnumbers l.plain hi]
    rfl
  | var s id =>
    obtain ⟨m, rfl⟩ := exists_eq_succ_of_sizeOf_le hn
    exact .of_front fun rest hrest => front_var hnumbers s (he id List.mem_cons_self) hrest
  | literal i =>
    obtain ⟨m, rfl⟩ := exists_eq_succ_of_sizeOf_le hn
    exact .of_front fun rest hrest => front_literal hnumbers (he i List.mem_cons_self) hrest
  | length l ih =>
    obtain ⟨m, rfl⟩ := exists_eq_succ_of_sizeOf_le hn
    simp only [Term.length.sizeOf_spec] at hn
    have hl := ih he (show sizeOf l ≤ m by omega)
    exact .of_front fun rest _ => front_length hl rest
  | arith op l r ihl ihr =>
    obtain ⟨m, rfl⟩ := exists_eq_succ_of_sizeOf_le hn
    obtain ⟨hel, her⟩ := List.forall_mem_append.mp he
    simp only [Term.arith.sizeOf_spec] at hn
    have hl := ihl hel (show sizeOf l ≤ m by omega)
    have hr := ihr her (show sizeOf r ≤ m by omega)
    exact .of_front fun rest _ =>
      front_pair hl hr (isInfix_arith op) (combine_arith op l.plain r.plain) rest
  | list es ih =>
    obtain ⟨m, rfl⟩ := exists_eq_succ_of_sizeOf_le hn
    simp only [Term.list.sizeOf_spec] at hn
    obtain ⟨hes, hlength⟩ := restores_elements ih he (show sizeOf es ≤ m by omega)
    exact .of_front fun rest _ => front_list (refuses_expr m) hes hlength rest
  | broadcast l r ihl ihr =>
    obtain ⟨m, rfl⟩ := exists_eq_succ_of_sizeOf_le hn
    obtain ⟨hel, her⟩ := List.forall_mem_append.mp he
    simp only [Term.broadcast.sizeOf_spec] at hn
    have hl := ihl hel (show sizeOf l ≤ m by omega)
    have hr := ihr her (show sizeOf r ≤ m by omega)
    exact .of_front fun rest _ => front_broadcast hl hr rest
  | truth b =>
    obtain ⟨m, rfl⟩ := exists_eq_succ_of_sizeOf_le hn
    exact .of_front fun rest _ => front_truth b rest
  | not p ih =>
    obtain ⟨m, rfl⟩ := exists_eq_succ_of_sizeOf_le hn
    simp only [Term.not.sizeOf_spec] at hn
    have hp := ih he (show sizeOf p ≤ m by omega)
    exact .of_front fun rest hrest => front_not hp hrest
  | and ps ih =>
    obtain ⟨m, rfl⟩ := exists_eq_succ_of_sizeOf_le hn
    simp only [Term.and.sizeOf_spec] at hn
    obtain ⟨hps, hlength⟩ := restores_operands ih he (show sizeOf ps ≤ m by omega)
    exact .of_front fun rest _ => front_and hps hlength rest
  | or ps ih =>
    obtain ⟨m, rfl⟩ := exists_eq_succ_of_sizeOf_le hn
    simp only [Term.or.sizeOf_spec] at hn
    obtain ⟨hps, hlength⟩ := restores_operands ih he (show sizeOf ps ≤ m by omega)
    exact .of_front fun rest _ => front_or hps hlength rest
  | compare op l r ihl ihr =>
    obtain ⟨m, rfl⟩ := exists_eq_succ_of_sizeOf_le hn
    obtain ⟨hel, her⟩ := List.forall_mem_append.mp he
    simp only [Term.compare.sizeOf_spec] at hn
    have hl := ihl hel (show sizeOf l ≤ m by omega)
    have hr := ihr her (show sizeOf r ≤ m by omega)
    exact .of_front fun rest _ =>
      front_pair hl hr (isInfix_compare op) (combine_compare op l.plain r.plain) rest
  | listEq l r ihl ihr =>
    obtain ⟨m, rfl⟩ := exists_eq_succ_of_sizeOf_le hn
    obtain ⟨hel, her⟩ := List.forall_mem_append.mp he
    simp only [Term.listEq.sizeOf_spec] at hn
    have hl := ihl hel (show sizeOf l ≤ m by omega)
    have hr := ihr her (show sizeOf r ≤ m by omega)
    exact .of_front fun rest _ => front_pair hl hr isInfix_eq rfl rest
  | boolEq p q ihp ihq =>
    obtain ⟨m, rfl⟩ := exists_eq_succ_of_sizeOf_le hn
    obtain ⟨hep, heq⟩ := List.forall_mem_append.mp he
    simp only [Term.boolEq.sizeOf_spec] at hn
    have hp := ihp hep (show sizeOf p ≤ m by omega)
    have hq := ihq heq (show sizeOf q ≤ m by omega)
    exact .of_front fun rest _ => front_pair hp hq isInfix_eq rfl rest

end

end NumberReader

end SummaryInlining
