import SummaryInlining.Number.Text

/-!
# Symbolic terms

Summaries speak about integers, lists of integers (such as the shapes of tensors) and truth
values. A `Term s` is a symbolic term of the sort `s`. The sort is an index of the type, so every
operator has operands of the right sorts by construction, and a variable that stands as a term of
sort `s` is a variable of sort `s`. An `Expr` is a term of any sort.

`Term.occurrences` reads a term as the list of variables that occur in it, from left to right and
with repetition. Renaming, counting and freshness are all stated through this list.
-/

set_option autoImplicit false

namespace SummaryInlining

/-- The kinds of symbolic values. -/
inductive ValueSort where
  /-- Unbounded integers. -/
  | int
  /-- Finite lists of integers. -/
  | list
  /-- The two truth values. -/
  | bool
  deriving DecidableEq, Inhabited

namespace ValueSort

def all : List ValueSort := [.int, .list, .bool]

/-- The name of a sort in summary files. -/
def name : ValueSort → String
  | .int => "int"
  | .list => "list"
  | .bool => "bool"

/-- The letter in front of the number of a variable of this sort. -/
def letter : ValueSort → String
  | .int => "i"
  | .list => "l"
  | .bool => "b"

end ValueSort

/-- A symbolic variable: two of them are the same exactly when sort and number agree. -/
structure Var where
  sort : ValueSort
  /-- The number that tells variables of one sort apart. -/
  id : Int
  deriving DecidableEq, Inhabited

namespace Var

/-- The key of a variable, which names its sort and its number. -/
def key (v : Var) : String := v.sort.name ++ "#" ++ Number.integerText v.id

/-- The text of a variable inside a term. -/
def text (v : Var) : String := v.sort.letter ++ Number.integerText v.id

end Var

/-- The operations on integers. -/
inductive ArithOp where
  | add
  | sub
  | mul
  | div
  deriving DecidableEq

namespace ArithOp

def all : List ArithOp := [.add, .sub, .mul, .div]

/-- The sign that an operation is written with. -/
def symbol : ArithOp → String
  | .add => "+"
  | .sub => "-"
  | .mul => "*"
  | .div => "/"

end ArithOp

/-- The comparisons of integers. -/
inductive Comparison where
  | eq
  | lt
  | le
  | gt
  | ge
  deriving DecidableEq

namespace Comparison

def all : List Comparison := [.eq, .lt, .le, .gt, .ge]

def symbol : Comparison → String
  | .eq => "="
  | .lt => "<"
  | .le => "<="
  | .gt => ">"
  | .ge => ">="

end Comparison

/-- The kinds of nodes that terms are built from. -/
inductive NodeKind where
  | var (s : ValueSort)
  | literal
  | length
  | element
  | arith
  | list
  | broadcast
  | truth
  | not
  | and
  | or
  | compare
  | listEq
  | boolEq
  deriving DecidableEq

namespace NodeKind

def all : List NodeKind :=
  [.var .int, .literal, .length, .element, .arith, .var .list, .list, .broadcast, .var .bool,
    .truth, .not, .and, .or, .compare, .listEq, .boolEq]

/-- The name of a kind in summary files. -/
def name : NodeKind → String
  | .var s => s.name ++ "-var"
  | .literal => "int-literal"
  | .length => "length"
  | .element => "element"
  | .arith => "int-op"
  | .list => "list-literal"
  | .broadcast => "broadcast"
  | .truth => "bool-literal"
  | .not => "not"
  | .and => "and"
  | .or => "or"
  | .compare => "int-compare"
  | .listEq => "list-eq"
  | .boolEq => "bool-eq"

/-- The sort of the terms that begin with a node of this kind. -/
def sort : NodeKind → ValueSort
  | .var s => s
  | .literal => .int
  | .length => .int
  | .element => .int
  | .arith => .int
  | .list => .list
  | .broadcast => .list
  | .truth => .bool
  | .not => .bool
  | .and => .bool
  | .or => .bool
  | .compare => .bool
  | .listEq => .bool
  | .boolEq => .bool

end NodeKind

/-- A symbolic term of the given sort. -/
inductive Term : ValueSort → Type where
  | var (s : ValueSort) (id : Int) : Term s
  | literal (value : Int) : Term .int
  | length (list : Term .list) : Term .int
  /-- The element at a constant position of a list; a negative one counts from its end. -/
  | element (index : Int) (list : Term .list) : Term .int
  | arith (op : ArithOp) (left right : Term .int) : Term .int
  /-- The list of these elements; an absent one is a position whose value is unknown. -/
  | list (elements : List (Option (Term .int))) : Term .list
  | broadcast (left right : Term .list) : Term .list
  | truth (value : Bool) : Term .bool
  | not (operand : Term .bool) : Term .bool
  | and (operands : List (Term .bool)) : Term .bool
  | or (operands : List (Term .bool)) : Term .bool
  | compare (op : Comparison) (left right : Term .int) : Term .bool
  | listEq (left right : Term .list) : Term .bool
  | boolEq (left right : Term .bool) : Term .bool

/-- A term of any sort. -/
structure Expr where
  sort : ValueSort
  term : Term sort

namespace Term

/-- The term that refers to a variable. -/
def ofVar (v : Var) : Term v.sort := .var v.sort v.id

/-- A term as an expression. -/
def toExpr {s : ValueSort} (e : Term s) : Expr := ⟨s, e⟩

/-- The kind of the outermost node of a term. -/
def kind {s : ValueSort} : Term s → NodeKind
  | .var s _ => .var s
  | .literal _ => .literal
  | .length _ => .length
  | .element _ _ => .element
  | .arith _ _ _ => .arith
  | .list _ => .list
  | .broadcast _ _ => .broadcast
  | .truth _ => .truth
  | .not _ => .not
  | .and _ => .and
  | .or _ => .or
  | .compare _ _ _ => .compare
  | .listEq _ _ => .listEq
  | .boolEq _ _ => .boolEq

mutual

/-- The variables that occur in a term, from left to right and with repetition. -/
def occurrences {s : ValueSort} : Term s → List Var
  | .var s id => [⟨s, id⟩]
  | .literal _ => []
  | .length l => l.occurrences
  | .element _ l => l.occurrences
  | .arith _ l r => l.occurrences ++ r.occurrences
  | .list elements => elementOccurrences elements
  | .broadcast l r => l.occurrences ++ r.occurrences
  | .truth _ => []
  | .not p => p.occurrences
  | .and operands => operandOccurrences operands
  | .or operands => operandOccurrences operands
  | .compare _ l r => l.occurrences ++ r.occurrences
  | .listEq l r => l.occurrences ++ r.occurrences
  | .boolEq l r => l.occurrences ++ r.occurrences

def elementOccurrences : List (Option (Term .int)) → List Var
  | [] => []
  | none :: rest => elementOccurrences rest
  | some e :: rest => e.occurrences ++ elementOccurrences rest

def operandOccurrences : List (Term .bool) → List Var
  | [] => []
  | p :: rest => p.occurrences ++ operandOccurrences rest

end

/-- What occurs in elements is what occurs in the known ones, in order. -/
theorem elementOccurrences_eq_flatMap (elements : List (Option (Term .int))) :
    elementOccurrences elements =
      elements.flatMap fun e => (e.map occurrences).getD [] := by
  induction elements with
  | nil => rfl
  | cons e rest ih => cases e <;> simp [elementOccurrences, ih]

/-- What occurs in operands is what occurs in each of them, in order. -/
theorem operandOccurrences_eq_flatMap (operands : List (Term .bool)) :
    operandOccurrences operands = operands.flatMap occurrences := by
  induction operands with
  | nil => rfl
  | cons p rest ih => simp [operandOccurrences, ih]

end Term

namespace Expr

/-- The expression that refers to a variable. -/
def ofVar (v : Var) : Expr := (Term.ofVar v).toExpr

/-- The term of an expression as one of the sort `s`, if it is of that sort. -/
def as? (e : Expr) (s : ValueSort) : Option (Term s) :=
  if h : e.sort = s then some (h ▸ e.term) else none

/-- The variables that occur in an expression, from left to right and with repetition. -/
def occurrences (e : Expr) : List Var := e.term.occurrences

/-- The variables that occur in an optional expression. -/
def optionOccurrences : Option Expr → List Var
  | none => []
  | some e => e.occurrences

/-- The variables that occur in some optional expressions. -/
def listOccurrences (es : List (Option Expr)) : List Var := es.flatMap optionOccurrences

end Expr

end SummaryInlining
