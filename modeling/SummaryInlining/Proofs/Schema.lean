import SummaryInlining.Diagnostic

/-!
# The schema of summary files

A `Schema` says what a JSON value has to look like, and `Conforms` that a value does, by rules over
the schema. Only terms refer to themselves, so `Schema.term` is the one schema that is named, and
its rule says which parts a node of each kind has (`NodeKind.parts`). The data model is then a list
of schemas: of variables, locations, constraints, summaries, structs and whole files.

An object may have more members than its schema names, and a place without a value conforms only
where it may be left out. Each form of schema comes with the condition under which a value conforms
to it (`conforms_string_iff` to `conforms_term_iff`).
-/

set_option autoImplicit false

namespace SummaryInlining

/-- What a JSON value has to look like. -/
inductive Schema where
  | string
  /-- A number without fraction. -/
  | integer
  | boolean
  /-- One of these strings. -/
  | oneOf (options : List String)
  /-- A value of the schema, or `null`. -/
  | nullable (schema : Schema)
  /-- A value of the schema, or no value at all. -/
  | optional (schema : Schema)
  /-- An array, each item of which has the schema. -/
  | array (item : Schema)
  /-- An object with these parts. It may have others, which do not count. -/
  | object (parts : List (String × Schema))
  /-- An object, each member of which has the schema, whatever its name. -/
  | table (value : Schema)
  /-- A value of one of these schemas. -/
  | union (alternatives : List Schema)
  /-- A term of this sort. -/
  | term (s : ValueSort)

namespace Schema

/-- A variable of one of these sorts. -/
def var (sorts : List ValueSort) : Schema :=
  .object [("sort", .oneOf (sorts.map ValueSort.name)), ("id", .integer)]

/-- A string that is exactly this one. -/
def exactly (words : String) : Schema := .oneOf [words]

end Schema

/-- The parts of a node of each kind, apart from its tag. -/
def NodeKind.parts : NodeKind → List (String × Schema)
  | .var s => [("variable", .var [s])]
  | .literal => [("value", .integer)]
  | .length => [("list", .term .list)]
  | .element => [("index", .integer), ("list", .term .list)]
  | .arith =>
    [("op", .oneOf (ArithOp.all.map ArithOp.symbol)), ("left", .term .int), ("right", .term .int)]
  | .list => [("elements", .array (.nullable (.term .int)))]
  | .broadcast => [("left", .term .list), ("right", .term .list)]
  | .truth => [("value", .boolean)]
  | .not => [("operand", .term .bool)]
  | .and => [("operands", .array (.term .bool))]
  | .or => [("operands", .array (.term .bool))]
  | .compare =>
    [("op", .oneOf (Comparison.all.map Comparison.symbol)), ("left", .term .int),
      ("right", .term .int)]
  | .listEq => [("left", .term .list), ("right", .term .list)]
  | .boolEq => [("left", .term .bool), ("right", .term .bool)]

namespace Schema

/-- A node of this kind. -/
def node (kind : NodeKind) : Schema := .object (("tag", exactly kind.name) :: kind.parts)

/-- An expression of any sort. -/
def expr : Schema := .union (ValueSort.all.map .term)

/-- A list of expressions, some of which may be absent. -/
def exprs : Schema := .array (.nullable expr)

def location : Schema :=
  .object [("fileID", .string), ("line", .integer), ("column", .integer)]

def requirement : Schema :=
  .object
    [("tag", exactly "expr"), ("condition", .term .bool), ("assuming", .term .bool),
      ("origin", .oneOf (Origin.all.map Origin.name)), ("location", .nullable location)]

def call : Schema :=
  .object
    [("tag", exactly "call"), ("callee", .string), ("args", exprs),
      ("result", .nullable (.var ValueSort.all)), ("assuming", .term .bool),
      ("location", .nullable location)]

def constraint : Schema := .union [requirement, call]

def summary : Schema :=
  .object
    [("argExprs", exprs), ("retExpr", .nullable expr), ("constraints", .array constraint)]

def struct : Schema := .array (.object [("name", .string), ("type", .string)])

/-- A summary file. The structs may be left out. -/
def file : Schema :=
  .object [("functions", .table summary), ("structs", .optional (.table struct))]

end Schema

/-- A JSON value, or the lack of one, has the schema. -/
inductive Conforms : Schema → Option Json → Prop where
  | string (words : String) : Conforms .string (some (.string words))
  | integer (n : Int) : Conforms .integer (some (.ofInt n))
  | boolean (b : Bool) : Conforms .boolean (some (.bool b))
  | oneOf {options : List String} {words : String} (h : words ∈ options) :
    Conforms (.oneOf options) (some (.string words))
  | null {schema : Schema} : Conforms (.nullable schema) (some .null)
  | present {schema : Schema} {value : Option Json} (h : Conforms schema value) :
    Conforms (.nullable schema) value
  | leftOut {schema : Schema} : Conforms (.optional schema) none
  | given {schema : Schema} {value : Json} (h : Conforms schema (some value)) :
    Conforms (.optional schema) (some value)
  | array {item : Schema} {items : List Json} (h : ∀ value ∈ items, Conforms item (some value)) :
    Conforms (.array item) (some (.array items))
  | object {parts : List (String × Schema)} {members : List (String × Json)}
    (h : ∀ part ∈ parts, Conforms part.2 (valueAt? part.1 members)) :
    Conforms (.object parts) (some (.object members))
  | table {schema : Schema} {members : List (String × Json)}
    (h : ∀ entry ∈ members, Conforms schema (some entry.2)) :
    Conforms (.table schema) (some (.object members))
  | union {alternatives : List Schema} {schema : Schema} {value : Option Json}
    (hs : schema ∈ alternatives) (h : Conforms schema value) :
    Conforms (.union alternatives) value
  | term {s : ValueSort} {kind : NodeKind} {value : Option Json} (hs : kind.sort = s)
    (h : Conforms (.node kind) value) : Conforms (.term s) value

section

variable {value : Option Json}

/-- Exactly the strings conform to `Schema.string`. -/
theorem conforms_string_iff : Conforms .string value ↔ ∃ words, value = some (.string words) := by
  constructor
  · intro h
    cases h with
    | string words => exact ⟨words, rfl⟩
  · rintro ⟨words, rfl⟩
    exact .string words

/-- Exactly the numbers that stand for integers conform to `Schema.integer`. -/
theorem conforms_integer_iff : Conforms .integer value ↔ ∃ n : Int, value = some (.ofInt n) := by
  constructor
  · intro h
    cases h with
    | integer n => exact ⟨n, rfl⟩
  · rintro ⟨n, rfl⟩
    exact .integer n

/-- Exactly the two booleans conform to `Schema.boolean`. -/
theorem conforms_boolean_iff : Conforms .boolean value ↔ ∃ b, value = some (.bool b) := by
  constructor
  · intro h
    cases h with
    | boolean b => exact ⟨b, rfl⟩
  · rintro ⟨b, rfl⟩
    exact .boolean b

/-- Exactly the strings among the options conform. -/
theorem conforms_oneOf_iff {options : List String} :
    Conforms (.oneOf options) value ↔ ∃ words ∈ options, value = some (.string words) := by
  constructor
  · intro h
    cases h with
    | oneOf h => exact ⟨_, h, rfl⟩
  · rintro ⟨words, h, rfl⟩
    exact .oneOf h

/-- A nullable schema allows null besides what it is built on. -/
theorem conforms_nullable_iff {schema : Schema} :
    Conforms (.nullable schema) value ↔ value = some .null ∨ Conforms schema value := by
  constructor
  · intro h
    cases h with
    | null => exact .inl rfl
    | present h => exact .inr h
  · rintro (rfl | h)
    · exact .null
    · exact .present h

/-- An optional schema allows a place without a value besides what it is built on. -/
theorem conforms_optional_iff {schema : Schema} :
    Conforms (.optional schema) value ↔ value = none ∨ value ≠ none ∧ Conforms schema value := by
  constructor
  · intro h
    cases h with
    | leftOut => exact .inl rfl
    | given h => exact .inr ⟨Option.some_ne_none _, h⟩
  · rintro (rfl | ⟨hne, h⟩)
    · exact .leftOut
    · obtain ⟨given, rfl⟩ := Option.ne_none_iff_exists'.mp hne
      exact .given h

/-- Exactly the arrays conform whose items all conform to the schema of the items. -/
theorem conforms_array_iff {item : Schema} :
    Conforms (.array item) value ↔
      ∃ items, value = some (.array items) ∧ ∀ v ∈ items, Conforms item (some v) := by
  constructor
  · intro h
    cases h with
    | array h => exact ⟨_, rfl, h⟩
  · rintro ⟨items, rfl, h⟩
    exact .array h

/-- Exactly the objects conform whose members under the named parts conform, which says nothing
about other members. -/
theorem conforms_object_iff {parts : List (String × Schema)} :
    Conforms (.object parts) value ↔ ∃ members, value = some (.object members) ∧
      ∀ part ∈ parts, Conforms part.2 (valueAt? part.1 members) := by
  constructor
  · intro h
    cases h with
    | object h => exact ⟨_, rfl, h⟩
  · rintro ⟨members, rfl, h⟩
    exact .object h

/-- Exactly the objects conform whose members all conform to one schema, whatever they are called.
-/
theorem conforms_table_iff {schema : Schema} :
    Conforms (.table schema) value ↔ ∃ members, value = some (.object members) ∧
      ∀ entry ∈ members, Conforms schema (some entry.2) := by
  constructor
  · intro h
    cases h with
    | table h => exact ⟨_, rfl, h⟩
  · rintro ⟨members, rfl, h⟩
    exact .table h

/-- A value conforms to a union if it conforms to one of the alternatives. -/
theorem conforms_union_iff {alternatives : List Schema} :
    Conforms (.union alternatives) value ↔ ∃ schema ∈ alternatives, Conforms schema value := by
  constructor
  · intro h
    cases h with
    | union hs h => exact ⟨_, hs, h⟩
  · rintro ⟨schema, hs, h⟩
    exact .union hs h

/-- Exactly the nodes conform whose kind has the sort of the term. -/
theorem conforms_term_iff {s : ValueSort} :
    Conforms (.term s) value ↔ ∃ kind : NodeKind, kind.sort = s ∧ Conforms (.node kind) value := by
  constructor
  · intro h
    cases h with
    | term hs h => exact ⟨_, hs, h⟩
  · rintro ⟨kind, hs, h⟩
    exact .term hs h

/-- A string with no alternative to it. -/
theorem conforms_exactly_iff {words : String} :
    Conforms (.exactly words) value ↔ value = some (.string words) := by
  simp [Schema.exactly, conforms_oneOf_iff]

end

end SummaryInlining
