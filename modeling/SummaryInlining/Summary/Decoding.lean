import SummaryInlining.Summary.File

/-!
# Reading summary files

The decoder turns a JSON value into the content of a summary file, or reports the first place that
does not fit the data model. A place may hold no value at all, which is why decoders take an
optional value. Each decoder knows only the value in front of it: the path of a malformation is put
together on the way out, one step for every object or array that is left.

The parts of an object are decoded in a fixed order, which decides which of two malformations is
reported: of a constraint the assumption and the location come before everything else, and
otherwise the order is that of the data model.
-/

set_option autoImplicit false

namespace SummaryInlining

namespace Decoding

/-- A decoded part of a value, or what is malformed in it. -/
abbrev Decoded (α : Type) := Except Malformation α

/-- The value in front of the decoder is not what it should be. -/
def fail {α : Type} (expected : Expectation) : Decoded α := .error (.here expected)

/-- A decoded part, whose malformation is reported as one of the whole. -/
def within {α : Type} (step : PathStep) : Decoded α → Decoded α
  | .ok a => .ok a
  | .error m => .error (m.within step)

/-- The value of a member, or none, together with a bound on its size. -/
def part (members : List (String × Json)) (name : String) :
    { value : Option Json // sizeOf value ≤ sizeOf members } :=
  match h : valueAt? name members with
  | none => ⟨none, by
      cases members with
      | nil => simp
      | cons => simp; omega⟩
  | some value => ⟨some value, by
      have := Json.sizeOf_lt_of_valueAt? h
      simp only [Option.some.sizeOf_spec]
      omega⟩

/-- Decodes the member `name` of an object. -/
def member {α : Type} (members : List (String × Json)) (name : String)
    (decode : { value : Option Json // sizeOf value ≤ sizeOf members } → Decoded α) : Decoded α :=
  within (.key name) (decode (part members name))

/-- The members of an object. -/
def object : Option Json → Decoded (List (String × Json))
  | some (.object members) => .ok members
  | _ => fail .object

/-- Decodes the items of a list, the first of which stands at the position `start`. -/
def eachItem {α β : Type} (decode : β → Decoded α) (start : Nat) : List β → Decoded (List α)
  | [] => .ok []
  | item :: rest => do
    let first ← within (.index (.ofNat start)) (decode item)
    let others ← eachItem decode (start + 1) rest
    return first :: others

/-- Decodes every item of an array. -/
def array {α : Type} (value : Option Json)
    (decode : { item : Json // sizeOf item < sizeOf value } → Decoded α) : Decoded (List α) :=
  match value with
  | some (.array items) =>
    eachItem
      (fun item => decode ⟨item.1, by
        have := List.sizeOf_lt_of_mem item.2
        simp only [Option.some.sizeOf_spec, Json.array.sizeOf_spec]
        omega⟩)
      0 items.attach
  | _ => fail .array

/-- Decodes a value that may be `null`. -/
def nullable {α : Type} (value : Option Json) (decode : Option Json → Decoded α) :
    Decoded (Option α) :=
  match value with
  | some .null => .ok none
  | other => do return some (← decode other)

def string : Option Json → Decoded String
  | some (.string s) => .ok s
  | _ => fail .string

/-- Decodes a number without fraction. -/
def integer : Option Json → Decoded Int
  | some (.number n) =>
    match n.toInt? with
    | some i => .ok i
    | none => fail .integer
  | _ => fail .integer

def boolean : Option Json → Decoded Bool
  | some (.bool b) => .ok b
  | _ => fail .boolean

/-- Decodes the name of one of the options. -/
def oneOf {α : Type} (options : List α) (name : α → String) (value : Option Json) : Decoded α :=
  match value with
  | some (.string s) =>
    match options.find? (fun option => name option = s) with
    | some option => .ok option
    | none => fail (.oneOf (options.map name))
  | _ => fail (.oneOf (options.map name))

/-- Decodes a variable of any sort. -/
def var (value : Option Json) : Decoded Var := do
  let members ← object value
  let sort ← member members "sort" fun v => oneOf ValueSort.all ValueSort.name v.1
  let id ← member members "id" fun v => integer v.1
  return ⟨sort, id⟩

/-- Decodes the name of a sort that has to be the sort `s`. -/
def sortName (s : ValueSort) (value : Option Json) : Decoded Unit := do
  let found ← oneOf ValueSort.all ValueSort.name value
  if found = s then return () else fail (.sortName s)

/-- Decodes a variable of the sort `s` to its number. -/
def variableId (s : ValueSort) (value : Option Json) : Decoded Int := do
  let members ← object value
  member members "sort" fun v => sortName s v.1
  member members "id" fun v => integer v.1

/-- The string that the tag of an object holds, if it holds one. -/
def tag? (members : List (String × Json)) : Option String :=
  match valueAt? "tag" members with
  | some (.string tag) => some tag
  | _ => none

/-- The kind of node that the tag of an object names. -/
def nodeKind? (members : List (String × Json)) : Option NodeKind :=
  NodeKind.all.find? fun kind => tag? members = some kind.name

/-- The tag of an object does not fit. -/
def wrongTag {α : Type} (expected : Expectation) : Decoded α := within (.key "tag") (fail expected)

/-- Decodes a term of the sort `s`. -/
def term (s : ValueSort) (value : Option Json) : Decoded (Term s) :=
  match value with
  | some (.object members) =>
    match nodeKind? members, s with
    | some (.var t), s =>
      if t = s then do
        return .var s (← member members "variable" fun v => variableId s v.1)
      else wrongTag (.termKind s)
    | some .literal, .int => do
      return .literal (← member members "value" fun v => integer v.1)
    | some .length, .int => do
      return .length (← member members "list" fun v => term .list v.1)
    | some .element, .int => do
      let index ← member members "index" fun v => integer v.1
      return .element index (← member members "list" fun v => term .list v.1)
    | some .arith, .int => do
      let op ← member members "op" fun v => oneOf ArithOp.all ArithOp.symbol v.1
      let left ← member members "left" fun v => term .int v.1
      let right ← member members "right" fun v => term .int v.1
      return .arith op left right
    | some .list, .list => do
      let elements ← member members "elements" fun v =>
        array v.1 fun item =>
          match item.1 with
          | .null => return none
          | _ => do return some (← term .int (some item.1))
      return .list elements
    | some .broadcast, .list => do
      let left ← member members "left" fun v => term .list v.1
      let right ← member members "right" fun v => term .list v.1
      return .broadcast left right
    | some .truth, .bool => do
      return .truth (← member members "value" fun v => boolean v.1)
    | some .not, .bool => do
      return .not (← member members "operand" fun v => term .bool v.1)
    | some .and, .bool => do
      let operands ← member members "operands" fun v =>
        array v.1 fun item => term .bool (some item.1)
      return .and operands
    | some .or, .bool => do
      let operands ← member members "operands" fun v =>
        array v.1 fun item => term .bool (some item.1)
      return .or operands
    | some .compare, .bool => do
      let op ← member members "op" fun v => oneOf Comparison.all Comparison.symbol v.1
      let left ← member members "left" fun v => term .int v.1
      let right ← member members "right" fun v => term .int v.1
      return .compare op left right
    | some .listEq, .bool => do
      let left ← member members "left" fun v => term .list v.1
      let right ← member members "right" fun v => term .list v.1
      return .listEq left right
    | some .boolEq, .bool => do
      let left ← member members "left" fun v => term .bool v.1
      let right ← member members "right" fun v => term .bool v.1
      return .boolEq left right
    | _, s => wrongTag (.termKind s)
  | _ => fail .object
termination_by sizeOf value
decreasing_by
  all_goals
    have := v.2
    try have := item.2
    simp only [Option.some.sizeOf_spec, Json.object.sizeOf_spec]
    omega

/-- Decodes a term of any sort. -/
def expr (value : Option Json) : Decoded Expr := do
  let members ← object value
  match nodeKind? members with
  | some kind => return (← term kind.sort value).toExpr
  | none => wrongTag .exprKind

/-- Decodes expressions that may be absent. -/
def exprs (value : Option Json) : Decoded (List (Option Expr)) :=
  array value fun item => nullable (some item.1) expr

def location (value : Option Json) : Decoded SourceLocation := do
  let members ← object value
  let fileID ← member members "fileID" fun v => string v.1
  let line ← member members "line" fun v => integer v.1
  let column ← member members "column" fun v => integer v.1
  return ⟨fileID, line, column⟩

def constraint (value : Option Json) : Decoded SummaryConstraint := do
  let members ← object value
  let assuming ← member members "assuming" fun v => term .bool v.1
  let location ← member members "location" fun v => nullable v.1 location
  if tag? members = some "expr" then
    let condition ← member members "condition" fun v => term .bool v.1
    let origin ← member members "origin" fun v => oneOf Origin.all Origin.name v.1
    return .require ⟨condition, assuming, origin, location⟩
  else if tag? members = some "call" then
    let callee ← member members "callee" fun v => string v.1
    let args ← member members "args" fun v => exprs v.1
    let result ← member members "result" fun v => nullable v.1 var
    return .call ⟨callee, args, result, assuming, location⟩
  else wrongTag .constraintKind

def summary (value : Option Json) : Decoded FunctionSummary := do
  let members ← object value
  let parameters ← member members "argExprs" fun v => exprs v.1
  let result ← member members "retExpr" fun v => nullable v.1 expr
  let constraints ← member members "constraints" fun v =>
    array v.1 fun item => constraint (some item.1)
  return ⟨parameters, result, constraints⟩

def structField (value : Option Json) : Decoded StructField := do
  let members ← object value
  let name ← member members "name" fun v => string v.1
  let type ← member members "type" fun v => string v.1
  return ⟨name, type⟩

def struct (value : Option Json) : Decoded (List StructField) :=
  array value fun item => structField (some item.1)

/-- Decodes the value of every member of an object. -/
def eachMember {α : Type} (decode : Option Json → Decoded α) :
    List (String × Json) → Decoded (List (String × α))
  | [] => .ok []
  | (name, value) :: rest => do
    let first ← within (.key name) (decode (some value))
    let others ← eachMember decode rest
    return (name, first) :: others

/-- Decodes an object as a table of its members. -/
def table {α : Type} (decode : Option Json → Decoded α) (value : Option Json) :
    Decoded (Table α) := do
  let members ← object value
  return Table.ofList (← eachMember decode members)

/-- Decodes a table that may be left out. -/
def optionalTable {α : Type} (decode : Option Json → Decoded α) (value : Option Json) :
    Decoded (Table α) :=
  match value with
  | none => .ok .empty
  | some _ => table decode value

/-- Decodes the functions and structs of a summary file. -/
def content (value : Option Json) : Decoded (Environment × TypeEnvironment) := do
  let members ← object value
  let functions ← member members "functions" fun v => table summary v.1
  let structs ← member members "structs" fun v => optionalTable struct v.1
  return (functions, structs)

end Decoding

namespace SummaryFile

/-- The summary file `fileID` with the content that a JSON value describes. -/
def decode (fileID : String) (value : Option Json) : Except Diagnostic SummaryFile :=
  match Decoding.content value with
  | .ok (functions, structs) => .ok ⟨fileID, functions, structs⟩
  | .error m => .error (.malformed fileID m)

/-- The summary file `fileID` with this text. A string holds characters only, so a half of a
surrogate pair that stands alone in an escape is read as U+FFFD (`Json.loneUnit`), and names that
differ in nothing but such halves are one name here. -/
def parse (fileID text : String) : Except Diagnostic SummaryFile :=
  match Json.parse text with
  | .ok value => decode fileID (some value)
  | .error reason => .error (.malformed fileID (.here (.json reason)))

end SummaryFile

end SummaryInlining
