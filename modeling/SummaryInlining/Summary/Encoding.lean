import SummaryInlining.Summary.File

/-!
# Summary files in JSON

The encoder writes terms, constraints, summaries and whole files as the JSON values that the
decoder reads them from.
-/

set_option autoImplicit false

namespace SummaryInlining

def Var.encode (v : Var) : Json :=
  .object [("sort", .string v.sort.name), ("id", .ofInt v.id)]

namespace Term

/-- A node in JSON: its kind, and the parts of its own. -/
def node (kind : NodeKind) (parts : List (String × Json)) : Json :=
  .object (("tag", .string kind.name) :: parts)

mutual

def encode {s : ValueSort} : Term s → Json
  | .var s id => node (.var s) [("variable", (Var.mk s id).encode)]
  | .literal n => node .literal [("value", .ofInt n)]
  | .length l => node .length [("list", l.encode)]
  | .element i l => node .element [("index", .ofInt i), ("list", l.encode)]
  | .arith op l r =>
    node .arith [("op", .string op.symbol), ("left", l.encode), ("right", r.encode)]
  | .list elements => node .list [("elements", .array (encodeElements elements))]
  | .broadcast l r => node .broadcast [("left", l.encode), ("right", r.encode)]
  | .truth b => node .truth [("value", .bool b)]
  | .not p => node .not [("operand", p.encode)]
  | .and operands => node .and [("operands", .array (encodeOperands operands))]
  | .or operands => node .or [("operands", .array (encodeOperands operands))]
  | .compare op l r =>
    node .compare [("op", .string op.symbol), ("left", l.encode), ("right", r.encode)]
  | .listEq l r => node .listEq [("left", l.encode), ("right", r.encode)]
  | .boolEq l r => node .boolEq [("left", l.encode), ("right", r.encode)]

def encodeElements : List (Option (Term .int)) → List Json
  | [] => []
  | none :: rest => .null :: encodeElements rest
  | some e :: rest => e.encode :: encodeElements rest

def encodeOperands : List (Term .bool) → List Json
  | [] => []
  | p :: rest => p.encode :: encodeOperands rest

end

end Term

def Expr.encode (e : Expr) : Json := e.term.encode

def SourceLocation.encode (location : SourceLocation) : Json :=
  .object [("fileID", .string location.fileID), ("line", .ofInt location.line),
    ("column", .ofInt location.column)]

/-- The members of a constraint in JSON, apart from its location. -/
def Constraint.encodedMembers {L : Type} : Constraint L → List (String × Json)
  | .require r =>
    [("tag", .string "expr"), ("condition", r.condition.encode), ("assuming", r.assuming.encode),
      ("origin", .string r.origin.name)]
  | .call c =>
    [("tag", .string "call"), ("callee", .string c.callee),
      ("args", .array (c.args.map (Json.ofOption Expr.encode))),
      ("result", Json.ofOption Var.encode c.result), ("assuming", c.assuming.encode)]

def Constraint.encode (c : SummaryConstraint) : Json :=
  .object (c.encodedMembers ++ [("location", Json.ofOption SourceLocation.encode c.location)])

def FunctionSummary.encode (summary : FunctionSummary) : Json :=
  .object
    [("argExprs", .array (summary.parameters.map (Json.ofOption Expr.encode))),
      ("retExpr", Json.ofOption Expr.encode summary.result),
      ("constraints", .array (summary.constraints.map Constraint.encode))]

def StructField.encode (field : StructField) : Json :=
  .object [("name", .string field.name), ("type", .string field.type)]

/-- The content of a summary file in JSON. -/
def SummaryFile.encode (file : SummaryFile) : Json :=
  .object
    [("functions", Json.ofMembers (file.functions.map FunctionSummary.encode).entries),
      ("structs", Json.ofMembers
        (file.structs.map fun fields => .array (fields.map StructField.encode)).entries)]

end SummaryInlining
