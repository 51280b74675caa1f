import SummaryInlining.Proofs.ObjectOrder
import SummaryInlining.Proofs.SchemaDecoding
import SummaryInlining.Summary.Encoding

/-!
# Reading back what was written

Decoding the JSON value of a term, a constraint, a summary or a struct gives it back. Of a whole
file the functions and structs come back in the order of an object. `member_bind` reads a member
of an encoded object and goes on with it, and `eachItem_map_encode` reads back a list of encoded
items; the rest follows the encoder.

Together with the lemmas about success, this says which values are decoded, and to what
(`decode_accepts_exactly_the_schema`).
-/

set_option autoImplicit false

namespace SummaryInlining

namespace Decoding

section

variable {α β : Type}

/-- What comes after the check for an object goes on with its members. -/
theorem object_bind (members : List (String × Json)) (next : List (String × Json) → Decoded β) :
    (object (some (.object members)) >>= next) = next members := rfl

/-- A member is read back if its value is. -/
theorem member_eq_ok {members : List (String × Json)} {name : String} {value : Json} {a : α}
    {decode : { value : Option Json // sizeOf value ≤ sizeOf members } → Decoded α}
    (hvalue : valueAt? name members = some value) (h : ∀ v, v.1 = some value → decode v = .ok a) :
    member members name decode = .ok a := by
  rw [member, h _ ((val_part members name).trans hvalue)]
  rfl

section

variable {members : List (String × Json)} {name : String} {value : Json} {a : α}
  {next : α → Decoded β}

/-- What comes after a member goes on with the decoded value of the member. -/
theorem member_bind
    {decode : { value : Option Json // sizeOf value ≤ sizeOf members } → Decoded α}
    (hvalue : valueAt? name members = some value) (h : ∀ v, v.1 = some value → decode v = .ok a) :
    (member members name decode >>= next) = next a := by
  rw [member_eq_ok hvalue h]
  rfl

/-- What comes after a member goes on with its decoded value, if the decoder looks at the value
alone. -/
theorem member_bind_of {decode : Option Json → Decoded α}
    (hvalue : valueAt? name members = some value) (h : decode (some value) = .ok a) :
    (member members name (fun v => decode v.1) >>= next) = next a :=
  member_bind hvalue fun v hv => by rw [hv, h]

end

/-- Items can be mapped by the decoder that looks at them. -/
theorem eachItem_map (decode : β → Decoded α) {γ : Type} (f : γ → β) (items : List γ)
    (start : Nat) :
    eachItem decode start (items.map f) = eachItem (fun item => decode (f item)) start items := by
  induction items generalizing start with
  | nil => rfl
  | cons item rest ih => rw [List.map_cons, eachItem, eachItem, ih]

/-- An array is decoded item by item. -/
theorem array_eq_eachItem {value : Option Json} {items : List Json}
    (h : value = some (.array items)) (decode : Json → Decoded α) :
    array value (fun item => decode item.1) = eachItem decode 0 items := by
  subst h
  have hmap := eachItem_map decode Subtype.val items.attach 0
  rw [List.attach_map_subtype_val] at hmap
  exact hmap.symm

/-- Items that are decoded to what was encoded in them give back the encoded list. -/
theorem eachItem_map_encode {decode : Json → Decoded α} {encode : α → Json} {items : List α}
    (h : ∀ item, decode (encode item) = .ok item) (start : Nat) :
    eachItem decode start (items.map encode) = .ok items := by
  induction items generalizing start with
  | nil => rfl
  | cons item rest ih => rw [List.map_cons, eachItem, h, ih]; rfl

/-- An optional value is decoded to itself, if no value is written as null. -/
theorem nullable_ofOption {decode : Option Json → Decoded α} {encode : α → Json}
    (h : ∀ a, decode (some (encode a)) = .ok a) (hnull : ∀ a, encode a ≠ .null) (o : Option α) :
    nullable (some (Json.ofOption encode o)) decode = .ok o := by
  cases o with
  | none => rfl
  | some a =>
    unfold nullable
    split
    · next hsome => exact absurd (Option.some.inj hsome) (hnull a)
    · rw [Json.ofOption, h]
      rfl

end

/-- The kind of a node is known by its tag. -/
theorem nodeKind?_node (kind : NodeKind) (parts : List (String × Json)) :
    nodeKind? (("tag", .string kind.name) :: parts) = some kind := by
  rw [nodeKind?_eq_some_iff, conforms_exactly_iff]
  rfl

/-- No term is written as null. -/
theorem encode_ne_null {s : ValueSort} (e : Term s) : e.encode ≠ .null := by
  cases e <;> simp [Term.encode, Term.node]

/-- A string is decoded to itself. -/
theorem string_string (words : String) : string (some (.string words)) = .ok words := rfl

/-- A boolean is decoded to itself. -/
theorem boolean_bool (b : Bool) : boolean (some (.bool b)) = .ok b := rfl

/-- A sort is known by its name. -/
theorem sortName_name (s : ValueSort) : sortName s (some (.string s.name)) = .ok () := by
  cases s <;> rfl

/-- The sort of a variable is decoded to itself. -/
theorem sort_name (s : ValueSort) :
    oneOf ValueSort.all ValueSort.name (some (.string s.name)) = .ok s := by
  cases s <;> rfl

/-- An arithmetic operation is decoded from its symbol. -/
theorem arithOp_symbol (op : ArithOp) :
    oneOf ArithOp.all ArithOp.symbol (some (.string op.symbol)) = .ok op := by
  cases op <;> rfl

/-- A comparison is decoded from its symbol. -/
theorem comparison_symbol (op : Comparison) :
    oneOf Comparison.all Comparison.symbol (some (.string op.symbol)) = .ok op := by
  cases op <;> rfl

/-- An origin is decoded from its name. -/
theorem origin_name (origin : Origin) :
    oneOf Origin.all Origin.name (some (.string origin.name)) = .ok origin := by
  cases origin <;> rfl

/-- The number of a variable is decoded from the variable, where one of its sort is expected. -/
theorem variableId_encode (v : Var) : variableId v.sort (some v.encode) = .ok v.id := by
  rw [Var.encode, variableId, object_bind, member_bind_of rfl (sortName_name v.sort)]
  exact member_eq_ok rfl fun part hpart => by rw [hpart, integer_ofInt]

mutual

/-- Decoding the JSON value of a term gives the term. -/
theorem term_encode {s : ValueSort} : (e : Term s) → term s (some e.encode) = .ok e
  | .var s id => by
    rw [Term.encode, Term.node, term]
    simp only [nodeKind?_node, if_true]
    rw [member_bind_of rfl (variableId_encode ⟨s, id⟩)]
    rfl
  | .literal n => by
    rw [Term.encode, Term.node, term]
    simp only [nodeKind?_node]
    rw [member_bind_of rfl (integer_ofInt n)]
    rfl
  | .length l => by
    rw [Term.encode, Term.node, term]
    simp only [nodeKind?_node]
    rw [member_bind_of rfl (term_encode l)]
    rfl
  | .element i l => by
    rw [Term.encode, Term.node, term]
    simp only [nodeKind?_node]
    rw [member_bind_of rfl (integer_ofInt i), member_bind_of rfl (term_encode l)]
    rfl
  | .arith op l r => by
    rw [Term.encode, Term.node, term]
    simp only [nodeKind?_node]
    rw [member_bind_of rfl (arithOp_symbol op), member_bind_of rfl (term_encode l),
      member_bind_of rfl (term_encode r)]
    rfl
  | .list elements => by
    rw [Term.encode, Term.node, term]
    simp only [nodeKind?_node]
    rw [member_bind (a := elements) rfl fun v hv => ?_]
    · rfl
    · exact (array_eq_eachItem hv _).trans (eachItem_encodeElements elements 0)
  | .broadcast l r => by
    rw [Term.encode, Term.node, term]
    simp only [nodeKind?_node]
    rw [member_bind_of rfl (term_encode l), member_bind_of rfl (term_encode r)]
    rfl
  | .truth b => by
    rw [Term.encode, Term.node, term]
    simp only [nodeKind?_node]
    rw [member_bind_of rfl (boolean_bool b)]
    rfl
  | .not p => by
    rw [Term.encode, Term.node, term]
    simp only [nodeKind?_node]
    rw [member_bind_of rfl (term_encode p)]
    rfl
  | .and operands => by
    rw [Term.encode, Term.node, term]
    simp only [nodeKind?_node]
    rw [member_bind rfl fun v hv =>
      (array_eq_eachItem hv _).trans (eachItem_encodeOperands operands 0)]
    rfl
  | .or operands => by
    rw [Term.encode, Term.node, term]
    simp only [nodeKind?_node]
    rw [member_bind rfl fun v hv =>
      (array_eq_eachItem hv _).trans (eachItem_encodeOperands operands 0)]
    rfl
  | .compare op l r => by
    rw [Term.encode, Term.node, term]
    simp only [nodeKind?_node]
    rw [member_bind_of rfl (comparison_symbol op), member_bind_of rfl (term_encode l),
      member_bind_of rfl (term_encode r)]
    rfl
  | .listEq l r => by
    rw [Term.encode, Term.node, term]
    simp only [nodeKind?_node]
    rw [member_bind_of rfl (term_encode l), member_bind_of rfl (term_encode r)]
    rfl
  | .boolEq l r => by
    rw [Term.encode, Term.node, term]
    simp only [nodeKind?_node]
    rw [member_bind_of rfl (term_encode l), member_bind_of rfl (term_encode r)]
    rfl

/-- The elements of a list are decoded from the items that they are written as, with null for an
unknown one. -/
theorem eachItem_encodeElements :
    (elements : List (Option (Term .int))) → (start : Nat) →
      eachItem (fun item =>
        match item with
        | .null => return none
        | _ => do return some (← term .int (some item))) start (Term.encodeElements elements) =
        .ok elements
  | [], _ => rfl
  | none :: rest, start => by
    rw [Term.encodeElements, eachItem, eachItem_encodeElements rest]
    rfl
  | some e :: rest, start => by
    rw [Term.encodeElements, eachItem, eachItem_encodeElements rest]
    split
    · next hnull => exact absurd hnull (encode_ne_null e)
    · rw [term_encode e]
      rfl

/-- The operands of a connective are decoded from the items that they are written as. -/
theorem eachItem_encodeOperands :
    (operands : List (Term .bool)) → (start : Nat) →
      eachItem (fun item => term .bool (some item)) start (Term.encodeOperands operands) =
        .ok operands
  | [], _ => rfl
  | p :: rest, start => by
    rw [Term.encodeOperands, eachItem, term_encode p, eachItem_encodeOperands rest]
    rfl

end

/-- A term is written as a node of a kind of its sort. -/
theorem exists_encode_eq_node {s : ValueSort} (e : Term s) :
    ∃ kind parts, NodeKind.sort kind = s ∧ e.encode = Term.node kind parts := by
  cases e <;> exact ⟨_, _, rfl, by rw [Term.encode]⟩

/-- An expression is decoded from what it is written as. -/
theorem expr_encode (e : Expr) : expr (some e.encode) = .ok e := by
  obtain ⟨s, e⟩ := e
  obtain ⟨kind, parts, rfl, hnode⟩ := exists_encode_eq_node e
  have hterm := term_encode e
  rw [hnode, Term.node] at hterm
  rw [expr, Expr.encode, hnode, Term.node, object_bind]
  simp only [nodeKind?_node, hterm]
  rfl

/-- Arguments are decoded from what they are written as, with null for an unknown one. -/
theorem exprs_encode (es : List (Option Expr)) :
    exprs (some (.array (es.map (Json.ofOption Expr.encode)))) = .ok es := by
  rw [exprs, array_eq_eachItem rfl fun item => nullable (some item) expr]
  exact eachItem_map_encode (nullable_ofOption expr_encode fun e => encode_ne_null e.term) 0

/-- A variable is decoded from what it is written as. -/
theorem var_encode (v : Var) : var (some v.encode) = .ok v := by
  rw [Var.encode, var, object_bind, member_bind_of rfl (sort_name v.sort),
    member_bind_of rfl (integer_ofInt v.id)]
  rfl

/-- A location is decoded from what it is written as. -/
theorem location_encode (place : SourceLocation) : location (some place.encode) = .ok place := by
  rw [SourceLocation.encode, location, object_bind,
    member_bind_of rfl (string_string place.fileID),
    member_bind_of rfl (integer_ofInt place.line), member_bind_of rfl (integer_ofInt place.column)]
  rfl

/-- A location that may be missing is decoded from what it is written as. -/
theorem nullable_location_encode (place : Option SourceLocation) :
    nullable (some (Json.ofOption SourceLocation.encode place)) location = .ok place :=
  nullable_ofOption location_encode (fun place => by simp [SourceLocation.encode]) place

/-- A constraint is decoded from what it is written as. -/
theorem constraint_encode (c : SummaryConstraint) : constraint (some c.encode) = .ok c := by
  cases c with
  | require r =>
    rw [Constraint.encode, Constraint.encodedMembers, constraint, object_bind,
      member_bind_of rfl (term_encode r.assuming),
      member_bind rfl fun v hv => by rw [hv, nullable_location_encode]]
    show (member _ _ _ >>= fun _ => _) = _
    rw [member_bind_of rfl (term_encode r.condition), member_bind_of rfl (origin_name r.origin)]
    rfl
  | call c =>
    rw [Constraint.encode, Constraint.encodedMembers, constraint, object_bind,
      member_bind_of rfl (term_encode c.assuming),
      member_bind rfl fun v hv => by rw [hv, nullable_location_encode]]
    show (member _ _ _ >>= fun _ => _) = _
    rw [member_bind_of rfl (string_string c.callee), member_bind_of rfl (exprs_encode c.args),
      member_bind (a := c.result) rfl fun v hv => by
        rw [hv, nullable_ofOption var_encode fun v => by simp [Var.encode]]]
    rfl

/-- A summary is decoded from what it is written as. -/
theorem summary_encode (f : FunctionSummary) : summary (some f.encode) = .ok f := by
  rw [FunctionSummary.encode, summary, object_bind, member_bind_of rfl (exprs_encode f.parameters),
    member_bind (a := f.result) rfl fun v hv => by
      rw [hv, nullable_ofOption expr_encode fun e => encode_ne_null e.term],
    member_bind (a := f.constraints) rfl fun v hv =>
      (array_eq_eachItem hv fun item => constraint (some item)).trans
        (eachItem_map_encode constraint_encode 0)]
  rfl

/-- A field of a struct is decoded from what it is written as. -/
theorem structField_encode (field : StructField) :
    structField (some field.encode) = .ok field := by
  rw [StructField.encode, structField, object_bind, member_bind_of rfl (string_string field.name),
    member_bind_of rfl (string_string field.type)]
  rfl

/-- The layout of a struct is decoded from what it is written as. -/
theorem struct_encode (fields : List StructField) :
    struct (some (.array (fields.map StructField.encode))) = .ok fields :=
  (array_eq_eachItem rfl fun item => structField (some item)).trans
    (eachItem_map_encode structField_encode 0)

section

variable {α : Type} {decode : Option Json → Decoded α} {encode : α → Json}

/-- Members that are decoded to what was encoded in them give back the encoded entries. -/
theorem eachMember_map (h : ∀ a, decode (some (encode a)) = .ok a) (entries : List (String × α)) :
    eachMember decode (entries.map fun entry => (entry.1, encode entry.2)) = .ok entries := by
  induction entries with
  | nil => rfl
  | cons entry rest ih =>
    rw [List.map_cons, eachMember, h, ih]
    rfl

/-- Of the entries of a table, written as the members of an object, an object is made that has
them in its own order. -/
theorem ofMembers_map (encode : α → Json) (entries : Table α) :
    Json.ofMembers (entries.map encode).entries =
      .object (entries.inObjectOrder.map encode).entries := by
  rw [Json.ofMembers, foldl_setEntry (by simpa using (entries.map encode).nodup), List.nil_append]
  exact congrArg Json.object (Json.inObjectOrder_map encode entries.entries)

/-- A table is decoded from what it is written as, with its entries in the order of an object. -/
theorem table_encode (h : ∀ a, decode (some (encode a)) = .ok a) (entries : Table α) :
    table decode (some (Json.ofMembers (entries.map encode).entries)) =
      .ok entries.inObjectOrder := by
  rw [ofMembers_map, table, object_bind, Table.map, eachMember_map h]
  exact congrArg Except.ok (Table.ofList_of_nodup entries.inObjectOrder.nodup)

/-- The names of a decoded table are those of the members of the object. -/
theorem names_of_eachMember {members : List (String × Json)} {entries : List (String × α)}
    (h : eachMember decode members = .ok entries) :
    entries.map Prod.fst = members.map Prod.fst := by
  induction members generalizing entries with
  | nil =>
    cases h
    rfl
  | cons member rest ih =>
    obtain ⟨name, value⟩ := member
    rw [eachMember] at h
    cases hvalue : decode (some value) with
    | error m =>
      rw [hvalue] at h
      cases h
    | ok a =>
      cases hrest : eachMember decode rest with
      | error m =>
        rw [hvalue, hrest] at h
        cases h
      | ok others =>
        rw [hvalue, hrest] at h
        cases h
        exact congrArg (name :: ·) (ih hrest)

/-- A table decoded from an object that lists its members in order is in that order, too. -/
theorem table_inObjectOrder {value : Option Json} {entries : Table α}
    (h : table decode value = .ok entries)
    (hvalue : ∀ members, value = some (.object members) → Json.IsInObjectOrder members) :
    entries.inObjectOrder = entries := by
  unfold table object at h
  split at h
  · next members =>
    cases hread : eachMember decode members with
    | error m =>
      simp only [bind, Except.bind, hread] at h
      cases h
    | ok read =>
      simp only [bind, Except.bind, hread] at h
      cases h
      obtain ⟨hnodup, hsorted⟩ := hvalue members rfl
      rw [← names_of_eachMember hread] at hnodup hsorted
      rw [Table.ofList_of_nodup hnodup]
      exact Table.inObjectOrder_of_pairwise hsorted
  · cases h

/-- A table that is decoded from an object in order is in order, and so is the empty one for a
missing object. -/
theorem optionalTable_inObjectOrder {value : Option Json} {entries : Table α}
    (h : optionalTable decode value = .ok entries)
    (hvalue : ∀ members, value = some (.object members) → Json.IsInObjectOrder members) :
    entries.inObjectOrder = entries := by
  cases value with
  | none =>
    cases h
    exact Table.inObjectOrder_of_pairwise .nil
  | some given => exact table_inObjectOrder h hvalue

end

/-- What a member is decoded to is what its value is decoded to. -/
theorem of_member_eq_ok {α : Type} {members : List (String × Json)} {name : String}
    {decode : Option Json → Decoded α} {a : α}
    (h : member members name (fun v => decode v.1) = .ok a) :
    decode (valueAt? name members) = .ok a := by
  rw [member, val_part] at h
  cases hvalue : decode (valueAt? name members) with
  | ok b =>
    rw [hvalue] at h
    exact h
  | error m =>
    rw [hvalue] at h
    cases h

/-- The content of a file is that of its two members. -/
theorem of_content_eq_ok {value : Option Json} {functions : Environment}
    {structs : TypeEnvironment} (h : content value = .ok (functions, structs)) :
    table summary (value.bind fun v => v.member? "functions") = .ok functions ∧
      optionalTable struct (value.bind fun v => v.member? "structs") = .ok structs := by
  unfold content object at h
  split at h
  · next members =>
    simp only [bind, Except.bind] at h
    cases hfunctions : member members "functions" fun v => table summary v.1 with
    | error m =>
      rw [hfunctions] at h
      cases h
    | ok readFunctions =>
      cases hstructs : member members "structs" fun v => optionalTable struct v.1 with
      | error m =>
        rw [hfunctions, hstructs] at h
        cases h
      | ok readStructs =>
        rw [hfunctions, hstructs] at h
        cases h
        exact ⟨of_member_eq_ok hfunctions, of_member_eq_ok hstructs⟩
  · cases h

/-- What is decoded from a value with its tables in order has them in order, too. -/
theorem content_inObjectOrder {value : Option Json} {functions : Environment}
    {structs : TypeEnvironment} (h : content value = .ok (functions, structs))
    (hvalue : Json.TablesInOrder value) :
    functions.inObjectOrder = functions ∧ structs.inObjectOrder = structs := by
  obtain ⟨hfunctions, hstructs⟩ := of_content_eq_ok h
  exact ⟨table_inObjectOrder hfunctions (hvalue "functions"),
    optionalTable_inObjectOrder hstructs (hvalue "structs")⟩

/-- The content of a file is decoded from what the file is written as, up to the order of its
tables. -/
theorem content_encode (file : SummaryFile) :
    content (some file.encode) =
      .ok (file.functions.inObjectOrder, file.structs.inObjectOrder) := by
  rw [SummaryFile.encode, content, object_bind,
    member_bind_of rfl (table_encode summary_encode file.functions),
    member_bind rfl fun v hv => by
      rw [hv]
      exact table_encode struct_encode file.structs]
  rfl

end Decoding

namespace SummaryFile

/-- The file with its functions and its structs in the order of an object. -/
def inObjectOrder (file : SummaryFile) : SummaryFile :=
  { file with
    functions := file.functions.inObjectOrder
    structs := file.structs.inObjectOrder }

/-- The files have the same name, and the same functions and structs under each name. -/
structure SameMaps (file other : SummaryFile) : Prop where
  fileID : file.fileID = other.fileID
  functions : ∀ name, file.functions.find? name = other.functions.find? name
  structs : ∀ name, file.structs.find? name = other.structs.find? name

/-- Putting its tables into the order of an object changes nothing that is found in a file. -/
theorem sameMaps_inObjectOrder (file : SummaryFile) : file.inObjectOrder.SameMaps file where
  fileID := rfl
  functions := Table.find?_inObjectOrder file.functions
  structs := Table.find?_inObjectOrder file.structs

/-- Reading back what was written gives the same file, with its tables in the order of an
object. -/
theorem decode_encode (file : SummaryFile) :
    decode file.fileID (some file.encode) = .ok file.inObjectOrder := by
  rw [decode, Decoding.content_encode]
  rfl

/-- A value is decoded to the file with the given name and the decoded content. -/
theorem decode_eq_ok_iff {fileID : String} {value : Option Json} {file : SummaryFile} :
    decode fileID value = .ok file ↔
      file.fileID = fileID ∧ Decoding.content value = .ok (file.functions, file.structs) := by
  unfold decode
  cases hcontent : Decoding.content value with
  | error m => simp
  | ok tables =>
    constructor
    · intro h
      cases h
      exact ⟨rfl, rfl⟩
    · rintro ⟨rfl, h⟩
      cases h
      rfl

/-- A value is decoded to some file exactly if it conforms to the schema of files. -/
theorem decode_eq_ok_iff_conforms (fileID : String) (value : Option Json) :
    (∃ file, decode fileID value = .ok file) ↔ Conforms .file value := by
  rw [← Decoding.succeeds_content]
  constructor
  · rintro ⟨file, h⟩
    exact ⟨_, (decode_eq_ok_iff.mp h).2⟩
  · rintro ⟨⟨functions, structs⟩, h⟩
    exact ⟨⟨fileID, functions, structs⟩, decode_eq_ok_iff.mpr ⟨rfl, h⟩⟩

/-- A value is refused with the name of the file and the place that does not fit. -/
theorem decode_eq_error_of_not_conforms {fileID : String} {value : Option Json}
    (h : ¬ Conforms .file value) : ∃ m, decode fileID value = .error (.malformed fileID m) := by
  rw [← Decoding.succeeds_content] at h
  unfold decode
  cases hcontent : Decoding.content value with
  | ok tables => exact absurd ⟨tables, hcontent⟩ h
  | error m => exact ⟨m, rfl⟩

/-- What is written of a file has the schema of summary files. -/
theorem conforms_encode (file : SummaryFile) : Conforms .file (some file.encode) :=
  (decode_eq_ok_iff_conforms file.fileID _).mp ⟨_, decode_encode file⟩

/-- A file that was decoded from a value with its tables in order is read back as it is. -/
theorem decode_encode_of_tablesInOrder {value : Option Json} {file : SummaryFile}
    (h : decode file.fileID value = .ok file) (hvalue : Json.TablesInOrder value) :
    decode file.fileID (some file.encode) = .ok file := by
  obtain ⟨hfunctions, hstructs⟩ :=
    Decoding.content_inObjectOrder (decode_eq_ok_iff.mp h).2 hvalue
  rw [decode_encode, inObjectOrder, hfunctions, hstructs]

/-- A value is decoded to a file if it conforms to the schema of summary files, and otherwise
refused as malformed. Every file has the schema itself when it is written, so that each place holds
a term, a variable or a number as the data model says; and it is read back from what was written,
with its tables in the order of an object. If the file was itself decoded from a value that lists
its tables in this order, what is read back is that file. -/
theorem decode_accepts_exactly_the_schema (fileID : String) :
    (∀ value : Option Json,
      ((∃ file, decode fileID value = .ok file) ↔ Conforms .file value) ∧
      (¬ Conforms .file value → ∃ m, decode fileID value = .error (.malformed fileID m))) ∧
    (∀ file : SummaryFile, file.fileID = fileID →
      Conforms .file (some file.encode) ∧
      decode fileID (some file.encode) = .ok file.inObjectOrder ∧
      file.inObjectOrder.SameMaps file) ∧
    ∀ (value : Option Json) (file : SummaryFile), decode fileID value = .ok file →
      file.fileID = fileID ∧ Conforms .file (some file.encode) ∧
      (∃ again, decode fileID (some file.encode) = .ok again ∧ again.SameMaps file) ∧
      (Json.TablesInOrder value → decode fileID (some file.encode) = .ok file) := by
  refine ⟨fun value => ⟨?_, ?_⟩, ?_, ?_⟩
  · exact decode_eq_ok_iff_conforms fileID value
  · exact decode_eq_error_of_not_conforms
  · rintro file rfl
    exact ⟨conforms_encode file, decode_encode file, sameMaps_inObjectOrder file⟩
  · intro value file h
    obtain rfl := (decode_eq_ok_iff.mp h).1
    refine ⟨rfl, conforms_encode file, ⟨_, decode_encode file, sameMaps_inObjectOrder file⟩, ?_⟩
    exact decode_encode_of_tablesInOrder h

end SummaryFile

end SummaryInlining
