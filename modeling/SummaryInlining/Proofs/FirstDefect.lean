import SummaryInlining.Proofs.Blame
import SummaryInlining.Proofs.ParsedValues

/-!
# The decoder blames a first defect

What the decoder of a part reports is a defect of that part: this is shown for every decoder from
the decoders that it is built of, in the order of the data model. A term reports defects of the
terms inside of it, so the proof for terms is by induction on the size of the value.

A file has two tables, and its decoder goes through the functions before it comes to the structs. A
`FirstDefect` of a file is therefore one with no defect in what the tables list before it. That the
tables list no name twice is needed, since the path to an entry names it. The values that texts
write are of this kind (`namesDistinct_of_parse`).
-/

set_option autoImplicit false

namespace SummaryInlining

namespace Decoding

/-! ## Values without parts -/

section

variable (front : List PathStep) (value : Option Json)

/-- What is refused as a string is at fault where it stands. -/
theorem reports_string : Reports (Blames front value) (string value) := by
  unfold string
  split
  · exact reports_ok _
  · next hother => exact reports_fail (.here fun words h => hother words h)

/-- What is refused as a boolean is at fault where it stands. -/
theorem reports_boolean : Reports (Blames front value) (boolean value) := by
  unfold boolean
  split
  · exact reports_ok _
  · next hother => exact reports_fail (.here fun b h => hother b h)

/-- What is refused as an integer is at fault where it stands. -/
theorem reports_integer : Reports (Blames front value) (integer value) := by
  unfold integer
  split
  · split
    · exact reports_ok _
    · next hnone =>
      refine reports_fail (.here fun n hn => ?_)
      obtain rfl := Json.number.inj (Option.some.inj hn)
      simp at hnone
  · next hother => exact reports_fail (.here fun n h => hother _ h)

/-- What is refused as one of several names is at fault where it stands. -/
theorem reports_oneOf {α : Type} (options : List α) (name : α → String) :
    Reports (Blames front value) (oneOf options name value) := by
  unfold oneOf
  split
  · split
    · exact reports_ok _
    · next hnone =>
      refine reports_fail (.here fun words hwords hvalue => ?_)
      obtain ⟨option, hoption, rfl⟩ := List.mem_map.mp hwords
      cases hvalue
      have hnot := List.find?_eq_none.mp hnone option hoption
      simp at hnot
  · next hother => exact reports_fail (.here fun words _ h => hother words h)

/-! ## Variables -/

/-- What is refused as the name of a sort is at fault where it stands. -/
theorem reports_sortName (s : ValueSort) : Reports (Blames front value) (sortName s value) := by
  refine reports_bind (reports_oneOf front value _ _) fun found hfound => ?_
  split
  · exact reports_pure ()
  · next hne =>
    refine reports_fail (.here fun hvalue => hne ?_)
    obtain ⟨-, hname⟩ := of_oneOf_eq_ok hfound
    rw [hname, Option.some.injEq, Json.string.injEq] at hvalue
    cases found <;> cases s <;> first | rfl | simp [ValueSort.name] at hvalue

/-- What is refused as a variable of one sort has the fault that is reported. -/
theorem reports_variableId (s : ValueSort) :
    Reports (Blames front value) (variableId s value) := by
  refine reports_parts fun members _ => ?_
  refine reports_bind (reports_member "sort" fun v => reports_sortName _ v.1 s) fun _ _ => ?_
  exact reports_member "id" fun v => reports_integer _ v.1

/-- What is refused as a variable has the fault that is reported. -/
theorem reports_var : Reports (Blames front value) (var value) := by
  refine reports_parts fun members _ => ?_
  refine reports_bind (reports_member "sort" fun v => reports_oneOf _ v.1 _ _) fun _ _ => ?_
  exact reports_bind_pure (reports_member "id" fun v => reports_integer _ v.1)

end

/-! ## Terms -/

/-- The terms that are smaller than an object report only defects of theirs. -/
def SmallerReport (members : List (String × Json)) : Prop :=
  ∀ (s : ValueSort) (way : List PathStep) (value : Option Json), sizeOf value ≤ sizeOf members →
    Reports (Blames (.key "functions" :: way) value) (term s value)

section

variable {members : List (String × Json)} {way : List PathStep}

/-- A term that is part of a node reports a fault of its own, as it is smaller than the node. -/
theorem reports_part (ih : SmallerReport members) (name : String) (s : ValueSort) :
    Reports (Blames (.key "functions" :: way) (some (.object members)))
      (member members name fun v => term s v.1) :=
  reports_member name fun v => ih s (way ++ [PathStep.key name]) v.1 v.2

/-- A term in an array of a node reports a fault of its own, as it is smaller than the node. -/
theorem reports_item (ih : SmallerReport members) (name : String) (s : ValueSort)
    (value : { value : Option Json // sizeOf value ≤ sizeOf members })
    (item : { item : Json // sizeOf item < sizeOf value.1 }) (position : Number) :
    Reports (Blames (.key "functions" :: way ++ [.key name] ++ [.index position]) (some item.1))
      (term s (some item.1)) := by
  refine ih s (way ++ [PathStep.key name] ++ [.index position]) (some item.1) ?_
  have hvalue := value.2
  have hitem := item.2
  simp only [Option.some.sizeOf_spec]
  omega

/-- The operands of a node report the fault of the first one that is refused. -/
theorem reports_operands (ih : SmallerReport members) :
    Reports (Blames (.key "functions" :: way) (some (.object members)))
      (member members "operands" fun v => array v.1 fun item => term .bool (some item.1)) :=
  reports_member "operands" fun v =>
    reports_array (reports_item ih "operands" .bool v) fun _ h => .operand h

/-- An element of a list is absent where `null` stands. -/
theorem element_eq_nullable (item : Json) :
    (match item with
      | .null => pure none
      | _ => do return some (← term .int (some item)) : Decoded (Option (Term .int))) =
      nullable (some item) (term .int) := by
  cases item <;> rfl

/-- The elements of a list report the fault of the first one that is refused. -/
theorem reports_elements (ih : SmallerReport members) :
    Reports (Blames (.key "functions" :: way) (some (.object members)))
      (member members "elements" fun v =>
        array v.1 fun item =>
          match item.1 with
          | .null => return none
          | _ => do return some (← term .int (some item.1))) := by
  simp only [element_eq_nullable]
  refine reports_member "elements" fun v => reports_array (fun item position => ?_) fun _ h => ?_
  · exact reports_nullable (reports_item ih "elements" .int v item position)
  · exact .element h

/-- A node reports defects of its parts, in their order. -/
theorem reports_node (ih : SmallerReport members) {kind : NodeKind}
    (hkind : nodeKind? members = some kind) :
    Reports (Blames (.key "functions" :: way) (some (.object members)))
      (term kind.sort (some (.object members))) := by
  have hinteger (name : String) :
      Reports (Blames (.key "functions" :: way) (some (.object members)))
        (member members name fun v => integer v.1) :=
    reports_member name fun v => reports_integer _ v.1
  have hoption {α : Type} (name : String) (options : List α) (text : α → String) :
      Reports (Blames (.key "functions" :: way) (some (.object members)))
        (member members name fun v => oneOf options text v.1) :=
    reports_member name fun v => reports_oneOf _ v.1 options text
  rw [term]
  simp only [hkind]
  -- the parts come in the order of the decoder: a later one is looked at if the earlier ones decode
  cases kind with
  | var s =>
    simp only [NodeKind.sort, if_pos]
    exact reports_bind_pure (reports_member "variable" fun v => reports_variableId _ v.1 s)
  | literal => exact reports_bind_pure (hinteger "value")
  | length => exact reports_bind_pure (reports_part ih "list" .list)
  | element =>
    exact reports_bind (hinteger "index") fun _ _ =>
      reports_bind_pure (reports_part ih "list" .list)
  | arith =>
    exact reports_bind (hoption "op" _ _) fun _ _ =>
      reports_bind (reports_part ih "left" .int) fun _ _ =>
        reports_bind_pure (reports_part ih "right" .int)
  | list => exact reports_bind_pure (reports_elements ih)
  | broadcast =>
    exact reports_bind (reports_part ih "left" .list) fun _ _ =>
      reports_bind_pure (reports_part ih "right" .list)
  | truth =>
    exact reports_bind_pure (reports_member "value" fun v => reports_boolean _ v.1)
  | not => exact reports_bind_pure (reports_part ih "operand" .bool)
  | and => exact reports_bind_pure (reports_operands ih)
  | or => exact reports_bind_pure (reports_operands ih)
  | compare =>
    exact reports_bind (hoption "op" _ _) fun _ _ =>
      reports_bind (reports_part ih "left" .int) fun _ _ =>
        reports_bind_pure (reports_part ih "right" .int)
  | listEq =>
    exact reports_bind (reports_part ih "left" .list) fun _ _ =>
      reports_bind_pure (reports_part ih "right" .list)
  | boolEq =>
    exact reports_bind (reports_part ih "left" .bool) fun _ _ =>
      reports_bind_pure (reports_part ih "right" .bool)

end

/-- What is reported of a term is a defect of it. -/
theorem reports_term (s : ValueSort) (way : List PathStep) (value : Option Json) :
    Reports (Blames (.key "functions" :: way) value) (term s value) := by
  -- on the size of the value: the terms inside of a node are smaller than the node
  induction hn : sizeOf value using Nat.strong_induction_on generalizing s way value with
  | _ n ih =>
    by_cases hobject : ∃ members, value = some (.object members)
    · obtain ⟨members, rfl⟩ := hobject
      have hsmaller : SmallerReport members := by
        refine fun t inner part hpart => ih _ ?_ t inner part rfl
        simp only [← hn, Option.some.sizeOf_spec, Json.object.sizeOf_spec]
        omega
      by_cases hkind : ∃ kind, nodeKind? members = some kind ∧ kind.sort = s
      · obtain ⟨kind, hkind, rfl⟩ := hkind
        exact reports_node hsmaller hkind
      · rw [term_eq_wrongTag fun kind hfound hs => hkind ⟨kind, hfound, hs⟩]
        refine reports_wrongTag fun kind hs htag => hkind ⟨kind, ?_, hs⟩
        exact nodeKind?_eq_some_iff.mpr (conforms_exactly_iff.mpr htag)
    · have hfails : term s value = fail .object := by
        rw [term.eq_def]
        split
        · exact absurd ⟨_, rfl⟩ hobject
        · rfl
      rw [hfails]
      exact reports_fail (.here fun members h => hobject ⟨members, h⟩)

/-! ## Expressions, constraints, summaries and structs -/

section

variable (way : List PathStep) (value : Option Json)

/-- An expression that is refused has the fault that is reported, as its tag decides which terms it
can be. -/
theorem reports_expr : Reports (Blames (.key "functions" :: way) value) (expr value) := by
  refine reports_parts fun members hvalue => ?_
  split
  · next kind _ =>
    rw [← hvalue]
    exact reports_bind_pure (reports_term kind.sort way value)
  · next hnone =>
    refine reports_wrongTag fun kind htag => ?_
    have hkind := nodeKind?_eq_some_iff.mpr (conforms_exactly_iff.mpr htag)
    rw [hnone] at hkind
    cases hkind

/-- Arguments report the fault of the first one that is refused. -/
theorem reports_exprs (name : String)
    (hdecodes : ∀ item : Json, Succeeds (nullable (some item) expr) →
      ItemDecodes (.key "functions" :: (way ++ [.key name])) item) :
    Reports (Blames (.key "functions" :: (way ++ [.key name])) value) (exprs value) := by
  refine reports_array (fun item position => reports_nullable ?_) fun item h => hdecodes item.1 h
  exact reports_expr (way ++ [PathStep.key name] ++ [.index position]) (some item.1)

/-- A location that is refused has the fault that is reported. -/
theorem reports_location (front : List PathStep) :
    Reports (Blames front value) (location value) := by
  refine reports_parts fun members _ => ?_
  refine reports_bind (reports_member "fileID" fun v => reports_string _ v.1) fun _ _ => ?_
  refine reports_bind (reports_member "line" fun v => reports_integer _ v.1) fun _ _ => ?_
  exact reports_bind_pure (reports_member "column" fun v => reports_integer _ v.1)

/-- The assumption and the location are decoded first, and then what the tag asks for. -/
theorem reports_constraint :
    Reports (Blames (.key "functions" :: way) value) (constraint value) := by
  refine reports_parts fun members _ => ?_
  have hterm (name : String) : Reports (Blames (.key "functions" :: way) (some (.object members)))
      (member members name fun v => term .bool v.1) :=
    reports_member name fun v => reports_term .bool (way ++ [PathStep.key name]) v.1
  refine reports_bind (hterm "assuming") fun _ _ => ?_
  refine reports_bind (reports_member "location" fun v => reports_nullable ?_) fun _ _ => ?_
  · exact reports_location v.1 _
  split
  · refine reports_bind (hterm "condition") fun _ _ => ?_
    exact reports_bind_pure (reports_member "origin" fun v => reports_oneOf _ v.1 _ _)
  · split
    · refine reports_bind (reports_member "callee" fun v => reports_string _ v.1) fun _ _ => ?_
      refine reports_bind (reports_member "args" fun v => ?_) fun _ _ => ?_
      · exact reports_exprs way v.1 "args" fun _ h => .argument h
      refine reports_bind_pure (reports_member "result" fun v => reports_nullable ?_)
      exact reports_var _ v.1
    · next hexpr hcall =>
      refine reports_wrongTag ⟨fun htag => hexpr ?_, fun htag => hcall ?_⟩
      · exact tag?_eq_some_iff.mpr (conforms_exactly_iff.mpr htag)
      · exact tag?_eq_some_iff.mpr (conforms_exactly_iff.mpr htag)

/-- A summary that is refused has the fault that is reported. -/
theorem reports_summary : Reports (Blames (.key "functions" :: way) value) (summary value) := by
  refine reports_parts fun members _ => ?_
  refine reports_bind (reports_member "argExprs" fun v => ?_) fun _ _ => ?_
  · exact reports_exprs way v.1 "argExprs" fun _ h => .parameter h
  refine reports_bind (reports_member "retExpr" fun v => reports_nullable ?_) fun _ _ => ?_
  · exact reports_expr (way ++ [PathStep.key "retExpr"]) v.1
  refine reports_bind_pure (reports_member "constraints" fun v => reports_array ?_ fun _ h => ?_)
  · intro item position
    exact reports_constraint (way ++ [PathStep.key "constraints"] ++ [PathStep.index position]) _
  · exact .constraint h

/-- The layout of a struct reports the fault of the first field that is refused. -/
theorem reports_struct (name : String) :
    Reports (Blames [.key "structs", .key name] value) (struct value) := by
  refine reports_array (fun item position => ?_) fun _ h => .field h
  refine reports_parts fun members _ => ?_
  refine reports_bind (reports_member "name" fun v => reports_string _ v.1) fun _ _ => ?_
  exact reports_bind_pure (reports_member "type" fun v => reports_string _ v.1)

end

/-! ## Tables -/

section

variable {α : Type} {decode : Option Json → Decoded α}

/-- The first member whose value is not decoded is the one that is reported. -/
theorem exists_member_of_eachMember_eq_error {members : List (String × Json)} {m : Malformation}
    (h : eachMember decode members = .error m) :
    ∃ before name value behind inner, members = before ++ (name, value) :: behind ∧
      (∀ earlier ∈ before, Succeeds (decode (some earlier.2))) ∧
      decode (some value) = .error inner ∧ m = inner.within (.key name) := by
  induction members generalizing m with
  | nil => cases h
  | cons entry rest ih =>
    obtain ⟨name, value⟩ := entry
    rw [eachMember] at h
    cases hvalue : decode (some value) with
    | error inner =>
      rw [hvalue] at h
      cases h
      exact ⟨[], name, value, rest, inner, rfl, List.forall_mem_nil _, hvalue, rfl⟩
    | ok a =>
      rw [hvalue] at h
      cases hrest : eachMember decode rest with
      | ok others =>
        rw [hrest] at h
        cases h
      | error deeper =>
        rw [hrest] at h
        cases h
        obtain ⟨before, found, inside, behind, inner, rfl, hbefore, hinner, hm⟩ := ih hrest
        refine ⟨(name, value) :: before, found, inside, behind, inner, rfl, ?_, hinner, hm⟩
        exact List.forall_mem_cons.mpr ⟨⟨a, hvalue⟩, hbefore⟩

/-- If the path leads to an entry of a table, all entries before it are decoded. -/
def EntriesBefore (decode : Option Json → Decoded α) (table : Option Json)
    (path : List PathStep) : Prop :=
  ∀ name rest, path = .key name :: rest → ∃ before value behind,
    table = some (.object (before ++ (name, value) :: behind)) ∧
    ∀ earlier ∈ before, Succeeds (decode (some earlier.2))

/-- Where no name is listed twice, the value in the middle of a list is found under its name. -/
theorem valueAt?_append_cons {before behind : List (String × Json)} {name : String} {value : Json}
    (hnames : ((before ++ (name, value) :: behind).map Prod.fst).Nodup) :
    valueAt? name (before ++ (name, value) :: behind) = some value :=
  valueAt?_of_mem hnames (by simp)

/-- A table reports a fault of an entry that is refused, where all entries before it are decoded. -/
theorem reports_table {front : List PathStep} {value : Option Json}
    (hnames : ∀ members, value = some (.object members) → (members.map Prod.fst).Nodup)
    (h : ∀ name inner, Reports (Blames (front ++ [.key name]) inner) (decode inner)) :
    Reports (fun m => Blames front value m ∧ EntriesBefore decode value m.path)
      (table decode value) := by
  refine reports_object_bind (fun hother => ⟨.here hother, nofun⟩) fun members hmembers => ?_
  subst hmembers
  refine reports_bind_pure fun m hm => ?_
  obtain ⟨before, name, inside, behind, inner, rfl, hbefore, hinner, rfl⟩ :=
    exists_member_of_eachMember_eq_error hm
  refine ⟨.member ?_, ?_⟩
  · rw [valueAt?_append_cons (hnames _ rfl)]
    exact h name (some inside) inner hinner
  · intro other rest hpath
    obtain ⟨hkey, -⟩ := List.cons.inj hpath
    obtain rfl := PathStep.key.inj hkey
    exact ⟨before, inside, behind, rfl, hbefore⟩

/-! ## Files -/

/-- A member is decoded like the value under its name, and its name is put in front of the path of a
fault. -/
theorem member_eq (members : List (String × Json)) (name : String)
    (decode : Option Json → Decoded α) :
    member members name (fun v => decode v.1) =
      within (.key name) (decode (valueAt? name members)) := by
  rw [← val_part]
  rfl

end

/-- A malformation of a file that is not preceded by another one. It stands at a place of the file
that is at fault, no item of an array comes before it that is not decoded, and neither does an
entry of a table. The functions come before the structs. -/
structure FirstDefect (value : Option Json) (m : Malformation) : Prop
    extends Blames [] value m where
  functions : ∀ path, m.path = .key "functions" :: path →
    ∃ table, follow [.key "functions"] value = some table ∧ EntriesBefore summary table path
  structs : ∀ path, m.path = .key "structs" :: path →
    ∃ table, follow [.key "structs"] value = some table ∧ EntriesBefore struct table path
  functionsFirst : ∀ path, m.path = .key "structs" :: path →
    ∃ members, follow [.key "functions"] value = some (some (.object members)) ∧
      ∀ entry ∈ members, Succeeds (summary (some entry.2))

/-- The functions of a file report the first defect of the file. -/
theorem reports_functions {members : List (String × Json)}
    (hnames : ∀ entries, valueAt? "functions" members = some (.object entries) →
      (entries.map Prod.fst).Nodup) :
    Reports (FirstDefect (some (.object members)))
      (member members "functions" fun v => table summary v.1) := by
  rw [member_eq members "functions" (table summary)]
  refine reports_within fun m hm => ?_
  have hdefect : Blames [.key "functions"] _ m ∧ EntriesBefore summary _ m.path :=
    reports_table hnames (fun name inner => reports_summary [.key name] inner) m hm
  exact {
    toBlames := .member hdefect.1
    functions := fun path hpath => ⟨_, rfl, (List.cons.inj hpath).2 ▸ hdefect.2⟩
    structs := fun path hpath => by simp [Malformation.within] at hpath
    functionsFirst := fun path hpath => by simp [Malformation.within] at hpath }

/-- When the functions are decoded, the structs of a file report the first defect of the file. -/
theorem reports_structs {members functions : List (String × Json)}
    (hnames : ∀ entries, valueAt? "structs" members = some (.object entries) →
      (entries.map Prod.fst).Nodup)
    (hfunctions : valueAt? "functions" members = some (.object functions))
    (hdecoded : ∀ entry ∈ functions, Succeeds (summary (some entry.2))) :
    Reports (FirstDefect (some (.object members)))
      (member members "structs" fun v => optionalTable struct v.1) := by
  rw [member_eq members "structs" (optionalTable struct)]
  refine reports_within fun m hm => ?_
  have hdefect : Blames [.key "structs"] (valueAt? "structs" members) m ∧
      EntriesBefore struct (valueAt? "structs" members) m.path := by
    refine reports_table hnames (fun name inner => reports_struct inner name) m ?_
    cases hvalue : valueAt? "structs" members with
    | none =>
      rw [hvalue] at hm
      cases hm
    | some given =>
      rw [hvalue] at hm
      exact hm
  exact {
    toBlames := .member hdefect.1
    functions := fun path hpath => by simp [Malformation.within] at hpath
    structs := fun path hpath => ⟨_, rfl, (List.cons.inj hpath).2 ▸ hdefect.2⟩
    functionsFirst := fun _ _ => ⟨functions, congrArg some hfunctions, hdecoded⟩ }

/-- The tables of a file list no name twice. An object of JSON never does. -/
def NamesDistinct (value : Option Json) : Prop :=
  ∀ name entries, (value.bind fun v => v.member? name) = some (.object entries) →
    (entries.map Prod.fst).Nodup

/-- What is refused as the content of a file has the defect that is reported, and no other one
before it. -/
theorem reports_content {value : Option Json} (hnames : NamesDistinct value) :
    Reports (FirstDefect value) (content value) := by
  refine reports_object_bind (fun hother => ?_) fun members hmembers => ?_
  · exact {
      toBlames := .here hother
      functions := nofun
      structs := nofun
      functionsFirst := nofun }
  · subst hmembers
    refine reports_bind (reports_functions (hnames "functions")) fun functions hdecoded => ?_
    have htable : Succeeds (member members "functions" fun v => table summary v.1) :=
      ⟨functions, hdecoded⟩
    rw [member_eq members "functions" (table summary), succeeds_within, table,
      succeeds_object_bind] at htable
    obtain ⟨entries, hentries, heach⟩ := htable
    rw [succeeds_bind_pure, succeeds_eachMember] at heach
    exact reports_bind_pure (reports_structs (hnames "structs") hentries heach)

end Decoding

/-- The objects that are read from a text list no name twice. -/
theorem Decoding.namesDistinct_of_parse {text : String} {value : Json}
    (h : Json.parse text = .ok value) : NamesDistinct (some value) := fun name entries hentries =>
  ((Json.inOrder_of_parse h).tablesInOrder name entries hentries).nodup

namespace SummaryFile

/-- A refused file is malformed, with the first defect of the value. -/
theorem exists_firstDefect {fileID : String} {value : Option Json} {d : Diagnostic}
    (hnames : Decoding.NamesDistinct value) (h : decode fileID value = .error d) :
    ∃ m, d = .malformed fileID m ∧ Decoding.FirstDefect value m := by
  unfold decode at h
  split at h
  · cases h
  · next m hm =>
    cases h
    exact ⟨m, rfl, Decoding.reports_content hnames m hm⟩

/-- A value that is rejected has a defect at the path that is reported, which is not what is
expected there, and nothing that comes before it is malformed. So has the value of a text that is
rejected although it is JSON. -/
theorem decoder_blames_first_defect (fileID : String) :
    (∀ (value : Option Json) (d : Diagnostic), Decoding.NamesDistinct value →
      decode fileID value = .error d →
        ∃ m, d = .malformed fileID m ∧ Decoding.FirstDefect value m) ∧
    ∀ (text : String) (value : Json) (d : Diagnostic), Json.parse text = .ok value →
      parse fileID text = .error d →
        ∃ m, d = .malformed fileID m ∧ Decoding.FirstDefect (some value) m := by
  refine ⟨fun value d => exists_firstDefect, fun text value d hvalue h => ?_⟩
  refine exists_firstDefect (Decoding.namesDistinct_of_parse hvalue) ?_
  rwa [parse, hvalue] at h

/-- A file with one function and two structs. The second field of the second struct has no type,
and nothing else is wrong. In an object without members, the functions are missing. -/
theorem missing_parts_are_blamed :
    let f := Json.object [("argExprs", .array []), ("retExpr", .null), ("constraints", .array [])]
    let a := Json.object [("name", .string "a"), ("type", .string "int")]
    let b := Json.object [("name", .string "b")]
    let structs := Json.object [("first", .array [a]), ("second", .array [a, b])]
    let value := some (Json.object [("functions", .object [("f", f)]), ("structs", structs)])
    let path : List PathStep :=
      [.key "structs", .key "second", .index (.ofNat 1), .key "type"]
    (decode "a.json" value = .error (.malformed "a.json" ⟨path, .string⟩) ∧
      Decoding.FirstDefect value ⟨path, .string⟩) ∧
    parse "a.json" "\x7b\x7d" = .error (.malformed "a.json" ⟨[.key "functions"], .object⟩) ∧
      Decoding.FirstDefect (some (.object [])) ⟨[.key "functions"], .object⟩ := by
  intro f a b structs value path
  constructor
  · have hnames : Decoding.NamesDistinct value := by
      intro name entries h
      have hmem : (name, Json.object entries) ∈
          [("functions", Json.object [("f", f)]), ("structs", structs)] := mem_of_valueAt? h
      obtain hfunctions | hstructs := List.mem_cons.mp hmem
      · rw [Json.object.inj (Prod.mk.inj hfunctions).2]
        simp
      · rw [Json.object.inj (Prod.mk.inj (List.mem_singleton.mp hstructs)).2]
        simp
    have hdecode : decode "a.json" value = .error (.malformed "a.json" ⟨path, .string⟩) := rfl
    obtain ⟨m, hm, hdefect⟩ := (decoder_blames_first_defect "a.json").1 value _ hnames hdecode
    cases hm
    exact ⟨hdecode, hdefect⟩
  · have hvalue : Json.value ['\x7b', '\x7d'] = .ok (.object [], ⟨[], by simp⟩) := by
      rw [Json.value]
      rfl
    have hparse : Json.parse "\x7b\x7d" = .ok (.object []) := by
      have htext : "\x7b\x7d".toList = ['\x7b', '\x7d'] := rfl
      rw [Json.parse, htext, Json.wholeValue, hvalue]
      rfl
    have hrejected : parse "a.json" "\x7b\x7d" =
        .error (.malformed "a.json" ⟨[.key "functions"], .object⟩) := by
      rw [parse, hparse]
      rfl
    obtain ⟨m, hm, hdefect⟩ := (decoder_blames_first_defect "a.json").2 _ _ _ hparse hrejected
    cases hm
    exact ⟨hrejected, hdefect⟩

end SummaryFile

end SummaryInlining
