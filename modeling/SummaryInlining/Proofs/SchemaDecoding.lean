import Mathlib.Data.Rat.Defs
import Mathlib.Tactic.Tauto
import SummaryInlining.Proofs.Schema
import SummaryInlining.Summary.Decoding

/-!
# The decoder accepts what conforms to the schema

Each decoder succeeds exactly on the values of its schema. A decoder of an object takes its parts
one after the other and puts them together at the end, so it succeeds exactly when each part does;
`succeeds_bind_of_iff` says this for one part, and the lemmas about objects are chains of it. For
terms the proof is by induction on the size of the value: the kind that the tag names decides which
parts are taken (`succeeds_node`), and `NodeKind.parts` lists the same ones.
-/

set_option autoImplicit false

namespace SummaryInlining

/-- A number that stands for an integer is the number of this integer. -/
theorem Number.eq_ofInt_of_toInt? {n : Number} {i : Int} (h : n.toInt? = some i) :
    n = .ofInt i := by
  cases n with
  | finite q =>
    by_cases hq : q.den = 1
    · simp only [Number.toInt?, hq, if_true, Option.some.injEq] at h
      rw [Number.ofInt, ← h, Rat.coe_int_num_of_den_eq_one hq]
    · simp [Number.toInt?, hq] at h
  | infinite negative => cases h
  | undetermined => cases h

namespace NodeKind

/-- Every kind of node is in the list of all kinds. -/
theorem mem_all (kind : NodeKind) : kind ∈ NodeKind.all := by
  cases kind with
  | var s => cases s <;> decide
  | _ => decide

/-- No two kinds have the same name. -/
theorem eq_of_name_eq {kind other : NodeKind} (h : kind.name = other.name) : kind = other := by
  have hall : ∀ k ∈ NodeKind.all, ∀ l ∈ NodeKind.all, k.name = l.name → k = l := by decide
  exact hall kind (mem_all kind) other (mem_all other) h

end NodeKind

namespace Decoding

/-- Something has been decoded. -/
def Succeeds {α : Type} (decoded : Decoded α) : Prop := ∃ a, decoded = .ok a

section

variable {α β : Type}

/-- A decoded part has been decoded. -/
theorem succeeds_ok (a : α) : Succeeds (.ok a) := ⟨a, rfl⟩

/-- A malformation is no decoded part. -/
theorem not_succeeds_error (m : Malformation) : ¬ Succeeds (.error m : Decoded α) := by
  rintro ⟨a, ha⟩
  cases ha

/-- A refused tag is no decoded part. -/
theorem not_succeeds_wrongTag (expected : Expectation) :
    ¬ Succeeds (wrongTag expected : Decoded α) :=
  not_succeeds_error _

/-- Naming the place of a malformation does not change whether there is one. -/
theorem succeeds_within (step : PathStep) (decoded : Decoded α) :
    Succeeds (within step decoded) ↔ Succeeds decoded := by
  cases decoded with
  | ok a => exact iff_of_true ⟨a, rfl⟩ ⟨a, rfl⟩
  | error m => exact iff_of_false (not_succeeds_error _) (not_succeeds_error _)

/-- A part and what follows it succeed when both do, provided that what follows it does not depend
on what the part is. -/
theorem succeeds_bind_of_iff {decoded : Decoded α} {next : α → Decoded β} {P : Prop}
    (h : ∀ a, Succeeds (next a) ↔ P) : Succeeds (decoded >>= next) ↔ Succeeds decoded ∧ P := by
  cases decoded with
  | ok a => exact (h a).trans (and_iff_right (succeeds_ok a)).symm
  | error m => exact iff_of_false (not_succeeds_error _) fun h => not_succeeds_error _ h.1

/-- The last part of an object is followed by nothing that can fail. -/
theorem succeeds_bind_pure (decoded : Decoded α) (f : α → β) :
    Succeeds (decoded >>= fun a => pure (f a)) ↔ Succeeds decoded := by
  have hlast : ∀ a, Succeeds (pure (f a) : Decoded β) ↔ True := fun a =>
    iff_true_intro (succeeds_ok (f a))
  rw [succeeds_bind_of_iff hlast, and_true]

/-- A part of an object is the value under its name. -/
theorem val_part (members : List (String × Json)) (name : String) :
    (part members name).1 = valueAt? name members := by
  unfold part
  split
  · next h => exact h.symm
  · next h => exact h.symm

/-- A member of an object is decoded when the value under its name, or the lack of one, is. -/
theorem succeeds_member {members : List (String × Json)} (name : String) {schema : Schema}
    {decode : { value : Option Json // sizeOf value ≤ sizeOf members } → Decoded α}
    (h : ∀ v, Succeeds (decode v) ↔ Conforms schema v.1) :
    Succeeds (member members name decode) ↔ Conforms schema (valueAt? name members) := by
  rw [member, succeeds_within, h, val_part]

/-- The decoder of an object succeeds when the value is an object, and with its members. -/
theorem succeeds_object_bind (value : Option Json) (next : List (String × Json) → Decoded α) :
    Succeeds (object value >>= next) ↔
      ∃ members, value = some (.object members) ∧ Succeeds (next members) := by
  constructor
  · intro h
    unfold object at h
    split at h
    · exact ⟨_, rfl, h⟩
    · exact absurd h (not_succeeds_error _)
  · rintro ⟨members, rfl, h⟩
    exact h

/-- Items are decoded if each one of them is, wherever their count starts. -/
theorem succeeds_eachItem (decode : β → Decoded α) (start : Nat) (items : List β) :
    Succeeds (eachItem decode start items) ↔ ∀ item ∈ items, Succeeds (decode item) := by
  induction items generalizing start with
  | nil => simp [eachItem, succeeds_ok]
  | cons item rest ih =>
    rw [eachItem, succeeds_bind_of_iff fun first => succeeds_bind_pure _ (first :: ·),
      succeeds_within, ih, List.forall_mem_cons]

/-- An array is decoded exactly if it conforms, provided that this holds for its items. -/
theorem succeeds_array {value : Option Json} {schema : Schema}
    {decode : { item : Json // sizeOf item < sizeOf value } → Decoded α}
    (h : ∀ item, Succeeds (decode item) ↔ Conforms schema (some item.1)) :
    Succeeds (array value decode) ↔ Conforms (.array schema) value := by
  rw [conforms_array_iff]
  constructor
  · intro hs
    unfold array at hs
    split at hs
    · rw [succeeds_eachItem] at hs
      exact ⟨_, rfl, fun item hi => (h _).mp (hs ⟨item, hi⟩ (List.mem_attach _ _))⟩
    · exact absurd hs (not_succeeds_error _)
  · rintro ⟨items, rfl, hall⟩
    unfold array
    rw [succeeds_eachItem]
    exact fun item _ => (h _).mpr (hall item.1 item.2)

end

/-! ## Values without parts -/

section

variable (value : Option Json)

/-- Exactly what conforms to the schema of strings is decoded as a string. -/
theorem succeeds_string : Succeeds (string value) ↔ Conforms .string value := by
  rw [conforms_string_iff]
  constructor
  · intro h
    unfold string at h
    split at h
    · exact ⟨_, rfl⟩
    · exact absurd h (not_succeeds_error _)
  · rintro ⟨words, rfl⟩
    exact succeeds_ok words

/-- Exactly what conforms to the schema of booleans is decoded as a boolean. -/
theorem succeeds_boolean : Succeeds (boolean value) ↔ Conforms .boolean value := by
  rw [conforms_boolean_iff]
  constructor
  · intro h
    unfold boolean at h
    split at h
    · exact ⟨_, rfl⟩
    · exact absurd h (not_succeeds_error _)
  · rintro ⟨b, rfl⟩
    exact succeeds_ok b

/-- The number of an integer is decoded to this integer. -/
theorem integer_ofInt (n : Int) : integer (some (.ofInt n)) = .ok n := by
  simp [integer, Json.ofInt]

/-- Exactly what conforms to the schema of integers is decoded as an integer. -/
theorem succeeds_integer : Succeeds (integer value) ↔ Conforms .integer value := by
  rw [conforms_integer_iff]
  constructor
  · intro h
    unfold integer at h
    split at h
    · split at h
      · next i hi =>
        rw [Number.eq_ofInt_of_toInt? hi]
        exact ⟨i, rfl⟩
      · exact absurd h (not_succeeds_error _)
    · exact absurd h (not_succeeds_error _)
  · rintro ⟨n, rfl⟩
    exact ⟨n, integer_ofInt n⟩

/-- Whatever is decoded as one of some options is one of them, and its name stands there. -/
theorem of_oneOf_eq_ok {α : Type} {options : List α} {name : α → String} {value : Option Json}
    {option : α} (h : oneOf options name value = .ok option) :
    option ∈ options ∧ value = some (.string (name option)) := by
  unfold oneOf at h
  split at h
  · split at h
    · next found hfound =>
      cases h
      have hname := List.find?_some hfound
      exact ⟨List.mem_of_find?_eq_some hfound, by rw [of_decide_eq_true hname]⟩
    · cases h
  · cases h

/-- Exactly the names of the options are decoded as one of them. -/
theorem succeeds_oneOf {α : Type} (options : List α) (name : α → String) :
    Succeeds (oneOf options name value) ↔ Conforms (.oneOf (options.map name)) value := by
  rw [conforms_oneOf_iff]
  constructor
  · rintro ⟨option, h⟩
    obtain ⟨hmem, hvalue⟩ := of_oneOf_eq_ok h
    exact ⟨name option, List.mem_map_of_mem hmem, hvalue⟩
  · rintro ⟨words, hwords, rfl⟩
    obtain ⟨option, ho, rfl⟩ := List.mem_map.mp hwords
    unfold oneOf
    simp only
    split
    · exact succeeds_ok _
    · next hnone =>
      have hnot := List.find?_eq_none.mp hnone option ho
      simp at hnot

/-- A nullable part is decoded exactly if it conforms, provided that this holds for what it is built
on. -/
theorem succeeds_nullable {α : Type} {decode : Option Json → Decoded α} {schema : Schema}
    (h : ∀ value, Succeeds (decode value) ↔ Conforms schema value) :
    Succeeds (nullable value decode) ↔ Conforms (.nullable schema) value := by
  rw [conforms_nullable_iff, ← h]
  by_cases hnull : value = some .null
  · subst hnull
    exact iff_of_true (succeeds_ok none) (.inl rfl)
  · unfold nullable
    split
    · exact absurd rfl hnull
    · rw [succeeds_bind_pure]
      exact (or_iff_right hnull).symm

/-! ## Variables -/

/-- Exactly the name of a sort is accepted as this name. -/
theorem succeeds_sortName (s : ValueSort) :
    Succeeds (sortName s value) ↔ Conforms (.exactly s.name) value := by
  rw [conforms_exactly_iff]
  constructor
  · intro h
    unfold sortName at h
    cases hfound : oneOf ValueSort.all ValueSort.name value with
    | error m =>
      rw [hfound] at h
      exact absurd h (not_succeeds_error m)
    | ok found =>
      obtain ⟨-, hvalue⟩ := of_oneOf_eq_ok hfound
      rw [hfound] at h
      by_cases hs : found = s
      · rw [hvalue, hs]
      · simp only [bind, Except.bind, if_neg hs] at h
        exact absurd h (not_succeeds_error _)
  · rintro rfl
    cases s <;> exact ⟨(), rfl⟩

/-- Exactly what conforms to the schema of variables of one sort is decoded as one. -/
theorem succeeds_variableId (s : ValueSort) :
    Succeeds (variableId s value) ↔ Conforms (.var [s]) value := by
  rw [variableId, succeeds_object_bind, Schema.var, conforms_object_iff]
  refine exists_congr fun members => and_congr_right fun _ => ?_
  rw [succeeds_bind_of_iff fun _ => succeeds_member "id" fun v => succeeds_integer v.1,
    succeeds_member "sort" fun v => succeeds_sortName v.1 s]
  simp [Schema.exactly]

/-- Exactly what conforms to the schema of variables is decoded as a variable. -/
theorem succeeds_var : Succeeds (var value) ↔ Conforms (.var ValueSort.all) value := by
  rw [var, succeeds_object_bind, Schema.var, conforms_object_iff]
  refine exists_congr fun members => and_congr_right fun _ => ?_
  rw [succeeds_bind_of_iff fun sort => succeeds_bind_pure _ (Var.mk sort),
    succeeds_member "sort" fun v => succeeds_oneOf v.1 ValueSort.all ValueSort.name,
    succeeds_member "id" fun v => succeeds_integer v.1]
  simp

end

/-! ## Terms -/

/-- An object has the tag that conforms in the place of the tag. -/
theorem tag?_eq_some_iff {members : List (String × Json)} {words : String} :
    tag? members = some words ↔ Conforms (.exactly words) (valueAt? "tag" members) := by
  rw [conforms_exactly_iff]
  unfold tag?
  split
  · next tag htag => simp [htag]
  · next hnone => exact iff_of_false (by simp) fun h => hnone words h

/-- The kind of a node is the one that its tag names. -/
theorem nodeKind?_eq_some_iff {members : List (String × Json)} {kind : NodeKind} :
    nodeKind? members = some kind ↔ Conforms (.exactly kind.name) (valueAt? "tag" members) := by
  rw [← tag?_eq_some_iff]
  constructor
  · intro h
    have hname := List.find?_some h
    exact of_decide_eq_true hname
  · intro htag
    unfold nodeKind?
    rw [htag]
    cases hfound : NodeKind.all.find? fun k => some kind.name = some k.name with
    | none =>
      have hnot := List.find?_eq_none.mp hfound kind kind.mem_all
      simp at hnot
    | some found =>
      have hname := List.find?_some hfound
      simp only [decide_eq_true_eq, Option.some.injEq] at hname
      rw [NodeKind.eq_of_name_eq hname]

/-- A node is decoded when the parts that its kind has are, if the terms inside of it are decoded
exactly when they conform to their schema. -/
theorem succeeds_node {members : List (String × Json)} {kind : NodeKind}
    (hkind : nodeKind? members = some kind)
    (ih : ∀ (s : ValueSort) (value : Option Json), sizeOf value ≤ sizeOf members →
      (Succeeds (term s value) ↔ Conforms (.term s) value)) :
    Succeeds (term kind.sort (some (.object members))) ↔
      ∀ part ∈ kind.parts, Conforms part.2 (valueAt? part.1 members) := by
  -- an item is smaller than the array that it is in, and so is covered by the hypothesis
  have hitem : ∀ (s : ValueSort) (value : { value : Option Json // sizeOf value ≤ sizeOf members })
      (item : { item : Json // sizeOf item < sizeOf value.1 }),
      (Succeeds (term s (some item.1)) ↔ Conforms (.term s) (some item.1)) := by
    intro s value item
    refine ih s (some item.1) ?_
    have hvalue := value.2
    have hlt := item.2
    simp only [Option.some.sizeOf_spec]
    omega
  rw [term]
  simp only [hkind]
  -- a node of each kind decodes the parts that its schema lists, one after the other
  cases kind <;> simp only [NodeKind.sort, NodeKind.parts, List.forall_mem_cons,
    List.not_mem_nil, false_implies, implies_true, and_true]
  case var s =>
    rw [if_pos trivial, succeeds_bind_pure,
      succeeds_member "variable" fun v => succeeds_variableId v.1 s]
  case literal =>
    rw [succeeds_bind_pure, succeeds_member "value" fun v => succeeds_integer v.1]
  case length => rw [succeeds_bind_pure, succeeds_member "list" fun v => ih .list v.1 v.2]
  case element =>
    rw [succeeds_bind_of_iff fun index => succeeds_bind_pure _ (Term.element index),
      succeeds_member "index" fun v => succeeds_integer v.1,
      succeeds_member "list" fun v => ih .list v.1 v.2]
  case arith =>
    rw [succeeds_bind_of_iff fun op => succeeds_bind_of_iff fun left =>
        succeeds_bind_pure _ (Term.arith op left),
      succeeds_member "op" fun v => succeeds_oneOf v.1 ArithOp.all ArithOp.symbol,
      succeeds_member "left" fun v => ih .int v.1 v.2,
      succeeds_member "right" fun v => ih .int v.1 v.2]
  case list =>
    rw [succeeds_bind_pure]
    refine succeeds_member "elements" fun v => succeeds_array fun item => ?_
    rw [conforms_nullable_iff]
    split
    · next hnull => exact iff_of_true (succeeds_ok none) (.inl (congrArg some hnull))
    · next hnull =>
      rw [succeeds_bind_pure, hitem .int v item]
      exact (or_iff_right fun h => hnull (Option.some.inj h)).symm
  case broadcast =>
    rw [succeeds_bind_of_iff fun left => succeeds_bind_pure _ (Term.broadcast left),
      succeeds_member "left" fun v => ih .list v.1 v.2,
      succeeds_member "right" fun v => ih .list v.1 v.2]
  case truth => rw [succeeds_bind_pure, succeeds_member "value" fun v => succeeds_boolean v.1]
  case not => rw [succeeds_bind_pure, succeeds_member "operand" fun v => ih .bool v.1 v.2]
  case and =>
    rw [succeeds_bind_pure,
      succeeds_member "operands" fun v => succeeds_array fun item => hitem .bool v item]
  case or =>
    rw [succeeds_bind_pure,
      succeeds_member "operands" fun v => succeeds_array fun item => hitem .bool v item]
  case compare =>
    rw [succeeds_bind_of_iff fun op => succeeds_bind_of_iff fun left =>
        succeeds_bind_pure _ (Term.compare op left),
      succeeds_member "op" fun v => succeeds_oneOf v.1 Comparison.all Comparison.symbol,
      succeeds_member "left" fun v => ih .int v.1 v.2,
      succeeds_member "right" fun v => ih .int v.1 v.2]
  case listEq =>
    rw [succeeds_bind_of_iff fun left => succeeds_bind_pure _ (Term.listEq left),
      succeeds_member "left" fun v => ih .list v.1 v.2,
      succeeds_member "right" fun v => ih .list v.1 v.2]
  case boolEq =>
    rw [succeeds_bind_of_iff fun left => succeeds_bind_pure _ (Term.boolEq left),
      succeeds_member "left" fun v => ih .bool v.1 v.2,
      succeeds_member "right" fun v => ih .bool v.1 v.2]

/-- A tag that names no kind of the right sort is wrong. -/
theorem term_eq_wrongTag {s : ValueSort} {members : List (String × Json)}
    (h : ∀ kind, nodeKind? members = some kind → kind.sort ≠ s) :
    term s (some (.object members)) = wrongTag (.termKind s) := by
  rw [term]
  cases hkind : nodeKind? members with
  | none => rfl
  | some kind =>
    have hne := h kind hkind
    -- only a variable has a sort that its kind leaves open
    cases kind with
    | var t => exact if_neg hne
    | _ => cases s <;> first | rfl | exact absurd rfl hne

/-- An object is decoded as a term only if its tag names a kind of the right sort. -/
theorem exists_kind_of_succeeds {s : ValueSort} {members : List (String × Json)}
    (h : Succeeds (term s (some (.object members)))) :
    ∃ kind, kind.sort = s ∧ nodeKind? members = some kind := by
  by_contra hnone
  rw [term_eq_wrongTag fun kind hkind hs => hnone ⟨kind, hs, hkind⟩] at h
  exact not_succeeds_wrongTag _ h

/-- Only objects are decoded as terms. -/
theorem exists_members_of_succeeds {s : ValueSort} {value : Option Json}
    (h : Succeeds (term s value)) : ∃ members, value = some (.object members) := by
  rw [term.eq_def] at h
  split at h
  · exact ⟨_, rfl⟩
  · exact absurd h (not_succeeds_error _)

/-- A term is decoded exactly when the value conforms to the schema of terms of its sort. -/
theorem succeeds_term (s : ValueSort) (value : Option Json) :
    Succeeds (term s value) ↔ Conforms (.term s) value := by
  -- on the size of the value: the terms inside of a node are smaller than the node
  induction hn : sizeOf value using Nat.strong_induction_on generalizing s value with
  | _ n ih =>
    have hnode : ∀ {members : List (String × Json)} {kind : NodeKind},
        value = some (.object members) → nodeKind? members = some kind →
          (Succeeds (term kind.sort value) ↔
            ∀ part ∈ kind.parts, Conforms part.2 (valueAt? part.1 members)) := by
      rintro members kind rfl hkind
      refine succeeds_node hkind fun t part hpart => ih _ ?_ t part rfl
      simp only [← hn, Option.some.sizeOf_spec, Json.object.sizeOf_spec]
      omega
    rw [conforms_term_iff]
    constructor
    · intro h
      obtain ⟨members, rfl⟩ := exists_members_of_succeeds h
      obtain ⟨kind, rfl, hkind⟩ := exists_kind_of_succeeds h
      refine ⟨kind, rfl, .object (List.forall_mem_cons.mpr ⟨?_, ?_⟩)⟩
      · exact nodeKind?_eq_some_iff.mp hkind
      · exact (hnode rfl hkind).mp h
    · rintro ⟨kind, rfl, hconforms⟩
      obtain ⟨members, rfl, hparts⟩ := conforms_object_iff.mp hconforms
      obtain ⟨htag, hparts⟩ := List.forall_mem_cons.mp hparts
      exact (hnode rfl (nodeKind?_eq_some_iff.mpr htag)).mpr hparts

/-! ## Expressions, constraints, summaries and structs -/

/-- Exactly what conforms to the schema of a term of some sort is decoded as an expression. -/
theorem succeeds_expr (value : Option Json) : Succeeds (expr value) ↔ Conforms .expr value := by
  rw [expr, succeeds_object_bind, Schema.expr, conforms_union_iff]
  constructor
  · rintro ⟨members, rfl, h⟩
    split at h
    · next kind hkind =>
      rw [succeeds_bind_pure, succeeds_term] at h
      refine ⟨.term kind.sort, List.mem_map_of_mem ?_, h⟩
      cases kind.sort <;> decide
    · exact absurd h (not_succeeds_error _)
  · rintro ⟨schema, hschema, h⟩
    obtain ⟨s, -, rfl⟩ := List.mem_map.mp hschema
    obtain ⟨kind, rfl, hnode⟩ := conforms_term_iff.mp h
    obtain ⟨members, rfl, hparts⟩ := conforms_object_iff.mp hnode
    have hkind := nodeKind?_eq_some_iff.mpr (List.forall_mem_cons.mp hparts).1
    refine ⟨members, rfl, ?_⟩
    simp only [hkind]
    rw [succeeds_bind_pure, succeeds_term]
    exact h

section

variable (value : Option Json)

/-- Exactly what conforms to the schema of arguments is decoded as arguments. -/
theorem succeeds_exprs : Succeeds (exprs value) ↔ Conforms .exprs value :=
  succeeds_array fun _ => succeeds_nullable _ succeeds_expr

/-- Exactly what conforms to the schema of locations is decoded as a location. -/
theorem succeeds_location : Succeeds (location value) ↔ Conforms .location value := by
  rw [location, succeeds_object_bind, Schema.location, conforms_object_iff]
  refine exists_congr fun members => and_congr_right fun _ => ?_
  rw [succeeds_bind_of_iff fun fileID => succeeds_bind_of_iff fun line =>
      succeeds_bind_pure _ (SourceLocation.mk fileID line),
    succeeds_member "fileID" fun v => succeeds_string v.1,
    succeeds_member "line" fun v => succeeds_integer v.1,
    succeeds_member "column" fun v => succeeds_integer v.1]
  simp

/-- A constraint is a requirement or a call, whichever its tag says. -/
theorem conforms_constraint_iff :
    Conforms .constraint value ↔ Conforms .requirement value ∨ Conforms .call value := by
  rw [Schema.constraint, conforms_union_iff]
  simp only [List.mem_cons, List.not_mem_nil, or_false, exists_eq_or_imp, exists_eq_left]

/-- The assumption and the location are decoded first, and then what the tag asks for. -/
theorem succeeds_constraint : Succeeds (constraint value) ↔ Conforms .constraint value := by
  rw [constraint, succeeds_object_bind, conforms_constraint_iff, Schema.requirement, Schema.call,
    conforms_object_iff, conforms_object_iff, ← exists_or]
  refine exists_congr fun members => ?_
  rw [← and_or_left]
  refine and_congr_right fun _ => ?_
  have hassuming : Succeeds (member members "assuming" fun v => term .bool v.1) ↔
      Conforms (.term .bool) (valueAt? "assuming" members) :=
    succeeds_member "assuming" fun v => succeeds_term .bool v.1
  have hlocation : Succeeds (member members "location" fun v => nullable v.1 location) ↔
      Conforms (.nullable .location) (valueAt? "location" members) :=
    succeeds_member "location" fun v => succeeds_nullable v.1 succeeds_location
  simp only [List.forall_mem_cons, ← tag?_eq_some_iff, List.not_mem_nil, false_implies,
    implies_true, and_true]
  -- what is decoded first is common to the tags, what follows depends on the tag
  by_cases hexpr : tag? members = some "expr"
  · have hcall : ¬ tag? members = some "call" := by simp [hexpr]
    simp only [if_pos hexpr]
    rw [succeeds_bind_of_iff fun assuming => succeeds_bind_of_iff fun place =>
        succeeds_bind_of_iff fun condition => succeeds_bind_pure _ fun origin =>
          Constraint.require ⟨condition, assuming, origin, place⟩,
      hassuming, hlocation, succeeds_member "condition" fun v => succeeds_term .bool v.1,
      succeeds_member "origin" fun v => succeeds_oneOf v.1 Origin.all Origin.name]
    tauto
  · by_cases hcall : tag? members = some "call"
    · simp only [if_neg hexpr, if_pos hcall]
      rw [succeeds_bind_of_iff fun assuming => succeeds_bind_of_iff fun place =>
          succeeds_bind_of_iff fun callee => succeeds_bind_of_iff fun args =>
            succeeds_bind_pure _ fun result =>
              Constraint.call ⟨callee, args, result, assuming, place⟩,
        hassuming, hlocation, succeeds_member "callee" fun v => succeeds_string v.1,
        succeeds_member "args" fun v => succeeds_exprs v.1,
        succeeds_member "result" fun v => succeeds_nullable v.1 succeeds_var]
      tauto
    · simp only [if_neg hexpr, if_neg hcall]
      rw [succeeds_bind_of_iff fun assuming => succeeds_bind_of_iff fun place =>
        iff_false_intro (not_succeeds_wrongTag .constraintKind)]
      tauto

/-- Exactly what conforms to the schema of summaries is decoded as a summary. -/
theorem succeeds_summary : Succeeds (summary value) ↔ Conforms .summary value := by
  rw [summary, succeeds_object_bind, Schema.summary, conforms_object_iff]
  refine exists_congr fun members => and_congr_right fun _ => ?_
  rw [succeeds_bind_of_iff fun parameters => succeeds_bind_of_iff fun result =>
      succeeds_bind_pure _ (FunctionSummary.mk parameters result),
    succeeds_member "argExprs" fun v => succeeds_exprs v.1,
    succeeds_member "retExpr" fun v => succeeds_nullable v.1 succeeds_expr,
    succeeds_member "constraints" fun v => succeeds_array fun _ => succeeds_constraint _]
  simp

/-- Exactly what conforms to the schema of layouts is decoded as the layout of a struct. -/
theorem succeeds_struct : Succeeds (struct value) ↔ Conforms .struct value := by
  refine succeeds_array fun item => ?_
  rw [structField, succeeds_object_bind, conforms_object_iff]
  refine exists_congr fun members => and_congr_right fun _ => ?_
  rw [succeeds_bind_of_iff fun name => succeeds_bind_pure _ (StructField.mk name),
    succeeds_member "name" fun v => succeeds_string v.1,
    succeeds_member "type" fun v => succeeds_string v.1]
  simp

end

/-! ## Files -/

section

variable {α : Type} {decode : Option Json → Decoded α} {schema : Schema}

/-- Members are decoded if each one of them is. -/
theorem succeeds_eachMember (decode : Option Json → Decoded α) (members : List (String × Json)) :
    Succeeds (eachMember decode members) ↔
      ∀ entry ∈ members, Succeeds (decode (some entry.2)) := by
  induction members with
  | nil => simp [eachMember, succeeds_ok]
  | cons entry rest ih =>
    obtain ⟨name, value⟩ := entry
    rw [eachMember, succeeds_bind_of_iff fun first => succeeds_bind_pure _ ((name, first) :: ·),
      succeeds_within, ih, List.forall_mem_cons]

/-- A table is decoded exactly if it conforms, provided that this holds for its entries. -/
theorem succeeds_table (value : Option Json)
    (h : ∀ value, Succeeds (decode value) ↔ Conforms schema value) :
    Succeeds (table decode value) ↔ Conforms (.table schema) value := by
  rw [table, succeeds_object_bind, conforms_table_iff]
  refine exists_congr fun members => and_congr_right fun _ => ?_
  rw [succeeds_bind_pure, succeeds_eachMember]
  exact forall₂_congr fun entry _ => h (some entry.2)

/-- A table that may be missing is decoded exactly if it conforms, provided that this holds for its
entries. -/
theorem succeeds_optionalTable (value : Option Json)
    (h : ∀ value, Succeeds (decode value) ↔ Conforms schema value) :
    Succeeds (optionalTable decode value) ↔ Conforms (.optional (.table schema)) value := by
  rw [conforms_optional_iff]
  cases value with
  | none => exact iff_of_true (succeeds_ok _) (.inl rfl)
  | some given =>
    rw [optionalTable, succeeds_table _ h]
    simp

end

/-- The content of a file is decoded exactly if the value conforms to the schema of files. -/
theorem succeeds_content (value : Option Json) :
    Succeeds (content value) ↔ Conforms .file value := by
  rw [content, succeeds_object_bind, Schema.file, conforms_object_iff]
  refine exists_congr fun members => and_congr_right fun _ => ?_
  rw [succeeds_bind_of_iff fun functions => succeeds_bind_pure _ (Prod.mk functions),
    succeeds_member "functions" fun v => succeeds_table v.1 succeeds_summary,
    succeeds_member "structs" fun v => succeeds_optionalTable v.1 succeeds_struct]
  simp

end Decoding

end SummaryInlining
