import SummaryInlining.Proofs.SchemaDecoding

/-!
# Where a value is malformed

A malformation names a place by the path to it. `follow` goes along a path into a value, where the
last step may lead to a member that the object lacks, and `Expectation.ViolatedBy` says when that
which stands at the place is not what should stand there. `Blames` puts both together: the place
exists and is at fault, and in every array on the way to it all earlier items are decoded.

The place of a value within the file decides how the items of an array are decoded, so `Blames`
keeps the path `front` from the root to the value. It composes like the paths do: a malformation of
a member or of an item is one of the object or the array (`Blames.member`, `Blames.item`). From this
each way of building decoders has one lemma (`reports_bind` to `reports_nullable`), which says that
it only reports malformations with the property if its parts do.
-/

set_option autoImplicit false

namespace SummaryInlining

/-! ## Following a path -/

/-- The part of a value that a step leads to. An object leads to the member of any name, which it
may lack, but an array only to the items that it has. -/
def PathStep.part? : PathStep → Option Json → Option (Option Json)
  | .key name, some (.object members) => some (valueAt? name members)
  | .index position, some (.array items) =>
    match position.toInt? with
    | some (.ofNat n) => items[n]?.map some
    | _ => none
  | _, _ => none

/-- What stands at the end of a path, if every step leads somewhere. -/
def follow : List PathStep → Option Json → Option (Option Json)
  | [], value => some value
  | step :: rest, value => (step.part? value).bind (follow rest)

/-- What stands at the place is not what should stand there. -/
def Expectation.ViolatedBy (found : Option Json) : Expectation → Prop
  | .object => ∀ members, found ≠ some (.object members)
  | .array => ∀ items, found ≠ some (.array items)
  | .string => ∀ words, found ≠ some (.string words)
  | .integer => ∀ n : Int, found ≠ some (.ofInt n)
  | .boolean => ∀ b, found ≠ some (.bool b)
  | .oneOf options => ∀ words ∈ options, found ≠ some (.string words)
  | .sortName s => found ≠ some (.string s.name)
  | .termKind s => ∀ kind : NodeKind, kind.sort = s → found ≠ some (.string kind.name)
  | .exprKind => ∀ kind : NodeKind, found ≠ some (.string kind.name)
  | .constraintKind => found ≠ some (.string "expr") ∧ found ≠ some (.string "call")
  | .json _ => False
  | .described _ => False

/-- The index of an item leads to the item. -/
theorem follow_index {before behind : List Json} (item : Json) (rest : List PathStep) :
    follow (.index (.ofNat before.length) :: rest) (some (.array (before ++ item :: behind))) =
      follow rest (some item) := by
  have hpart : PathStep.part? (.index (.ofNat before.length))
      (some (.array (before ++ item :: behind))) = some (some item) := by
    simp [PathStep.part?, Number.ofNat]
  rw [follow, hpart, Option.bind_some]

/-! ## Blaming a place -/

namespace Decoding

/-- An item of the array at this place of a file is decoded on its own. Within the functions, the
name of the array decides how. -/
inductive ItemDecodes : List PathStep → Json → Prop where
  | field {name : String} {item : Json} (h : Succeeds (structField (some item))) :
    ItemDecodes [.key "structs", .key name] item
  | parameter {way : List PathStep} {item : Json} (h : Succeeds (nullable (some item) expr)) :
    ItemDecodes (.key "functions" :: (way ++ [.key "argExprs"])) item
  | argument {way : List PathStep} {item : Json} (h : Succeeds (nullable (some item) expr)) :
    ItemDecodes (.key "functions" :: (way ++ [.key "args"])) item
  | constraint {way : List PathStep} {item : Json} (h : Succeeds (constraint (some item))) :
    ItemDecodes (.key "functions" :: (way ++ [.key "constraints"])) item
  | element {way : List PathStep} {item : Json} (h : Succeeds (nullable (some item) (term .int))) :
    ItemDecodes (.key "functions" :: (way ++ [.key "elements"])) item
  | operand {way : List PathStep} {item : Json} (h : Succeeds (term .bool (some item))) :
    ItemDecodes (.key "functions" :: (way ++ [.key "operands"])) item

/-- The position belongs to an item of the array at the end of `way`, and all items before it are
decoded. The value from which the way starts stands at `front` in the file. -/
def ItemsBefore (front : List PathStep) (value : Option Json) (way : List PathStep)
    (position : Number) : Prop :=
  ∃ before item behind, position = .ofNat before.length ∧
    follow way value = some (some (.array (before ++ item :: behind))) ∧
    ∀ earlier ∈ before, ItemDecodes (front ++ way) earlier

/-- A malformation of the value that stands at `front` in the file: what stands at its place is at
fault, and the arrays on the way to it are not at fault earlier. -/
structure Blames (front : List PathStep) (value : Option Json) (m : Malformation) : Prop where
  real : ∃ found, follow m.path value = some found ∧ m.expected.ViolatedBy found
  first : ∀ way position rest, m.path = way ++ .index position :: rest →
    ItemsBefore front value way position

namespace Blames

variable {front : List PathStep} {m : Malformation}

/-- What is at fault where it stands is blamed there. -/
theorem here {value : Option Json} {expected : Expectation} (h : expected.ViolatedBy value) :
    Blames front value (.here expected) where
  real := ⟨value, rfl, h⟩
  first way position rest hpath := by
    have hlength := congrArg List.length hpath
    simp [Malformation.here] at hlength

/-- The malformation of a member is one of the object. -/
theorem member {members : List (String × Json)} {name : String}
    (h : Blames (front ++ [.key name]) (valueAt? name members) m) :
    Blames front (some (.object members)) (m.within (.key name)) where
  real := h.real
  first way position rest hpath := by
    cases way with
    | nil => cases hpath
    | cons step way =>
      obtain ⟨rfl, htail⟩ := List.cons.inj hpath
      obtain ⟨before, item, behind, hposition, hfollow, hearlier⟩ := h.first way position rest htail
      refine ⟨before, item, behind, hposition, hfollow, ?_⟩
      simpa using hearlier

/-- The malformation of an item is one of the array, if the items before it are decoded. -/
theorem item {items before behind : List Json} {item : Json}
    (hitems : items = before ++ item :: behind)
    (h : Blames (front ++ [.index (.ofNat before.length)]) (some item) m)
    (hbefore : ∀ earlier ∈ before, ItemDecodes front earlier) :
    Blames front (some (.array items)) (m.within (.index (.ofNat before.length))) where
  real := by
    subst hitems
    obtain ⟨found, hfollow, hviolated⟩ := h.real
    exact ⟨found, (follow_index item m.path).trans hfollow, hviolated⟩
  first way position rest hpath := by
    subst hitems
    cases way with
    | nil =>
      obtain ⟨hstep, -⟩ := List.cons.inj hpath
      obtain rfl := PathStep.index.inj hstep
      refine ⟨before, item, behind, rfl, rfl, ?_⟩
      rwa [List.append_nil]
    | cons step way =>
      obtain ⟨rfl, htail⟩ := List.cons.inj hpath
      obtain ⟨earlier, inner, later, hposition, hfollow, hearlier⟩ :=
        h.first way position rest htail
      refine ⟨earlier, inner, later, hposition, (follow_index item way).trans hfollow, ?_⟩
      simpa using hearlier

end Blames

/-! ## What a decoder reports -/

/-- Every malformation that is reported has the property. -/
def Reports {α : Type} (P : Malformation → Prop) (decoded : Decoded α) : Prop :=
  ∀ m, decoded = .error m → P m

section

variable {α β : Type} {P : Malformation → Prop}

/-- What is decoded reports nothing. -/
theorem reports_ok (a : α) : Reports P (.ok a) := nofun

/-- What is answered at once reports nothing. -/
theorem reports_pure (a : α) : Reports P (pure a : Decoded α) := reports_ok a

/-- A failure reports what was expected. -/
theorem reports_fail {expected : Expectation} (h : P (.here expected)) :
    Reports P (fail expected : Decoded α) := by
  rintro m ⟨⟩
  exact h

/-- What is decoded in two parts reports a fault of the first one, or of the second one if the first
one is decoded. -/
theorem reports_bind {decoded : Decoded α} {next : α → Decoded β} (hfirst : Reports P decoded)
    (hnext : ∀ a, decoded = .ok a → Reports P (next a)) : Reports P (decoded >>= next) := by
  intro m hm
  cases hdecoded : decoded with
  | ok a =>
    rw [hdecoded] at hm
    exact hnext a hdecoded m hm
  | error inner =>
    rw [hdecoded] at hm
    cases hm
    exact hfirst _ hdecoded

/-- Nothing is reported once the last part is decoded. -/
theorem reports_bind_pure {decoded : Decoded α} {f : α → β} (h : Reports P decoded) :
    Reports P (decoded >>= fun a => pure (f a)) :=
  reports_bind h fun a _ => reports_pure (f a)

/-- What starts with the check for an object reports that there is none, or what goes on with the
members reports. -/
theorem reports_object_bind {value : Option Json} {next : List (String × Json) → Decoded β}
    (hfail : (∀ members, value ≠ some (.object members)) → P (.here .object))
    (hnext : ∀ members, value = some (.object members) → Reports P (next members)) :
    Reports P (object value >>= next) := by
  by_cases hobject : ∃ members, value = some (.object members)
  · obtain ⟨members, rfl⟩ := hobject
    exact hnext members rfl
  · have hfails : object value = fail .object := by
      unfold object
      split
      · exact absurd ⟨_, rfl⟩ hobject
      · rfl
    rw [hfails]
    rintro m ⟨⟩
    exact hfail fun members h => hobject ⟨members, h⟩

/-- A part reports its faults with the step to it in front of their paths. -/
theorem reports_within {step : PathStep} {decoded : Decoded α}
    (h : Reports (fun m => P (m.within step)) decoded) : Reports P (within step decoded) := by
  intro m hm
  cases decoded with
  | ok a => cases hm
  | error deeper =>
    cases hm
    exact h _ rfl

end

section

variable {α β : Type} {front : List PathStep}

/-- The members of an object are taken apart, or the lack of an object is reported. -/
theorem reports_parts {value : Option Json} {next : List (String × Json) → Decoded β}
    (h : ∀ members, value = some (.object members) →
      Reports (Blames front (some (.object members))) (next members)) :
    Reports (Blames front value) (object value >>= next) := by
  refine reports_object_bind (fun hother => .here hother) fun members hvalue => ?_
  rw [hvalue]
  exact h members hvalue

/-- What is reported of a member is reported of the object that it is a member of. -/
theorem reports_member {members : List (String × Json)} (name : String)
    {decode : { value : Option Json // sizeOf value ≤ sizeOf members } → Decoded α}
    (h : ∀ v, Reports (Blames (front ++ [.key name]) v.1) (decode v)) :
    Reports (Blames front (some (.object members))) (member members name decode) := by
  refine reports_within fun m hm => .member ?_
  have hblames := h _ m hm
  rwa [val_part] at hblames

/-- A wrong tag is reported at the tag. -/
theorem reports_wrongTag {members : List (String × Json)} {expected : Expectation}
    (h : expected.ViolatedBy (valueAt? "tag" members)) :
    Reports (Blames front (some (.object members))) (wrongTag expected : Decoded α) :=
  reports_within (reports_fail (.member (.here h)))

/-- The first item that is not decoded is the one that is reported. -/
theorem exists_item_of_eachItem_eq_error {decode : β → Decoded α} {start : Nat} {items : List β}
    {m : Malformation} (h : eachItem decode start items = .error m) :
    ∃ before item behind inner, items = before ++ item :: behind ∧
      (∀ earlier ∈ before, Succeeds (decode earlier)) ∧ decode item = .error inner ∧
      m = inner.within (.index (.ofNat (start + before.length))) := by
  induction items generalizing start with
  | nil => cases h
  | cons item rest ih =>
    rw [eachItem] at h
    cases hitem : decode item with
    | error inner =>
      rw [hitem] at h
      cases h
      exact ⟨[], item, rest, inner, rfl, List.forall_mem_nil _, hitem, rfl⟩
    | ok a =>
      rw [hitem] at h
      cases hrest : eachItem decode (start + 1) rest with
      | ok others =>
        rw [hrest] at h
        cases h
      | error deeper =>
        rw [hrest] at h
        cases h
        obtain ⟨before, found, behind, inner, rfl, hbefore, hinner, hm⟩ := ih hrest
        refine ⟨item :: before, found, behind, inner, rfl, ?_, hinner, ?_⟩
        · exact List.forall_mem_cons.mpr ⟨⟨a, hitem⟩, hbefore⟩
        · rw [hm, List.length_cons, Nat.add_assoc, Nat.add_comm 1]

/-- What is reported of the first item that is not decoded is reported of the array. -/
theorem reports_array {value : Option Json}
    {decode : { item : Json // sizeOf item < sizeOf value } → Decoded α}
    (hitem : ∀ item position, Reports (Blames (front ++ [.index position]) (some item.1))
      (decode item))
    (hdecodes : ∀ item, Succeeds (decode item) → ItemDecodes front item.1) :
    Reports (Blames front value) (array value decode) := by
  by_cases harray : ∃ items, value = some (.array items)
  · obtain ⟨items, rfl⟩ := harray
    intro m hm
    obtain ⟨before, item, behind, inner, hitems, hbefore, hinner, rfl⟩ :=
      exists_item_of_eachItem_eq_error hm
    have hvalues : items = before.map Subtype.val ++ item.1 :: behind.map Subtype.val := by
      rw [← List.map_cons, ← List.map_append, ← hitems, List.attach_map_subtype_val]
    have hlength : 0 + before.length = (before.map Subtype.val).length := by
      rw [Nat.zero_add, List.length_map]
    rw [hlength]
    refine .item hvalues (hitem _ _ inner hinner) fun earlier hearlier => ?_
    obtain ⟨inside, hmem, rfl⟩ := List.mem_map.mp hearlier
    exact hdecodes _ (hbefore inside hmem)
  · have hfails : array value decode = fail .array := by
      unfold array
      split
      · exact absurd ⟨_, rfl⟩ harray
      · rfl
    rw [hfails]
    exact reports_fail (.here fun items h => harray ⟨items, h⟩)

/-- A nullable part reports what it is built on, since null is decoded. -/
theorem reports_nullable {value : Option Json} {decode : Option Json → Decoded α}
    (h : Reports (Blames front value) (decode value)) :
    Reports (Blames front value) (nullable value decode) := by
  unfold nullable
  split
  · exact reports_ok none
  · exact reports_bind_pure h

end

end Decoding

end SummaryInlining
