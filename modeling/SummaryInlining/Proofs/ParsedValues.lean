import SummaryInlining.Json.Parser
import SummaryInlining.Proofs.ObjectOrder

/-!
# The values that texts write

The reader builds every object with `Json.ofMembers`, so all objects inside of a value that it
answers list their members as objects do: no name twice, and in order (`inOrder_of_parse`). The
proof follows the reader, whose rules call each other on ever shorter texts.
-/

set_option autoImplicit false

namespace SummaryInlining

namespace Json

/-- Every object inside of a value lists its members in order, and none twice. -/
inductive InOrder : Json → Prop where
  | null : InOrder .null
  | bool (b : Bool) : InOrder (.bool b)
  | number (n : Number) : InOrder (.number n)
  | string (words : String) : InOrder (.string words)
  | array {items : List Json} (h : ∀ item ∈ items, InOrder item) : InOrder (.array items)
  | object {members : List (String × Json)} (hmembers : IsInObjectOrder members)
    (h : ∀ member ∈ members, InOrder member.2) : InOrder (.object members)

section

variable {α : Type}

/-- Members with different names are listed as an object lists them, once they are in its order. -/
theorem isInObjectOrder_inObjectOrder {members : List (String × α)}
    (h : (members.map Prod.fst).Nodup) : IsInObjectOrder (inObjectOrder members) where
  nodup := ((perm_inObjectOrder members).map Prod.fst).nodup_iff.mpr h
  sorted := pairwise_inObjectOrder members

end

/-- An object is in order whatever order its members are written in. -/
theorem inOrder_ofMembers {written : List (String × Json)}
    (h : ∀ member ∈ written, InOrder member.2) : InOrder (ofMembers written) := by
  have hentries := Table.entries_foldl_insert written (.empty : Table Json)
  refine .object (isInObjectOrder_inObjectOrder ?_) fun member hmember => ?_
  · have hnodup := (Table.ofList written).nodup
    rwa [Table.ofList, hentries] at hnodup
  · have hmem := (perm_inObjectOrder _).subset hmember
    exact (mem_foldl_setEntry hmem).elim (h member) fun hnil => absurd hnil List.not_mem_nil

/-- A literal word is read as the value that it stands for. -/
theorem word_eq_ok {letters text rest : List Char} {v w : Json}
    (h : word letters v text = .ok (w, rest)) : w = v := by
  fun_induction word letters v text with
  | case1 text =>
    cases h
    rfl
  | case2 => cases h
  | case3 ls c r ih => exact ih h
  | case4 => cases h

/-- A value without parts is in order. -/
theorem inOrder_of_scalar {text rest : List Char} {v : Json} (h : scalar text = .ok (v, rest)) :
    InOrder v := by
  unfold scalar at h
  split at h
  · cases h
  · split at h
    · rw [word_eq_ok h]
      exact .bool true
    split at h
    · rw [word_eq_ok h]
      exact .bool false
    split at h
    · rw [word_eq_ok h]
      exact .null
    split at h
    · simp only [bind, Except.bind] at h
      split at h
      · cases h
      · cases h
        exact .number _
    · cases h

/-- What is behind the first character that is no blank is shorter than the text. -/
theorem length_lt_of_skipBlanks {text rest : List Char} {c : Char}
    (h : skipBlanks text = c :: rest) : rest.length < text.length := by
  have hle := length_skipBlanks_le text
  rw [h, List.length_cons] at hle
  omega

mutual

/-- A value that is read is in order, and so are the items and members on which the rules for
values, items and members call each other. -/
theorem inOrder_of_value (text : List Char) {v : Json}
    {rest : { rest : List Char // rest.length < text.length }}
    (h : value text = .ok (v, rest)) : InOrder v := by
  rw [value] at h
  simp only at h
  -- one case for each kind of value that the first character announces
  split at h
  · cases h
  · split at h
    · cases h
    · cases h
      exact .string _
  · next inner hblanks =>
    have hlt := length_lt_of_skipBlanks hblanks
    split at h
    · cases h
      exact .array (List.forall_mem_nil _)
    · cases hitems : items inner with
      | error e =>
        rw [hitems] at h
        cases h
      | ok read =>
        rw [hitems] at h
        cases h
        exact .array (inOrder_of_items inner hitems)
  · next inner hblanks =>
    have hlt := length_lt_of_skipBlanks hblanks
    split at h
    · cases h
      exact .object ⟨.nil, .nil⟩ (List.forall_mem_nil _)
    · cases hmembers : members inner with
      | error e =>
        rw [hmembers] at h
        cases h
      | ok read =>
        rw [hmembers] at h
        cases h
        exact inOrder_ofMembers (inOrder_of_members inner hmembers)
  · split at h
    · cases h
    · next hs =>
      cases h
      exact inOrder_of_scalar hs
termination_by (text.length, 0)
decreasing_by all_goals exact .left _ _ hlt

/-- The items of an array that is read are in order. -/
theorem inOrder_of_items (text : List Char) {vs : List Json}
    {rest : { rest : List Char // rest.length < text.length }}
    (h : items text = .ok (vs, rest)) : ∀ v ∈ vs, InOrder v := by
  rw [items] at h
  cases hvalue : value text with
  | error e =>
    rw [hvalue] at h
    cases h
  | ok read =>
    obtain ⟨first, behind, hbehind⟩ := read
    have hfirst := inOrder_of_value text hvalue
    rw [hvalue] at h
    simp only [bind, Except.bind] at h
    split at h
    · next inner hblanks =>
      have hlt := (length_lt_of_skipBlanks hblanks).trans hbehind
      cases hitems : items inner with
      | error e =>
        rw [hitems] at h
        cases h
      | ok others =>
        rw [hitems] at h
        cases h
        exact List.forall_mem_cons.mpr ⟨hfirst, inOrder_of_items inner hitems⟩
    · cases h
      exact List.forall_mem_singleton.mpr hfirst
    · cases h
termination_by (text.length, 1)
decreasing_by
  · exact .right _ Nat.zero_lt_one
  · exact .left _ _ hlt

/-- The values of the members that are read for an object are in order. -/
theorem inOrder_of_members (text : List Char) {ms : List (String × Json)}
    {rest : { rest : List Char // rest.length < text.length }}
    (h : members text = .ok (ms, rest)) : ∀ m ∈ ms, InOrder m.2 := by
  rw [members] at h
  simp only at h
  split at h
  · next afterQuote hquote =>
    split at h
    · cases h
    · next name behindName hname =>
      split at h
      · next afterColon hcolon =>
        have hlt : afterColon.length < text.length :=
          ((length_lt_of_skipBlanks hcolon).trans (length_lt_of_stringBody hname)).trans
            (length_lt_of_skipBlanks hquote)
        cases hvalue : value afterColon with
        | error e =>
          rw [hvalue] at h
          cases h
        | ok read =>
          obtain ⟨first, behind, hbehind⟩ := read
          have hfirst := inOrder_of_value afterColon hvalue
          rw [hvalue] at h
          simp only [bind, Except.bind] at h
          split at h
          · next inner hblanks =>
            have hrest := (length_lt_of_skipBlanks hblanks).trans (hbehind.trans hlt)
            cases hmembers : members inner with
            | error e =>
              rw [hmembers] at h
              cases h
            | ok others =>
              rw [hmembers] at h
              cases h
              exact List.forall_mem_cons.mpr ⟨hfirst, inOrder_of_members inner hmembers⟩
          · cases h
            exact List.forall_mem_singleton.mpr hfirst
          · cases h
      · cases h
  · cases h
termination_by (text.length, 1)
decreasing_by
  · exact .left _ _ hlt
  · exact .left _ _ hrest

end

/-- Every value that is read from a text is in order. -/
theorem inOrder_of_parse {text : String} {v : Json} (h : parse text = .ok v) : InOrder v := by
  unfold parse at h
  cases hwhole : wholeValue text.toList with
  | error refusal =>
    rw [hwhole] at h
    cases h
  | ok whole =>
    rw [hwhole] at h
    cases h
    unfold wholeValue at hwhole
    cases hvalue : value text.toList with
    | error refusal =>
      rw [hvalue] at hwhole
      cases hwhole
    | ok read =>
      rw [hvalue] at hwhole
      simp only [bind, Except.bind] at hwhole
      split at hwhole
      · cases hwhole
        exact inOrder_of_value _ hvalue
      · cases hwhole

/-- The tables inside of a value that is in order are so. -/
theorem InOrder.tablesInOrder {v : Json} (h : InOrder v) : TablesInOrder (some v) := by
  intro name entries hentries
  cases h with
  | object _ hmembers =>
    have hmem : (name, Json.object entries) ∈ _ := mem_of_valueAt? hentries
    cases hmembers _ hmem with
    | object hinner _ => exact hinner
  | _ => cases hentries

end Json

end SummaryInlining
