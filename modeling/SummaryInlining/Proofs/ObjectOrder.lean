import Mathlib.Data.List.Nodup
import Mathlib.Data.List.Sort
import SummaryInlining.Json.Basic

/-!
# The order of the members of an object

An object lists the names that are array indexes first, in ascending order, and then the others in
the order in which they came. Putting members into this order only rearranges them
(`perm_inObjectOrder`), and does not look at their values (`inObjectOrder_map`). It yields a list in
which every two names stand as `Precedes` says (`pairwise_inObjectOrder`), and leaves such a list
alone (`inObjectOrder_of_pairwise`).

So a table that is written as an object and read back has the same entries in this order
(`Table.inObjectOrder`), and is the same table if they were in this order before.
-/

set_option autoImplicit false

namespace SummaryInlining

namespace Json

section

variable {α β : Type}

/-- An entry may stand before another one in an object: of two array indexes the smaller one comes
first, and array indexes come before all other names. -/
def Precedes (first second : String) : Prop :=
  match indexOfName? first, indexOfName? second with
  | some i, some j => i ≤ j
  | none, some _ => False
  | _, none => True

/-- The members whose names are array indexes, with these indexes. -/
def indexed (members : List (String × α)) : List (Nat × (String × α)) :=
  members.filterMap fun m => (indexOfName? m.1).map fun index => (index, m)

/-- The members whose names are no array indexes. -/
def unindexed (members : List (String × α)) : List (String × α) :=
  members.filter fun m => (indexOfName? m.1).isNone

/-- The order of an object has the members with array indexes first, sorted, and then the others. -/
theorem inObjectOrder_eq (members : List (String × α)) :
    inObjectOrder members =
      ((indexed members).mergeSort fun a b => decide (a.1 ≤ b.1)).map (·.2) ++ unindexed members :=
  rfl

/-- The indexed members are those whose names are array indexes, each with its index. -/
theorem mem_indexed_iff {members : List (String × α)} {entry : Nat × (String × α)} :
    entry ∈ indexed members ↔ entry.2 ∈ members ∧ indexOfName? entry.2.1 = some entry.1 := by
  unfold indexed
  rw [List.mem_filterMap]
  constructor
  · rintro ⟨m, hm, he⟩
    obtain ⟨index, hi, rfl⟩ := Option.map_eq_some_iff.mp he
    exact ⟨hm, hi⟩
  · rintro ⟨hm, hi⟩
    exact ⟨entry.2, hm, by rw [hi]; rfl⟩

/-- Without their indexes, the indexed members are those whose names are array indexes, in the order
in which they came. -/
theorem map_indexed (members : List (String × α)) :
    (indexed members).map (·.2) = members.filter fun m => (indexOfName? m.1).isSome := by
  induction members with
  | nil => rfl
  | cons m rest ih =>
    cases hm : indexOfName? m.1 with
    | none => simpa [indexed, hm] using ih
    | some index => simpa [indexed, hm] using ih

/-- The order of an object rearranges the members. -/
theorem perm_inObjectOrder (members : List (String × α)) :
    (inObjectOrder members).Perm members := by
  rw [inObjectOrder_eq]
  have hsorted := (List.mergeSort_perm (indexed members) fun a b => decide (a.1 ≤ b.1)).map (·.2)
  rw [map_indexed] at hsorted
  have hsplit := List.filter_append_perm (fun m => (indexOfName? m.1).isSome) members
  refine (hsorted.append_right _).trans ?_
  have hnot : (fun m : String × α => !(indexOfName? m.1).isSome) =
      fun m => (indexOfName? m.1).isNone := by
    funext m
    exact Option.not_isSome _
  rw [hnot] at hsplit
  exact hsplit

/-- The order of an object does not look at the values of members. -/
theorem inObjectOrder_map (f : α → β) (members : List (String × α)) :
    inObjectOrder (members.map fun m => (m.1, f m.2)) =
      (inObjectOrder members).map fun m => (m.1, f m.2) := by
  have hindexed : indexed (members.map fun m => (m.1, f m.2)) =
      (indexed members).map fun entry => (entry.1, (entry.2.1, f entry.2.2)) := by
    unfold indexed
    rw [List.filterMap_map, List.map_filterMap]
    refine List.filterMap_congr fun m _ => ?_
    simp [Function.comp_def]
  rw [inObjectOrder_eq, inObjectOrder_eq, hindexed, List.map_append]
  congr 1
  · rw [← List.map_mergeSort (r := fun a b => decide (a.1 ≤ b.1)) fun a _ b _ => rfl]
    simp [Function.comp_def]
  · simp [unindexed, List.filter_map, Function.comp_def]

/-- No array index may stand behind a name that is none. -/
theorem indexed_of_precedes {first : String} {members : List (String × α)}
    (hfirst : indexOfName? first = none) (h : ∀ m ∈ members, Precedes first m.1) :
    indexed members = [] ∧ unindexed members = members := by
  have hnone : ∀ m ∈ members, indexOfName? m.1 = none := by
    intro m hm
    have hm := h m hm
    unfold Precedes at hm
    rw [hfirst] at hm
    cases hi : indexOfName? m.1 with
    | none => rfl
    | some index => simp [hi] at hm
  constructor
  · rw [indexed, List.filterMap_eq_nil_iff]
    intro m hm
    rw [hnone m hm]
    rfl
  · rw [unindexed, List.filter_eq_self]
    intro m hm
    rw [hnone m hm]
    rfl

/-- Members that are in order are array indexes, ascending, and then no more of them. -/
theorem split_of_pairwise {members : List (String × α)}
    (h : (members.map Prod.fst).Pairwise Precedes) :
    (indexed members).Pairwise (fun a b => a.1 ≤ b.1) ∧
      (indexed members).map (·.2) ++ unindexed members = members := by
  induction members with
  | nil => exact ⟨.nil, rfl⟩
  | cons m rest ih =>
    obtain ⟨hfirst, hrest⟩ := List.pairwise_cons.mp h
    obtain ⟨hsorted, hsplit⟩ := ih hrest
    have hbefore : ∀ n ∈ rest, Precedes m.1 n.1 := fun n hn => hfirst _ (List.mem_map_of_mem hn)
    -- behind a name that is no index there is no index, and behind an index no smaller one
    cases hm : indexOfName? m.1 with
    | none =>
      obtain ⟨hnil, hall⟩ := indexed_of_precedes hm hbefore
      have hindexed : indexed (m :: rest) = [] := by
        rw [indexed, List.filterMap_cons, hm]
        exact hnil
      have hunindexed : unindexed (m :: rest) = m :: rest := by
        rw [unindexed, List.filter_cons_of_pos (by simp [hm])]
        exact congrArg (m :: ·) hall
      rw [hindexed, hunindexed]
      exact ⟨.nil, rfl⟩
    | some index =>
      have hindexed : indexed (m :: rest) = (index, m) :: indexed rest := by
        rw [indexed, List.filterMap_cons, hm]
        rfl
      have hunindexed : unindexed (m :: rest) = unindexed rest :=
        List.filter_cons_of_neg (by simp [hm])
      rw [hindexed, hunindexed]
      refine ⟨List.pairwise_cons.mpr ⟨?_, hsorted⟩, congrArg (m :: ·) hsplit⟩
      intro entry hentry
      obtain ⟨hmem, hindex⟩ := mem_indexed_iff.mp hentry
      have hle := hbefore _ hmem
      unfold Precedes at hle
      rw [hm, hindex] at hle
      exact hle

/-- Members that are in order are not moved. -/
theorem inObjectOrder_of_pairwise {members : List (String × α)}
    (h : (members.map Prod.fst).Pairwise Precedes) : inObjectOrder members = members := by
  obtain ⟨hsorted, hsplit⟩ := split_of_pairwise h
  rw [inObjectOrder_eq, List.mergeSort_of_pairwise (hsorted.imp fun hle => by simpa using hle)]
  exact hsplit

/-- A name that is no array index may stand behind every other one. -/
theorem precedes_of_mem_unindexed {members : List (String × α)} {m : String × α}
    (hm : m ∈ unindexed members) (first : String) : Precedes first m.1 := by
  have hnone : indexOfName? m.1 = none := Option.isNone_iff_eq_none.mp (List.mem_filter.mp hm).2
  unfold Precedes
  rw [hnone]
  split <;> trivial

/-- In the order of an object every two names stand as they may. -/
theorem pairwise_inObjectOrder (members : List (String × α)) :
    ((inObjectOrder members).map Prod.fst).Pairwise Precedes := by
  rw [inObjectOrder_eq, List.map_append, List.pairwise_append]
  refine ⟨?_, ?_, ?_⟩
  · have hsorted : ((indexed members).mergeSort fun a b => decide (a.1 ≤ b.1)).Pairwise
        fun a b => decide (a.1 ≤ b.1) = true := by
      refine List.pairwise_mergeSort ?_ ?_ _
      · intro a b c
        simp only [decide_eq_true_eq]
        exact Nat.le_trans
      · intro a b
        simpa using Nat.le_total a.1 b.1
    rw [List.map_map, List.pairwise_map]
    refine hsorted.imp_of_mem fun {a b} ha hb hle => ?_
    have hindex : ∀ entry ∈ (indexed members).mergeSort fun a b => decide (a.1 ≤ b.1),
        indexOfName? entry.2.1 = some entry.1 := fun entry he =>
      (mem_indexed_iff.mp ((List.mergeSort_perm _ _).subset he)).2
    have ha := hindex a ha
    have hb := hindex b hb
    unfold Precedes
    simp only [Function.comp_apply, ha, hb]
    exact of_decide_eq_true hle
  · rw [List.pairwise_map]
    exact List.pairwise_of_forall_mem_list fun a _ b hb => precedes_of_mem_unindexed hb a.1
  · intro a _ b hb
    obtain ⟨m, hm, rfl⟩ := List.mem_map.mp hb
    exact precedes_of_mem_unindexed hm a

/-- The members are listed as an object lists them: none twice, and in order. -/
structure IsInObjectOrder (members : List (String × α)) : Prop where
  nodup : (members.map Prod.fst).Nodup
  sorted : (members.map Prod.fst).Pairwise Precedes

/-- The objects among the members of a value list their own members in order. -/
def TablesInOrder (value : Option Json) : Prop :=
  ∀ (name : String) (members : List (String × Json)),
    (value.bind fun v => v.member? name) = some (.object members) → IsInObjectOrder members

end

end Json

namespace Table

variable {α β : Type}

/-- The table with its entries in the order of an object. -/
def inObjectOrder (table : Table α) : Table α :=
  ⟨Json.inObjectOrder table.entries,
    ((Json.perm_inObjectOrder table.entries).map Prod.fst).nodup_iff.mpr table.nodup⟩

/-- The order of an object changes nothing that is found in a table. -/
theorem find?_inObjectOrder (table : Table α) (name : String) :
    table.inObjectOrder.find? name = table.find? name := by
  refine Option.ext fun value => ?_
  rw [find?_eq_some_iff, find?_eq_some_iff]
  exact (Json.perm_inObjectOrder table.entries).mem_iff

/-- A table whose names stand as they may in an object is left alone. -/
theorem inObjectOrder_of_pairwise {table : Table α} (h : table.names.Pairwise Json.Precedes) :
    table.inObjectOrder = table := by
  obtain ⟨entries, nodup⟩ := table
  simp only [inObjectOrder, mk.injEq]
  exact Json.inObjectOrder_of_pairwise h

end Table

end SummaryInlining
