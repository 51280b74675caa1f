import SummaryInlining.Data.Table
import SummaryInlining.Number.Basic

/-!
# JSON values

A JSON value as the reader of summary files sees it. The members of an object are a list in a
fixed order: first the names that are array indexes, in ascending order, and then the other names
in the order of their first appearance. A name that is repeated keeps its first position and takes
its last value. `Json.ofMembers` builds an object in this order from the members as they are
written.
-/

set_option autoImplicit false

namespace SummaryInlining

/-- A JSON value. -/
inductive Json where
  | null
  | bool (value : Bool)
  | number (value : Number)
  | string (value : String)
  | array (items : List Json)
  | object (members : List (String × Json))
  deriving Inhabited

namespace Json

/-- An optional value in JSON: `null` when there is none. -/
def ofOption {α : Type} (encode : α → Json) : Option α → Json
  | none => .null
  | some value => encode value

def ofInt (n : Int) : Json := .number (.ofInt n)

def ofNat (n : Nat) : Json := .number (.ofNat n)

/-- The members of an object. -/
def members? : Json → Option (List (String × Json))
  | .object members => some members
  | _ => none

/-- The value of the member of this name, in an object that has one. -/
def member? (value : Json) (name : String) : Option Json :=
  value.members?.bind (valueAt? name)

/-- The value of a member is smaller than the members. -/
theorem sizeOf_lt_of_valueAt? {name : String} {value : Json} {members : List (String × Json)}
    (h : valueAt? name members = some value) : sizeOf value < sizeOf members := by
  have := List.sizeOf_lt_of_mem (mem_of_valueAt? h)
  simp only [Prod.mk.sizeOf_spec] at this
  omega

/-- The largest array index. -/
def maximalIndex : Nat := 4294967294

/-- The array index that a name writes in the canonical way, without leading zeros. -/
def indexOfName? (name : String) : Option Nat :=
  match name.toNat? with
  | none => none
  | some index => if index ≤ maximalIndex ∧ toString index = name then some index else none

/-- The members in the order of an object: array indexes ascending, then all others. -/
def inObjectOrder {α : Type} (members : List (String × α)) : List (String × α) :=
  let indexed := members.filterMap fun m => (indexOfName? m.1).map fun index => (index, m)
  let sorted := indexed.mergeSort fun a b => decide (a.1 ≤ b.1)
  sorted.map (·.2) ++ members.filter fun m => (indexOfName? m.1).isNone

/-- The object whose members are written in this order, possibly with repeated names. -/
def ofMembers (written : List (String × Json)) : Json :=
  .object (inObjectOrder (written.foldl (fun members m => setEntry m.1 m.2 members) []))

end Json

end SummaryInlining
