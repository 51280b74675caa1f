import SummaryInlining.Data.Table

/-!
# Tables that fill themselves in

A `MemoTable` holds a value for each key that was asked for. The first `get` of a key has its value
made and stores it; every later one answers the stored value. Two keys count as the same when
`identify` maps them to the same identity, and the key that is listed is the one used first.
The maker of values runs in any monad, so that it can be stateful, but it cannot reach the table.
-/

set_option autoImplicit false

namespace SummaryInlining

/-- The values made so far, with the keys they were made for, in the order of making. -/
structure MemoTable {κ ι : Type} (identify : κ → ι) (α : Type) where
  /-- Keys and values, the one made first standing first. -/
  entries : List (κ × α)

namespace MemoTable

variable {κ ι α : Type} [DecidableEq ι] {identify : κ → ι}

/-- The table in which nothing has been asked for. -/
def empty : MemoTable identify α := ⟨[]⟩

instance : Inhabited (MemoTable identify α) := ⟨empty⟩

/-- The value stored for a key. -/
def find? (table : MemoTable identify α) (key : κ) : Option α :=
  (table.entries.find? fun entry => identify entry.1 = identify key).map (·.2)

/-- Whether a value is stored for a key. -/
def contains (table : MemoTable identify α) (key : κ) : Bool := (table.find? key).isSome

def size (table : MemoTable identify α) : Nat := table.entries.length

/-- Stores a value behind all others. -/
def push (table : MemoTable identify α) (key : κ) (value : α) : MemoTable identify α :=
  ⟨table.entries ++ [(key, value)]⟩

/-- The value for a key, which is made and stored if there is none yet. -/
def get {m : Type → Type} [Monad m] (make : κ → m α) (key : κ) (table : MemoTable identify α) :
    m (α × MemoTable identify α) :=
  match table.find? key with
  | some value => pure (value, table)
  | none => do
    let value ← make key
    return (value, table.push key value)

/-- A stored value is found under its key, which had none before. -/
theorem find?_push_self (table : MemoTable identify α) (key : κ) (value : α)
    (h : table.find? key = none) : (table.push key value).find? key = some value := by
  simp only [find?, Option.map_eq_none_iff] at h
  simp [find?, push, List.find?_append, h]

/-- Storing a value changes nothing about keys that count as others. -/
theorem find?_push_of_ne (table : MemoTable identify α) {key other : κ} (value : α)
    (h : identify other ≠ identify key) :
    (table.push key value).find? other = table.find? other := by
  have h' : ¬ identify key = identify other := fun e => h e.symm
  simp [find?, push, List.find?_append, h']

end MemoTable

end SummaryInlining
