import SummaryInlining.Data.List

/-!
# Tables in order of first insertion

A `Table` maps names to values and lists its entries in the order in which their names were first
inserted. Overwriting a value keeps the place of its name, while erasing a name and inserting it
again moves it to the end. That no name is listed twice is part of the type, so that looking a
name up and finding it in the list of entries are the same thing (`find?_eq_some_iff`). A table is
determined by the order of its names and the values under them (`ext_find?`).

Laying a table over another one inserts its entries into the other one (`overlay`). This is
associative (`overlay_assoc`), and of many tables that are laid over one another the last one with a
name has the value (`find?_foldl_overlay_eq_some_iff`).
-/

set_option autoImplicit false

namespace SummaryInlining

/-- Puts `value` under `key`: in the place of the first entry of that key, or behind all entries
when there is none. -/
def setEntry {κ α : Type} [DecidableEq κ] (key : κ) (value : α) : List (κ × α) → List (κ × α)
  | [] => [(key, value)]
  | (other, old) :: rest =>
    if other = key then (key, value) :: rest else (other, old) :: setEntry key value rest

/-- The value of the first entry of `key`. -/
def valueAt? {κ α : Type} [DecidableEq κ] (key : κ) : List (κ × α) → Option α
  | [] => none
  | (other, value) :: rest => if other = key then some value else valueAt? key rest

section

variable {κ α : Type} [DecidableEq κ]

/-- The value that was set last for a key is its value. -/
@[simp] theorem valueAt?_setEntry_self (key : κ) (value : α) (entries : List (κ × α)) :
    valueAt? key (setEntry key value entries) = some value := by
  induction entries with
  | nil => simp [setEntry, valueAt?]
  | cons head rest ih =>
    by_cases h : head.1 = key
    · simp [setEntry, valueAt?, h]
    · simp [setEntry, valueAt?, h, ih]

/-- Setting the entry of one key leaves the values of the other keys alone. -/
theorem valueAt?_setEntry_of_ne {key other : κ} (value : α) (entries : List (κ × α))
    (h : other ≠ key) : valueAt? other (setEntry key value entries) = valueAt? other entries := by
  have h' : ¬ key = other := fun e => h e.symm
  induction entries with
  | nil => simp [setEntry, valueAt?, h']
  | cons head rest ih =>
    by_cases hk : head.1 = key
    · simp [setEntry, valueAt?, hk, h']
    · simp [setEntry, valueAt?, hk, ih]

/-- A key has no value exactly if no entry has the key. -/
theorem valueAt?_eq_none_iff (key : κ) (entries : List (κ × α)) :
    valueAt? key entries = none ↔ key ∉ entries.map Prod.fst := by
  induction entries with
  | nil => simp [valueAt?]
  | cons head rest ih =>
    by_cases h : head.1 = key
    · simp [valueAt?, h]
    · have h' : ¬ key = head.1 := fun e => h e.symm
      simp [valueAt?, h, h', ih]

/-- The value of a key stands in one of its entries. -/
theorem mem_of_valueAt? {key : κ} {value : α} {entries : List (κ × α)}
    (h : valueAt? key entries = some value) : (key, value) ∈ entries := by
  induction entries with
  | nil => simp [valueAt?] at h
  | cons head rest ih =>
    by_cases hk : head.1 = key
    · simp only [valueAt?, hk, if_true, Option.some.injEq] at h
      simp [← h, ← hk]
    · simp only [valueAt?, hk, if_false] at h
      exact List.mem_cons_of_mem _ (ih h)

/-- Where no key is listed twice, every entry holds the value of its key. -/
theorem valueAt?_of_mem {key : κ} {value : α} {entries : List (κ × α)}
    (nodup : (entries.map Prod.fst).Nodup) (h : (key, value) ∈ entries) :
    valueAt? key entries = some value := by
  induction entries with
  | nil => simp at h
  | cons head rest ih =>
    rw [List.map_cons, List.nodup_cons] at nodup
    rcases List.mem_cons.mp h with rfl | hm
    · simp [valueAt?]
    · have hk : ¬ head.1 = key := fun e => nodup.1 (e ▸ List.mem_map.mpr ⟨_, hm, rfl⟩)
      simp [valueAt?, hk, ih nodup.2 hm]

/-- Values can be replaced by their images before or after one is looked up. -/
theorem valueAt?_map {β : Type} (f : κ → α → β) (key : κ) (entries : List (κ × α)) :
    valueAt? key (entries.map fun entry => (entry.1, f entry.1 entry.2)) =
      (valueAt? key entries).map (f key) := by
  induction entries with
  | nil => rfl
  | cons head rest ih =>
    simp only [List.map_cons, valueAt?]
    by_cases hkey : head.1 = key
    · rw [if_pos hkey, if_pos hkey, hkey]
      rfl
    · rw [if_neg hkey, if_neg hkey, ih]

/-- The keys after setting an entry: those before, and the new one behind them if it is new. -/
theorem keys_setEntry (key : κ) (value : α) (entries : List (κ × α)) :
    (setEntry key value entries).map Prod.fst =
      if key ∈ entries.map Prod.fst then entries.map Prod.fst
      else entries.map Prod.fst ++ [key] := by
  induction entries with
  | nil => simp [setEntry]
  | cons entry rest ih =>
    by_cases h : entry.1 = key
    · simp [setEntry, h]
    · have h' : ¬ key = entry.1 := fun e => h e.symm
      simp only [setEntry, h, if_false, List.map_cons, ih, List.mem_cons, h', false_or]
      split <;> simp

/-- Setting an entry lists no key twice that was not listed twice before. -/
theorem nodup_keys_setEntry (key : κ) (value : α) {entries : List (κ × α)}
    (h : (entries.map Prod.fst).Nodup) : ((setEntry key value entries).map Prod.fst).Nodup := by
  rw [keys_setEntry]
  split
  · exact h
  · next hn =>
    rw [List.nodup_append]
    refine ⟨h, by simp, ?_⟩
    intro a ha b hb
    rw [List.mem_singleton] at hb
    rintro rfl
    exact hn (hb ▸ ha)

/-- Removing a key leaves the values of the other keys alone. -/
theorem valueAt?_filter_of_ne {key other : κ} (h : other ≠ key) (entries : List (κ × α)) :
    valueAt? other (entries.filter fun entry => entry.1 ≠ key) = valueAt? other entries := by
  induction entries with
  | nil => rfl
  | cons entry rest ih =>
    by_cases hentry : entry.1 = key
    · have hother : ¬ entry.1 = other := fun he => h (he.symm.trans hentry)
      rw [List.filter_cons_of_neg (by simpa using hentry), ih, valueAt?, if_neg hother]
    · rw [List.filter_cons_of_pos (by simpa using hentry), valueAt?, valueAt?, ih]

/-- The entry of a new key comes last. -/
theorem setEntry_of_not_mem {key : κ} {entries : List (κ × α)}
    (h : key ∉ entries.map Prod.fst) (value : α) :
    setEntry key value entries = entries ++ [(key, value)] := by
  induction entries with
  | nil => rfl
  | cons entry rest ih =>
    rw [List.map_cons, List.mem_cons, not_or] at h
    obtain ⟨hhead, hrest⟩ := h
    rw [setEntry, if_neg fun he => hhead he.symm, ih hrest]
    rfl

/-- Setting entries one after the other whose keys are all new puts them behind one another. -/
theorem foldl_setEntry {before entries : List (κ × α)}
    (h : ((before ++ entries).map Prod.fst).Nodup) :
    entries.foldl (fun done entry => setEntry entry.1 entry.2 done) before = before ++ entries := by
  induction entries generalizing before with
  | nil => simp
  | cons entry rest ih =>
    have hnew : entry.1 ∉ before.map Prod.fst := by
      rw [List.map_append, List.map_cons, List.perm_middle.nodup_iff, List.nodup_cons] at h
      exact fun hmem => h.1 (List.mem_append_left _ hmem)
    rw [List.foldl_cons, setEntry_of_not_mem hnew, ih (by simpa using h), List.append_assoc]
    rfl

/-- An entry is the one that was set last, or it was there before. -/
theorem mem_setEntry {key : κ} {value : α} {entries : List (κ × α)} {entry : κ × α}
    (h : entry ∈ setEntry key value entries) : entry = (key, value) ∨ entry ∈ entries := by
  induction entries with
  | nil => exact .inl (List.mem_singleton.mp h)
  | cons head rest ih =>
    by_cases hkey : head.1 = key
    · rw [setEntry, if_pos hkey] at h
      exact (List.mem_cons.mp h).imp id (List.mem_cons_of_mem _)
    · rw [setEntry, if_neg hkey] at h
      rcases List.mem_cons.mp h with rfl | hrest
      · exact .inr List.mem_cons_self
      · exact (ih hrest).imp id (List.mem_cons_of_mem _)

/-- Every entry of a list that is built entry by entry has been put there. -/
theorem mem_foldl_setEntry {written entries : List (κ × α)} {entry : κ × α}
    (h : entry ∈ written.foldl (fun done m => setEntry m.1 m.2 done) entries) :
    entry ∈ written ∨ entry ∈ entries := by
  induction written generalizing entries with
  | nil => exact .inr h
  | cons m rest ih =>
    rcases ih h with hrest | hset
    · exact .inl (List.mem_cons_of_mem _ hrest)
    · rcases mem_setEntry hset with rfl | hold
      · exact .inl List.mem_cons_self
      · exact .inr hold

end

/-- A map from names to values that lists its entries in the order of first insertion. -/
structure Table (α : Type) where
  entries : List (String × α)
  /-- No name is listed twice. -/
  nodup : (entries.map Prod.fst).Nodup

namespace Table

variable {α β : Type}

/-- The table without entries. -/
def empty : Table α := ⟨[], by simp⟩

instance : Inhabited (Table α) := ⟨empty⟩

/-- The value under a name. -/
def find? (table : Table α) (name : String) : Option α := valueAt? name table.entries

/-- Whether a name has a value. -/
def contains (table : Table α) (name : String) : Bool := (table.find? name).isSome

def names (table : Table α) : List String := table.entries.map Prod.fst

/-- Puts a value under a name, which keeps its place if it has one and otherwise comes last. -/
def insert (table : Table α) (name : String) (value : α) : Table α :=
  ⟨setEntry name value table.entries, nodup_keys_setEntry name value table.nodup⟩

/-- Takes a name and its value out. -/
def erase (table : Table α) (name : String) : Table α :=
  ⟨table.entries.filter (fun entry => entry.1 ≠ name),
    (List.filter_sublist.map Prod.fst).nodup table.nodup⟩

/-- The table that results from inserting entries one after the other. -/
def ofList (entries : List (String × α)) : Table α :=
  entries.foldl (fun table entry => table.insert entry.1 entry.2) empty

/-- The table with every value replaced by its image. -/
def map (f : α → β) (table : Table α) : Table β :=
  ⟨table.entries.map fun entry => (entry.1, f entry.2), by
    simpa [List.map_map, Function.comp_def] using table.nodup⟩

/-- The empty table has no value under any name. -/
@[simp] theorem find?_empty (name : String) : (empty : Table α).find? name = none := rfl

/-- The value that was inserted last under a name is found under it. -/
@[simp] theorem find?_insert_self (table : Table α) (name : String) (value : α) :
    (table.insert name value).find? name = some value :=
  valueAt?_setEntry_self name value table.entries

/-- An insertion changes nothing about the other names. -/
theorem find?_insert_of_ne (table : Table α) {name other : String} (value : α)
    (h : other ≠ name) : (table.insert name value).find? other = table.find? other :=
  valueAt?_setEntry_of_ne value table.entries h

/-- Nothing is found under an erased name. -/
@[simp] theorem find?_erase_self (table : Table α) (name : String) :
    (table.erase name).find? name = none := by
  simp [find?, erase, valueAt?_eq_none_iff]

/-- What is found under a name are the entries with this name. -/
theorem find?_eq_some_iff (table : Table α) (name : String) (value : α) :
    table.find? name = some value ↔ (name, value) ∈ table.entries :=
  ⟨mem_of_valueAt?, valueAt?_of_mem table.nodup⟩

/-- Nothing is found exactly under the names that are not listed. -/
theorem find?_eq_none_iff (table : Table α) (name : String) :
    table.find? name = none ↔ name ∉ table.names :=
  valueAt?_eq_none_iff name table.entries

/-- Erasing a name changes nothing about the other names. -/
theorem find?_erase_of_ne (table : Table α) {name other : String} (h : other ≠ name) :
    (table.erase name).find? other = table.find? other :=
  valueAt?_filter_of_ne h table.entries

/-- Erasing a name keeps the order of the other names. -/
theorem names_erase (table : Table α) (name : String) :
    (table.erase name).names = table.names.filter fun other => other ≠ name := by
  rw [names, names, erase, List.filter_map]
  rfl

/-- An inserted name keeps its place if it has one and otherwise comes last. -/
theorem names_insert (table : Table α) (name : String) (value : α) :
    (table.insert name value).names =
      if name ∈ table.names then table.names else table.names ++ [name] :=
  keys_setEntry name value table.entries

/-- The entry of a new name comes last. -/
theorem entries_insert_of_not_mem {table : Table α} {name : String} (h : name ∉ table.names)
    (value : α) : (table.insert name value).entries = table.entries ++ [(name, value)] :=
  setEntry_of_not_mem h value

/-- Inserting entries one after the other sets them one after the other. -/
theorem entries_foldl_insert (entries : List (String × α)) (table : Table α) :
    (entries.foldl (fun table entry => table.insert entry.1 entry.2) table).entries =
      entries.foldl (fun done entry => setEntry entry.1 entry.2 done) table.entries := by
  induction entries generalizing table with
  | nil => rfl
  | cons entry rest ih => exact ih (table.insert entry.1 entry.2)

/-- A table is determined by its entries. -/
theorem eq_of_entries_eq {table other : Table α} (h : table.entries = other.entries) :
    table = other := by
  cases table
  cases other
  cases h
  rfl

/-- A table of entries with different names lists just these entries. -/
theorem ofList_of_nodup {entries : List (String × α)} (h : (entries.map Prod.fst).Nodup) :
    ofList entries = ⟨entries, h⟩ := by
  apply eq_of_entries_eq
  rw [ofList, entries_foldl_insert]
  exact foldl_setEntry h

/-- The entries are the names with the values under them. -/
theorem entries_eq_filterMap (table : Table α) :
    table.entries = table.names.filterMap fun name => (table.find? name).map (name, ·) := by
  have hall : ∀ entry ∈ table.entries,
      some entry = (table.find? entry.1).map (entry.1, ·) := by
    intro entry hentry
    rw [(table.find?_eq_some_iff entry.1 entry.2).mpr hentry]
    rfl
  calc table.entries
      = (table.entries.map some).filterMap id := by simp
    _ = (table.entries.map fun entry =>
          (table.find? entry.1).map (entry.1, ·)).filterMap id := by rw [List.map_congr_left hall]
    _ = _ := by
      rw [names, List.filterMap_map, List.filterMap_map]
      rfl

/-- A table is determined by the order of its names and the values under them. -/
theorem ext_find? {table other : Table α} (hnames : table.names = other.names)
    (hfind : ∀ name, table.find? name = other.find? name) : table = other := by
  apply eq_of_entries_eq
  rw [entries_eq_filterMap, entries_eq_filterMap, hnames]
  simp only [hfind]

/-! ## Tables over one another -/

/-- The entries of both tables. A name that both of them have keeps its place in the lower one and
has the value of the upper one. -/
def overlay (lower upper : Table α) : Table α :=
  upper.entries.foldl (fun table entry => table.insert entry.1 entry.2) lower

/-- No name of a table is listed twice. -/
theorem eraseDups_names (table : Table α) : table.names.eraseDups = table.names :=
  eraseDups_of_nodup table.nodup

/-- Inserting entries one after the other puts their new names behind the names that are there. -/
theorem names_foldl_insert (entries : List (String × α)) (table : Table α) :
    (entries.foldl (fun table entry => table.insert entry.1 entry.2) table).names =
      (table.names ++ entries.map Prod.fst).eraseDups := by
  induction entries generalizing table with
  | nil => rw [List.map_nil, List.append_nil, eraseDups_names, List.foldl_nil]
  | cons entry rest ih =>
    have hinsert : (table.insert entry.1 entry.2).names = (table.names ++ [entry.1]).eraseDups := by
      rw [names_insert, eraseDups_append_singleton, eraseDups_names]
    rw [List.foldl_cons, ih, hinsert, eraseDups_eraseDups_append, List.append_assoc,
      List.singleton_append, List.map_cons]

/-- The upper table puts its new names behind those of the lower one. -/
theorem names_overlay (lower upper : Table α) :
    (lower.overlay upper).names = (lower.names ++ upper.names).eraseDups :=
  names_foldl_insert upper.entries lower

/-- Inserted entries are found before those that were there. -/
theorem find?_foldl_insert {entries : List (String × α)} (h : (entries.map Prod.fst).Nodup)
    (table : Table α) (name : String) :
    (entries.foldl (fun table entry => table.insert entry.1 entry.2) table).find? name =
      (valueAt? name entries).or (table.find? name) := by
  induction entries generalizing table with
  | nil => rfl
  | cons entry rest ih =>
    obtain ⟨hentry, hrest⟩ := List.nodup_cons.mp h
    rw [List.foldl_cons, ih hrest, valueAt?]
    by_cases hname : entry.1 = name
    · rw [if_pos hname, ← hname, (valueAt?_eq_none_iff entry.1 rest).mpr hentry,
        find?_insert_self]
      rfl
    · rw [if_neg hname, find?_insert_of_ne _ _ fun heq => hname heq.symm]

/-- A name is looked up in the upper table first. -/
theorem find?_overlay (lower upper : Table α) (name : String) :
    (lower.overlay upper).find? name = (upper.find? name).or (lower.find? name) :=
  find?_foldl_insert upper.nodup lower name

/-- Nothing changes when a table is laid over the empty one. -/
theorem empty_overlay (table : Table α) : empty.overlay table = table :=
  ofList_of_nodup table.nodup

/-- Of three tables it does not matter which two are laid over one another first. -/
theorem overlay_assoc (a b c : Table α) : (a.overlay b).overlay c = a.overlay (b.overlay c) := by
  apply ext_find?
  · rw [names_overlay, names_overlay, names_overlay, names_overlay, eraseDups_eraseDups_append,
      eraseDups_append_eraseDups_right, List.append_assoc]
  · intro name
    rw [find?_overlay, find?_overlay, find?_overlay, find?_overlay, Option.or_assoc]

instance : Std.Associative (@overlay α) := ⟨overlay_assoc⟩

/-- Names stand where they first come up in the tables, from the lowest one on. -/
theorem names_foldl_overlay (tables : List (Table α)) (lower : Table α) :
    (tables.foldl overlay lower).names =
      (lower.names ++ tables.flatMap names).eraseDups := by
  induction tables generalizing lower with
  | nil => rw [List.flatMap_nil, List.append_nil, eraseDups_names, List.foldl_nil]
  | cons table rest ih =>
    rw [List.foldl_cons, ih, names_overlay, eraseDups_eraseDups_append, List.append_assoc,
      List.flatMap_cons]

/-- A name is looked up in the uppermost table first. -/
theorem find?_foldl_overlay (tables : List (Table α)) (lower : Table α)
    (name : String) :
    (tables.foldl overlay lower).find? name =
      (tables.reverse.findSome? fun table => table.find? name).or (lower.find? name) := by
  induction tables generalizing lower with
  | nil => rfl
  | cons table rest ih =>
    rw [List.foldl_cons, ih, find?_overlay, List.reverse_cons, List.findSome?_append,
      List.findSome?_singleton, Option.or_assoc]

/-- Tables laid over a table come together first. -/
theorem foldl_overlay (tables : List (Table α)) (lower : Table α) :
    tables.foldl overlay lower = lower.overlay (tables.foldl overlay .empty) := by
  show tables.foldl overlay (lower.overlay empty) = _
  exact List.foldl_assoc

/-- The value of a name is the one in the last table that has the name. -/
theorem find?_foldl_overlay_eq_some_iff (tables : List (Table α)) (name : String) (value : α) :
    (tables.foldl overlay empty).find? name = some value ↔
      ∃ before table behind, tables = before ++ table :: behind ∧
        table.find? name = some value ∧ ∀ later ∈ behind, name ∉ later.names := by
  rw [find?_foldl_overlay, find?_empty, Option.or_none, findSome?_reverse_eq_some_iff]
  simp only [find?_eq_none_iff]

end Table

end SummaryInlining
