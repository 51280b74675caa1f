import Mathlib.Data.List.Nodup
import SummaryInlining.Summary.File

/-!
# Merging summary files

Files can be merged when no two of them define one function (`exists_merge_of_nodup`). The functions
of the merged file are those of the files one after the other. Otherwise there is a first file that
defines a function again, and a first such function in it (`FirstRedefinition`), and this is what
merging complains about (`merge_of_firstRedefinition`).

The steps of merging keep that what has been merged holds the functions of the files so far
(`Merged.Holds`).
-/

set_option autoImplicit false

namespace SummaryInlining

namespace SummaryFile

/-- The names of the functions of some files. -/
def functionNames (files : List SummaryFile) : List String := files.flatMap (·.functions.names)

/-- The functions of some files, in their order. -/
def functionEntries (files : List SummaryFile) : List (String × FunctionSummary) :=
  files.flatMap (·.functions.entries)

/-- The names of the functions are the names in their entries. -/
theorem map_fst_functionEntries (files : List SummaryFile) :
    (functionEntries files).map Prod.fst = functionNames files := by
  rw [functionEntries, List.map_flatMap]
  rfl

/-- The names of two groups of files stand behind one another. -/
theorem functionNames_append (files more : List SummaryFile) :
    functionNames (files ++ more) = functionNames files ++ functionNames more :=
  List.flatMap_append

/-- The names of a single file are those of its functions. -/
theorem functionNames_singleton (file : SummaryFile) :
    functionNames [file] = file.functions.names :=
  List.flatMap_singleton _ file

/-- All names are different when no two files define one function. -/
theorem nodup_functionNames_iff (files : List SummaryFile) :
    (functionNames files).Nodup ↔
      files.Pairwise fun first second =>
        List.Disjoint first.functions.names second.functions.names := by
  rw [functionNames, List.nodup_flatMap]
  exact and_iff_right fun file _ => file.functions.nodup

/-- Two of the files define one function. The first file that defines a function again has the ID
`secondFileID`, and `name` is the first function that it defines again, after the file with the ID
`firstFileID`. -/
def FirstRedefinition (files : List SummaryFile) (name firstFileID secondFileID : String) : Prop :=
  ∃ before file behind earlier fresh others, files = before ++ file :: behind ∧
    (functionNames before).Nodup ∧ file.functions.names = fresh ++ name :: others ∧
    (∀ n ∈ fresh, n ∉ functionNames before) ∧ earlier ∈ before ∧
    name ∈ earlier.functions.names ∧ earlier.fileID = firstFileID ∧ file.fileID = secondFileID

namespace Merged

variable {merged : Merged} {files : List SummaryFile} {file : SummaryFile}

/-- What has been merged holds the functions of these files. -/
structure Holds (merged : Merged) (files : List SummaryFile) : Prop where
  functions : merged.functions.entries = functionEntries files
  definedIn : merged.definedIn.entries =
    files.flatMap fun file => file.functions.names.map (·, file.fileID)

/-- Before any file, nothing is held. -/
theorem holds_empty : empty.Holds [] := ⟨rfl, rfl⟩

/-- What has been merged lists the functions of the files so far. -/
theorem Holds.names_functions (h : merged.Holds files) :
    merged.functions.names = functionNames files := by
  rw [Table.names, h.functions, map_fst_functionEntries]

/-- Every function of the files so far has a file that it is known to be defined in. -/
theorem Holds.names_definedIn (h : merged.Holds files) :
    merged.definedIn.names = functionNames files := by
  rw [Table.names, h.definedIn, List.map_flatMap, functionNames]
  refine List.flatMap_congr fun file _ => ?_
  rw [List.map_map]
  exact List.map_id _

/-- The file that a function is known to be defined in. -/
theorem Holds.find?_definedIn (h : merged.Holds files) (hfile : file ∈ files) {name : String}
    (hname : name ∈ file.functions.names) : merged.definedIn.find? name = some file.fileID := by
  rw [Table.find?_eq_some_iff, h.definedIn, List.mem_flatMap]
  exact ⟨file, hfile, List.mem_map_of_mem hname⟩

/-- A function with a new name is added with the file that defines it. -/
theorem addFunction_of_fresh {fileID : String} {entry : String × FunctionSummary}
    (h : entry.1 ∉ merged.definedIn.names) :
    merged.addFunction fileID entry =
      .ok { merged with
        functions := merged.functions.insert entry.1 entry.2
        definedIn := merged.definedIn.insert entry.1 fileID } := by
  rw [addFunction, (Table.find?_eq_none_iff _ _).mpr h]

/-- Functions with new names are added behind those that are there. -/
theorem foldlM_addFunction_of_fresh (fileID : String) {entries : List (String × FunctionSummary)}
    (hnames : merged.functions.names = merged.definedIn.names)
    (hfresh : (merged.definedIn.names ++ entries.map Prod.fst).Nodup) :
    ∃ after, entries.foldlM (addFunction fileID) merged = .ok after ∧
      after.functions.entries = merged.functions.entries ++ entries ∧
      after.definedIn.entries =
        merged.definedIn.entries ++ (entries.map Prod.fst).map (·, fileID) ∧
      after.structs = merged.structs := by
  induction entries generalizing merged with
  | nil => exact ⟨merged, rfl, by simp, by simp, rfl⟩
  | cons entry rest ih =>
    rw [List.map_cons, List.nodup_middle, List.nodup_cons] at hfresh
    have hnew : entry.1 ∉ merged.definedIn.names := fun h =>
      hfresh.1 (List.mem_append_left _ h)
    let next : Merged := { merged with
      functions := merged.functions.insert entry.1 entry.2
      definedIn := merged.definedIn.insert entry.1 fileID }
    have hfunctions : next.functions.entries = merged.functions.entries ++ [entry] :=
      Table.entries_insert_of_not_mem (hnames ▸ hnew) entry.2
    have hdefinedIn : next.definedIn.entries = merged.definedIn.entries ++ [(entry.1, fileID)] :=
      Table.entries_insert_of_not_mem hnew fileID
    have hkept : next.functions.names = merged.functions.names ++ [entry.1] := by
      rw [Table.names, hfunctions, List.map_append]
      rfl
    have hplaces : next.definedIn.names = merged.definedIn.names ++ [entry.1] := by
      rw [Table.names, hdefinedIn, List.map_append]
      rfl
    -- the names behind are new to the next table as well
    have hrest : (next.definedIn.names ++ rest.map Prod.fst).Nodup := by
      rw [hplaces, List.append_assoc, List.singleton_append, List.nodup_middle, List.nodup_cons]
      exact hfresh
    obtain ⟨after, hok, hentries, hwhere, hstructs⟩ := ih (by rw [hkept, hplaces, hnames]) hrest
    refine ⟨after, ?_, ?_, ?_, hstructs⟩
    · rw [List.foldlM_cons, addFunction_of_fresh hnew]
      exact hok
    · rw [hentries, hfunctions, List.append_assoc]
      rfl
    · rw [hwhere, hdefinedIn, List.append_assoc]
      rfl

/-- Adding structs changes nothing about functions. -/
theorem functions_foldl_addStruct (entries : List (String × List StructField)) (merged : Merged) :
    (entries.foldl addStruct merged).functions = merged.functions ∧
      (entries.foldl addStruct merged).definedIn = merged.definedIn := by
  induction entries generalizing merged with
  | nil => exact ⟨rfl, rfl⟩
  | cons entry rest ih => exact ih (merged.addStruct entry)

/-- A file whose functions are new is added. -/
theorem Holds.exists_addFile (h : merged.Holds files)
    (hfresh : (functionNames files ++ file.functions.names).Nodup) :
    ∃ after, merged.addFile file = .ok after ∧ after.Holds (files ++ [file]) := by
  rw [← h.names_definedIn] at hfresh
  obtain ⟨added, hok, hfunctions, hdefinedIn, -⟩ := foldlM_addFunction_of_fresh file.fileID
    (h.names_functions.trans h.names_definedIn.symm) hfresh
  obtain ⟨hkept, hplaces⟩ := functions_foldl_addStruct file.structs.entries added
  refine ⟨file.structs.entries.foldl addStruct added, ?_, ?_, ?_⟩
  · rw [addFile, hok]
    rfl
  · rw [hkept, hfunctions, h.functions, functionEntries, functionEntries, List.flatMap_append]
    simp
  · rw [hplaces, hdefinedIn, h.definedIn, List.flatMap_append]
    simp [Table.names]

/-- A file that defines a function again is refused. -/
theorem Holds.addFile_of_taken (h : merged.Holds files) {fresh others : List String} {name : String}
    (hnames : file.functions.names = fresh ++ name :: others)
    (hfresh : ∀ n ∈ fresh, n ∉ functionNames files) {earlier : SummaryFile}
    (hearlier : earlier ∈ files) (hname : name ∈ earlier.functions.names) :
    merged.addFile file = .error (.redefined name earlier.fileID file.fileID) := by
  obtain ⟨before, behind, hentries, hbefore, hbehind⟩ := List.map_eq_append_iff.mp hnames
  obtain ⟨entry, rest, rfl, rfl, -⟩ := List.map_eq_cons_iff.mp hbehind
  have hnodup : fresh.Nodup := by
    have hall := file.functions.nodup
    rw [← Table.names, hnames] at hall
    exact (List.nodup_append.mp hall).1
  have hnew : (merged.definedIn.names ++ before.map Prod.fst).Nodup := by
    rw [hbefore]
    refine List.nodup_append.mpr ⟨merged.definedIn.nodup, hnodup, ?_⟩
    rintro n hn m hm rfl
    exact hfresh n hm (h.names_definedIn ▸ hn)
  obtain ⟨added, hok, -, hdefinedIn, -⟩ := foldlM_addFunction_of_fresh file.fileID
    (h.names_functions.trans h.names_definedIn.symm) hnew
  -- the file of the earlier definition is still the one that is found
  have hfound : added.definedIn.find? entry.1 = some earlier.fileID := by
    rw [Table.find?_eq_some_iff, hdefinedIn]
    exact List.mem_append_left _
      ((Table.find?_eq_some_iff _ _ _).mp (h.find?_definedIn hearlier hname))
  rw [addFile, hentries, List.foldlM_append, hok]
  have hrefused : added.addFunction file.fileID entry =
      .error (.redefined entry.1 earlier.fileID file.fileID) := by
    rw [addFunction, hfound]
  simp only [bind, Except.bind, List.foldlM_cons, hrefused]

/-- Files whose functions are all different are added one after the other. -/
theorem Holds.exists_foldlM_addFile (h : merged.Holds files) (more : List SummaryFile)
    (hnodup : (functionNames (files ++ more)).Nodup) :
    ∃ after, more.foldlM addFile merged = .ok after ∧ after.Holds (files ++ more) := by
  induction more generalizing merged files with
  | nil => exact ⟨merged, rfl, by simpa using h⟩
  | cons file rest ih =>
    have hsplit : files ++ file :: rest = (files ++ [file]) ++ rest := by simp
    rw [hsplit] at hnodup ⊢
    have hfresh : (functionNames files ++ file.functions.names).Nodup := by
      rw [functionNames_append, functionNames_append, functionNames_singleton] at hnodup
      exact (List.nodup_append.mp hnodup).1
    obtain ⟨next, hok, hnext⟩ := h.exists_addFile hfresh
    obtain ⟨after, hrest, hafter⟩ := ih hnext hnodup
    refine ⟨after, ?_, hafter⟩
    rw [List.foldlM_cons, hok]
    exact hrest

end Merged

variable {files : List SummaryFile}

/-- Files that define different functions can be merged. -/
theorem exists_merge_of_nodup (h : (functionNames files).Nodup) :
    ∃ merged, merge files = .ok merged ∧ merged.functions.entries = functionEntries files := by
  obtain ⟨after, hok, hafter⟩ := Merged.holds_empty.exists_foldlM_addFile files h
  exact ⟨⟨_, after.functions, after.structs⟩, by rw [merge, hok]; rfl, hafter.functions⟩

/-- Merging complains about the first function that is defined again. -/
theorem merge_of_firstRedefinition {name firstFileID secondFileID : String}
    (h : FirstRedefinition files name firstFileID secondFileID) :
    merge files = .error (.redefined name firstFileID secondFileID) := by
  obtain ⟨before, file, behind, earlier, fresh, others, rfl, hnodup, hnames, hfresh, hearlier,
    hname, rfl, rfl⟩ := h
  obtain ⟨held, hok, hheld⟩ := Merged.holds_empty.exists_foldlM_addFile before hnodup
  have hrefused := hheld.addFile_of_taken hnames hfresh hearlier hname
  rw [merge, List.foldlM_append, hok]
  simp only [bind, Except.bind, List.foldlM_cons, hrefused]

/-- Where two files define one function there is a first such function. -/
theorem exists_firstRedefinition (h : ¬ (functionNames files).Nodup) :
    ∃ name firstFileID secondFileID,
      FirstRedefinition files name firstFileID secondFileID := by
  -- the files before are free of redefinitions, and the search goes on behind them
  have hsearch : ∀ before rest : List SummaryFile, (functionNames before).Nodup →
      ¬ (functionNames (before ++ rest)).Nodup →
      ∃ name firstFileID secondFileID,
        FirstRedefinition (before ++ rest) name firstFileID secondFileID := by
    intro before rest
    induction rest generalizing before with
    | nil =>
      intro hbefore hnot
      rw [List.append_nil] at hnot
      exact absurd hbefore hnot
    | cons file rest ih =>
      intro hbefore hnot
      cases hfound : file.functions.names.find? fun n => n ∈ functionNames before with
      | none =>
        have hnew : ∀ n ∈ file.functions.names, n ∉ functionNames before := by
          simpa using hfound
        have hnext : (functionNames (before ++ [file])).Nodup := by
          rw [functionNames_append, functionNames_singleton]
          refine List.nodup_append.mpr ⟨hbefore, file.functions.nodup, ?_⟩
          rintro n hn m hm rfl
          exact hnew n hm hn
        have hsplit : before ++ file :: rest = (before ++ [file]) ++ rest := by simp
        rw [hsplit] at hnot ⊢
        exact ih (before ++ [file]) hnext hnot
      | some name =>
        obtain ⟨htaken, fresh, others, hnames, hfresh⟩ := List.find?_eq_some_iff_append.mp hfound
        obtain ⟨earlier, hearlier, hname⟩ := List.mem_flatMap.mp (of_decide_eq_true htaken)
        exact ⟨name, earlier.fileID, file.fileID, before, file, rest, earlier, fresh, others, rfl,
          hbefore, hnames, fun n hn => by simpa using hfresh n hn, hearlier, hname, rfl, rfl⟩
  exact hsearch [] files List.nodup_nil h

end SummaryFile

end SummaryInlining
