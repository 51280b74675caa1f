import SummaryInlining.Analyzer
import SummaryInlining.Proofs.FileMerging
import SummaryInlining.Proofs.MachineRefinement

/-!
# Laws of merging

Merging files puts their functions one behind the other, where no two may have the same name, and
lays their structs over one another, where the last layout of a name counts
(`SummaryFile.merge_eq_ok_iff`). Laying tables over one another is associative
(`Table.overlay_assoc`), so files can be merged in groups (`SummaryFile.isMergeOf_append_iff`).

The order of the files matters for the order of the functions only. An expansion looks functions up
by name and does not see that order (`instantiate_congr`).
-/

set_option autoImplicit false

namespace SummaryInlining

/-! ## Expansions in environments that know the same functions -/

section

variable {env other : Environment} (h : ∀ name, other.find? name = env.find? name)

include h

/-- Entering a function sees the summary of this function only. -/
theorem Session.enter_congr (session : Session) (name : String) (args : List (Option Expr))
    (stack : CallStack) (guard : Term .bool) :
    session.enter other name args stack guard = session.enter env name args stack guard := by
  rw [enter, enter, h]

/-- A step sees of the environment which functions have which summaries. -/
theorem Machine.step_congr (m : Machine) : m.step other = m.step env := by
  unfold step stepCall
  simp only [Session.enter_congr h]

/-- A run sees of the environment which functions have which summaries. -/
theorem Machine.run_congr (m : Machine) : m.run other = m.run env := by
  induction m using Machine.run.induct env with
  | case1 m next hstep _ ih =>
    rw [run_of_running hstep, run_of_running ((step_congr h m).trans hstep), ih]
  | case2 m result hstep =>
    rw [run_of_ended hstep, run_of_ended ((step_congr h m).trans hstep)]

/-- An instantiation sees of its environment which functions have which summaries. -/
theorem instantiate_congr (entry : String) (naming : Naming) :
    instantiate other entry naming = instantiate env entry naming := by
  simp only [instantiate, Session.apply, h, Session.enter_congr h, Machine.run_congr h]

/-- A check sees of its environment which functions have which summaries. -/
theorem check_congr (entry : String) : check other entry = check env entry := by
  simp only [check, instantiate_congr h]

end

/-! ## Merged files -/

/-- When no step of a fold fails and each one changes a view of its state in some way, the fold
changes the view in this way step by step. -/
theorem view_of_foldlM_eq_ok {ε α σ γ : Type} {step : σ → α → Except ε σ} (view : σ → γ)
    (change : γ → α → γ)
    (hstep : ∀ {s a t}, step s a = .ok t → view t = change (view s) a) {items : List α} {s t : σ}
    (h : items.foldlM step s = .ok t) : view t = items.foldl change (view s) := by
  induction items generalizing s with
  | nil =>
    cases h
    rfl
  | cons a rest ih =>
    rw [List.foldlM_cons] at h
    cases hnext : step s a with
    | error e =>
      rw [hnext] at h
      cases h
    | ok next =>
      rw [hnext] at h
      rw [ih h, hstep hnext, List.foldl_cons]

namespace SummaryFile

variable {files left right : List SummaryFile} {merged : SummaryFile}

/-- The file holds the functions of some files one behind the other, and their structs over one
another. -/
structure IsMergeOf (merged : SummaryFile) (files : List SummaryFile) : Prop where
  fileID : merged.fileID = ",".intercalate (files.map (·.fileID))
  functions : merged.functions.entries = functionEntries files
  structs : merged.structs = (files.map (·.structs)).foldl Table.overlay .empty

/-- Files have one merge. -/
theorem IsMergeOf.unique {other : SummaryFile} (h : merged.IsMergeOf files)
    (hother : other.IsMergeOf files) : merged = other := by
  cases merged
  cases other
  simp only [mk.injEq]
  exact ⟨h.fileID.trans hother.fileID.symm,
    Table.eq_of_entries_eq (h.functions.trans hother.functions.symm),
    h.structs.trans hother.structs.symm⟩

namespace Merged

/-- Adding a function leaves the structs alone. -/
theorem structs_addFunction {fileID : String} {merged after : Merged}
    {entry : String × FunctionSummary} (h : merged.addFunction fileID entry = .ok after) :
    after.structs = merged.structs := by
  unfold addFunction at h
  split at h
  · cases h
  · cases h
    rfl

/-- Adding structs inserts them one after the other. -/
theorem structs_foldl_addStruct (entries : List (String × List StructField)) (merged : Merged) :
    (entries.foldl addStruct merged).structs =
      entries.foldl (fun table entry => table.insert entry.1 entry.2) merged.structs := by
  induction entries generalizing merged with
  | nil => rfl
  | cons entry rest ih => exact ih (merged.addStruct entry)

/-- Adding a file lays its structs over those that are there. -/
theorem structs_addFile {merged after : Merged} {file : SummaryFile}
    (h : merged.addFile file = .ok after) :
    after.structs = merged.structs.overlay file.structs := by
  unfold addFile at h
  cases hfunctions : file.functions.entries.foldlM (addFunction file.fileID) merged with
  | error e =>
    rw [hfunctions] at h
    cases h
  | ok added =>
    rw [hfunctions] at h
    cases h
    have hkept :=
      view_of_foldlM_eq_ok (·.structs) (fun structs _ => structs) structs_addFunction hfunctions
    rw [List.foldl_fixed] at hkept
    rw [structs_foldl_addStruct, hkept]
    rfl

end Merged

/-- A merged file has the structs of the files over one another. -/
theorem structs_of_merge (h : merge files = .ok merged) :
    merged.structs = (files.map (·.structs)).foldl Table.overlay .empty := by
  unfold merge at h
  cases hadded : files.foldlM Merged.addFile Merged.empty with
  | error e =>
    rw [hadded] at h
    cases h
  | ok after =>
    rw [hadded] at h
    cases h
    rw [List.foldl_map]
    exact view_of_foldlM_eq_ok (·.structs) (fun structs file => structs.overlay file.structs)
      Merged.structs_addFile hadded

/-- A merged file has the names of the files with commas between them. -/
theorem fileID_of_merge (h : merge files = .ok merged) :
    merged.fileID = ",".intercalate (files.map (·.fileID)) := by
  unfold merge at h
  cases hadded : files.foldlM Merged.addFile Merged.empty with
  | error e =>
    rw [hadded] at h
    cases h
  | ok after =>
    rw [hadded] at h
    cases h
    rfl

/-- Files can be merged exactly if no two of their functions have one name. -/
theorem exists_merge_iff :
    (∃ merged, merge files = .ok merged) ↔ (functionNames files).Nodup := by
  constructor
  · rintro ⟨merged, hmerged⟩
    by_contra hnot
    obtain ⟨name, first, second, hfirst⟩ := exists_firstRedefinition hnot
    rw [merge_of_firstRedefinition hfirst] at hmerged
    cases hmerged
  · intro h
    obtain ⟨merged, hmerged, -⟩ := exists_merge_of_nodup h
    exact ⟨merged, hmerged⟩

/-- Merging answers the file that holds the functions one behind the other and the structs over one
another, and it answers it whenever there is such a file. -/
theorem merge_eq_ok_iff : merge files = .ok merged ↔ merged.IsMergeOf files := by
  have hmerge : ∀ {merged}, merge files = .ok merged → merged.IsMergeOf files := by
    intro merged h
    obtain ⟨other, hother, hfunctions⟩ := exists_merge_of_nodup (exists_merge_iff.mp ⟨merged, h⟩)
    rw [h] at hother
    cases hother
    exact ⟨fileID_of_merge h, hfunctions, structs_of_merge h⟩
  constructor
  · exact hmerge
  · intro h
    have hnodup : (functionNames files).Nodup := by
      rw [← map_fst_functionEntries, ← h.functions]
      exact merged.functions.nodup
    obtain ⟨other, hother, -⟩ := exists_merge_of_nodup hnodup
    rw [hother, (hmerge hother).unique h]

/-- Merging refuses files for the first function that is defined again, and for nothing else. -/
theorem merge_eq_error_iff {e : Diagnostic} :
    merge files = .error e ↔ ∃ name firstFileID secondFileID,
      FirstRedefinition files name firstFileID secondFileID ∧
        e = .redefined name firstFileID secondFileID := by
  constructor
  · intro h
    have hnot : ¬ (functionNames files).Nodup := by
      rw [← exists_merge_iff]
      rintro ⟨merged, hmerged⟩
      rw [h] at hmerged
      cases hmerged
    obtain ⟨name, first, second, hfirst⟩ := exists_firstRedefinition hnot
    rw [merge_of_firstRedefinition hfirst] at h
    cases h
    exact ⟨name, first, second, hfirst, rfl⟩
  · rintro ⟨name, first, second, hfirst, rfl⟩
    exact merge_of_firstRedefinition hfirst

/-! ## What merged files hold -/

/-- A merged file has the summaries that the files have. -/
theorem IsMergeOf.find?_functions_eq_some_iff (h : merged.IsMergeOf files) (name : String)
    (summary : FunctionSummary) :
    merged.functions.find? name = some summary ↔
      ∃ file ∈ files, file.functions.find? name = some summary := by
  rw [Table.find?_eq_some_iff, h.functions, functionEntries, List.mem_flatMap]
  simp only [Table.find?_eq_some_iff]

/-- Structs are listed where their names first come up in the files. -/
theorem IsMergeOf.names_structs (h : merged.IsMergeOf files) :
    merged.structs.names = (files.flatMap (·.structs.names)).eraseDups := by
  rw [h.structs, Table.names_foldl_overlay, List.flatMap_map]
  rfl

/-- The layout of a struct is the one in the last file that has it. -/
theorem IsMergeOf.find?_structs_eq_some_iff (h : merged.IsMergeOf files) (name : String)
    (fields : List StructField) :
    merged.structs.find? name = some fields ↔
      ∃ before file behind, files = before ++ file :: behind ∧
        file.structs.find? name = some fields ∧ ∀ later ∈ behind, name ∉ later.structs.names := by
  rw [h.structs, Table.find?_foldl_overlay_eq_some_iff]
  constructor
  · rintro ⟨before, table, behind, hsplit, htable, hbehind⟩
    obtain ⟨first, rest, rfl, rfl, hrest⟩ := List.map_eq_append_iff.mp hsplit
    obtain ⟨file, last, rfl, rfl, rfl⟩ := List.map_eq_cons_iff.mp hrest
    exact ⟨first, file, last, rfl, htable, fun later hlater =>
      hbehind later.structs (List.mem_map_of_mem hlater)⟩
  · rintro ⟨before, file, behind, rfl, hfile, hbehind⟩
    exact ⟨before.map (·.structs), file.structs, behind.map (·.structs), by simp, hfile,
      List.forall_mem_map.mpr hbehind⟩

/-! ## Groups and orders of files -/

/-- The functions of two groups of files stand behind one another. -/
theorem functionEntries_append (files more : List SummaryFile) :
    functionEntries (files ++ more) = functionEntries files ++ functionEntries more :=
  List.flatMap_append

/-- The merge of two groups of files is the merge of their merges. -/
theorem isMergeOf_append_iff {a b : SummaryFile} (hleft : left ≠ []) (hright : right ≠ [])
    (ha : a.IsMergeOf left) (hb : b.IsMergeOf right) :
    merged.IsMergeOf (left ++ right) ↔ merged.IsMergeOf [a, b] := by
  have hfileID : ",".intercalate ((left ++ right).map (·.fileID)) =
      ",".intercalate ([a, b].map (·.fileID)) := by
    rw [List.map_append, String.intercalate_append_of_ne_nil (by simpa using hleft)
      (by simpa using hright), ← ha.fileID, ← hb.fileID]
    simp
  have hfunctions : functionEntries (left ++ right) = functionEntries [a, b] := by
    rw [functionEntries_append, ← ha.functions, ← hb.functions]
    simp [functionEntries]
  have hstructs : ((left ++ right).map (·.structs)).foldl Table.overlay .empty =
      ([a, b].map (·.structs)).foldl Table.overlay .empty := by
    rw [List.map_append, List.foldl_append, Table.foldl_overlay (right.map _), ← ha.structs,
      ← hb.structs, List.map_cons, List.map_cons, List.map_nil, List.foldl_cons, List.foldl_cons,
      List.foldl_nil, Table.empty_overlay]
  constructor
  · intro h
    exact ⟨h.fileID.trans hfileID, h.functions.trans hfunctions, h.structs.trans hstructs⟩
  · intro h
    exact ⟨h.fileID.trans hfileID.symm, h.functions.trans hfunctions.symm,
      h.structs.trans hstructs.symm⟩

/-- Files can be merged in two groups exactly if they can be merged at once, and with the same
result. -/
theorem merge_append_eq_ok_iff (hleft : left ≠ []) (hright : right ≠ []) :
    merge (left ++ right) = .ok merged ↔
      ∃ a b, merge left = .ok a ∧ merge right = .ok b ∧ merge [a, b] = .ok merged := by
  constructor
  · intro h
    have hnodup := exists_merge_iff.mp ⟨merged, h⟩
    rw [functionNames_append, List.nodup_append] at hnodup
    obtain ⟨a, ha⟩ := exists_merge_iff.mpr hnodup.1
    obtain ⟨b, hb⟩ := exists_merge_iff.mpr hnodup.2.1
    refine ⟨a, b, ha, hb, ?_⟩
    rw [merge_eq_ok_iff] at h ha hb ⊢
    exact (isMergeOf_append_iff hleft hright ha hb).mp h
  · rintro ⟨a, b, ha, hb, h⟩
    rw [merge_eq_ok_iff] at h ha hb ⊢
    exact (isMergeOf_append_iff hleft hright ha hb).mpr h

section

variable {others : List SummaryFile} {other : SummaryFile}

/-- Reordering files reorders the names of their functions. -/
theorem functionNames_perm (h : files.Perm others) :
    (functionNames files).Perm (functionNames others) :=
  h.flatMap_right _

/-- The order of the files does not matter for what is found in them. -/
theorem IsMergeOf.find?_functions_of_perm (hmerged : merged.IsMergeOf files)
    (hother : other.IsMergeOf others) (h : files.Perm others) (name : String) :
    other.functions.find? name = merged.functions.find? name := by
  refine Option.ext fun summary => ?_
  rw [hother.find?_functions_eq_some_iff, hmerged.find?_functions_eq_some_iff]
  exact exists_congr fun file => and_congr_left fun _ => h.mem_iff.symm

end

end SummaryFile

/-- Files can be merged exactly when no two of them define one function. The merged file lists the
functions of the files one behind the other. It lists the structs in the order in which their names
first come up, each with the layout of the last file that has it. A refusal names the first function
that is defined again, the file that has defined it and the one that does so again. Two groups of
files can be merged first. In another order the files have the same functions, and every
instantiation and check of the merged functions comes out the same. -/
theorem merging_keeps_all_functions (files : List SummaryFile) :
    ((∃ merged, SummaryFile.merge files = .ok merged) ↔
      files.Pairwise fun first second =>
        List.Disjoint first.functions.names second.functions.names) ∧
    (∀ merged, SummaryFile.merge files = .ok merged →
      merged.functions.entries = files.flatMap (·.functions.entries) ∧
      (∀ name summary, merged.functions.find? name = some summary ↔
        ∃ file ∈ files, file.functions.find? name = some summary) ∧
      merged.structs.names = (files.flatMap (·.structs.names)).eraseDups ∧
      (∀ name fields, merged.structs.find? name = some fields ↔
        ∃ before file behind, files = before ++ file :: behind ∧
          file.structs.find? name = some fields ∧
          ∀ later ∈ behind, name ∉ later.structs.names) ∧
      merged.fileID = ",".intercalate (files.map (·.fileID))) ∧
    (∀ e, SummaryFile.merge files = .error e ↔ ∃ name firstFileID secondFileID,
      SummaryFile.FirstRedefinition files name firstFileID secondFileID ∧
        e = .redefined name firstFileID secondFileID) ∧
    (∀ left right, left ≠ [] → right ≠ [] → files = left ++ right → ∀ merged,
      SummaryFile.merge files = .ok merged ↔ ∃ a b, SummaryFile.merge left = .ok a ∧
        SummaryFile.merge right = .ok b ∧ SummaryFile.merge [a, b] = .ok merged) ∧
    ∀ others, files.Perm others →
      ((∃ merged, SummaryFile.merge files = .ok merged) ↔
        ∃ other, SummaryFile.merge others = .ok other) ∧
      ∀ merged other, SummaryFile.merge files = .ok merged →
        SummaryFile.merge others = .ok other →
        (∀ name, other.functions.find? name = merged.functions.find? name) ∧
        ∀ entry, check other.functions entry = check merged.functions entry ∧
          ∀ naming, instantiate other.functions entry naming =
            instantiate merged.functions entry naming := by
  refine ⟨?_, ?_, fun e => SummaryFile.merge_eq_error_iff, ?_, ?_⟩
  · rw [SummaryFile.exists_merge_iff, SummaryFile.nodup_functionNames_iff]
  · intro merged h
    rw [SummaryFile.merge_eq_ok_iff] at h
    exact ⟨h.functions, h.find?_functions_eq_some_iff, h.names_structs,
      h.find?_structs_eq_some_iff, h.fileID⟩
  · rintro left right hleft hright rfl merged
    exact SummaryFile.merge_append_eq_ok_iff hleft hright
  · intro others hperm
    refine ⟨?_, fun merged other hmerged hother => ?_⟩
    · rw [SummaryFile.exists_merge_iff, SummaryFile.exists_merge_iff]
      exact (SummaryFile.functionNames_perm hperm).nodup_iff
    · rw [SummaryFile.merge_eq_ok_iff] at hmerged hother
      have hfind := hmerged.find?_functions_of_perm hother hperm
      exact ⟨hfind, fun entry => ⟨check_congr hfind entry, instantiate_congr hfind entry⟩⟩

end SummaryInlining
