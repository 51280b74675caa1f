import Mathlib.Data.List.Dedup
import Mathlib.Data.List.Induction
import SummaryInlining.Analyzer
import SummaryInlining.Proofs.Runs

/-!
# What an analyzer has been told

A history keeps what the operations on an analyzer have declared and analyzed, in order, and
nothing else. What an analyzer holds can be read off it: the warnings of a function are those of its
last analysis, its summary is the one that this analysis answered, if it did, and the warnings stand
in the order of the first analyses and the summaries in the order of the last ones
(`Analyzer.Follows`). An abstraction sees the layouts that were last declared.

The main result is about any operations from a new analyzer on, with any abstractor that acts on a
world of its own.
-/

set_option autoImplicit false

namespace SummaryInlining

/-! ## Names without repetition -/

/-- The name that comes last is the last one, and its earlier places count no more. -/
theorem dedup_append_singleton (names : List String) (name : String) :
    (names ++ [name]).dedup = names.dedup.filter (fun other => other ≠ name) ++ [name] := by
  induction names with
  | nil => rfl
  | cons first rest ih =>
    by_cases hlater : first ∈ rest
    · rw [List.cons_append, List.dedup_cons_of_mem (List.mem_append_left _ hlater),
        List.dedup_cons_of_mem hlater, ih]
    · by_cases hsame : first = name
      · rw [List.cons_append, List.dedup_cons_of_mem (by simp [hsame]),
          List.dedup_cons_of_notMem hlater, ih, List.filter_cons_of_neg (by simp [hsame])]
      · rw [List.cons_append, List.dedup_cons_of_notMem (by simp [hlater, hsame]),
          List.dedup_cons_of_notMem hlater, ih, List.filter_cons_of_pos (by simp [hsame])]
        rfl

/-! ## The history -/

namespace Analyzer

/-- An operation on an analyzer of functions of the type `F`. -/
inductive Operation (F : Type) where
  | declareStruct (name : String) (fields : List StructField)
  | analyze (f : F)
  /-- Analyzes functions up to the first one that fails. -/
  | analyzeModule (fs : List F)
  | check (entry : String)

/-- What an operation answers, or throws. -/
inductive Answer (ε : Type) where
  | done
  | analyzed (outcome : Except ε Unit)
  | checked (result : Except ArityMismatch CheckResult)

/-- The abstraction of one function. -/
structure Analysis (ε : Type) where
  name : String
  /-- The warnings raised, in order. -/
  warnings : List Warning
  outcome : Except ε FunctionSummary

/-- The summary that an abstraction answered, if it did. -/
def Analysis.summary? {ε : Type} (analysis : Analysis ε) : Option FunctionSummary :=
  analysis.outcome.toOption

/-- What has been declared and analyzed, in order. -/
structure History (ε : Type) where
  declarations : List (String × List StructField)
  analyses : List (Analysis ε)

namespace History

variable {ε : Type}

def empty : History ε := ⟨[], []⟩

/-- The names of the analyzed functions, one for each analysis. -/
def names (history : History ε) : List String := history.analyses.map (·.name)

/-- The last analysis of a function. -/
def last? (history : History ε) (name : String) : Option (Analysis ε) :=
  history.analyses.reverse.find? fun analysis => analysis.name = name

/-- The summary that the last analysis of a function answered. -/
def summary? (history : History ε) (name : String) : Option FunctionSummary :=
  (history.last? name).bind (·.summary?)

/-- The last declared layout of a struct. -/
def layout? (history : History ε) (name : String) : Option (List StructField) :=
  (history.declarations.reverse.find? fun declaration => declaration.1 = name).map (·.2)

/-- The layouts of the structs declared so far. -/
def types (history : History ε) : TypeEnvironment := .ofList history.declarations

/-- The summaries of the functions whose last analysis answered one. -/
def environment (history : History ε) : Environment :=
  .ofList (history.names.dedup.filterMap fun name => (history.summary? name).map (name, ·))

def add (history : History ε) (analysis : Analysis ε) : History ε :=
  { history with analyses := history.analyses ++ [analysis] }

variable {σ F : Type}

/-- Abstracts a function with the layouts declared so far. -/
def analyze (abstractor : Abstractor (StateM σ) F ε) (f : F) (history : History ε) :
    StateM σ (Except ε Unit × History ε) := do
  let (warnings, outcome) ← abstractor.abstract history.types f
  return (outcome.map fun _ => (), history.add ⟨abstractor.nameOf f, warnings, outcome⟩)

/-- Abstracts functions one after the other, up to the first one that fails. -/
def analyzeModule (abstractor : Abstractor (StateM σ) F ε) :
    List F → History ε → StateM σ (Except ε Unit × History ε)
  | [], history => pure (.ok (), history)
  | f :: rest, history => do
    match ← history.analyze abstractor f with
    | (.ok (), after) => analyzeModule abstractor rest after
    | (.error e, after) => return (.error e, after)

end History

section

variable {σ F ε : Type}

/-- An operation on an analyzer: its answer, and the analyzer after it. -/
def Operation.perform (abstractor : Abstractor (StateM σ) F ε) (operation : Operation F)
    (analyzer : Analyzer) : StateM σ (Answer ε × Analyzer) :=
  match operation with
  | .declareStruct name fields => pure (.done, analyzer.declareStruct name fields)
  | .analyze f => do
    let (outcome, after) ← analyzer.analyze abstractor f
    return (.analyzed outcome, after)
  | .analyzeModule fs => do
    let (outcome, after) ← analyzer.analyzeModule abstractor fs
    return (.analyzed outcome, after)
  | .check entry => pure (.checked (analyzer.check entry), analyzer)

/-- An operation in the history: its answer, and the history after it. -/
def Operation.log (abstractor : Abstractor (StateM σ) F ε) (operation : Operation F)
    (history : History ε) : StateM σ (Answer ε × History ε) :=
  match operation with
  | .declareStruct name fields =>
    pure (.done, { history with declarations := history.declarations ++ [(name, fields)] })
  | .analyze f => do
    let (outcome, after) ← history.analyze abstractor f
    return (.analyzed outcome, after)
  | .analyzeModule fs => do
    let (outcome, after) ← history.analyzeModule abstractor fs
    return (.analyzed outcome, after)
  | .check entry => pure (.checked (SummaryInlining.check history.environment entry), history)

end

/-- An analyzer holds what its history says. -/
structure Follows {ε : Type} (analyzer : Analyzer) (history : History ε) : Prop where
  /-- The warnings of a function are those of its last analysis. -/
  warnings : ∀ name, analyzer.warnings.find? name = (history.last? name).map (·.warnings)
  /-- The summary of a function is the one that its last analysis answered. -/
  environment : ∀ name, analyzer.environment.find? name = history.summary? name
  /-- Warnings stand in the order of the first analyses. -/
  warningsOrder : analyzer.warnings.names = history.names.eraseDups
  /-- Summaries stand in the order of the last analyses. -/
  environmentOrder : analyzer.environment.names =
    history.names.dedup.filter fun name => (history.summary? name).isSome
  types : analyzer.types = history.types

namespace Follows

variable {ε : Type} {analyzer : Analyzer} {history : History ε}

/-- The environment is the one that the history says. -/
theorem environment_eq (h : analyzer.Follows history) :
    analyzer.environment = history.environment := by
  have hentries : history.names.dedup.filterMap
      (fun name => (history.summary? name).map (name, ·)) = analyzer.environment.entries := by
    rw [Table.entries_eq_filterMap, h.environmentOrder, List.filterMap_filter]
    refine List.filterMap_congr fun name _ => ?_
    rw [h.environment]
    cases history.summary? name <;> rfl
  rw [History.environment, hentries, Table.ofList_of_nodup analyzer.environment.nodup]

/-- A new analyzer holds what the empty history says. -/
theorem new : Analyzer.new.Follows (History.empty : History ε) where
  warnings _ := rfl
  environment _ := rfl
  warningsOrder := rfl
  environmentOrder := rfl
  types := rfl

end Follows

/-- The last analysis of a function is the added one, if it is of this function. -/
theorem History.last?_add {ε : Type} (history : History ε) (analysis : Analysis ε)
    (name : String) :
    (history.add analysis).last? name =
      if analysis.name = name then some analysis else history.last? name := by
  rw [History.last?, History.add, List.reverse_append, List.reverse_singleton,
    List.singleton_append, List.find?_cons]
  by_cases h : analysis.name = name
  · simp [h]
  · simp [h, History.last?]

/-- The summary of a function is that of the added analysis, if it is of this function. -/
theorem History.summary?_add {ε : Type} (history : History ε) (analysis : Analysis ε)
    (name : String) :
    (history.add analysis).summary? name =
      if analysis.name = name then analysis.summary? else history.summary? name := by
  rw [History.summary?, History.last?_add, History.summary?]
  by_cases h : analysis.name = name
  · rw [if_pos h, if_pos h, Option.bind_some]
  · rw [if_neg h, if_neg h]

/-- The name of an added analysis comes last. -/
theorem History.names_add {ε : Type} (history : History ε) (analysis : Analysis ε) :
    (history.add analysis).names = history.names ++ [analysis.name] := by
  simp [History.names, History.add]

/-- The environment after a function was abstracted. -/
theorem environment_record {ε : Type} (analyzer : Analyzer) (analysis : Analysis ε) :
    (analyzer.record analysis.name analysis.warnings analysis.outcome).environment =
      match analysis.summary? with
      | some summary => (analyzer.environment.erase analysis.name).insert analysis.name summary
      | none => analyzer.environment.erase analysis.name := by
  unfold record Analysis.summary?
  cases analysis.outcome <;> rfl

/-- Recording an analysis adds it to the history. -/
theorem Follows.record {ε : Type} {analyzer : Analyzer} {history : History ε}
    (h : analyzer.Follows history) (analysis : Analysis ε) :
    (analyzer.record analysis.name analysis.warnings analysis.outcome).Follows
      (history.add analysis) where
  warnings name := by
    rw [History.last?_add]
    by_cases hname : analysis.name = name
    · rw [if_pos hname, ← hname]
      exact Table.find?_insert_self ..
    · rw [if_neg hname, ← h.warnings name]
      exact Table.find?_insert_of_ne _ _ fun he => hname he.symm
  environment name := by
    rw [environment_record, History.summary?_add]
    by_cases hname : analysis.name = name
    · rw [if_pos hname, ← hname]
      cases analysis.summary? with
      | none => exact Table.find?_erase_self ..
      | some summary => exact Table.find?_insert_self ..
    · have hne : name ≠ analysis.name := fun he => hname he.symm
      rw [if_neg hname]
      refine Eq.trans ?_ (h.environment name)
      cases analysis.summary? with
      | none => exact Table.find?_erase_of_ne _ hne
      | some summary =>
        exact (Table.find?_insert_of_ne _ _ hne).trans (Table.find?_erase_of_ne _ hne)
  warningsOrder := by
    have hmem : analysis.name ∈ history.names ↔ analysis.name ∈ analyzer.warnings.names := by
      rw [h.warningsOrder, List.mem_eraseDups]
    rw [History.names_add, eraseDups_append_singleton, ← h.warningsOrder]
    simp only [hmem]
    exact Table.names_insert ..
  environmentOrder := by
    -- the other modules keep their places, and the module itself goes to the end
    have hkept : (history.names.dedup.filter fun other => other ≠ analysis.name).filter
        (fun name => ((history.add analysis).summary? name).isSome) =
        (analyzer.environment.erase analysis.name).names := by
      rw [Table.names_erase, h.environmentOrder]
      refine (List.filter_congr fun name hname => ?_).trans (List.filter_comm ..)
      have hne : ¬ analysis.name = name := by
        have hother := (List.mem_filter.mp hname).2
        exact fun he => by simp [he] at hother
      rw [History.summary?_add, if_neg hne]
    rw [environment_record, History.names_add, dedup_append_singleton, List.filter_append, hkept]
    cases hsummary : analysis.summary? with
    | none => simp [History.summary?_add, hsummary]
    | some summary =>
      have hnew : analysis.name ∉ (analyzer.environment.erase analysis.name).names :=
        (Table.find?_eq_none_iff _ _).mp (Table.find?_erase_self _ _)
      rw [Table.names_insert, if_neg hnew]
      simp [History.summary?_add, hsummary]
  types := h.types

/-- A layout that is declared last is the last one. -/
theorem History.find?_types {ε : Type} (history : History ε) (name : String) :
    history.types.find? name = history.layout? name := by
  obtain ⟨declarations, analyses⟩ := history
  unfold History.types History.layout?
  induction declarations using List.reverseRecOn with
  | nil => rfl
  | append_singleton declarations declaration ih =>
    rw [Table.ofList, List.foldl_append, ← Table.ofList, List.reverse_append,
      List.reverse_singleton, List.singleton_append, List.find?_cons]
    by_cases hname : declaration.1 = name
    · rw [← hname]
      simp
    · simp only [List.foldl_cons, List.foldl_nil, hname, decide_false]
      rw [Table.find?_insert_of_ne _ _ fun he => hname he.symm]
      exact ih

section

variable {σ F ε : Type} (abstractor : Abstractor (StateM σ) F ε) {analyzer : Analyzer}
  {history : History ε}

/-- Analyzing a function has the same outcome and the same effect on the world for an analyzer and
its history. -/
theorem follows_analyze (h : analyzer.Follows history) (f : F) :
    SameEffect Follows (analyzer.analyze abstractor f) (history.analyze abstractor f) := by
  unfold Analyzer.analyze History.analyze
  rw [h.types]
  intro world
  cases habstract : (abstractor.abstract history.types f).run world with
  | mk abstracted after =>
    obtain ⟨warnings, outcome⟩ := abstracted
    refine ⟨outcome.map fun _ => (), _, _, after, run_bind habstract, run_bind habstract, ?_⟩
    exact h.record ⟨abstractor.nameOf f, warnings, outcome⟩

/-- Analyzing a module has the same outcome and the same effect on the world for an analyzer and its
history. -/
theorem follows_analyzeModule (h : analyzer.Follows history) (fs : List F) :
    SameEffect Follows (analyzer.analyzeModule abstractor fs)
      (history.analyzeModule abstractor fs) := by
  induction fs generalizing analyzer history with
  | nil => exact sameEffect_pure _ h
  | cons f rest ih =>
    refine (follows_analyze abstractor h f).bind fun outcome s t hrelated => ?_
    cases outcome with
    | ok done => exact ih hrelated
    | error e => exact sameEffect_pure _ hrelated

/-- An operation has the same answer and the same effect on the world, and leaves an analyzer that
holds what the history says. -/
theorem follows_perform (operation : Operation F) (h : analyzer.Follows history) :
    SameEffect Follows (operation.perform abstractor analyzer)
      (operation.log abstractor history) := by
  cases operation with
  | declareStruct name fields =>
    have htypes : (analyzer.declareStruct name fields).types =
        ({ history with declarations := history.declarations ++ [(name, fields)] } :
          History ε).types := by
      rw [History.types, Table.ofList, List.foldl_append, ← Table.ofList]
      exact congrArg (fun types => types.insert name fields) h.types
    exact sameEffect_pure Answer.done
      ⟨h.warnings, h.environment, h.warningsOrder, h.environmentOrder, htypes⟩
  | analyze f =>
    exact (follows_analyze abstractor h f).bind fun outcome s t hrelated =>
      sameEffect_pure (Answer.analyzed outcome) hrelated
  | analyzeModule fs =>
    exact (follows_analyzeModule abstractor h fs).bind fun outcome s t hrelated =>
      sameEffect_pure (Answer.analyzed outcome) hrelated
  | check entry =>
    unfold Operation.perform Operation.log Analyzer.check
    rw [h.environment_eq]
    exact sameEffect_pure _ h

end

/-- These functions were analyzed in order, up to the first one that failed. -/
inductive AnalyzedUpToFailure {F ε : Type} (nameOf : F → String) :
    List F → List (Analysis ε) → Except ε Unit → Prop where
  | nil : AnalyzedUpToFailure nameOf [] [] (.ok ())
  | returned {f : F} {rest : List F} {warnings : List Warning} {summary : FunctionSummary}
    {analyses : List (Analysis ε)} {outcome : Except ε Unit}
    (h : AnalyzedUpToFailure nameOf rest analyses outcome) :
    AnalyzedUpToFailure nameOf (f :: rest) (⟨nameOf f, warnings, .ok summary⟩ :: analyses) outcome
  | failed {f : F} {rest : List F} {warnings : List Warning} {e : ε} :
    AnalyzedUpToFailure nameOf (f :: rest) [⟨nameOf f, warnings, .error e⟩] (.error e)

/-- Analyzing a module adds the analyses of its functions to the history, up to the first one that
fails. -/
theorem History.run_analyzeModule {σ F ε : Type} (abstractor : Abstractor (StateM σ) F ε)
    (fs : List F) (history : History ε) (world : σ) :
    ∃ analyses outcome after, (history.analyzeModule abstractor fs).run world =
        ((outcome, { history with analyses := history.analyses ++ analyses }), after) ∧
      AnalyzedUpToFailure abstractor.nameOf fs analyses outcome := by
  induction fs generalizing history world with
  | nil =>
    refine ⟨[], .ok (), world, ?_, .nil⟩
    rw [List.append_nil]
    rfl
  | cons f rest ih =>
    cases habstract : (abstractor.abstract history.types f).run world with
    | mk abstracted between =>
      obtain ⟨warnings, outcome⟩ := abstracted
      have hanalyze : (history.analyze abstractor f).run world =
          ((outcome.map fun _ => (), history.add ⟨abstractor.nameOf f, warnings, outcome⟩),
            between) := run_bind habstract
      cases outcome with
      | error e =>
        refine ⟨[⟨abstractor.nameOf f, warnings, .error e⟩], .error e, between, ?_, .failed⟩
        exact run_bind hanalyze
      | ok summary =>
        obtain ⟨analyses, outcome, after, hrest, hanalyzed⟩ :=
          ih (history.add ⟨abstractor.nameOf f, warnings, .ok summary⟩) between
        refine ⟨⟨abstractor.nameOf f, warnings, .ok summary⟩ :: analyses, outcome, after, ?_,
          .returned hanalyzed⟩
        refine (run_bind hanalyze).trans (hrest.trans ?_)
        simp [History.add]

/-- Operations on a new analyzer, with any abstractor. The analyzer answers and fails, and lets the
abstractor act on the world, as the history of the operations does, where every abstraction sees the
layouts that were last declared; and it holds what the history says. A module is analyzed up to the
first function that fails. A check changes nothing, and is the instantiation with new numbers
together with the warnings about unresolved assertions in it. -/
theorem analyzer_follows_history {σ F ε : Type} (abstractor : Abstractor (StateM σ) F ε)
    (operations : List (Operation F)) (world : σ) :
    ∃ answers analyzer history after,
      (runAll (Operation.perform abstractor) operations .new).run world =
        ((answers, analyzer), after) ∧
      (runAll (Operation.log abstractor) operations .empty).run world =
        ((answers, history), after) ∧
      analyzer.Follows history ∧
      (∀ name, history.types.find? name = history.layout? name) ∧
      (∀ (fs : List F) (world : σ), ∃ analyses outcome after,
        ((Operation.analyzeModule fs).log abstractor history).run world =
          ((.analyzed outcome, { history with analyses := history.analyses ++ analyses }), after) ∧
        AnalyzedUpToFailure abstractor.nameOf fs analyses outcome) ∧
      ∀ (entry : String) (world : σ),
        ∃ result, ((Operation.check entry).perform abstractor analyzer).run world =
          ((.checked result, analyzer), world) ∧
        match instantiate analyzer.environment entry .new with
        | (.ok (), session) =>
          result = .ok ⟨session.constraints.toList,
            unresolvedAsserts (session.constraints.toList.map .require)⟩
        | (.error e, _) => result = .error e := by
  obtain ⟨answers, analyzer, history, after, hrun, hlog, hfollows⟩ :=
    sameEffect_runAll (fun operation _ _ => follows_perform abstractor operation) operations
      Follows.new world
  refine ⟨answers, analyzer, history, after, hrun, hlog, hfollows, history.find?_types, ?_, ?_⟩
  · intro fs world
    obtain ⟨analyses, outcome, after, hmodule, hanalyzed⟩ :=
      History.run_analyzeModule abstractor fs history world
    exact ⟨analyses, outcome, after, run_bind hmodule, hanalyzed⟩
  · intro entry world
    refine ⟨analyzer.check entry, rfl, ?_⟩
    unfold Analyzer.check SummaryInlining.check
    cases hinstantiate : instantiate analyzer.environment entry .new with
    | mk outcome session =>
      cases outcome with
      | ok done => rfl
      | error e => rfl

end Analyzer

end SummaryInlining
