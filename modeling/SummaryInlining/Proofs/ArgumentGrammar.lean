import SummaryInlining.Proofs.CommandOutcome

/-!
# The grammar of command lines

Behind its name a command takes an entry function, unless it is `show`, then options, and behind
a dash the paths of summary files. `Arguments.WellFormed` says this without saying how a command
line is read, `Arguments.Means` says which command such arguments stand for, and `Faulty` lists what
else can stand on a command line, in the order in which it is reported.

Reading options goes through them one after the other (`parse_append`), and every list of arguments
begins with some options, behind which stands nothing or an argument that is no option
(`exists_options`). What stands there decides between the three faults of the options and success.
Both readings, of well-formed arguments and of faulty ones, are therefore exact
(`parse_eq_ok_iff`, `parse_eq_error_iff`), and the dash, which is no option, makes the reading of
well-formed arguments unique (`Arguments.WellFormed.unique`).
-/

set_option autoImplicit false

namespace SummaryInlining

namespace CommandLine

/-! ## Options -/

/-- The argument asks for details, or for a trace that is written to some path. -/
def IsOption (arg : String) : Prop := arg = verboseOption ∨ ∃ path, arg = traceOption ++ path

/-- The argument cannot be the name of an entry function. -/
def Reserved (arg : String) : Prop := arg = dash ∨ ∃ rest, arg = "--" ++ rest

/-- A text begins with the letters of another one if it is that text with more behind it. -/
theorem isPrefixOf_toList_iff (front arg : String) :
    front.toList.isPrefixOf arg.toList = true ↔ ∃ rest, arg = front ++ rest := by
  rw [List.isPrefixOf_iff_prefix]
  constructor
  · rintro ⟨rest, hrest⟩
    refine ⟨String.ofList rest, String.toList_inj.mp ?_⟩
    rw [String.toList_append, String.toList_ofList, hrest]
  · rintro ⟨rest, rfl⟩
    rw [String.toList_append]
    exact List.prefix_append _ _

/-- The check of the name of an entry function refuses exactly the reserved arguments. -/
theorem isReserved_iff (arg : String) : isReserved arg = true ↔ Reserved arg := by
  rw [isReserved, Bool.or_eq_true, decide_eq_true_eq, isPrefixOf_toList_iff, Reserved]

/-- The path of a trace is what stands behind the option that asks for it. -/
theorem tracePath?_eq_some_iff (arg path : String) :
    tracePath? arg = some path ↔ arg = traceOption ++ path := by
  unfold tracePath?
  split
  · next hfront =>
    obtain ⟨rest, rfl⟩ := (isPrefixOf_toList_iff _ _).mp hfront
    rw [String.toList_append, List.drop_left, String.ofList_toList, Option.some.injEq,
      String.append_right_inj]
  · next hfront =>
    rw [isPrefixOf_toList_iff] at hfront
    constructor
    · intro h
      cases h
    · intro h
      exact absurd ⟨path, h⟩ hfront

/-- An argument asks for no trace exactly if it is not the trace option with a path behind it. -/
theorem tracePath?_eq_none_iff (arg : String) :
    tracePath? arg = none ↔ ∀ path, arg ≠ traceOption ++ path := by
  rw [Option.eq_none_iff_forall_ne_some]
  simp only [ne_eq, tracePath?_eq_some_iff]

/-- The option for details asks for no trace. -/
theorem tracePath?_verboseOption : tracePath? verboseOption = none := by decide +kernel

/-- The dash asks for no trace. -/
theorem tracePath?_dash : tracePath? dash = none := by decide +kernel

/-- The path that the last request for a trace asks for. -/
def lastTracePath? (options : List String) : Option String := options.reverse.findSome? tracePath?

/-- An option counts for the trace where none of those behind it does. -/
theorem lastTracePath?_cons (arg : String) (options : List String) :
    lastTracePath? (arg :: options) = (lastTracePath? options).or (tracePath? arg) := by
  rw [lastTracePath?, List.reverse_cons, List.findSome?_append, List.findSome?_singleton]
  rfl

/-- The path of the trace is that of a trace option with no other one behind it. -/
theorem lastTracePath?_eq_some_iff (options : List String) (path : String) :
    lastTracePath? options = some path ↔
      ∃ before behind, options = before ++ (traceOption ++ path) :: behind ∧
        ∀ arg ∈ behind, ∀ other, arg ≠ traceOption ++ other := by
  rw [lastTracePath?, findSome?_reverse_eq_some_iff]
  constructor
  · rintro ⟨before, arg, behind, hsplit, harg, hbehind⟩
    rw [tracePath?_eq_some_iff] at harg
    exact ⟨before, behind, harg ▸ hsplit, fun other hother =>
      (tracePath?_eq_none_iff other).mp (hbehind other hother)⟩
  · rintro ⟨before, behind, hsplit, hbehind⟩
    exact ⟨before, traceOption ++ path, behind, hsplit, (tracePath?_eq_some_iff _ _).mpr rfl,
      fun other hother => (tracePath?_eq_none_iff other).mpr (hbehind other hother)⟩

/-! ## Reading options -/

/-- The dash is no option. -/
theorem not_isOption_dash : ¬ IsOption dash := by
  rintro (h | ⟨path, h⟩)
  · revert h
    decide
  · rw [← tracePath?_eq_some_iff, tracePath?_dash] at h
    cases h

/-- An option is remembered, and what stands behind it is read. -/
theorem parse_cons_of_isOption {arg : String} (h : IsOption arg) (tracePath : Option String)
    (verbose : Bool) (rest : List String) :
    Options.parse tracePath verbose (arg :: rest) =
      Options.parse ((tracePath? arg).or tracePath) (verbose || arg == verboseOption) rest := by
  have hdash : arg ≠ dash := fun heq => not_isOption_dash (heq ▸ h)
  rw [Options.parse, if_neg hdash]
  obtain rfl | ⟨path, rfl⟩ := h
  · rw [tracePath?_verboseOption]
    simp
  · have hpath := (tracePath?_eq_some_iff (traceOption ++ path) path).mpr rfl
    have hverbose : traceOption ++ path ≠ verboseOption := by
      intro heq
      rw [heq, tracePath?_verboseOption] at hpath
      cases hpath
    rw [hpath, beq_false_of_ne hverbose, Bool.or_false]
    rfl

/-- Options are read one after the other. -/
theorem parse_append {options : List String} (h : ∀ arg ∈ options, IsOption arg)
    (tracePath : Option String) (verbose : Bool) (rest : List String) :
    Options.parse tracePath verbose (options ++ rest) =
      Options.parse ((lastTracePath? options).or tracePath)
        (verbose || options.contains verboseOption) rest := by
  induction options generalizing tracePath verbose with
  | nil => simp [lastTracePath?]
  | cons arg options ih =>
    obtain ⟨harg, hrest⟩ := List.forall_mem_cons.mp h
    rw [List.cons_append, parse_cons_of_isOption harg, ih hrest, lastTracePath?_cons,
      Option.or_assoc, List.contains_cons, Bool.or_assoc, Bool.beq_comm]

/-- What the options of a command line say, when these are the paths behind the dash. -/
def optionsOf (options paths : List String) : Options :=
  ⟨lastTracePath? options, options.contains verboseOption, paths⟩

/-- Options, the dash and at least one path are read as what they say. -/
theorem parse_of_paths {options paths : List String} (h : ∀ arg ∈ options, IsOption arg)
    (hpaths : paths ≠ []) :
    Options.parse none false (options ++ dash :: paths) = .ok (optionsOf options paths) := by
  rw [parse_append h, Options.parse, if_pos rfl, if_neg (by simpa using hpaths)]
  simp [optionsOf]

/-- What is wrong with the arguments in the place of the options and the paths. Everything in front
of an unknown option is an option. -/
inductive FaultyOptions : List String → UsageError → Prop where
  | unknown {options behind : List String} {arg : String} (h : ∀ other ∈ options, IsOption other)
    (harg : ¬ IsOption arg) (hdash : arg ≠ dash) :
    FaultyOptions (options ++ arg :: behind) (.unknownOption arg)
  | noDash {options : List String} (h : ∀ other ∈ options, IsOption other) :
    FaultyOptions options .missingDash
  | noPaths {options : List String} (h : ∀ other ∈ options, IsOption other) :
    FaultyOptions (options ++ [dash]) .missingFiles

/-- Faulty options are refused with the error for their fault. -/
theorem FaultyOptions.parse {args : List String} {e : UsageError} (h : FaultyOptions args e) :
    Options.parse none false args = .error e := by
  cases h with
  | @unknown options behind arg h harg hdash =>
    have hpath : tracePath? arg = none := by
      rw [tracePath?_eq_none_iff]
      exact fun path heq => harg (.inr ⟨path, heq⟩)
    rw [parse_append h, Options.parse, if_neg hdash, hpath]
    exact if_neg fun heq => harg (.inl heq)
  | noDash h =>
    rw [← List.append_nil args, parse_append h, Options.parse]
  | noPaths h =>
    rw [parse_append h, Options.parse, if_pos rfl]
    rfl

/-- Arguments begin with some options, behind which stands nothing or no option. -/
theorem exists_options (args : List String) :
    ∃ options rest, args = options ++ rest ∧ (∀ arg ∈ options, IsOption arg) ∧
      ∀ arg ∈ rest.head?, ¬ IsOption arg := by
  induction args with
  | nil => exact ⟨[], [], rfl, by simp, by simp⟩
  | cons arg args ih =>
    by_cases harg : IsOption arg
    · obtain ⟨options, rest, rfl, hoptions, hrest⟩ := ih
      exact ⟨arg :: options, rest, rfl, List.forall_mem_cons.mpr ⟨harg, hoptions⟩, hrest⟩
    · exact ⟨[], arg :: args, rfl, by simp, by simpa using harg⟩

/-- Arguments are options, a dash and paths, or one of the three faults is in them. -/
theorem options_cases (args : List String) :
    (∃ options paths, args = options ++ dash :: paths ∧ (∀ arg ∈ options, IsOption arg) ∧
      paths ≠ []) ∨ ∃ e, FaultyOptions args e := by
  obtain ⟨options, rest, rfl, hoptions, hrest⟩ := exists_options args
  cases rest with
  | nil =>
    rw [List.append_nil]
    exact .inr ⟨_, .noDash hoptions⟩
  | cons arg behind =>
    by_cases hdash : arg = dash
    · subst hdash
      cases behind with
      | nil => exact .inr ⟨_, .noPaths hoptions⟩
      | cons path paths => exact .inl ⟨options, path :: paths, rfl, hoptions, by simp⟩
    · exact .inr ⟨_, .unknown hoptions (hrest arg rfl) hdash⟩

/-! ## Command lines -/

/-- The names of commands. -/
inductive CommandKind where
  | instantiate
  | check
  | show

namespace CommandKind

def name : CommandKind → String
  | instantiate => "instantiate"
  | check => "check"
  | «show» => "show"

/-- Whether the arguments of a command begin with an entry function. -/
def takesEntry : CommandKind → Bool
  | instantiate => true
  | check => true
  | «show» => false

end CommandKind

def Command.kind : Command → CommandKind
  | .instantiate _ _ => .instantiate
  | .check _ _ => .check
  | .show _ => .show

/-- The arguments behind the name of a command, by what they are. -/
@[ext]
structure Arguments where
  entry : Option String
  options : List String
  /-- What stands behind the dash. -/
  paths : List String

namespace Arguments

/-- The arguments one after the other. -/
def line (a : Arguments) : List String := a.entry.toList ++ a.options ++ dash :: a.paths

/-- There is an entry function exactly if the command takes one, and there is at least one path.
What stands behind the dash can be anything, also another dash or what looks like an option. -/
structure WellFormed (a : Arguments) (takesEntry : Bool) : Prop where
  isSome_entry : a.entry.isSome = takesEntry
  not_reserved : ∀ entry ∈ a.entry, ¬ Reserved entry
  isOption : ∀ arg ∈ a.options, IsOption arg
  paths_ne_nil : a.paths ≠ []

/-- What the arguments say about the command that they belong to. -/
structure Means (a : Arguments) (command : Command) : Prop where
  entry : command.entry? = a.entry
  /-- The last option that asks for a trace says where it is written. -/
  tracePath : ∀ path, command.options.tracePath = some path ↔
    ∃ before behind, a.options = before ++ (traceOption ++ path) :: behind ∧
      ∀ arg ∈ behind, ∀ other, arg ≠ traceOption ++ other
  verbose : command.options.verbose = true ↔ verboseOption ∈ a.options
  sourcePaths : command.options.sourcePaths = a.paths

end Arguments

/-- What is wrong with the arguments behind the name of a command. Without a valid entry function
nothing else is looked at. -/
inductive Faulty : Bool → List String → UsageError → Prop where
  | noEntry {args : List String} (h : ∀ entry ∈ args.head?, Reserved entry) :
    Faulty true args .missingEntry
  | behindEntry {entry : String} {rest : List String} {e : UsageError} (hentry : ¬ Reserved entry)
    (h : FaultyOptions rest e) : Faulty true (entry :: rest) e
  | withoutEntry {args : List String} {e : UsageError} (h : FaultyOptions args e) :
    Faulty false args e

/-! ## Reading command lines -/

section

variable {kind : CommandKind} {a b : Arguments} {args : List String} {command : Command}
  {e : UsageError}

/-- A command on an entry function reads the function and then its options. -/
theorem parse_takingEntry (h : kind.takesEntry = true) (args : List String) :
    ∃ command : String → Options → Command, (∀ entry options, (command entry options).kind = kind ∧
      Command.entry? (command entry options) = some entry ∧
        (command entry options).options = options) ∧
      Command.parse (kind.name :: args) =
        (parseWithEntry args).map fun parsed => command parsed.1 parsed.2 := by
  cases kind with
  | instantiate => exact ⟨.instantiate, fun _ _ => ⟨rfl, rfl, rfl⟩, rfl⟩
  | check => exact ⟨.check, fun _ _ => ⟨rfl, rfl, rfl⟩, rfl⟩
  | «show» => cases h

/-- The other command reads its options at once. -/
theorem parse_notTakingEntry (h : kind.takesEntry = false) (args : List String) :
    Command.parse (kind.name :: args) = (Options.parse none false args).map .show := by
  cases kind with
  | instantiate => cases h
  | check => cases h
  | «show» => rfl

/-- Behind the name of an entry function come the options. -/
theorem parseWithEntry_of_not_reserved {entry : String} (h : ¬ Reserved entry)
    (rest : List String) :
    parseWithEntry (entry :: rest) =
      (Options.parse none false rest).map fun options => (entry, options) := by
  rw [parseWithEntry, if_neg (by rwa [isReserved_iff])]

/-- Well-formed arguments are read as what they say. -/
theorem Arguments.WellFormed.parse (h : a.WellFormed kind.takesEntry) :
    ∃ command, Command.parse (kind.name :: a.line) = .ok command ∧ command.kind = kind ∧
      command.entry? = a.entry ∧ command.options = optionsOf a.options a.paths := by
  obtain ⟨entry, options, paths⟩ := a
  have hread := parse_of_paths h.isOption h.paths_ne_nil
  have hsome := h.isSome_entry
  cases htakes : kind.takesEntry with
  | false =>
    rw [htakes, Option.isSome_eq_false_iff, Option.isNone_iff_eq_none] at hsome
    subst hsome
    rw [parse_notTakingEntry htakes]
    refine ⟨.show (optionsOf options paths), ?_, ?_, rfl, rfl⟩
    · exact congrArg (Except.map Command.show) hread
    · cases kind with
      | «show» => rfl
      | _ => cases htakes
  | true =>
    rw [htakes, Option.isSome_iff_exists] at hsome
    obtain ⟨name, rfl⟩ := hsome
    obtain ⟨command, hcommand, hparse⟩ :=
      parse_takingEntry htakes (name :: options ++ dash :: paths)
    obtain ⟨hkind, hentry, hoptions⟩ := hcommand name (optionsOf options paths)
    refine ⟨command name (optionsOf options paths), ?_, hkind, hentry, hoptions⟩
    rw [Arguments.line, Option.toList_some, List.singleton_append, hparse, List.cons_append,
      parseWithEntry_of_not_reserved (h.not_reserved name rfl), hread]
    rfl

/-- Faulty arguments are refused for their fault. -/
theorem Faulty.parse (h : Faulty kind.takesEntry args e) :
    Command.parse (kind.name :: args) = .error e := by
  generalize htakes : kind.takesEntry = takes at h
  cases h with
  | noEntry hreserved =>
    obtain ⟨command, -, hparse⟩ := parse_takingEntry htakes args
    rw [hparse]
    cases args with
    | nil => rfl
    | cons entry rest =>
      rw [parseWithEntry, if_pos ((isReserved_iff entry).mpr (hreserved entry rfl))]
      rfl
  | @behindEntry entry rest e hentry hrest =>
    obtain ⟨command, -, hparse⟩ := parse_takingEntry htakes (entry :: rest)
    rw [hparse, parseWithEntry_of_not_reserved hentry, hrest.parse]
    rfl
  | withoutEntry hargs =>
    rw [parse_notTakingEntry htakes, hargs.parse]
    rfl

/-- The arguments of a command are well-formed or faulty. -/
theorem arguments_cases (takesEntry : Bool) (args : List String) :
    (∃ a : Arguments, a.WellFormed takesEntry ∧ a.line = args) ∨ ∃ e, Faulty takesEntry args e := by
  cases takesEntry with
  | false =>
    rcases options_cases args with ⟨options, paths, rfl, hoptions, hpaths⟩ | ⟨e, he⟩
    · exact .inl ⟨⟨none, options, paths⟩, ⟨rfl, by simp, hoptions, hpaths⟩, rfl⟩
    · exact .inr ⟨e, .withoutEntry he⟩
  | true =>
    by_cases hreserved : ∀ entry ∈ args.head?, Reserved entry
    · exact .inr ⟨_, .noEntry hreserved⟩
    · push Not at hreserved
      obtain ⟨entry, hhead, hentry⟩ := hreserved
      obtain ⟨rest, rfl⟩ := List.head?_eq_some_iff.mp hhead
      rcases options_cases rest with ⟨options, paths, rfl, hoptions, hpaths⟩ | ⟨e, he⟩
      · exact .inl ⟨⟨some entry, options, paths⟩,
          ⟨rfl, by simpa using hentry, hoptions, hpaths⟩, rfl⟩
      · exact .inr ⟨e, .behindEntry hentry he⟩

/-- What arguments say about the options of their command. -/
theorem Arguments.means_iff :
    a.Means command ↔
      command.entry? = a.entry ∧ command.options = optionsOf a.options a.paths := by
  constructor
  · intro h
    refine ⟨h.entry, ?_⟩
    have htrace : command.options.tracePath = lastTracePath? a.options := by
      refine Option.ext fun path => ?_
      rw [h.tracePath, lastTracePath?_eq_some_iff]
    have hverbose : command.options.verbose = a.options.contains verboseOption := by
      rw [Bool.eq_iff_iff, h.verbose, List.contains_iff_mem]
    rw [optionsOf, ← htrace, ← hverbose, ← h.sourcePaths]
  · rintro ⟨hentry, hoptions⟩
    refine ⟨hentry, fun path => ?_, ?_, ?_⟩
    · rw [hoptions, ← lastTracePath?_eq_some_iff]
      rfl
    · rw [hoptions, ← List.contains_iff_mem]
      rfl
    · rw [hoptions]
      rfl

/-- A command is its kind, its entry function and its options. -/
theorem Command.eq_of_parts {other : Command} (hkind : command.kind = other.kind)
    (hentry : command.entry? = other.entry?) (hoptions : command.options = other.options) :
    command = other := by
  cases command <;> cases other <;> cases hkind <;> cases hoptions <;> cases hentry <;> rfl

/-- A command line is read as a command exactly if its arguments are well-formed and say so. -/
theorem parse_eq_ok_iff :
    Command.parse (kind.name :: args) = .ok command ↔
      command.kind = kind ∧
        ∃ a : Arguments, a.WellFormed kind.takesEntry ∧ a.line = args ∧ a.Means command := by
  constructor
  · intro hparse
    rcases arguments_cases kind.takesEntry args with ⟨a, ha, rfl⟩ | ⟨e, he⟩
    · obtain ⟨read, hread, hkind, hmeans⟩ := ha.parse
      rw [hread] at hparse
      cases hparse
      exact ⟨hkind, a, ha, rfl, Arguments.means_iff.mpr hmeans⟩
    · rw [he.parse] at hparse
      cases hparse
  · rintro ⟨rfl, a, ha, rfl, hmeans⟩
    obtain ⟨hentry, hoptions⟩ := Arguments.means_iff.mp hmeans
    obtain ⟨read, hread, hkind, hentry', hoptions'⟩ := ha.parse
    rw [hread, Command.eq_of_parts hkind (hentry'.trans hentry.symm)
      (hoptions'.trans hoptions.symm)]

/-- A command line is refused exactly for the fault of its arguments. -/
theorem parse_eq_error_iff :
    Command.parse (kind.name :: args) = .error e ↔ Faulty kind.takesEntry args e := by
  constructor
  · intro hparse
    rcases arguments_cases kind.takesEntry args with ⟨a, ha, rfl⟩ | ⟨other, hother⟩
    · obtain ⟨command, hread, -⟩ := ha.parse
      rw [hread] at hparse
      cases hparse
    · rw [hother.parse] at hparse
      cases hparse
      exact hother
  · exact Faulty.parse

/-- The first dash behind the entry function is the one in front of the paths. -/
theorem idxOf_dash {options : List String} (h : ∀ arg ∈ options, IsOption arg)
    (paths : List String) : (options ++ dash :: paths).idxOf dash = options.length := by
  rw [List.idxOf_append_of_notMem fun hmem => not_isOption_dash (h dash hmem),
    List.idxOf_cons_self, Nat.add_zero]

/-- The same arguments are not well-formed in two ways. -/
theorem Arguments.WellFormed.unique {takesEntry : Bool} (ha : a.WellFormed takesEntry)
    (hb : b.WellFormed takesEntry) (h : a.line = b.line) : a = b := by
  have hlength : a.entry.toList.length = b.entry.toList.length := by
    have hsame := ha.isSome_entry.trans hb.isSome_entry.symm
    cases ha : a.entry <;> cases hb : b.entry <;> simp_all
  rw [line, line, List.append_assoc, List.append_assoc] at h
  obtain ⟨hentries, hrest⟩ := List.append_inj h hlength
  have hentry : a.entry = b.entry := by
    simpa using congrArg List.head? hentries
  have hlengths : a.options.length = b.options.length := by
    rw [← idxOf_dash ha.isOption a.paths, ← idxOf_dash hb.isOption b.paths, hrest]
  obtain ⟨hoptions, hbehind⟩ := List.append_inj hrest hlengths
  exact Arguments.ext hentry hoptions (List.tail_eq_of_cons_eq hbehind)

/-- What is wrong with arguments is said in one line. -/
theorem Faulty.length_lines {takesEntry : Bool} (h : Faulty takesEntry args e) :
    e.lines.length = 1 := by
  have hoptions : ∀ {args : List String} {e : UsageError}, FaultyOptions args e →
      e.lines.length = 1 := by
    intro args e h
    cases h <;> rfl
  cases h with
  | noEntry => rfl
  | behindEntry _ h => exact hoptions h
  | withoutEntry h => exact hoptions h

end

end CommandLine

/-- Every command takes the arguments of its grammar and no others: an entry function if it takes
one, options, a dash, and at least one path. Arguments are of this form in one way at most, and the
command is what they say. All other arguments end the command with code 1 and one line, which is
about the entry function if that is missing, else about the first argument in front of the dash that
is no option, else about the dash, else about the paths. -/
theorem arguments_follow_grammar (kind : CommandLine.CommandKind) (args : List String) :
    ((∃ command, CommandLine.Command.parse (kind.name :: args) = .ok command) ↔
      ∃ a : CommandLine.Arguments, a.WellFormed kind.takesEntry ∧ a.line = args) ∧
    (∀ a b : CommandLine.Arguments, a.WellFormed kind.takesEntry → b.WellFormed kind.takesEntry →
      a.line = b.line → a = b) ∧
    (∀ command, CommandLine.Command.parse (kind.name :: args) = .ok command ↔
      command.kind = kind ∧ ∃ a : CommandLine.Arguments,
        a.WellFormed kind.takesEntry ∧ a.line = args ∧ a.Means command) ∧
    (∀ e, CommandLine.Command.parse (kind.name :: args) = .error e ↔
      CommandLine.Faulty kind.takesEntry args e) ∧
    ∀ e, CommandLine.Faulty kind.takesEntry args e → ∃ line, e.lines = [line] ∧
      ∀ read, CommandLine.run read (kind.name :: args) = ⟨[.error line], .code 1, none⟩ := by
  refine ⟨⟨?_, ?_⟩, fun a b ha hb => ha.unique hb, fun command => CommandLine.parse_eq_ok_iff,
    fun e => CommandLine.parse_eq_error_iff, fun e he => ?_⟩
  · rintro ⟨command, hparse⟩
    obtain ⟨-, a, ha, hline, -⟩ := CommandLine.parse_eq_ok_iff.mp hparse
    exact ⟨a, ha, hline⟩
  · rintro ⟨a, ha, rfl⟩
    obtain ⟨command, hparse, -⟩ := ha.parse
    exact ⟨command, hparse⟩
  · obtain ⟨line, hline⟩ := List.length_eq_one_iff.mp he.length_lines
    refine ⟨line, hline, fun read => ?_⟩
    rw [CommandLine.run, he.parse]
    simp only [CommandLine.Report.failure, hline]
    rfl

end SummaryInlining
