import SummaryInlining.Trace.Recorder

/-!
# Reading a tree off brackets

The calls that open a branch, add an event and close a branch are brackets around one another.
`readBrackets` reads the tree that they describe from the last bracket to the first: a branch that
is opened holds everything up to the bracket that closes it, or everything behind it when there is
none. What lies behind a part of the brackets may close branches that were opened before it, so the
reading of such a part is a list of levels (`Levels`).

A part is `Balanced` when it opens and closes the same branches; it adds its own trees in front of
whatever follows it, whether it is a single event, a branch with balanced brackets inside, or two
balanced parts one after the other.
-/

set_option autoImplicit false

namespace SummaryInlining

/-- A trace without its times. Of the details of an event it keeps what `δ` keeps of them. -/
inductive Outline (δ : Type) where
  | event (title : Title) (details : δ)
  | branch (title : Title) (isOpen : Bool) (children : List (Outline δ))
  deriving Inhabited

namespace Outline

variable {δ : Type}

mutual

/-- The titles of the open branches of a tree, each behind those inside of it. -/
def openTitles : Outline δ → List Title
  | .event _ _ => []
  | .branch title isOpen children => allOpenTitles children ++ if isOpen then [title] else []

/-- The titles of the open branches of trees, those of the last tree first. -/
def allOpenTitles : List (Outline δ) → List Title
  | [] => []
  | tree :: rest => allOpenTitles rest ++ tree.openTitles

end

/-- What is open in later trees is further inside than what is open in earlier ones. -/
theorem allOpenTitles_append (trees others : List (Outline δ)) :
    allOpenTitles (trees ++ others) = allOpenTitles others ++ allOpenTitles trees := by
  induction trees with
  | nil => rw [List.nil_append, allOpenTitles, List.append_nil]
  | cons tree rest ih =>
    rw [List.cons_append, allOpenTitles, ih, allOpenTitles, List.append_assoc]

end Outline

namespace Trace

variable {δ : Type}

mutual

/-- A trace without its times, in which `keep` remains of the details of an event. A branch without
an end is open. -/
def outline (keep : Option String → δ) : Trace → Outline δ
  | .event title details _ => .event title (keep details)
  | .branch title _ stop children => .branch title stop.isNone (outlines keep children)

def outlines (keep : Option String → δ) : List Trace → List (Outline δ)
  | [] => []
  | trace :: rest => trace.outline keep :: outlines keep rest

end

/-- The outlines of traces are taken one by one. -/
theorem outlines_eq_map (keep : Option String → δ) (traces : List Trace) :
    outlines keep traces = traces.map (outline keep) := by
  induction traces with
  | nil => rfl
  | cons trace rest ih => rw [outlines, ih, List.map_cons]

end Trace

/-- One of the calls that shape a trace. -/
inductive Bracket (δ : Type) where
  /-- A branch is opened. -/
  | start (title : Title)
  /-- An event is added. -/
  | mark (title : Title) (details : δ)
  /-- The innermost open branch is closed. -/
  | stop

/-- What a part of a list of brackets describes: trees inside the branch that is open in front of
it, and, if this branch is closed in the part, what is described further outside. -/
inductive Levels (δ : Type) where
  /-- The branch in front of the part stays open. -/
  | last (trees : List (Outline δ))
  /-- The branch in front of the part is closed behind these trees. -/
  | closed (trees : List (Outline δ)) (outer : Levels δ)

namespace Levels

variable {δ : Type}

/-- The levels with trees in front of those of the innermost one. -/
def prepend (before : List (Outline δ)) : Levels δ → Levels δ
  | .last trees => .last (before ++ trees)
  | .closed trees outer => .closed (before ++ trees) outer

/-- The levels in front of which a branch is opened. -/
def opened (title : Title) : Levels δ → Levels δ
  | .last trees => .last [.branch title true trees]
  | .closed trees outer => outer.prepend [.branch title false trees]

/-- The trees inside the branch that is open in front of the part. -/
def innermost : Levels δ → List (Outline δ)
  | .last trees => trees
  | .closed trees _ => trees

/-- Putting nothing in front changes no levels. -/
@[simp] theorem prepend_nil (levels : Levels δ) : levels.prepend [] = levels := by
  cases levels <;> rfl

/-- Trees can be put in front of levels in two parts. -/
theorem prepend_prepend (before trees : List (Outline δ)) (levels : Levels δ) :
    (levels.prepend trees).prepend before = levels.prepend (before ++ trees) := by
  cases levels with
  | last others => rw [prepend, prepend, prepend, List.append_assoc]
  | closed others outer => rw [prepend, prepend, prepend, List.append_assoc]

end Levels

section

variable {δ : Type}

/-- The levels that brackets describe. -/
def readLevels : List (Bracket δ) → Levels δ
  | [] => .last []
  | .start title :: rest => (readLevels rest).opened title
  | .mark title details :: rest => (readLevels rest).prepend [.event title details]
  | .stop :: rest => .closed [] (readLevels rest)

/-- The trees that brackets describe, inside the branch around all of them. -/
def readBrackets (brackets : List (Bracket δ)) : List (Outline δ) := (readLevels brackets).innermost

/-- The brackets open and close the same branches, and describe these trees. -/
structure Balanced (brackets : List (Bracket δ)) (trees : List (Outline δ)) : Prop where
  read : ∀ rest, readLevels (brackets ++ rest) = (readLevels rest).prepend trees
  openTitles : Outline.allOpenTitles trees = []

/-- No brackets describe no trees. -/
theorem balanced_nil : Balanced ([] : List (Bracket δ)) [] where
  read _ := (Levels.prepend_nil _).symm
  openTitles := rfl

/-- Balanced brackets behind others describe their trees behind the trees of the others. -/
theorem Balanced.append {first second : List (Bracket δ)} {trees others : List (Outline δ)}
    (hfirst : Balanced first trees) (hsecond : Balanced second others) :
    Balanced (first ++ second) (trees ++ others) where
  read rest := by
    rw [List.append_assoc, hfirst.read, hsecond.read, Levels.prepend_prepend]
  openTitles := by
    rw [Outline.allOpenTitles_append, hfirst.openTitles, hsecond.openTitles]
    rfl

/-- An event is balanced by itself. -/
theorem balanced_mark (title : Title) (details : δ) :
    Balanced [.mark title details] [.event title details] where
  read _ := rfl
  openTitles := rfl

/-- Balanced brackets in a branch that is opened before and closed after them. -/
theorem Balanced.branch {inner : List (Bracket δ)} {trees : List (Outline δ)}
    (h : Balanced inner trees) (title : Title) :
    Balanced (.start title :: inner ++ [.stop]) [.branch title false trees] where
  read rest := by
    have hstop : readLevels (inner ++ .stop :: rest) = .closed trees (readLevels rest) := by
      rw [h.read, readLevels, Levels.prepend, List.append_nil]
    rw [List.cons_append, List.cons_append, List.append_assoc]
    exact congrArg (Levels.opened title) hstop
  openTitles := by
    rw [Outline.allOpenTitles, Outline.openTitles, h.openTitles]
    rfl

end

end SummaryInlining
