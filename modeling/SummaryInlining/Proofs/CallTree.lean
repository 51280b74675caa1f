import Mathlib.Data.List.Nodup
import Mathlib.Data.List.Range
import SummaryInlining.Proofs.RecursiveInlining

/-!
# The call tree

A `CallPath` leads from the function that an expansion begins with, call by call, to one of the
functions that are expanded below it. The call paths of an environment are the nodes of the call
tree: a call leads on exactly when its callee has a summary and does not stand on the path already.

`CallPath.tour` is the depth-first walk through the tree below a path. It visits every node when it
is entered and when it is left, and every requirement in its place between. The walk meets
everything that is there (`mem_tour_iff`), nothing twice (`nodup_tour`), and enters the nodes in
the order of their scopes, which are numbered one after the other (`map_scope_tour`).
-/

set_option autoImplicit false

namespace SummaryInlining

/-- The way from the function that an expansion begins with to one that is expanded below it. -/
inductive CallPath where
  /-- The function that the expansion begins with. -/
  | root (name : String) (summary : FunctionSummary)
  /-- The callee of a call of the function above, which stands at this position among its
  constraints. -/
  | step (caller : CallPath) (position : Nat) (call : Call (Option SourceLocation))
    (callee : FunctionSummary)

/-- What the walk through a call tree comes by. -/
inductive Visit where
  | enter (path : CallPath)
  /-- A requirement of the function at the end of the path is met at this position. -/
  | require (path : CallPath) (position : Nat) (r : Requirement (Option SourceLocation))
  | leave (path : CallPath)

namespace CallPath

/-- The function at the end of a path. -/
def summary : CallPath → FunctionSummary
  | root _ summary => summary
  | step _ _ _ callee => callee

/-- The names of the functions on a path, the innermost one first. -/
def names : CallPath → List String
  | root name _ => [name]
  | step caller _ call _ => call.callee :: caller.names

/-- The summary that a call at the end of a path leads on to: none when the callee has no summary,
stands on the path, or is being expanded around it. -/
def callee? (env : Environment) (active : List String) (p : CallPath)
    (call : Call (Option SourceLocation)) : Option FunctionSummary :=
  if call.callee ∈ p.names ++ active then none else env.find? call.callee

/-- The path leads from the function `entry` on by calls that are there and lead on. -/
def Valid (env : Environment) (active : List String) (entry : String) : CallPath → Prop
  | root name summary => name = entry ∧ env.find? name = some summary ∧ name ∉ active
  | step caller position call callee => caller.Valid env active entry ∧
    caller.summary.constraints[position]? = some (.call call) ∧
    caller.callee? env active call = some callee

/-- The paths that a path leads through, itself first. -/
def prefixes : CallPath → List CallPath
  | root name summary => [root name summary]
  | step caller position call callee => step caller position call callee :: caller.prefixes

/-- A call leads on to the summary of its callee, if this is not on the path and not being expanded
around it. -/
theorem callee?_eq_some_iff {env : Environment} {active : List String} {p : CallPath}
    {call : Call (Option SourceLocation)} {callee : FunctionSummary} :
    p.callee? env active call = some callee ↔
      call.callee ∉ p.names ++ active ∧ env.find? call.callee = some callee := by
  unfold callee?
  split
  · next h => simp [h]
  · next h => simp [h]

/-- The walk through what some constraints at the end of a path lead to, of which the first one
stands at this position. -/
def walk (env : Environment) (active : List String) (p : CallPath) (position : Nat) :
    List SummaryConstraint → List Visit
  | [] => []
  | .require r :: rest => .require p position r :: p.walk env active (position + 1) rest
  | .call call :: rest =>
    match _h : p.callee? env active call with
    | none => p.walk env active (position + 1) rest
    | some callee =>
      let inner := step p position call callee
      (.enter inner :: inner.walk env active 0 callee.constraints) ++
        .leave inner :: p.walk env active (position + 1) rest
termination_by constraints => (Machine.available env (p.names ++ active), constraints.length)
decreasing_by
  · exact Prod.Lex.right _ (by simp)
  · exact Prod.Lex.right _ (by simp)
  · obtain ⟨hn, hs⟩ := callee?_eq_some_iff.mp _h
    have := Machine.available_enter_lt env (p.names ++ active) call.callee
      (List.mem_map.mpr ⟨_, (env.find?_eq_some_iff _ _).mp hs, rfl⟩) hn
    exact Prod.Lex.left _ _ this
  · exact Prod.Lex.right _ (by simp)

/-- The walk through the whole tree below a path. -/
def tour (env : Environment) (active : List String) (p : CallPath) : List Visit :=
  (.enter p :: p.walk env active 0 p.summary.constraints) ++ [.leave p]

end CallPath

namespace Visit

def path : Visit → CallPath
  | enter p => p
  | require p _ _ => p
  | leave p => p

/-- The path that is entered by a visit. -/
def entered? : Visit → Option CallPath
  | enter p => some p
  | require _ _ _ => none
  | leave _ => none

/-- The path of a visit is there, and a requirement stands at its position. -/
def Valid (env : Environment) (active : List String) (entry : String) : Visit → Prop
  | enter p => p.Valid env active entry
  | require p position r => p.Valid env active entry ∧
    p.summary.constraints[position]? = some (.require r)
  | leave p => p.Valid env active entry

/-- The paths that are entered by some visits, in order. -/
def entered (visits : List Visit) : List CallPath := visits.filterMap entered?

end Visit

namespace CallPath

section

variable {env : Environment} {active : List String} {p : CallPath} {position : Nat}
  {call : Call (Option SourceLocation)} {callee : FunctionSummary}
  {rest : List SummaryConstraint}

/-- A call that does not lead on is walked past. -/
theorem walk_call_of_none (h : p.callee? env active call = none) :
    p.walk env active position (.call call :: rest) = p.walk env active (position + 1) rest := by
  rw [walk]
  split
  · rfl
  · next hs =>
    rw [h] at hs
    cases hs

/-- A call that leads on is walked through before what stands behind it. -/
theorem walk_call_of_some (h : p.callee? env active call = some callee) :
    p.walk env active position (.call call :: rest) =
      (step p position call callee).tour env active ++ p.walk env active (position + 1) rest := by
  rw [walk]
  split
  · next hs =>
    rw [h] at hs
    cases hs
  · next found hs =>
    rw [h] at hs
    cases hs
    simp [tour, summary]

end

section

variable {env : Environment} {active : List String}

/-- Induction along a walk: on the constraints that the function at the end of a path has left. -/
theorem walk_induction (env : Environment) (active : List String)
    {motive : CallPath → Nat → List SummaryConstraint → Prop}
    (nil : ∀ p position, motive p position [])
    (require : ∀ p position r rest, motive p (position + 1) rest →
      motive p position (.require r :: rest))
    (skip : ∀ p position call rest, p.callee? env active call = none →
      motive p (position + 1) rest → motive p position (.call call :: rest))
    (expand : ∀ p position call callee rest, p.callee? env active call = some callee →
      motive (step p position call callee) 0 callee.constraints →
      motive p (position + 1) rest → motive p position (.call call :: rest)) :
    ∀ p position constraints, motive p position constraints := by
  have key : ∀ (names : List String) (constraints : List SummaryConstraint) (p : CallPath),
      p.names ++ active = names → ∀ position, motive p position constraints := by
    -- the functions that are being expanded are those on the path and those around it
    intro names constraints
    induction names, constraints using inlining_induction env with
    | nil names => exact fun p _ position => nil p position
    | require names r rest ih =>
      exact fun p hp position => require p position r rest (ih p hp (position + 1))
    | call names call rest ihbody ihrest =>
      intro p hp position
      cases hc : p.callee? env active call with
      | none => exact skip p position call rest hc (ihrest p hp (position + 1))
      | some callee =>
        obtain ⟨hn, hs⟩ := callee?_eq_some_iff.mp hc
        rw [hp] at hn
        have hnames : (step p position call callee).names ++ active = call.callee :: names :=
          congrArg (List.cons call.callee) hp
        exact expand p position call callee rest hc (ihbody callee hs hn _ hnames 0)
          (ihrest p hp (position + 1))
  exact fun p position constraints => key _ constraints p rfl position

/-- Constraints are walked through in two parts as they are at once. -/
theorem walk_append (p : CallPath) (position : Nat) (cs ds : List SummaryConstraint) :
    p.walk env active position (cs ++ ds) =
      p.walk env active position cs ++ p.walk env active (position + cs.length) ds := by
  induction cs generalizing position with
  | nil => simp [walk]
  | cons c rest ih =>
    have hlength : position + (c :: rest).length = position + 1 + rest.length := by
      simp only [List.length_cons]
      omega
    rw [hlength, List.cons_append]
    cases c with
    | require r => rw [walk, walk, ih, List.cons_append]
    | call call =>
      cases hc : p.callee? env active call with
      | none => rw [walk_call_of_none hc, walk_call_of_none hc, ih]
      | some callee => rw [walk_call_of_some hc, walk_call_of_some hc, ih, List.append_assoc]

/-! ## The walk meets what is there -/

variable {entry : String}

/-- What is left of a list from a position on begins with the element at this position. -/
theorem getElem?_of_drop_eq_cons {α : Type} {xs rest : List α} {n : Nat} {x : α}
    (h : xs.drop n = x :: rest) : xs[n]? = some x ∧ xs.drop (n + 1) = rest := by
  constructor
  · rw [← List.head?_drop, h]
    rfl
  · rw [← List.tail_drop, h]
    rfl

/-- Whatever the walk comes by is there. -/
theorem valid_of_mem_walk {p : CallPath} {position : Nat} {constraints : List SummaryConstraint}
    {visit : Visit} (hp : p.Valid env active entry)
    (hd : p.summary.constraints.drop position = constraints)
    (hv : visit ∈ p.walk env active position constraints) : visit.Valid env active entry := by
  induction p, position, constraints using walk_induction env active with
  | nil p position => simp [walk] at hv
  | require p position r rest ih =>
    obtain ⟨hget, hrest⟩ := getElem?_of_drop_eq_cons hd
    rw [walk] at hv
    rcases List.mem_cons.mp hv with rfl | hv
    · exact ⟨hp, hget⟩
    · exact ih hp hrest hv
  | skip p position call rest hc ih =>
    obtain ⟨-, hrest⟩ := getElem?_of_drop_eq_cons hd
    rw [walk_call_of_none hc] at hv
    exact ih hp hrest hv
  | expand p position call callee rest hc ihinner ihrest =>
    obtain ⟨hget, hrest⟩ := getElem?_of_drop_eq_cons hd
    have hinner : (step p position call callee).Valid env active entry := ⟨hp, hget, hc⟩
    rw [walk_call_of_some hc, List.mem_append, tour, List.mem_append, List.mem_cons] at hv
    rcases hv with ((rfl | hv) | hv) | hv
    · exact hinner
    · exact ihinner hinner rfl hv
    · rw [List.mem_singleton.mp hv]
      exact hinner
    · exact ihrest hp hrest hv

/-- Every visit of the tree below a valid path is valid. -/
theorem valid_of_mem_tour {p : CallPath} {visit : Visit} (hp : p.Valid env active entry)
    (hv : visit ∈ p.tour env active) : visit.Valid env active entry := by
  rw [tour, List.mem_append, List.mem_cons] at hv
  rcases hv with (rfl | hv) | hv
  · exact hp
  · exact valid_of_mem_walk hp rfl hv
  · rw [List.mem_singleton.mp hv]
    exact hp

/-- The walk comes by every requirement at the end of its path. -/
theorem require_mem_walk (p : CallPath) (position : Nat) {k : Nat}
    {constraints : List SummaryConstraint} {r : Requirement (Option SourceLocation)}
    (hk : constraints[k]? = some (.require r)) :
    .require p (position + k) r ∈ p.walk env active position constraints := by
  obtain ⟨hlt, hget⟩ := List.getElem?_eq_some_iff.mp hk
  have hsplit : constraints = constraints.take k ++ .require r :: constraints.drop (k + 1) := by
    rw [← hget, List.getElem_cons_drop, List.take_append_drop]
  have hlength : (constraints.take k).length = k := List.length_take_of_le (Nat.le_of_lt hlt)
  rw [hsplit, walk_append, hlength, walk]
  exact List.mem_append_right _ List.mem_cons_self

/-- The walk goes through the tree of every callee that a call at the end of its path leads to. -/
theorem tour_subset_walk {p : CallPath} (position : Nat) {k : Nat}
    {constraints : List SummaryConstraint} {call : Call (Option SourceLocation)}
    {callee : FunctionSummary}
    (hk : constraints[k]? = some (.call call)) (hc : p.callee? env active call = some callee) :
    (step p (position + k) call callee).tour env active ⊆
      p.walk env active position constraints := by
  obtain ⟨hlt, hget⟩ := List.getElem?_eq_some_iff.mp hk
  have hsplit : constraints = constraints.take k ++ .call call :: constraints.drop (k + 1) := by
    rw [← hget, List.getElem_cons_drop, List.take_append_drop]
  have hlength : (constraints.take k).length = k := List.length_take_of_le (Nat.le_of_lt hlt)
  rw [hsplit, walk_append, hlength, walk_call_of_some hc]
  exact List.subset_append_of_subset_right _ (List.subset_append_left _ _)

/-- The walk through the constraints at the end of a path is part of the walk through the tree below
it. -/
theorem walk_subset_tour (p : CallPath) :
    p.walk env active 0 p.summary.constraints ⊆ p.tour env active :=
  fun _ hv => List.mem_append_left _ (List.mem_cons_of_mem _ hv)

/-- The walk through a call tree goes through the tree below each of its nodes. -/
theorem tour_subset_tour_root {summary : FunctionSummary} (hs : env.find? entry = some summary)
    {p : CallPath} (hp : p.Valid env active entry) :
    p.tour env active ⊆ (root entry summary).tour env active := by
  induction p with
  | root name found =>
    obtain ⟨rfl, hfound, -⟩ := hp
    rw [hs] at hfound
    cases hfound
    exact List.Subset.refl _
  | step caller position call callee ih =>
    obtain ⟨hcaller, hget, hc⟩ := hp
    have hwalk := tour_subset_walk 0 hget hc
    rw [Nat.zero_add] at hwalk
    exact List.Subset.trans (List.Subset.trans hwalk (walk_subset_tour caller)) (ih hcaller)

/-- The walk through a call tree comes by exactly what is there. -/
theorem mem_tour_iff {summary : FunctionSummary} (hs : env.find? entry = some summary)
    (ha : entry ∉ active) {visit : Visit} :
    visit ∈ (root entry summary).tour env active ↔ visit.Valid env active entry := by
  refine ⟨valid_of_mem_tour ⟨rfl, hs, ha⟩, fun hv => ?_⟩
  cases visit with
  | enter p => exact tour_subset_tour_root hs hv (by simp [tour])
  | leave p => exact tour_subset_tour_root hs hv (by simp [tour])
  | require p position r =>
    obtain ⟨hp, hget⟩ := hv
    have hmem : .require p (0 + position) r ∈ p.walk env active 0 p.summary.constraints :=
      require_mem_walk p 0 hget
    rw [Nat.zero_add] at hmem
    exact tour_subset_tour_root hs hp (walk_subset_tour p hmem)

/-! ## The walk meets nothing twice -/

def depth : CallPath → Nat
  | root _ _ => 0
  | step caller _ _ _ => caller.depth + 1

/-- A path is at least as deep as the paths that it leads through. -/
theorem depth_le_of_mem_prefixes {p q : CallPath} (h : p ∈ q.prefixes) : p.depth ≤ q.depth := by
  induction q with
  | root name summary =>
    rw [List.mem_singleton.mp h]
  | step caller position call callee ih =>
    rcases List.mem_cons.mp h with rfl | h
    · exact Nat.le_refl _
    · exact Nat.le_succ_of_le (ih h)

/-- A path leads through one path of each depth only. -/
theorem eq_of_mem_prefixes {p p' q : CallPath} (h : p ∈ q.prefixes) (h' : p' ∈ q.prefixes)
    (hd : p.depth = p'.depth) : p = p' := by
  induction q with
  | root name summary => rw [List.mem_singleton.mp h, List.mem_singleton.mp h']
  | step caller position call callee ih =>
    have hdepth : (step caller position call callee).depth = caller.depth + 1 := rfl
    rcases List.mem_cons.mp h with rfl | h <;> rcases List.mem_cons.mp h' with rfl | h'
    · rfl
    · have := depth_le_of_mem_prefixes h'
      omega
    · have := depth_le_of_mem_prefixes h
      omega
    · exact ih h h'

/-- A path leads through itself. -/
theorem self_mem_prefixes (p : CallPath) : p ∈ p.prefixes := by
  cases p <;> exact List.mem_cons_self

/-- A path leads through the path to its caller. -/
theorem caller_mem_prefixes (p : CallPath) (position : Nat) (call : Call (Option SourceLocation))
    (callee : FunctionSummary) : p ∈ (step p position call callee).prefixes :=
  List.mem_cons_of_mem _ (self_mem_prefixes p)

/-- Leading through a path is transitive. -/
theorem mem_prefixes_trans {p q r : CallPath} (hpq : p ∈ q.prefixes) (hqr : q ∈ r.prefixes) :
    p ∈ r.prefixes := by
  induction r with
  | root name summary =>
    rw [List.mem_singleton.mp hqr] at hpq
    exact hpq
  | step caller position call callee ih =>
    rcases List.mem_cons.mp hqr with rfl | hqr
    · exact hpq
    · exact List.mem_cons_of_mem _ (ih hqr)

/-- The visit belongs to what the constraints of the function at the end of `p` lead to from this
position on. -/
def From (p : CallPath) (position : Nat) (visit : Visit) : Prop :=
  (∃ k r, position ≤ k ∧ visit = .require p k r) ∨
    ∃ k call callee, position ≤ k ∧ step p k call callee ∈ visit.path.prefixes

/-- Whatever the walk from a position on comes by belongs to what the constraints from there on lead
to. -/
theorem from_of_mem_walk {p : CallPath} {position : Nat} {constraints : List SummaryConstraint}
    {visit : Visit} (hv : visit ∈ p.walk env active position constraints) :
    From p position visit := by
  -- what comes from a later position comes from an earlier one
  have hweaken : ∀ {p : CallPath} {position : Nat}, From p (position + 1) visit →
      From p position visit := by
    rintro p position (⟨k, r, hk, hv⟩ | ⟨k, call, callee, hk, hv⟩)
    · exact .inl ⟨k, r, by omega, hv⟩
    · exact .inr ⟨k, call, callee, by omega, hv⟩
  induction p, position, constraints using walk_induction env active with
  | nil p position => simp [walk] at hv
  | require p position r rest ih =>
    rw [walk] at hv
    rcases List.mem_cons.mp hv with rfl | hv
    · exact .inl ⟨position, r, Nat.le_refl _, rfl⟩
    · exact hweaken (ih hv)
  | skip p position call rest hc ih =>
    rw [walk_call_of_none hc] at hv
    exact hweaken (ih hv)
  | expand p position call callee rest hc ihinner ihrest =>
    rw [walk_call_of_some hc, List.mem_append, tour, List.mem_append, List.mem_cons] at hv
    have hself := self_mem_prefixes (step p position call callee)
    rcases hv with ((rfl | hv) | hv) | hv
    · exact .inr ⟨position, call, callee, Nat.le_refl _, hself⟩
    · refine .inr ⟨position, call, callee, Nat.le_refl _, ?_⟩
      rcases ihinner hv with ⟨k, r, -, rfl⟩ | ⟨k, inner, found, -, hmem⟩
      · exact hself
      · exact mem_prefixes_trans (caller_mem_prefixes _ _ _ _) hmem
    · rw [List.mem_singleton.mp hv]
      exact .inr ⟨position, call, callee, Nat.le_refl _, hself⟩
    · exact hweaken (ihrest hv)

/-- What a later constraint leads to does not lead through the callee of an earlier call. -/
theorem not_mem_prefixes_of_from {p : CallPath} {position : Nat}
    {call : Call (Option SourceLocation)} {callee : FunctionSummary} {visit : Visit}
    (h : From p (position + 1) visit) :
    step p position call callee ∉ visit.path.prefixes := by
  intro hmem
  rcases h with ⟨k, r, -, rfl⟩ | ⟨k, other, found, hk, hother⟩
  · have hle : p.depth + 1 ≤ p.depth := depth_le_of_mem_prefixes hmem
    omega
  · have heq := eq_of_mem_prefixes hmem hother rfl
    cases heq
    omega

/-- What the constraints at the end of a path lead to is neither its entering nor its leaving. -/
theorem not_from_of_path_eq {p : CallPath} {position : Nat} {visit : Visit}
    (h : From p position visit) : visit ≠ .enter p ∧ visit ≠ .leave p := by
  rcases h with ⟨k, r, -, rfl⟩ | ⟨k, call, callee, -, hmem⟩
  · constructor
    · intro he
      cases he
    · intro he
      cases he
  · have hle : p.depth + 1 ≤ visit.path.depth := depth_le_of_mem_prefixes hmem
    constructor
    · rintro rfl
      exact absurd hle (Nat.not_succ_le_self _)
    · rintro rfl
      exact absurd hle (Nat.not_succ_le_self _)

/-- All visits of the tree below a path are at paths that lead through it. -/
theorem prefix_of_mem_tour {p : CallPath} {visit : Visit} (hv : visit ∈ p.tour env active) :
    p ∈ visit.path.prefixes := by
  have hself := self_mem_prefixes p
  rw [tour, List.mem_append, List.mem_cons] at hv
  rcases hv with (rfl | hv) | hv
  · exact hself
  · rcases from_of_mem_walk hv with ⟨k, r, -, rfl⟩ | ⟨k, call, callee, -, hmem⟩
    · exact hself
    · exact mem_prefixes_trans (caller_mem_prefixes _ _ _ _) hmem
  · rw [List.mem_singleton.mp hv]
    exact hself

/-- The tree below a path is visited once, if what its constraints lead to is, because the path
itself is visited in front of it only. -/
theorem nodup_tour_of_walk {p : CallPath}
    (h : (p.walk env active 0 p.summary.constraints).Nodup) : (p.tour env active).Nodup := by
  have hnot : ∀ visit ∈ p.walk env active 0 p.summary.constraints,
      visit ≠ .enter p ∧ visit ≠ .leave p :=
    fun _ hv => not_from_of_path_eq (from_of_mem_walk hv)
  rw [tour, List.nodup_append, List.nodup_cons]
  refine ⟨⟨fun hm => (hnot _ hm).1 rfl, h⟩, List.nodup_singleton _, ?_⟩
  intro visit hv other hother heq
  rw [List.mem_singleton] at hother
  subst hother heq
  rcases List.mem_cons.mp hv with hv | hv
  · cases hv
  · exact (hnot _ hv).2 rfl

/-- Nothing is visited twice on the walk through some constraints. -/
theorem nodup_walk (p : CallPath) (position : Nat) (constraints : List SummaryConstraint) :
    (p.walk env active position constraints).Nodup := by
  induction p, position, constraints using walk_induction env active with
  | nil p position =>
    rw [walk]
    exact List.nodup_nil
  | require p position r rest ih =>
    rw [walk, List.nodup_cons]
    refine ⟨fun hm => ?_, ih⟩
    rcases from_of_mem_walk hm with ⟨k, found, hk, heq⟩ | ⟨k, call, callee, -, hmem⟩
    · cases heq
      omega
    · have hle : p.depth + 1 ≤ p.depth := depth_le_of_mem_prefixes hmem
      omega
  | skip p position call rest hc ih =>
    rw [walk_call_of_none hc]
    exact ih
  | expand p position call callee rest hc ihinner ihrest =>
    rw [walk_call_of_some hc, List.nodup_append]
    refine ⟨nodup_tour_of_walk ihinner, ihrest, ?_⟩
    -- the callee is on the path of every visit of its tree and of no later one
    intro visit hv other hother heq
    subst heq
    exact not_mem_prefixes_of_from (from_of_mem_walk hother) (prefix_of_mem_tour hv)

/-- The walk through a call tree comes by nothing twice. -/
theorem nodup_tour (p : CallPath) : (p.tour env active).Nodup :=
  nodup_tour_of_walk (nodup_walk p 0 p.summary.constraints)

/-! ## The walk enters the nodes in the order of their scopes -/

open Visit (entered)

/-- The scope of the function at the end of a path, when the expansion begins in this one: scopes
are opened one after the other as the functions are entered. -/
def scope (env : Environment) (active : List String) (base : ScopeId) : CallPath → ScopeId
  | root _ _ => base
  | step caller position _ _ => caller.scope env active base + 1 +
    (entered (caller.walk env active 0 (caller.summary.constraints.take position))).length

/-- Two walks enter what each of them does, in order. -/
theorem entered_append (visits others : List Visit) :
    entered (visits ++ others) = entered visits ++ entered others :=
  List.filterMap_append

/-- The walk through a tree enters its path first. -/
theorem entered_tour (p : CallPath) :
    entered (p.tour env active) =
      p :: entered (p.walk env active 0 p.summary.constraints) := by
  simp [tour, entered, Visit.entered?]

/-- The scope that is opened next when the function at the end of a path has come to this position:
its own one and those below its constraints so far have been opened. -/
def nextScope (env : Environment) (active : List String) (base : ScopeId) (p : CallPath)
    (position : Nat) : ScopeId :=
  p.scope env active base + 1 +
    (entered (p.walk env active 0 (p.summary.constraints.take position))).length

/-- Behind its own scope a function opens those of its calls. -/
theorem nextScope_zero (base : ScopeId) (p : CallPath) :
    p.nextScope env active base 0 = p.scope env active base + 1 := by
  simp [nextScope, walk, entered]

/-- The scope of a function is opened before the ones below it. -/
theorem scope_lt_nextScope (base : ScopeId) (p : CallPath) (position : Nat) :
    p.scope env active base < p.nextScope env active base position :=
  Nat.lt_of_lt_of_le (Nat.lt_succ_self _) (Nat.le_add_right _ _)

/-- A constraint takes as many scopes as functions are entered by it. -/
theorem nextScope_succ (base : ScopeId) {p : CallPath} {position : Nat} {c : SummaryConstraint}
    (h : p.summary.constraints[position]? = some c) :
    p.nextScope env active base (position + 1) = p.nextScope env active base position +
      (entered (p.walk env active position [c])).length := by
  obtain ⟨hlt, -⟩ := List.getElem?_eq_some_iff.mp h
  rw [nextScope, nextScope, List.take_add_one, h, Option.toList_some, walk_append, entered_append,
    List.length_append, List.length_take_of_le (Nat.le_of_lt hlt), Nat.zero_add]
  exact (Nat.add_assoc _ _ _).symm

/-- A requirement takes no scopes. -/
theorem nextScope_of_require (base : ScopeId) {p : CallPath} {position : Nat}
    {r : Requirement (Option SourceLocation)}
    (h : p.summary.constraints[position]? = some (.require r)) :
    p.nextScope env active base (position + 1) = p.nextScope env active base position := by
  rw [nextScope_succ base h, walk, walk]
  rfl

/-- A call that does not lead on takes no scopes. -/
theorem nextScope_of_skip (base : ScopeId) {p : CallPath} {position : Nat}
    {call : Call (Option SourceLocation)}
    (h : p.summary.constraints[position]? = some (.call call))
    (hc : p.callee? env active call = none) :
    p.nextScope env active base (position + 1) = p.nextScope env active base position := by
  rw [nextScope_succ base h, walk_call_of_none hc, walk]
  rfl

/-- A call that leads on takes as many scopes as functions are entered below it. -/
theorem nextScope_of_expand (base : ScopeId) {p : CallPath} {position : Nat}
    {call : Call (Option SourceLocation)} {callee : FunctionSummary}
    (h : p.summary.constraints[position]? = some (.call call))
    (hc : p.callee? env active call = some callee) :
    p.nextScope env active base (position + 1) = p.nextScope env active base position +
      (entered ((step p position call callee).tour env active)).length := by
  rw [nextScope_succ base h, walk_call_of_some hc, walk, List.append_nil]

/-- The functions of a tree have the scopes from that of the path on, if the functions behind it
have those from the next one on. -/
theorem map_scope_tour_of_walk {base : ScopeId} {p : CallPath}
    (h : (entered (p.walk env active 0 p.summary.constraints)).map (scope env active base) =
      List.range' (p.nextScope env active base 0)
        (entered (p.walk env active 0 p.summary.constraints)).length) :
    (entered (p.tour env active)).map (scope env active base) =
      List.range' (p.scope env active base) (entered (p.tour env active)).length := by
  rw [entered_tour, List.map_cons, h, nextScope_zero, List.length_cons, List.range'_succ]

/-- The functions that are entered by some constraints have the next scopes, in the order in which
they are entered. -/
theorem map_scope_walk (base : ScopeId) (p : CallPath) (position : Nat)
    (constraints : List SummaryConstraint) :
    p.summary.constraints.drop position = constraints →
      (entered (p.walk env active position constraints)).map (scope env active base) =
        List.range' (p.nextScope env active base position)
          (entered (p.walk env active position constraints)).length := by
  induction p, position, constraints using walk_induction env active with
  | nil p position =>
    intro _
    simp [walk, entered]
  | require p position r rest ih =>
    intro hd
    obtain ⟨hget, hrest⟩ := getElem?_of_drop_eq_cons hd
    have hih := ih hrest
    rw [nextScope_of_require base hget] at hih
    rw [walk]
    exact hih
  | skip p position call rest hc ih =>
    intro hd
    obtain ⟨hget, hrest⟩ := getElem?_of_drop_eq_cons hd
    rw [walk_call_of_none hc, ih hrest, nextScope_of_skip base hget hc]
  | expand p position call callee rest hc ihinner ihrest =>
    intro hd
    obtain ⟨hget, hrest⟩ := getElem?_of_drop_eq_cons hd
    -- the tree of the callee takes the next scopes, and the rest goes on behind them
    have hinner := map_scope_tour_of_walk (ihinner rfl)
    have hscope : (step p position call callee).scope env active base =
        p.nextScope env active base position := rfl
    rw [walk_call_of_some hc, entered_append, List.map_append, List.length_append, hinner,
      ihrest hrest, nextScope_of_expand base hget hc, hscope, List.range'_append_1]

/-- The scopes of the nodes in the order of the walk are numbered one after the other. -/
theorem map_scope_tour (base : ScopeId) (p : CallPath) :
    (entered (p.tour env active)).map (scope env active base) =
      List.range' (p.scope env active base) (entered (p.tour env active)).length :=
  map_scope_tour_of_walk (map_scope_walk base p 0 _ rfl)

/-- A path is entered where a visit enters it. -/
theorem mem_entered_iff {visits : List Visit} {p : CallPath} :
    p ∈ entered visits ↔ .enter p ∈ visits := by
  rw [entered, List.mem_filterMap]
  constructor
  · rintro ⟨visit, hv, hp⟩
    cases visit with
    | enter q =>
      cases hp
      exact hv
    | require => cases hp
    | leave => cases hp
  · exact fun hp => ⟨.enter p, hp, rfl⟩

/-- Where there is a path, its first function can be expanded. -/
theorem Valid.exists_root {p : CallPath} (hp : p.Valid env active entry) :
    ∃ summary, env.find? entry = some summary ∧ entry ∉ active := by
  induction p with
  | root name summary =>
    obtain ⟨rfl, hs, ha⟩ := hp
    exact ⟨summary, hs, ha⟩
  | step caller position call callee ih => exact ih hp.1

/-- Different nodes of a call tree have different scopes. -/
theorem scope_injective {base : ScopeId} {p q : CallPath} (hp : p.Valid env active entry)
    (hq : q.Valid env active entry)
    (h : p.scope env active base = q.scope env active base) : p = q := by
  obtain ⟨summary, hs, ha⟩ := hp.exists_root
  have hnodup : ((entered ((root entry summary).tour env active)).map
      (scope env active base)).Nodup := by
    rw [map_scope_tour]
    exact List.nodup_range'
  exact List.inj_on_of_nodup_map hnodup (mem_entered_iff.mpr ((mem_tour_iff hs ha).mpr hp))
    (mem_entered_iff.mpr ((mem_tour_iff hs ha).mpr hq)) h

/-- The scopes of a call tree start with that of its root. -/
theorem le_scope (env : Environment) (active : List String) (base : ScopeId) (p : CallPath) :
    base ≤ p.scope env active base := by
  induction p with
  | root name summary => exact Nat.le_refl _
  | step caller position call callee ih =>
    exact Nat.le_trans ih (Nat.le_trans (Nat.le_add_right _ 1) (Nat.le_add_right _ _))

end

end CallPath

end SummaryInlining
