import SummaryInlining.Proofs.Freshness
import SummaryInlining.Proofs.Resemblance
import SummaryInlining.Proofs.SystemWarnings

/-!
# Queries on one supply

Queries that draw from one supply, one after the other, can be merged. Each of them is answered as
it would be alone, with its variables counted from where the supply stands, and the ones that fail
move the supply on as well (`instantiate_eq_shifted`). So the variables of an answer are handed out
behind those of all answers before it, no two answers share one, and the merged system has the
warnings that the queries have alone (`queries_on_one_supply_can_be_merged`).
-/

set_option autoImplicit false

namespace SummaryInlining

/-! ## One query -/

/-- An instantiation counts its variables from where the supply stands, and does so alone
otherwise, whether it is cut off or not. -/
theorem instantiate_eq_shifted (env : Environment) (entry : String) (naming : Naming) :
    (instantiate env entry naming).1 = (instantiate env entry .new).1 ∧
      (instantiate env entry naming).2.constraints.toList =
        (instantiate env entry .new).2.constraints.toList.map
          (Requirement.rename (Var.shift naming.count)) ∧
      (instantiate env entry naming).2.naming.count =
        naming.count + (instantiate env entry .new).2.naming.count := by
  have hcount : naming.count = Naming.new.count + naming.count := (Nat.zero_add _).symm
  have hself : Relabels (fun _ => Var.id) Set.univ env env :=
    .of_find?_eq (fun _ _ => rfl) fun _ _ _ => trivial
  obtain ⟨houtcome, h⟩ := resembles_instantiate hself (Set.mem_univ entry) hcount
  exact ⟨houtcome, h.constraints_eq, h.count_eq.trans (Nat.add_comm _ _)⟩

/-- The constraints of an instantiation, or the error that has cut it off. -/
abbrev Answer := Except ArityMismatch (List InstantiatedConstraint)

namespace Answer

/-- The constraints of an answer as a system. An error comes without any. -/
def system : Answer → List (Constraint CallStack)
  | .ok constraints => constraints.map .require
  | .error _ => []

def occurrences (answer : Answer) : List Var := answer.system.flatMap Constraint.occurrences

def shift (n : Nat) (answer : Answer) : Answer :=
  answer.map (List.map (Requirement.rename (Var.shift n)))

/-- The system of a shifted answer is the shifted system. -/
theorem system_shift (n : Nat) (answer : Answer) :
    (answer.shift n).system = answer.system.map (Constraint.rename (Var.shift n)) := by
  cases answer with
  | error _ => rfl
  | ok constraints =>
    show (constraints.map _).map _ = (constraints.map _).map _
    rw [List.map_map, List.map_map]
    rfl

end Answer

/-- A function to instantiate, and the environment to do so in. -/
structure Query where
  environment : Environment
  entry : String

namespace Query

/-- The answer to a query, and the naming after it. -/
def answer (q : Query) (naming : Naming) : Answer × Naming :=
  let instantiated := instantiate q.environment q.entry naming
  (instantiated.1.map fun _ => instantiated.2.constraints.toList, instantiated.2.naming)

/-- How many variables a query hands out when it has a supply of its own. -/
def size (q : Query) : Nat := (q.answer .new).2.count

/-- The warnings of a query that has a supply of its own. A check that fails has none. -/
def warnings (q : Query) : List Warning :=
  match check q.environment q.entry with
  | .ok result => result.warnings
  | .error _ => []

/-- The answer to a query is that of a supply of its own, with all numbers higher by those handed
out before. -/
theorem answer_eq (q : Query) (naming : Naming) :
    (q.answer naming).1 = (q.answer .new).1.shift naming.count := by
  obtain ⟨houtcome, hconstraints, -⟩ := instantiate_eq_shifted q.environment q.entry naming
  unfold answer
  simp only [houtcome, hconstraints]
  cases (instantiate q.environment q.entry .new).1 <;> rfl

/-- A query hands out as many variables as with a supply of its own. -/
theorem count_answer (q : Query) (naming : Naming) :
    (q.answer naming).2.count = naming.count + q.size :=
  (instantiate_eq_shifted q.environment q.entry naming).2.2

/-- The variables of an answer are handed out between the query and the next one. -/
theorem range_occurrences (q : Query) (naming : Naming) {v : Var}
    (h : v ∈ (q.answer naming).1.occurrences) :
    (naming.count : Int) ≤ v.id ∧ v.id < (q.answer naming).2.count := by
  cases hok : (instantiate q.environment q.entry naming).1 with
  | error e =>
    simp only [answer, hok] at h
    exact absurd h List.not_mem_nil
  | ok _ =>
    simp only [answer, hok] at h
    obtain ⟨c, hc, hv⟩ := List.mem_flatMap.mp h
    obtain ⟨requirement, hmem, rfl⟩ := List.mem_map.mp hc
    obtain ⟨scope, u, hnamed⟩ :=
      namedBetween_of_mem_instantiate (Array.mem_toList_iff.mp hmem) hv
    exact (grows_instantiate q.environment q.entry naming).range hnamed

/-- The warnings about an answer are those of a query with a supply of its own. -/
theorem unresolvedAsserts_answer (q : Query) (naming : Naming) :
    unresolvedAsserts (q.answer naming).1.system = q.warnings := by
  rw [answer_eq, Answer.system_shift, unresolvedAsserts_rename (Var.rename_shift_injective _).injOn]
  unfold Query.answer warnings check
  simp only
  cases (instantiate q.environment q.entry .new).1 <;> rfl

end Query

/-! ## One query after the other -/

/-- The answers to queries that are made one after the other, each with what the queries before it
have left of the supply. -/
def answers (naming : Naming) : List Query → List Answer
  | [] => []
  | q :: rest => (q.answer naming).1 :: answers (q.answer naming).2 rest

/-- Every query has an answer. -/
theorem length_answers (naming : Naming) (queries : List Query) :
    (answers naming queries).length = queries.length := by
  induction queries generalizing naming with
  | nil => rfl
  | cons q rest ih => exact congrArg Nat.succ (ih _)

/-- The answer to a query is shifted by the sizes of the queries before it. -/
theorem getElem?_answers {naming : Naming} {queries : List Query} {i : Nat} {q : Query}
    (h : queries[i]? = some q) :
    (answers naming queries)[i]? = some
      ((q.answer .new).1.shift (naming.count + ((queries.take i).map Query.size).sum)) := by
  induction queries generalizing naming i with
  | nil => cases h
  | cons first rest ih =>
    cases i with
    | zero =>
      obtain rfl : first = q := Option.some.inj h
      exact congrArg some (first.answer_eq naming)
    | succ i =>
      have hnext := @ih (first.answer naming).2 i h
      rw [first.count_answer naming, Nat.add_assoc] at hnext
      exact hnext

/-- No answer has a variable that was handed out before all of the queries. -/
theorem le_id_of_mem_answers {naming : Naming} {queries : List Query} {answer : Answer}
    (h : answer ∈ answers naming queries) {v : Var} (hv : v ∈ answer.occurrences) :
    (naming.count : Int) ≤ v.id := by
  induction queries generalizing naming with
  | nil => cases h
  | cons q rest ih =>
    rcases List.mem_cons.mp h with rfl | h
    · exact (q.range_occurrences naming hv).1
    · have hnext := ih h
      rw [q.count_answer naming] at hnext
      omega

/-- Answers to different queries share no variable. -/
theorem pairwise_disjoint_answers (naming : Naming) (queries : List Query) :
    (answers naming queries).Pairwise fun earlier later =>
      List.Disjoint earlier.occurrences later.occurrences := by
  induction queries generalizing naming with
  | nil => exact List.Pairwise.nil
  | cons q rest ih =>
    refine List.Pairwise.cons ?_ (ih _)
    intro later hlater v hv hv'
    have hbefore := (q.range_occurrences naming hv).2
    have hbehind := le_id_of_mem_answers hlater hv'
    omega

/-- The warnings about the answers, one after the other, are those of the queries. -/
theorem flatMap_unresolvedAsserts_answers (naming : Naming) (queries : List Query) :
    ((answers naming queries).map Answer.system).flatMap unresolvedAsserts =
      queries.flatMap Query.warnings := by
  induction queries generalizing naming with
  | nil => rfl
  | cons q rest ih =>
    rw [answers, List.map_cons, List.flatMap_cons, List.flatMap_cons, q.unresolvedAsserts_answer,
      ih]

/-- On whatever supply a function is instantiated, the result is the one on a new supply with the
count of the supply added to every variable, and the count goes on by as much. So queries that are
made one after the other on one supply, also after some have failed, get the answers that they get
alone, shifted by what was handed out before. No two of the answers share a variable, and the
warnings of all answers merged are those of the queries alone, without later ones at a location
that has one already. -/
theorem queries_on_one_supply_can_be_merged :
    (∀ (env : Environment) (entry : String) (naming : Naming),
      (instantiate env entry naming).1 = (instantiate env entry .new).1 ∧
      (instantiate env entry naming).2.constraints.toList =
        (instantiate env entry .new).2.constraints.toList.map
          (Requirement.rename (Var.shift naming.count)) ∧
      (instantiate env entry naming).2.naming.count =
        naming.count + (instantiate env entry .new).2.naming.count) ∧
    ∀ (naming : Naming) (queries : List Query),
      (answers naming queries).length = queries.length ∧
      (∀ (i : Nat) (q : Query), queries[i]? = some q →
        (answers naming queries)[i]? = some
          ((q.answer .new).1.shift (naming.count + ((queries.take i).map Query.size).sum))) ∧
      ((answers naming queries).Pairwise fun earlier later =>
        List.Disjoint earlier.occurrences later.occurrences) ∧
      unresolvedAsserts ((answers naming queries).map Answer.system).flatten =
        onePerLocation (queries.flatMap Query.warnings) := by
  refine ⟨instantiate_eq_shifted, fun naming queries => ?_⟩
  have hdisjoint := pairwise_disjoint_answers naming queries
  refine ⟨length_answers naming queries, fun i q h => getElem?_answers h, hdisjoint, ?_⟩
  rw [unresolvedAsserts_flatten (List.pairwise_map.mpr hdisjoint),
    flatMap_unresolvedAsserts_answers]

end SummaryInlining
