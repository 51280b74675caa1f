/-!
# Lists

Facts about lists that say nothing about summaries: what `List.eraseDups` keeps when lists are put
together or filtered, and what a search from the end of a list finds.
-/

set_option autoImplicit false

namespace SummaryInlining

/-! ## Dropping repetitions -/

section

variable {α β : Type} [DecidableEq α]

/-- A key that has come before keeps its first place. -/
theorem eraseDups_append_singleton (keys : List α) (key : α) :
    (keys ++ [key]).eraseDups =
      if key ∈ keys then keys.eraseDups else keys.eraseDups ++ [key] := by
  rw [List.eraseDups_append]
  by_cases hmem : key ∈ keys
  · simp [hmem, List.removeAll]
  · simp [hmem, List.removeAll, List.eraseDups_cons]

/-- A list without its repetitions has none. -/
theorem nodup_eraseDups : (xs : List α) → xs.eraseDups.Nodup
  | [] => List.nodup_nil
  | x :: rest => by
    rw [List.eraseDups_cons, List.nodup_cons, List.mem_eraseDups]
    exact ⟨by simp, nodup_eraseDups (rest.filter fun y => !y == x)⟩
termination_by xs => xs.length
decreasing_by exact Nat.lt_succ_of_le (List.length_filter_le _ rest)

/-- A list without repetitions is left alone. -/
theorem eraseDups_of_nodup {xs : List α} (h : xs.Nodup) : xs.eraseDups = xs := by
  induction xs with
  | nil => rfl
  | cons x rest ih =>
    obtain ⟨hx, hrest⟩ := List.nodup_cons.mp h
    have hfilter : rest.filter (fun y => !y == x) = rest := by
      rw [List.filter_eq_self]
      intro y hy
      have hne : y ≠ x := fun heq => hx (heq ▸ hy)
      simp [hne]
    rw [List.eraseDups_cons, hfilter, ih hrest]

/-- A choice by value commutes with dropping repetitions, as it takes all copies of a value or
none. -/
theorem eraseDups_filter (p : α → Bool) :
    (xs : List α) → (xs.filter p).eraseDups = xs.eraseDups.filter p
  | [] => rfl
  | x :: rest => by
    have hcomm : (rest.filter fun y => !y == x).filter p =
        (rest.filter p).filter fun y => !y == x := by
      rw [List.filter_filter, List.filter_filter]
      exact List.filter_congr fun y _ => Bool.and_comm _ _
    have ih := eraseDups_filter p (rest.filter fun y => !y == x)
    rw [hcomm] at ih
    rw [List.eraseDups_cons]
    by_cases hx : p x = true
    · rw [List.filter_cons_of_pos hx, List.filter_cons_of_pos hx, List.eraseDups_cons, ih]
    · have hfilter : (rest.filter p).filter (fun y => !y == x) = rest.filter p := by
        rw [List.filter_eq_self]
        intro y hy
        have hne : y ≠ x := fun heq => hx (heq ▸ (List.mem_filter.mp hy).2)
        simp [hne]
      rw [List.filter_cons_of_neg hx, List.filter_cons_of_neg hx, ← ih, hfilter]
termination_by xs => xs.length
decreasing_by exact Nat.lt_succ_of_le (List.length_filter_le _ rest)

/-- Repetitions within two parts go when those of the whole list do. -/
theorem eraseDups_append_eraseDups (xs ys : List α) :
    (xs.eraseDups ++ ys.eraseDups).eraseDups = (xs ++ ys).eraseDups := by
  have hremove : ys.eraseDups.removeAll xs.eraseDups = ys.eraseDups.removeAll xs := by
    apply List.filter_congr
    intro y _
    simp [List.mem_eraseDups]
  rw [List.eraseDups_append, List.eraseDups_append, eraseDups_of_nodup (nodup_eraseDups xs),
    hremove]
  unfold List.removeAll
  rw [eraseDups_filter, eraseDups_filter, eraseDups_of_nodup (nodup_eraseDups ys)]

/-- Repetitions within the first part go when those of the whole list do. -/
theorem eraseDups_eraseDups_append (xs ys : List α) :
    (xs.eraseDups ++ ys).eraseDups = (xs ++ ys).eraseDups := by
  rw [← eraseDups_append_eraseDups, eraseDups_of_nodup (nodup_eraseDups xs),
    eraseDups_append_eraseDups]

/-- Repetitions within the second part go when those of the whole list do. -/
theorem eraseDups_append_eraseDups_right (xs ys : List α) :
    (xs ++ ys.eraseDups).eraseDups = (xs ++ ys).eraseDups := by
  rw [← eraseDups_append_eraseDups, eraseDups_of_nodup (nodup_eraseDups ys),
    eraseDups_append_eraseDups]

/-- Repetitions within the parts go when those of the whole list do. -/
theorem eraseDups_flatMap_eraseDups (f : β → List α) (xs : List β) :
    (xs.flatMap fun x => (f x).eraseDups).eraseDups = (xs.flatMap f).eraseDups := by
  induction xs with
  | nil => rfl
  | cons x rest ih =>
    rw [List.flatMap_cons, List.flatMap_cons, ← eraseDups_append_eraseDups, ih,
      eraseDups_of_nodup (nodup_eraseDups (f x)), eraseDups_append_eraseDups]

omit [DecidableEq α] in
/-- Images are dropped where the relation repeats them, which can be seen before the map. -/
theorem eraseDupsBy_map (f : α → β) (r : β → β → Bool) :
    (xs : List α) →
      (xs.map f).eraseDupsBy r = (xs.eraseDupsBy fun x y => r (f x) (f y)).map f
  | [] => rfl
  | x :: rest => by
    have ih := eraseDupsBy_map f r (rest.filter fun y => decide (r (f y) (f x) = false))
    rw [List.map_cons, List.eraseDupsBy_cons, List.eraseDupsBy_cons, List.map_cons, List.filter_map]
    exact congrArg (List.cons (f x)) ih
termination_by xs => xs.length
decreasing_by exact Nat.lt_succ_of_le (List.length_filter_le _ rest)

end

/-! ## Searching from the end -/

/-- A search from the end of a list finds the last element that answers. -/
theorem findSome?_reverse_eq_some_iff {α β : Type} {f : α → Option β} {xs : List α} {b : β} :
    xs.reverse.findSome? f = some b ↔
      ∃ before x behind, xs = before ++ x :: behind ∧ f x = some b ∧ ∀ y ∈ behind, f y = none := by
  rw [List.findSome?_eq_some_iff]
  constructor
  · rintro ⟨behind, x, before, hsplit, hx, hbehind⟩
    refine ⟨before.reverse, x, behind.reverse, ?_, hx, fun y hy => hbehind y (by simpa using hy)⟩
    rw [← List.reverse_reverse xs, hsplit]
    simp
  · rintro ⟨before, x, behind, rfl, hx, hbehind⟩
    exact ⟨behind.reverse, x, before.reverse, by simp, hx,
      fun y hy => hbehind y (by simpa using hy)⟩

end SummaryInlining
