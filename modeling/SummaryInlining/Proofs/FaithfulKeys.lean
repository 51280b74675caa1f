import SummaryInlining.Proofs.NumberReading
import SummaryInlining.Proofs.TableRequests
import SummaryInlining.Summary.Basic

/-!
# Keys of locations and variables

Locations and variables are identified by texts. Such a key ends with a numeral, in which there is
no separator, so it can be taken apart at its last separator, whatever stands in front of it
(`append_cons_inj_of_notMem_right`); in particular a file may have any name. Keys are the same
exactly when the values are, as far as the numbers in them have different texts, and a table that
identifies variables by their keys holds a value for each variable (`keys_are_faithful`).
-/

set_option autoImplicit false

namespace SummaryInlining

/-- Two texts that are the same have the same last separator. -/
theorem append_cons_inj_of_notMem_right {separator : Char} {front front' last last' : List Char}
    (hlast : separator ∉ last) (hlast' : separator ∉ last')
    (h : front ++ separator :: last = front' ++ separator :: last') :
    front = front' ∧ last = last' := by
  -- one front begins with the other one, and the separator cannot come again behind it
  have hnothing {between behind behind' : List Char} (hbehind : separator ∉ behind)
      (hsplit : separator :: behind = between ++ separator :: behind') : between = [] := by
    cases between with
    | nil => rfl
    | cons c between =>
      rw [(List.cons.inj hsplit).2] at hbehind
      exact absurd (List.mem_append_right _ List.mem_cons_self) hbehind
  rcases List.append_eq_append_iff.mp h with ⟨between, hfront, hsplit⟩ | ⟨between, hfront, hsplit⟩
  · obtain rfl := hnothing hlast hsplit
    exact ⟨by simpa using hfront.symm, by simpa using hsplit⟩
  · obtain rfl := hnothing hlast' hsplit
    exact ⟨by simpa using hfront, by simpa using hsplit.symm⟩

/-- Different sorts have different names. -/
theorem ValueSort.name_injective : Function.Injective ValueSort.name := by
  intro s s' h
  cases s <;> cases s' <;> simp_all [ValueSort.name]

/-- No separator occurs in a numeral. -/
theorem notMem_integerText {c : Char} (h : Json.isNumeralChar c = false) (n : Int) :
    c ∉ (Number.integerText n).toList := by
  intro hmem
  rw [(Number.isNumeral_integerText n).numeral c hmem] at h
  cases h

section

variable {S : Set Int} (hnumbers : Set.InjOn Number.integerText S)

include hnumbers

/-- A text with a separator and a number behind it says what stands in front and which number it
is. -/
theorem append_integerText_inj {front front' : List Char} {separator : Char} {n n' : Int}
    (hseparator : Json.isNumeralChar separator = false) (hn : n ∈ S) (hn' : n' ∈ S)
    (h : front ++ separator :: (Number.integerText n).toList =
      front' ++ separator :: (Number.integerText n').toList) : front = front' ∧ n = n' := by
  obtain ⟨hfront, hlast⟩ := append_cons_inj_of_notMem_right (notMem_integerText hseparator n)
    (notMem_integerText hseparator n') h
  exact ⟨hfront, hnumbers hn hn' (String.toList_inj.mp hlast)⟩

/-- Different locations have different texts, if different numbers in them have. -/
theorem SourceLocation.eq_of_text_eq {l l' : SourceLocation} (hl : l.line ∈ S ∧ l.column ∈ S)
    (hl' : l'.line ∈ S ∧ l'.column ∈ S) (h : l.text = l'.text) : l = l' := by
  have hlist (l : SourceLocation) : l.text.toList =
      (l.fileID.toList ++ ':' :: (Number.integerText l.line).toList) ++
        ':' :: (Number.integerText l.column).toList := by
    simp [SourceLocation.text]
  have htext : l.text.toList = l'.text.toList := congrArg String.toList h
  rw [hlist, hlist] at htext
  obtain ⟨hfront, hcolumn⟩ := append_integerText_inj hnumbers rfl hl.2 hl'.2 htext
  obtain ⟨hfile, hline⟩ := append_integerText_inj hnumbers rfl hl.1 hl'.1 hfront
  obtain ⟨fileID, line, column⟩ := l
  obtain ⟨fileID', line', column'⟩ := l'
  obtain rfl : fileID = fileID' := String.toList_inj.mp hfile
  obtain rfl : line = line' := hline
  obtain rfl : column = column' := hcolumn
  rfl

/-- Variables are identified by their keys. -/
theorem Var.injOn_key : Set.InjOn Var.key {v | v.id ∈ S} := by
  intro v hv v' hv' h
  have hlist (v : Var) : v.key.toList =
      v.sort.name.toList ++ '#' :: (Number.integerText v.id).toList := by
    simp [Var.key]
  have htext : v.key.toList = v'.key.toList := congrArg String.toList h
  rw [hlist, hlist] at htext
  obtain ⟨hname, hid⟩ := append_integerText_inj hnumbers rfl hv hv' htext
  obtain ⟨sort, id⟩ := v
  obtain ⟨sort', id'⟩ := v'
  obtain rfl : sort = sort' := ValueSort.name_injective (String.toList_inj.mp hname)
  obtain rfl : id = id' := hid
  rfl

end

/-- The texts of numbers tell all integers of the format apart, among them all that fit into the
significand. Whenever they tell the numbers of some locations and variables apart, keys of locations
are the same exactly for the same file, line and column, whatever the file is called, and keys of
variables are the same exactly for the same sort and number. So a table that identifies variables by
their keys, and has values made by actions on any world, makes the value of a variable exactly when
it is asked for it the first time since it was last cleared, answers it until the next time that it
is cleared, and lists the variables in the order in which they were first asked for; and it changes
nothing when it says whether it has a value. -/
theorem keys_are_faithful :
    (Set.InjOn Number.integerText {n | Number.IsExact n} ∧
      ∀ n : Int, n.natAbs < 2 ^ Number.significantBits → Number.IsExact n) ∧
    ∀ S : Set Int, Set.InjOn Number.integerText S →
      (∀ l l' : SourceLocation, l.line ∈ S ∧ l.column ∈ S → l'.line ∈ S ∧ l'.column ∈ S →
        (l.text = l'.text ↔ l.fileID = l'.fileID ∧ l.line = l'.line ∧ l.column = l'.column)) ∧
      (∀ v v' : Var, v.id ∈ S → v'.id ∈ S →
        (v.key = v'.key ↔ v.sort = v'.sort ∧ v.id = v'.id)) ∧
      ∀ {σ α : Type} (make : Var → StateM σ α) (requests : List (MemoTable.Request Var)),
        (∀ request ∈ requests, ∀ v ∈ request.key?, v.id ∈ S) → ∀ world : σ,
          ∃ answers, ∃ table : MemoTable Var.key α, ∃ after,
            (runAll (MemoTable.Request.perform make) requests .empty).run world =
              ((answers, table), after) ∧
            table.Serves make {v | v.id ∈ S} requests answers after := by
  refine ⟨⟨Number.injOn_integerText, fun n => Number.isExact_of_natAbs_lt⟩,
    fun S hnumbers => ⟨?_, ?_, ?_⟩⟩
  · intro l l' hl hl'
    constructor
    · intro h
      obtain rfl := SourceLocation.eq_of_text_eq hnumbers hl hl' h
      exact ⟨rfl, rfl, rfl⟩
    · rintro ⟨hfile, hline, hcolumn⟩
      rw [SourceLocation.text, hfile, hline, hcolumn, ← SourceLocation.text]
  · intro v v' hv hv'
    constructor
    · intro h
      obtain rfl := Var.injOn_key hnumbers hv hv' h
      exact ⟨rfl, rfl⟩
    · rintro ⟨hsort, hid⟩
      rw [Var.key, hsort, hid, ← Var.key]
  · intro σ α make requests hrequests world
    exact MemoTable.serves_runAll (Var.injOn_key hnumbers) make hrequests world

end SummaryInlining
