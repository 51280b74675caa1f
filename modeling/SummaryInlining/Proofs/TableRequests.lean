import Mathlib.Data.List.DropRight
import Mathlib.Data.List.Induction
import Mathlib.Data.Set.Function
import SummaryInlining.Data.MemoTable
import SummaryInlining.Proofs.Runs

/-!
# What a table that fills itself in has been asked for

A table takes requests to `get` a value, to say whether it `has` one, and to `clear` all of them.
What it does with the next request depends on the keys that it was asked for since it was last
cleared (`asked`): a key among them has the value that was answered then, and the value of any other
key is made now. This holds as far as keys are identified by different identities, for values that
are made by actions on a world of their own (`serves_runAll`).

The induction is on the requests from the last one on. What it carries is that the keys of the table
are those asked for, each one in its first place, and that the values stored for them are those that
were answered (`Remembers`).
-/

set_option autoImplicit false

namespace SummaryInlining

namespace MemoTable

/-- A request to a table. -/
inductive Request (κ : Type) where
  | get (key : κ)
  | has (key : κ)
  | clear

/-- What a table answers to a request. -/
inductive Answer (α : Type) where
  | value (value : α)
  | present (isPresent : Bool)
  | cleared

namespace Request

variable {κ : Type}

def isClear : Request κ → Bool
  | .get _ => false
  | .has _ => false
  | .clear => true

/-- The key that a request is about. -/
def key? : Request κ → Option κ
  | .get key => some key
  | .has key => some key
  | .clear => none

/-- The key that a request wants the value of. -/
def wanted? : Request κ → Option κ
  | .get key => some key
  | .has _ => none
  | .clear => none

end Request

/-- The keys of which the value was wanted since the table was last cleared, in order and with
repetition. -/
def asked {κ : Type} (requests : List (Request κ)) : List κ :=
  (requests.rtakeWhile fun request => !request.isClear).filterMap Request.wanted?

section

variable {κ : Type} (requests : List (Request κ)) (key : κ)

/-- Getting the value of a key asks for it. -/
@[simp] theorem asked_append_get : asked (requests ++ [.get key]) = asked requests ++ [key] := by
  simp [asked, Request.isClear, Request.wanted?]

/-- Looking whether a key has a value does not ask for it. -/
@[simp] theorem asked_append_has : asked (requests ++ [.has key]) = asked requests := by
  simp [asked, Request.isClear, Request.wanted?]

/-- Nothing has been asked for since the table was last cleared. -/
@[simp] theorem asked_append_clear : asked (requests ++ [.clear]) = [] := by
  simp [asked, Request.isClear]

/-- The keys asked for are among those that the requests are about. -/
theorem exists_request_of_mem_asked (h : key ∈ asked requests) :
    ∃ request ∈ requests, key ∈ request.key? := by
  obtain ⟨request, hmem, hwanted⟩ := List.mem_filterMap.mp h
  refine ⟨request, (List.rtakeWhile_suffix _ _).mem hmem, ?_⟩
  cases request with
  | get key => exact hwanted
  | has key => cases hwanted
  | clear => cases hwanted

end

section

variable {κ ι α σ : Type} [DecidableEq ι] {identify : κ → ι}

/-- Makes a request. The value of a key is made by `make`. -/
def Request.perform (make : κ → StateM σ α) (request : Request κ) (table : MemoTable identify α) :
    StateM σ (Answer α × MemoTable identify α) :=
  match request with
  | .get key => do
    let (value, after) ← table.get make key
    return (.value value, after)
  | .has key => pure (.present (table.contains key), table)
  | .clear => pure (.cleared, .empty)

/-- The keys that values are stored for, in the order in which a table lists them. -/
def keys (table : MemoTable identify α) : List κ := table.entries.map Prod.fst

/-! ## Looking up and storing -/

section

variable {make : κ → StateM σ α} {table : MemoTable identify α} {key : κ}

/-- Keys that count as the same have the same value. -/
theorem find?_congr {other : κ} (h : identify key = identify other) :
    table.find? key = table.find? other := by
  rw [find?, find?, h]

/-- A stored value is answered, and nothing is made. -/
theorem run_get_of_some {value : α} (h : table.find? key = some value) (world : σ) :
    ((Request.get key).perform make table).run world = ((.value value, table), world) := by
  rw [Request.perform, get, h]
  rfl

/-- A value that is missing is made and stored. -/
theorem run_get_of_none (h : table.find? key = none) (world : σ) :
    ((Request.get key).perform make table).run world =
      ((.value ((make key).run world).1, table.push key ((make key).run world).1),
        ((make key).run world).2) := by
  rw [Request.perform, get, h]
  rfl

variable {K : Set κ} (hidentify : Set.InjOn identify K) (htable : ∀ key ∈ table.keys, key ∈ K)
  (hkey : key ∈ K)

include hidentify htable hkey

/-- Among keys with different identities, the value found for a key is one stored for this key. -/
theorem mem_entries_of_find? {value : α} (h : table.find? key = some value) :
    (key, value) ∈ table.entries := by
  obtain ⟨entry, hfind, rfl⟩ := Option.map_eq_some_iff.mp h
  have hmem := List.mem_of_find?_eq_some hfind
  have hsame : entry.1 = key :=
    hidentify (htable _ (List.mem_map_of_mem hmem)) hkey (by simpa using List.find?_some hfind)
  rw [← hsame]
  exact hmem

/-- A key has a value exactly if it is listed, where no two listed keys count as the same. -/
theorem isSome_find?_iff : (table.find? key).isSome ↔ key ∈ table.keys := by
  constructor
  · intro h
    obtain ⟨value, hvalue⟩ := Option.isSome_iff_exists.mp h
    exact List.mem_map_of_mem (mem_entries_of_find? hidentify htable hkey hvalue)
  · intro h
    obtain ⟨entry, hmem, rfl⟩ := List.mem_map.mp h
    rw [find?, Option.isSome_map, List.find?_isSome]
    exact ⟨entry, hmem, by simp⟩

end

/-! ## What is remembered -/

variable [DecidableEq κ]

/-- A table holds what it was asked for. -/
structure Remembers (table : MemoTable identify α) (requests : List (Request κ))
    (answers : List (Answer α)) : Prop where
  answered : answers.length = requests.length
  /-- Each key stands in its first place. -/
  order : table.keys = (asked requests).eraseDups
  /-- The value stored for a key is the one that was answered when it was wanted. -/
  values : ∀ {earlier later : List (Request κ)} {key : κ},
    requests = earlier ++ .get key :: later → .clear ∉ later →
      ∃ value, answers[earlier.length]? = some (.value value) ∧ table.find? key = some value

/-- What a table does behind requests that it has answered so, in the world that they have left. -/
structure Serves (table : MemoTable identify α) (make : κ → StateM σ α) (K : Set κ)
    (requests : List (Request κ)) (answers : List (Answer α)) (world : σ) : Prop where
  /-- It lists the keys in the order in which their values were first wanted. -/
  order : table.entries.map Prod.fst = (asked requests).eraseDups
  /-- The value of a key that was not asked for since the table was last cleared is made now, and
  stored behind the others. -/
  first : ∀ key ∈ K, key ∉ asked requests →
    ∀ value after, (make key).run world = (value, after) →
      ((Request.get key).perform make table).run world =
        ((.value value, table.push key value), after)
  /-- The value that was answered for a key is listed with it, and answered again, until the table
  is cleared. Nothing is made for that. -/
  again : ∀ earlier key later, requests = earlier ++ .get key :: later → .clear ∉ later →
    ∃ value, answers[earlier.length]? = some (.value value) ∧ (key, value) ∈ table.entries ∧
      ((Request.get key).perform make table).run world = ((.value value, table), world)
  /-- To say whether there is a value changes nothing. -/
  has : ∀ key ∈ K, ((Request.has key).perform make table).run world =
    ((.present (decide (key ∈ asked requests)), table), world)
  clear : (Request.clear.perform make table).run world = ((.cleared, MemoTable.empty), world)

namespace Remembers

variable {table : MemoTable identify α} {requests : List (Request κ)} {answers : List (Answer α)}

/-- The empty table holds what it was asked for, which is nothing. -/
theorem empty : (MemoTable.empty : MemoTable identify α).Remembers [] [] where
  answered := rfl
  order := rfl
  values h := by simp at h

/-- A table lists exactly the keys that it was asked for. -/
theorem mem_keys_iff (h : table.Remembers requests answers) {key : κ} :
    key ∈ table.keys ↔ key ∈ asked requests := by
  rw [h.order, List.mem_eraseDups]

/-- All listed keys are among those that requests are about. -/
theorem mem_of_mem_keys (h : table.Remembers requests answers) {K : Set κ}
    (hrequests : ∀ request ∈ requests, ∀ key ∈ request.key?, key ∈ K) :
    ∀ key ∈ table.keys, key ∈ K := by
  intro key hkey
  obtain ⟨request, hmem, hkey⟩ := exists_request_of_mem_asked _ _ (h.mem_keys_iff.mp hkey)
  exact hrequests request hmem key hkey

/-- What the next request has to do for a table to go on holding what it was asked for. -/
theorem append (h : table.Remembers requests answers) {request : Request κ} {answer : Answer α}
    {after : MemoTable identify α} (horder : after.keys = (asked (requests ++ [request])).eraseDups)
    (hget : ∀ key, request = .get key →
      ∃ value, answer = .value value ∧ after.find? key = some value)
    (hkeeps : request ≠ .clear → ∀ key value,
      table.find? key = some value → after.find? key = some value) :
    after.Remembers (requests ++ [request]) (answers ++ [answer]) where
  answered := by simp [h.answered]
  order := horder
  values := by
    intro earlier later key hsplit hclear
    rcases List.eq_nil_or_concat' later with rfl | ⟨later, last, rfl⟩
    · -- the last request is the one that wanted the key
      obtain ⟨rfl, hrequest⟩ := List.append_inj' hsplit rfl
      obtain ⟨value, rfl, hvalue⟩ := hget key (List.singleton_inj.mp hrequest)
      exact ⟨value, by simp [← h.answered], hvalue⟩
    · rw [← List.cons_append, ← List.append_assoc] at hsplit
      obtain ⟨rfl, hrequest⟩ := List.append_inj' hsplit rfl
      obtain rfl := List.singleton_inj.mp hrequest
      have hlast : request ≠ .clear := by
        rintro rfl
        exact hclear (by simp)
      obtain ⟨value, hanswer, hvalue⟩ :=
        h.values rfl fun hmem => hclear (List.mem_append_left _ hmem)
      have hlt : earlier.length < answers.length := (List.getElem?_eq_some_iff.mp hanswer).1
      exact ⟨value, (List.getElem?_append_left hlt).trans hanswer, hkeeps hlast key value hvalue⟩

section

variable (h : table.Remembers requests answers) {K : Set κ} (hidentify : Set.InjOn identify K)
  (hrequests : ∀ request ∈ requests, ∀ key ∈ request.key?, key ∈ K)

include h hidentify hrequests

/-- Among keys with different identities, there is a value for those that were asked for. -/
theorem isSome_find?_iff_mem_asked {key : κ} (hkey : key ∈ K) :
    (table.find? key).isSome ↔ key ∈ asked requests :=
  (isSome_find?_iff hidentify (h.mem_of_mem_keys hrequests) hkey).trans h.mem_keys_iff

/-- Whatever the request, a table goes on holding what it was asked for. -/
theorem perform (make : κ → StateM σ α) {request : Request κ}
    (hrequest : ∀ key ∈ request.key?, key ∈ K) (world : σ) :
    ∃ answer after world', (request.perform make table).run world = ((answer, after), world') ∧
      after.Remembers (requests ++ [request]) (answers ++ [answer]) := by
  cases request with
  | get key =>
    have hstored := h.isSome_find?_iff_mem_asked hidentify hrequests (hrequest key rfl)
    cases hfind : table.find? key with
    | some value =>
      have hkey : key ∈ asked requests := hstored.mp (by rw [hfind]; rfl)
      refine ⟨_, _, _, run_get_of_some hfind world, h.append ?_ ?_ fun _ _ _ hvalue => hvalue⟩
      · rw [asked_append_get, eraseDups_append_singleton, if_pos hkey, h.order]
      · rintro other ⟨⟩
        exact ⟨value, rfl, hfind⟩
    | none =>
      have hkey : key ∉ asked requests := mt hstored.mpr (by rw [hfind]; exact Bool.false_ne_true)
      refine ⟨_, _, _, run_get_of_none hfind world, h.append ?_ ?_ fun _ other value hvalue => ?_⟩
      · rw [asked_append_get, eraseDups_append_singleton, if_neg hkey, ← h.order]
        exact List.map_append
      · rintro other ⟨⟩
        exact ⟨_, rfl, find?_push_self table key _ hfind⟩
      · rw [find?_push_of_ne, hvalue]
        intro hsame
        rw [find?_congr hsame, hfind] at hvalue
        cases hvalue
  | has key =>
    refine ⟨_, _, _, rfl, h.append ?_ ?_ fun _ _ _ hvalue => hvalue⟩
    · rw [asked_append_has, h.order]
    · rintro other ⟨⟩
  | clear =>
    refine ⟨_, _, _, rfl, h.append ?_ ?_ fun hne => absurd rfl hne⟩
    · rw [asked_append_clear]
      rfl
    · rintro other ⟨⟩

/-- A table that remembers what it was asked for serves the next request. -/
theorem serves (make : κ → StateM σ α) (world : σ) :
    table.Serves make K requests answers world := by
  have htable : ∀ key ∈ table.keys, key ∈ K := h.mem_of_mem_keys hrequests
  have hstored {key : κ} (hkey : key ∈ K) : (table.find? key).isSome ↔ key ∈ asked requests :=
    h.isSome_find?_iff_mem_asked hidentify hrequests hkey
  refine ⟨h.order, ?first, ?again, ?has, rfl⟩
  case first =>
    intro key hkey hnew value after hmake
    have hfind : table.find? key = none :=
      Option.not_isSome_iff_eq_none.mp (mt (hstored hkey).mp hnew)
    rw [run_get_of_none hfind, hmake]
  case again =>
    intro earlier key later hsplit hclear
    obtain ⟨value, hanswer, hfind⟩ := h.values hsplit hclear
    have hmem : Request.get key ∈ requests := by
      rw [hsplit]
      exact List.mem_append_right _ List.mem_cons_self
    exact ⟨value, hanswer,
      mem_entries_of_find? hidentify htable (hrequests _ hmem key rfl) hfind,
      run_get_of_some hfind world⟩
  case has =>
    intro key hkey
    have hpresent : table.contains key = decide (key ∈ asked requests) := by
      rw [contains, Bool.eq_iff_iff, decide_eq_true_iff]
      exact hstored hkey
    rw [← hpresent]
    rfl

end

end Remembers

/-- A table that fills itself in, with keys of different identities and values made by actions on
any world. -/
theorem serves_runAll {K : Set κ} (hidentify : Set.InjOn identify K) (make : κ → StateM σ α)
    {requests : List (Request κ)} (hrequests : ∀ request ∈ requests, ∀ key ∈ request.key?, key ∈ K)
    (world : σ) :
    ∃ answers, ∃ table : MemoTable identify α, ∃ after,
      (runAll (Request.perform make) requests .empty).run world = ((answers, table), after) ∧
        table.Serves make K requests answers after := by
  suffices hrun : ∃ answers, ∃ table : MemoTable identify α, ∃ after,
      (runAll (Request.perform make) requests .empty).run world = ((answers, table), after) ∧
        table.Remembers requests answers by
    obtain ⟨answers, table, after, hrun, hremembers⟩ := hrun
    exact ⟨answers, table, after, hrun, hremembers.serves hidentify hrequests make after⟩
  induction requests using List.reverseRecOn with
  | nil => exact ⟨[], .empty, world, rfl, .empty⟩
  | append_singleton requests request ih =>
    obtain ⟨hfront, hrequest⟩ := List.forall_mem_append.mp hrequests
    obtain ⟨answers, table, between, hrun, hremembers⟩ := ih hfront
    obtain ⟨answer, last, after, hperform, hlast⟩ := hremembers.perform hidentify hfront make
      (List.forall_mem_singleton.mp hrequest) between
    exact ⟨answers ++ [answer], last, after, run_runAll_append_singleton hrun hperform, hlast⟩

end

end MemoTable

end SummaryInlining
