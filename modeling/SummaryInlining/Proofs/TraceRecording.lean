import SummaryInlining.Proofs.LinkedRecorder

/-!
# What is recorded

The branches of a linked recorder that can be reached from its root make up the trace
(`LinkedRecorder.Shows`). Each of them that is no open branch has ended, and each child has the
branch that holds it as its parent; the open ones are the chain of parents that starts at the active
branch (`LinkedRecorder.IsChain`).

The main result is about any calls from the beginning on: what a recorder and a linked recorder hold
afterwards, which calls threw and which details were computed are what the log of the calls says.
-/

set_option autoImplicit false

namespace SummaryInlining

namespace LinkedRecorder

/-- The branch is the root or stands below it. -/
inductive Reaches (l : LinkedRecorder) : Nat → Prop where
  | root : Reaches l l.root
  | child {address child : Nat} (h : Reaches l address)
    (hchild : .branch child ∈ (l.branchAt address).children) : Reaches l child

/-- Each of these branches below the root is followed by its parent, and the last one has the root
as its parent. -/
def IsChain (l : LinkedRecorder) : List Nat → Prop
  | [] => True
  | address :: addresses =>
    address ≠ l.root ∧ (l.branchAt address).parent = some (addresses.headD l.root) ∧
      l.IsChain addresses

mutual

/-- A child with everything below it is this trace. -/
def Shows (l : LinkedRecorder) (child : LinkedChild) : Trace → Prop
  | .event title details time => child = .event title details time
  | .branch title start stop traces =>
    ∃ address, child = .branch address ∧ (l.branchAt address).title = title ∧
      (l.branchAt address).start = start ∧ (l.branchAt address).stop = stop ∧
      ShowsAll l (l.branchAt address).children traces

/-- These children with everything below them are these traces. -/
def ShowsAll (l : LinkedRecorder) (children : List LinkedChild) : List Trace → Prop
  | [] => children = []
  | trace :: rest =>
    ∃ child others, children = child :: others ∧ Shows l child trace ∧ ShowsAll l others rest

end

/-- The branch at an address is the one that lies there in the store. -/
theorem branchAt_eq {l : LinkedRecorder} {address : Nat} {branch : LinkedBranch}
    (h : l.store[address]? = some branch) : l.branchAt address = branch := by
  rw [branchAt, h]
  rfl

variable {l : LinkedRecorder} {low high holder : Nat}

/-- The root is in no chain of parents below it. -/
theorem IsChain.ne_root {addresses : List Nat} (h : l.IsChain addresses) {address : Nat}
    (hmem : address ∈ addresses) : address ≠ l.root := by
  induction addresses with
  | nil => cases hmem
  | cons first rest ih =>
    rcases List.mem_cons.mp hmem with rfl | hmem
    · exact h.1
    · exact ih h.2.2 hmem

mutual

/-- A child that holds a trace shows it. -/
theorem shows_of_holds {holder : Nat} {child : LinkedChild} :
    (trace : Trace) → Holds l.store low high holder child trace → l.Shows child trace
  | .event .., h => h
  | .branch _ _ _ traces, ⟨_, address, children, hchild, _, _, hat, hall⟩ => by
    refine ⟨address, hchild, ?_⟩
    rw [branchAt_eq hat]
    exact ⟨rfl, rfl, rfl, showsAll_of_holdsAll traces hall⟩

/-- Children that hold traces show them. -/
theorem showsAll_of_holdsAll {holder : Nat} {children : List LinkedChild} :
    (traces : List Trace) → HoldsAll l.store low high holder children traces →
      l.ShowsAll children traces
  | [], h => h
  | trace :: rest, ⟨child, others, hchildren, hchild, hothers⟩ =>
    ⟨child, others, hchildren, shows_of_holds trace hchild, showsAll_of_holdsAll rest hothers⟩

end

/-- Children behind others show their traces behind the traces of the others. -/
theorem ShowsAll.append {children others : List LinkedChild} {traces rest : List Trace}
    (h : l.ShowsAll children traces) (hothers : l.ShowsAll others rest) :
    l.ShowsAll (children ++ others) (traces ++ rest) := by
  induction traces generalizing children with
  | nil =>
    have h : children = [] := h
    rw [h]
    exact hothers
  | cons trace traces ih =>
    obtain ⟨child, more, rfl, hchild, hmore⟩ := h
    exact ⟨child, more ++ others, rfl, hchild, ih hmore⟩

/-- A closed branch has ended, its parent is the branch that holds it, and its children are closed
with the branch itself as their parent. -/
theorem of_holds {address : Nat} {trace : Trace}
    (h : Holds l.store low high holder (.branch address) trace) :
    (l.branchAt address).stop ≠ none ∧ (l.branchAt address).parent = some holder ∧
      ∀ child ∈ (l.branchAt address).children,
        ∃ trace, Holds l.store low high address child trace := by
  cases trace with
  | event title details time => cases h
  | branch title start stop traces =>
    obtain ⟨hstop, own, children, hown, -, -, hat, hall⟩ := h
    cases hown
    rw [branchAt_eq hat]
    exact ⟨Option.isSome_iff_ne_none.mp hstop, rfl, fun child hchild => hall.exists_of_mem hchild⟩

section

variable {rootBranch branch : OpenBranch} {stop rootStop : Option Number}
  {inside : List LinkedChild} {addresses : List Nat} {branches : List OpenBranch}
  {parent : Option Nat} {address : Nat}

/-- What stands at the address of an open branch. -/
theorem of_stands (h : Stands l.store address high inside branch stop parent) :
    (l.branchAt address).stop = stop ∧ (l.branchAt address).parent = parent ∧
      (l.branchAt address).title = branch.title ∧ (l.branchAt address).start = branch.start ∧
      ∃ children, (l.branchAt address).children = children ++ inside ∧
        HoldsAll l.store (address + 1) high address children branch.recorded.reverse := by
  obtain ⟨-, children, hat, hall⟩ := h
  rw [branchAt_eq hat]
  exact ⟨rfl, rfl, rfl, rfl, children, rfl, hall⟩

/-- A child of a branch is one of the children `inside`, or closed. -/
theorem children_of_stands (h : Stands l.store address high inside branch stop parent)
    {child : LinkedChild} (hchild : child ∈ (l.branchAt address).children) :
    child ∈ inside ∨ ∃ low high trace, Holds l.store low high address child trace := by
  obtain ⟨-, -, -, -, children, hchildren, hall⟩ := of_stands h
  rw [hchildren] at hchild
  rcases List.mem_append.mp hchild with hmem | hmem
  · obtain ⟨trace, htrace⟩ := hall.exists_of_mem hmem
    exact .inr ⟨_, _, trace, htrace⟩
  · exact .inl hmem

/-- An open branch together with the traces inside of it. -/
theorem shows_of_stands (h : Stands l.store address high inside branch stop parent)
    {inner : Option Trace} (hinner : l.ShowsAll inside inner.toList) :
    l.Shows (.branch address) ((branch.addOption inner).toTrace stop) := by
  obtain ⟨hstop, -, htitle, hstart, children, hchildren, hall⟩ := of_stands h
  have hshown := (showsAll_of_holdsAll _ hall).append hinner
  cases inner with
  | none =>
    rw [Option.toList_none, List.append_nil, ← hchildren] at hshown
    exact ⟨address, rfl, htitle, hstart, hstop, hshown⟩
  | some trace =>
    rw [Option.toList_some, ← List.reverse_cons, ← hchildren] at hshown
    exact ⟨address, rfl, htitle, hstart, hstop, hshown⟩

/-- The root with everything that was recorded. -/
theorem shows_of_opened
    (h : Opened l.store l.root rootBranch rootStop high inside addresses branches)
    {inner : Option Trace} (hinner : l.ShowsAll inside inner.toList) :
    l.Shows (.branch l.root)
      ((rootBranch.addOption (Recorder.nested branches inner)).toTrace rootStop) := by
  induction h generalizing inner with
  | outermost hstands => exact shows_of_stands hstands hinner
  | @inner _ _ address _ _ _ hstands _ ih =>
    exact ih ⟨.branch address, [], rfl, shows_of_stands hstands hinner, rfl⟩

/-- The open branches are the chain of parents from the innermost one on. They have not ended, and
have the titles of the open branches of the recorder. -/
theorem isChain_of_opened
    (h : Opened l.store l.root rootBranch rootStop high inside addresses branches) :
    l.IsChain addresses ∧ (∀ address ∈ addresses, (l.branchAt address).stop = none) ∧
      addresses.map (fun address => (l.branchAt address).title) = branches.map (·.title) := by
  induction h with
  | outermost _ => exact ⟨trivial, by simp, rfl⟩
  | inner hstands houter ih =>
    obtain ⟨hstop, hparent, htitle, -, -⟩ := of_stands hstands
    obtain ⟨hchain, hstops, htitles⟩ := ih
    have hroot := Nat.lt_of_le_of_lt houter.root_le houter.head_lt
    refine ⟨⟨Nat.ne_of_gt hroot, hparent, hchain⟩, ?_, ?_⟩
    · exact List.forall_mem_cons.mpr ⟨hstop, hstops⟩
    · rw [List.map_cons, List.map_cons, htitle, htitles]

/-- The children of the innermost open branch end with the ones inside of it. -/
theorem mem_children_of_mem_inside
    (h : Opened l.store l.root rootBranch rootStop high inside addresses branches)
    {child : LinkedChild} (hchild : child ∈ inside) :
    child ∈ (l.branchAt (addresses.headD l.root)).children := by
  cases h with
  | outermost hstands =>
    obtain ⟨-, -, -, -, children, hchildren, -⟩ := of_stands hstands
    exact hchildren ▸ List.mem_append_right _ hchild
  | inner hstands _ =>
    obtain ⟨-, -, -, -, children, hchildren, -⟩ := of_stands hstands
    exact hchildren ▸ List.mem_append_right _ hchild

/-- The open branches are reached from the root. -/
theorem reaches_of_opened
    (h : Opened l.store l.root rootBranch rootStop high inside addresses branches) :
    ∀ address ∈ addresses, l.Reaches address := by
  induction h with
  | outermost _ => simp
  | @inner _ _ address addresses _ _ _ houter ih =>
    have hhead : l.Reaches (addresses.headD l.root) := by
      cases addresses with
      | nil => exact .root
      | cons next addresses => exact ih next (List.mem_cons_self ..)
    have hmem := mem_children_of_mem_inside houter
      (List.mem_singleton_self (LinkedChild.branch address))
    exact List.forall_mem_cons.mpr ⟨hhead.child hmem, ih⟩

/-- A child of an open branch or of the root is closed, or is the open branch inside of it; in the
innermost open branch it may also be one of the children `inside`. -/
theorem children_of_opened
    (h : Opened l.store l.root rootBranch rootStop high inside addresses branches)
    (haddress : address = l.root ∨ address ∈ addresses) {child : LinkedChild}
    (hchild : child ∈ (l.branchAt address).children) :
    (address = addresses.headD l.root ∧ child ∈ inside) ∨
      (∃ low high trace, Holds l.store low high address child trace) ∨
      ∃ opened ∈ addresses, child = .branch opened ∧
        (l.branchAt opened).parent = some address := by
  induction h with
  | outermost hstands =>
    have hroot : address = l.root := by simpa using haddress
    subst hroot
    rcases children_of_stands hstands hchild with hmem | hclosed
    · exact .inl ⟨rfl, hmem⟩
    · exact .inr (.inl hclosed)
  | @inner _ _ first addresses _ _ hstands houter ih =>
    obtain ⟨-, hparent, -⟩ := of_stands hstands
    by_cases hfirst : address = first
    · subst hfirst
      rcases children_of_stands hstands hchild with hmem | hclosed
      · exact .inl ⟨rfl, hmem⟩
      · exact .inr (.inl hclosed)
    · have hrest : address = l.root ∨ address ∈ addresses :=
        haddress.imp_right fun hmem => (List.mem_cons.mp hmem).resolve_left hfirst
      rcases ih hrest with ⟨hhead, hmem⟩ | hclosed | ⟨opened, hopened, heq, hat⟩
      · refine .inr (.inr ⟨first, List.mem_cons_self .., List.mem_singleton.mp hmem, ?_⟩)
        rw [hparent, hhead]
      · exact .inr (.inl hclosed)
      · exact .inr (.inr ⟨opened, List.mem_cons_of_mem _ hopened, heq, hat⟩)

/-- A branch that can be reached is the root, or open, or closed. -/
theorem Reaches.cases_of_opened
    (hreaches : l.Reaches address)
    (h : Opened l.store l.root rootBranch rootStop high [] addresses branches) :
    (address = l.root ∨ address ∈ addresses) ∨
      ∃ low high holder trace, Holds l.store low high holder (.branch address) trace := by
  induction hreaches with
  | root => exact .inl (.inl rfl)
  | child hreaches hchild ih =>
    rcases ih with hopen | ⟨low, high, holder, trace, htrace⟩
    · rcases children_of_opened h hopen hchild with ⟨-, hmem⟩ | ⟨low, high, trace, htrace⟩ | hopened
      · cases hmem
      · exact .inr ⟨low, high, _, trace, htrace⟩
      · obtain ⟨opened, hopened, heq, -⟩ := hopened
        cases heq
        exact .inl (.inr hopened)
    · obtain ⟨trace, htrace⟩ := (of_holds htrace).2.2 _ hchild
      exact .inr ⟨low, high, _, trace, htrace⟩

/-- Each child has the branch that holds it as its parent. -/
theorem parent_of_opened (hreaches : l.Reaches address)
    (h : Opened l.store l.root rootBranch rootStop high [] addresses branches) {child : Nat}
    (hchild : .branch child ∈ (l.branchAt address).children) :
    (l.branchAt child).parent = some address := by
  rcases hreaches.cases_of_opened h with hopen | ⟨low, high, holder, trace, htrace⟩
  · rcases children_of_opened h hopen hchild with ⟨-, hmem⟩ | ⟨low, high, trace, htrace⟩ | hopened
    · cases hmem
    · exact (of_holds htrace).2.1
    · obtain ⟨opened, -, heq, hparent⟩ := hopened
      cases heq
      exact hparent
  · obtain ⟨trace, htrace⟩ := (of_holds htrace).2.2 _ hchild
    exact (of_holds htrace).2.1

/-- Below the root the branches that have not ended are the open ones. -/
theorem mem_open_iff
    (h : Opened l.store l.root rootBranch rootStop high [] addresses branches) :
    address ∈ addresses ↔
      l.Reaches address ∧ address ≠ l.root ∧ (l.branchAt address).stop = none := by
  obtain ⟨hchain, hstops, -⟩ := isChain_of_opened h
  constructor
  · intro hmem
    exact ⟨reaches_of_opened h address hmem, hchain.ne_root hmem, hstops address hmem⟩
  · rintro ⟨hreaches, hne, hstop⟩
    rcases hreaches.cases_of_opened h with (hroot | hmem) | ⟨low, high, holder, trace, htrace⟩
    · exact absurd hroot hne
    · exact hmem
    · exact absurd hstop (of_holds htrace).1

end

/-- The branches of a linked recorder refer to one another as those of a tree do, and the open ones
are the chain of parents from the active branch on. -/
structure WellLinked (l : LinkedRecorder) (trace : Trace) (openTitles : List Title) : Prop where
  /-- The root with everything below it is this trace. -/
  shows_trace : l.Shows (.branch l.root) trace
  parent_root : (l.branchAt l.root).parent = none
  /-- The parent of a child is the branch that holds it. -/
  parent_child : ∀ address child, l.Reaches address →
    .branch child ∈ (l.branchAt address).children → (l.branchAt child).parent = some address
  /-- The branches that have not ended, from the active one to the root. -/
  exists_chain : ∃ opened, l.active = opened.headD l.root ∧ l.IsChain opened ∧
    opened.map (fun address => (l.branchAt address).title) = openTitles ∧
    ∀ address, address ∈ opened ↔
      l.Reaches address ∧ address ≠ l.root ∧ (l.branchAt address).stop = none

end LinkedRecorder

namespace Recorder

/-- The root has no parent. -/
theorem parent_root_of_opened {l : LinkedRecorder} {rootBranch : OpenBranch}
    {rootStop : Option Number} {high : Nat} {inside : List LinkedChild} {addresses : List Nat}
    {branches : List OpenBranch}
    (h : Opened l.store l.root rootBranch rootStop high inside addresses branches) :
    (l.branchAt l.root).parent = none := by
  induction h with
  | outermost hstands => exact (LinkedRecorder.of_stands hstands).2.1
  | inner _ _ ih => exact ih

/-- The branches of a linked recorder refer to one another as those of the trace do. -/
theorem Linked.wellLinked {r : Recorder} {l : LinkedRecorder} (h : Linked r l) :
    l.WellLinked r.trace (r.branches.map (·.title)) := by
  obtain ⟨addresses, hactive, hopened⟩ := h.opened
  obtain ⟨hchain, -, htitles⟩ := LinkedRecorder.isChain_of_opened hopened
  refine ⟨?_, parent_root_of_opened hopened, ?_, addresses, hactive, hchain, htitles, ?_⟩
  · exact LinkedRecorder.shows_of_opened hopened (show l.ShowsAll [] [] from rfl)
  · intro address child hreaches hchild
    exact LinkedRecorder.parent_of_opened hreaches hopened hchild
  · intro address
    exact LinkedRecorder.mem_open_iff hopened

/-- A recorder holds what the log of its calls says. -/
structure Follows (r : Recorder) (log : Log) : Prop where
  recording : r.recording = log.recording
  verbose : r.verbose = log.verbose
  /-- Below the root the trace is the tree that the calls describe. -/
  trace : r.trace.outline id = .branch log.title r.rootStop.isNone log.trees
  /-- The open branches, the innermost one first, are those that the calls leave open. -/
  openTitles : r.branches.map (·.title) = log.openTitles

/-- What one more call does, apart from what it records. -/
structure ObeysCalls (r : Recorder) : Prop where
  /-- A stop throws while recording, if the title given is not that of the active branch or no
  branch is open. -/
  stop_throws : ∀ {σ : Type} (title : Option String) (world : σ),
    (((Call.stop title).perform r).run world).1.1 ≠ none ↔
      r.recording = true ∧
        ((∃ given, title = some given ∧ r.active.title ≠ .text given) ∨ r.branches = [])
  /-- A call that throws changes nothing. -/
  unchanged : ∀ {σ : Type} (call : Call σ) (world : σ),
    ((call.perform r).run world).1.1 ≠ none → ((call.perform r).run world).1.2 = r ∧
      ((call.perform r).run world).2 = world
  /-- Nothing is recorded and nothing thrown while not recording. -/
  idle : ∀ {σ : Type} (call : Call σ), r.recording = false → call.IsRecording →
    call.perform r = pure (none, r)
  /-- Details are computed during a verbose recording only. -/
  details : ∀ {σ : Type} (title : Title) (compute : StateM σ String) (world : σ),
    (((Call.mark title (some compute)).perform r).run world).2 =
      if r.recording && r.verbose then (compute.run world).2 else world

section

variable {σ : Type} {r : Recorder}

/-- A stop that is not refused throws nothing. -/
theorem perform_stop_of_ok {title : Option String} {stopped : Recorder}
    (h : r.stop (title.map .text) = .ok stopped) :
    (Call.stop title).perform (σ := σ) r = pure (none, stopped) := by
  rw [Call.perform, h]

/-- A stop that is refused throws its error and changes nothing. -/
theorem perform_stop_of_error {title : Option String} {e : TraceError}
    (h : r.stop (title.map .text) = .error e) :
    (Call.stop title).perform (σ := σ) r = pure (some e, r) := by
  rw [Call.perform, h]

/-- Of the calls only a stop can throw. -/
theorem eq_stop_of_thrown {call : Call σ} {world : σ}
    (h : ((call.perform r).run world).1.1 ≠ none) : ∃ title, call = .stop title := by
  cases call with
  | stop title => exact ⟨title, rfl⟩
  | _ => exact absurd rfl h

/-- While recording, a stop is refused for a title that differs from that of the active branch, or
when no branch is open. -/
theorem stop_eq_error_iff (h : r.recording = true) (title : Option String) :
    (∃ e, r.stop (title.map .text) = .error e) ↔
      (∃ given, title = some given ∧ r.active.title ≠ .text given) ∨ r.branches = [] := by
  rw [stop_of_recording h, Option.filter_map]
  cases hfilter : title.filter ((fun given => !given.isSameText r.active.title) ∘ Title.text) with
  | some given =>
    obtain ⟨rfl, hdiffers⟩ := Option.filter_eq_some_iff.mp hfilter
    have hne : r.active.title ≠ .text given := by
      intro hsame
      have htext := (Title.isSameText_text_iff given _).mpr hsame
      simp [htext] at hdiffers
    exact iff_of_true ⟨_, rfl⟩ (.inl ⟨given, rfl, hne⟩)
  | none =>
    have hsame : ¬ ∃ given, title = some given ∧ r.active.title ≠ .text given := by
      rintro ⟨given, rfl, hne⟩
      have htext : (Title.text given).isSameText r.active.title = true := by
        simpa using Option.filter_eq_none_iff.mp hfilter given rfl
      exact hne ((Title.isSameText_text_iff given _).mp htext)
    cases hbranches : r.branches with
    | nil => exact iff_of_true ⟨_, rfl⟩ (.inr rfl)
    | cons branch outer =>
      refine iff_of_false ?_ fun h => ?_
      · rintro ⟨e, he⟩
        cases he
      · rcases h with h | h
        · exact hsame h
        · cases h

end

/-- Every recorder obeys its calls. -/
theorem obeysCalls (r : Recorder) : r.ObeysCalls where
  stop_throws := by
    intro σ title world
    cases hrecording : r.recording with
    | false =>
      rw [perform_stop_of_ok (stop_of_not_recording hrecording _)]
      exact iff_of_false (fun h => h rfl) (by simp)
    | true =>
      rw [← stop_eq_error_iff hrecording]
      cases hstop : r.stop (title.map .text) with
      | ok stopped =>
        rw [perform_stop_of_ok hstop]
        exact iff_of_false (fun h => h rfl) (by simp)
      | error e =>
        rw [perform_stop_of_error hstop]
        exact iff_of_true (Option.some_ne_none e) ⟨rfl, e, rfl⟩
  unchanged := by
    intro σ call world hthrown
    obtain ⟨title, rfl⟩ := eq_stop_of_thrown hthrown
    cases hstop : r.stop (title.map .text) with
    | ok stopped =>
      rw [perform_stop_of_ok hstop] at hthrown
      exact absurd rfl hthrown
    | error e =>
      rw [perform_stop_of_error hstop]
      exact ⟨rfl, rfl⟩
  idle := by
    intro σ call hrecording hcall
    cases call with
    | start title => simp [Call.perform, Recorder.start, hrecording]
    | mark title details => simp [Call.perform, Recorder.mark, hrecording]
    | stop title => exact perform_stop_of_ok (stop_of_not_recording hrecording _)
    | _ => exact hcall.elim
  details := by
    intro σ title compute world
    cases hrecording : r.recording with
    | false =>
      simp only [Call.perform, Recorder.mark, hrecording]
      rfl
    | true =>
      cases hverbose : r.verbose with
      | false =>
        simp only [Call.perform, Recorder.mark, detailsOf, hrecording, hverbose]
        rfl
      | true =>
        simp only [Call.perform, Recorder.mark, detailsOf, hrecording, hverbose]
        rfl

/-- Calls on a recorder from the beginning on. They throw and compute details as the log of the
calls says, and the recorder holds what the log says; a recorder of linked branches throws the same
and holds the same, with every branch linked to the one that holds it and the open branches linked
from the active one to the root. Then any further call behaves in accordance with the flags and the
open branches. -/
theorem records_brackets_of_calls {σ : Type} (calls : List (Call σ)) (world : σ) :
    ∃ thrown r l log after,
      (runAll Call.perform calls .initial).run world = ((thrown, r), after) ∧
      (runAll Call.link calls .initial).run world = ((thrown, l), after) ∧
      (runAll Call.log calls .initial).run world = ((thrown, log), after) ∧
      r.Follows log ∧
      l.recording = log.recording ∧ l.verbose = log.verbose ∧
      l.WellLinked r.trace log.openTitles ∧
      r.ObeysCalls := by
  obtain ⟨thrown, r, log, after, hrun, hlog, hagrees⟩ :=
    sameEffect_runAll (fun call _ _ => agrees_perform call) calls agrees_initial world
  obtain ⟨thrown', r', l, after', hrun', hlink, hlinked⟩ :=
    sameEffect_runAll (fun call _ _ => Linked.perform call) calls linked_initial world
  rw [hrun] at hrun'
  cases hrun'
  refine ⟨thrown, r, l, log, after, hrun, hlink, hlog, ?_, ?_, ?_, ?_, obeysCalls r⟩
  · exact ⟨hagrees.recording, hagrees.verbose, hagrees.outline_trace, hagrees.openTitles_eq.symm⟩
  · exact hlinked.recording.symm.trans hagrees.recording
  · exact hlinked.verbose.symm.trans hagrees.verbose
  · rw [hagrees.openTitles_eq]
    exact hlinked.wellLinked

end Recorder

end SummaryInlining
