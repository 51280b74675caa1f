import SummaryInlining.Proofs.CallLog

/-!
# Recording traces in linked branches

A recorder keeps its open branches in a list, which says by itself which branch is around which. The
same calls can be made on a `LinkedRecorder`, whose branches lie in a store and refer to one another
by their addresses: a branch to its children and to its parent, and the recorder to the root and to
the active branch. Calls on both throw the same errors and record the same trace
(`Recorder.Linked.perform`).

Between the two stands `Opened`: the chain of open branches from the active one to the root has
ascending addresses from the root on, and what was recorded directly in one of these branches lies
at addresses between it and the next one. So a call, which changes the active branch only, leaves
everything else that was recorded as it is.
-/

set_option autoImplicit false

namespace SummaryInlining

/-- What stands directly in a linked branch: an event, or another branch. -/
inductive LinkedChild where
  | event (title : Title) (details : Option String) (time : Number)
  | branch (address : Nat)

/-- A branch that refers to the branches around it by their addresses. -/
structure LinkedBranch where
  title : Title
  start : Number
  /-- When it ended, if it has. -/
  stop : Option Number
  /-- What stands in it, in order. -/
  children : List LinkedChild
  /-- The branch around it. -/
  parent : Option Nat
  deriving Inhabited

namespace LinkedBranch

/-- The branch with one more child. -/
def push (child : LinkedChild) (branch : LinkedBranch) : LinkedBranch :=
  { branch with children := branch.children ++ [child] }

/-- The branch with this time of end. -/
def ended (time : Number) (branch : LinkedBranch) : LinkedBranch :=
  { branch with stop := some time }

end LinkedBranch

/-- A recorder whose branches lie in a store, each at the address of its position. -/
structure LinkedRecorder where
  store : List LinkedBranch
  root : Nat
  /-- The innermost open branch. -/
  active : Nat
  recording : Bool
  verbose : Bool
  clock : Nat

namespace LinkedRecorder

/-- The recorder before any call. -/
def initial : LinkedRecorder :=
  { store := [⟨.text "root", .ofNat 0, none, [], none⟩], root := 0, active := 0,
    recording := false, verbose := false, clock := 1 }

def now (l : LinkedRecorder) : Number := .ofNat l.clock

def tick (l : LinkedRecorder) : LinkedRecorder := { l with clock := l.clock + 1 }

/-- The branch at an address. -/
def branchAt (l : LinkedRecorder) (address : Nat) : LinkedBranch :=
  (l.store[address]?).getD default

/-- Changes the branch at an address. -/
def update (address : Nat) (change : LinkedBranch → LinkedBranch) (l : LinkedRecorder) :
    LinkedRecorder :=
  { l with store := l.store.modify address change }

/-- Puts a branch into the store, behind all others. -/
def allocate (branch : LinkedBranch) (l : LinkedRecorder) : LinkedRecorder :=
  { l with store := l.store ++ [branch] }

def clear (title : Title) (l : LinkedRecorder) : LinkedRecorder :=
  { l.tick.allocate ⟨title, l.now, none, [], none⟩ with
    root := l.store.length, active := l.store.length, recording := true }

def stopRecording (l : LinkedRecorder) : LinkedRecorder := { l with recording := false }

def setVerbose (verbose : Bool) (l : LinkedRecorder) : LinkedRecorder := { l with verbose }

def start (title : Title) (l : LinkedRecorder) : LinkedRecorder :=
  if l.recording then
    { (l.tick.update l.active (·.push (.branch l.store.length))).allocate
        ⟨title, l.now, none, [], some l.active⟩ with
      active := l.store.length }
  else l

section

variable {m : Type → Type} [Monad m]

/-- The details of an event, which are computed only if the recorder is verbose. -/
def detailsOf (l : LinkedRecorder) : Option (m String) → m (Option String)
  | none => pure none
  | some compute =>
    if l.verbose then some <$> compute else pure (some Recorder.skippedDetails)

def mark (title : Title) (details : Option (m String)) (l : LinkedRecorder) : m LinkedRecorder :=
  if l.recording then do
    let details ← l.detailsOf details
    return l.tick.update l.active (·.push (.event title details l.now))
  else pure l

end

/-- Ends the active branch, after which its parent is active. -/
def stop (title : Option Title) (l : LinkedRecorder) : Except TraceError LinkedRecorder :=
  if !l.recording then .ok l
  else
    let active := l.branchAt l.active
    match title.filter (fun given => !given.isSameText active.title) with
    | some given => .error (.mismatch given active.title)
    | none =>
      match active.parent with
      | none => .error (.noOpenBranch title)
      | some parent => .ok { l.tick.update l.active (·.ended l.now) with active := parent }

def publish (l : LinkedRecorder) : LinkedRecorder := l.tick.update l.root (·.ended l.now)

end LinkedRecorder

/-- A call of a linked recorder: the error that it throws, and the recorder after it. -/
def Recorder.Call.link {σ : Type} (call : Recorder.Call σ) (l : LinkedRecorder) :
    StateM σ (Option TraceError × LinkedRecorder) :=
  match call with
  | .clear title => pure (none, l.clear (.text title))
  | .stopRecording => pure (none, l.stopRecording)
  | .setVerbose verbose => pure (none, l.setVerbose verbose)
  | .start title => pure (none, l.start title)
  | .mark title details => do return (none, ← l.mark title details)
  | .stop title =>
    match l.stop (title.map .text) with
    | .ok stopped => pure (none, stopped)
    | .error e => pure (some e, l)
  | .publish => pure (none, l.publish)

/-! ## What a store holds -/

mutual

/-- A child of the branch at `holder` is this trace: every branch in it has ended, has an address
from `low` up to `high`, and has the branch that holds it as its parent. -/
def Holds (store : List LinkedBranch) (low high holder : Nat) (child : LinkedChild) :
    Trace → Prop
  | .event title details time => child = .event title details time
  | .branch title start stop traces =>
    stop.isSome = true ∧ ∃ address children, child = .branch address ∧
      low ≤ address ∧ address < high ∧
      store[address]? = some ⟨title, start, stop, children, some holder⟩ ∧
      HoldsAll store low high address children traces

/-- The children of the branch at `holder` are these traces. -/
def HoldsAll (store : List LinkedBranch) (low high holder : Nat) (children : List LinkedChild) :
    List Trace → Prop
  | [] => children = []
  | trace :: rest =>
    ∃ child others, children = child :: others ∧ Holds store low high holder child trace ∧
      HoldsAll store low high holder others rest

end

section

variable {store changed : List LinkedBranch} {low high low' high' holder : Nat}

mutual

/-- A store that is the same at the addresses of a trace holds it, too. -/
theorem Holds.frame (hlow : low' ≤ low) (hhigh : high ≤ high')
    (hstore : ∀ a, low ≤ a → a < high → changed[a]? = store[a]?) {holder : Nat}
    {child : LinkedChild} : (trace : Trace) → Holds store low high holder child trace →
      Holds changed low' high' holder child trace
  | .event .., h => h
  | .branch _ _ _ traces, ⟨hstop, address, children, hchild, hle, hlt, hat, hall⟩ =>
    ⟨hstop, address, children, hchild, Nat.le_trans hlow hle, Nat.lt_of_lt_of_le hlt hhigh,
      (hstore address hle hlt).trans hat, HoldsAll.frame hlow hhigh hstore traces hall⟩

/-- What a branch holds stays when nothing changes at the addresses in question. -/
theorem HoldsAll.frame (hlow : low' ≤ low) (hhigh : high ≤ high')
    (hstore : ∀ a, low ≤ a → a < high → changed[a]? = store[a]?) {holder : Nat}
    {children : List LinkedChild} : (traces : List Trace) →
      HoldsAll store low high holder children traces →
      HoldsAll changed low' high' holder children traces
  | [], h => h
  | trace :: rest, ⟨child, others, hchildren, hchild, hothers⟩ =>
    ⟨child, others, hchildren, Holds.frame hlow hhigh hstore trace hchild,
      HoldsAll.frame hlow hhigh hstore rest hothers⟩

end

/-- A child that is linked behind the others holds the trace behind the others. -/
theorem HoldsAll.append {children : List LinkedChild} {traces : List Trace}
    {child : LinkedChild} {trace : Trace} (hall : HoldsAll store low high holder children traces)
    (hlast : Holds store low high holder child trace) :
    HoldsAll store low high holder (children ++ [child]) (traces ++ [trace]) := by
  induction traces generalizing children with
  | nil =>
    have hall : children = [] := hall
    rw [hall]
    exact ⟨child, [], rfl, hlast, rfl⟩
  | cons first rest ih =>
    obtain ⟨head, others, rfl, hhead, hothers⟩ := hall
    exact ⟨head, others ++ [child], rfl, hhead, ih hothers⟩

/-- Every child of a branch holds some trace. -/
theorem HoldsAll.exists_of_mem {children : List LinkedChild} {traces : List Trace}
    {child : LinkedChild} (hall : HoldsAll store low high holder children traces)
    (hmem : child ∈ children) : ∃ trace, Holds store low high holder child trace := by
  induction traces generalizing children with
  | nil =>
    have hall : children = [] := hall
    rw [hall] at hmem
    cases hmem
  | cons first rest ih =>
    obtain ⟨head, others, rfl, hhead, hothers⟩ := hall
    rcases List.mem_cons.mp hmem with rfl | hmem
    · exact ⟨first, hhead⟩
    · exact ih hothers hmem

end

/-- A branch stands at an address. It holds what was recorded in it, at addresses behind its own
and below `high`, and then the children `inside`. -/
def Stands (store : List LinkedBranch) (address high : Nat) (inside : List LinkedChild)
    (branch : OpenBranch) (stop : Option Number) (parent : Option Nat) : Prop :=
  address < high ∧ ∃ children,
    store[address]? = some ⟨branch.title, branch.start, stop, children ++ inside, parent⟩ ∧
    HoldsAll store (address + 1) high address children branch.recorded.reverse

/-- The open branches of a recorder, the innermost first, stand at these addresses below the root.
Each one is the last child of the next one, which is its parent. -/
inductive Opened (store : List LinkedBranch) (root : Nat) (rootBranch : OpenBranch)
    (rootStop : Option Number) :
    Nat → List LinkedChild → List Nat → List OpenBranch → Prop where
  | outermost {high : Nat} {inside : List LinkedChild}
    (hstands : Stands store root high inside rootBranch rootStop none) :
    Opened store root rootBranch rootStop high inside [] []
  | inner {high : Nat} {inside : List LinkedChild} {address : Nat} {addresses : List Nat}
    {branch : OpenBranch} {outer : List OpenBranch}
    (hstands : Stands store address high inside branch none (some (addresses.headD root)))
    (houter : Opened store root rootBranch rootStop address [.branch address] addresses outer) :
    Opened store root rootBranch rootStop high inside (address :: addresses) (branch :: outer)

/-- The parent of the first one of the open branches at these addresses, or of the root. -/
def parentOfFirst (root : Nat) : List Nat → Option Nat
  | [] => none
  | _ :: addresses => some (addresses.headD root)

section

variable {store changed : List LinkedBranch} {address high high' : Nat}
  {inside : List LinkedChild} {branch : OpenBranch} {stop : Option Number} {parent : Option Nat}

/-- A branch stays where it stands when nothing changes from its address on. -/
theorem Stands.frame (h : Stands store address high inside branch stop parent)
    (hhigh : high ≤ high')
    (hstore : ∀ a, address ≤ a → a < high → changed[a]? = store[a]?) :
    Stands changed address high' inside branch stop parent := by
  obtain ⟨hlt, children, hat, hall⟩ := h
  refine ⟨Nat.lt_of_lt_of_le hlt hhigh, children,
    (hstore address (Nat.le_refl _) hlt).trans hat, ?_⟩
  exact HoldsAll.frame (Nat.le_refl _) hhigh (fun a ha => hstore a (by omega)) _ hall

/-- The last child is counted among what was recorded. -/
theorem Stands.add {child : LinkedChild} {trace : Trace}
    (h : Stands store address high [child] branch stop parent) (hhigh : high ≤ high')
    (hchild : Holds store (address + 1) high' address child trace) :
    Stands store address high' [] (branch.add trace) stop parent := by
  obtain ⟨hlt, children, hat, hall⟩ := h
  refine ⟨Nat.lt_of_lt_of_le hlt hhigh, children ++ [child], ?_, ?_⟩
  · rw [hat, List.append_nil]
    rfl
  · show HoldsAll store _ _ _ _ (trace :: branch.recorded).reverse
    rw [List.reverse_cons]
    exact (HoldsAll.frame (Nat.le_refl _) hhigh (fun a _ _ => rfl) _ hall).append hchild

/-- A branch that is changed in place, apart from what was recorded in it. -/
theorem Stands.modify (h : Stands store address high inside branch stop parent)
    {change : LinkedBranch → LinkedBranch} {inside' : List LinkedChild} {stop' : Option Number}
    (hchange : ∀ children, change ⟨branch.title, branch.start, stop, children ++ inside, parent⟩ =
      ⟨branch.title, branch.start, stop', children ++ inside', parent⟩) :
    Stands (store.modify address change) address high inside' branch stop' parent := by
  obtain ⟨hlt, children, hat, hall⟩ := h
  refine ⟨hlt, children, ?_, ?_⟩
  · rw [List.getElem?_modify_eq, hat]
    exact congrArg some (hchange children)
  · refine HoldsAll.frame (Nat.le_refl _) (Nat.le_refl _) (fun a ha _ => ?_) _ hall
    exact List.getElem?_modify_ne change store (by omega)

end

section

variable {store changed : List LinkedBranch} {root high high' : Nat} {rootBranch : OpenBranch}
  {rootStop : Option Number} {inside : List LinkedChild} {addresses : List Nat}
  {branches : List OpenBranch}

/-- Open branches stay where they stand when nothing changes below the bound. -/
theorem Opened.frame
    (h : Opened store root rootBranch rootStop high inside addresses branches)
    (hhigh : high ≤ high') (hstore : ∀ a, a < high → changed[a]? = store[a]?) :
    Opened changed root rootBranch rootStop high' inside addresses branches := by
  induction h generalizing high' with
  | outermost hstands => exact .outermost (hstands.frame hhigh fun a _ => hstore a)
  | inner hstands _ ih =>
    refine .inner (hstands.frame hhigh fun a _ => hstore a) (ih (Nat.le_refl _) fun a ha => ?_)
    exact hstore a (Nat.lt_trans ha hstands.1)

/-- The innermost open branch stands below the bound. -/
theorem Opened.head_lt
    (h : Opened store root rootBranch rootStop high inside addresses branches) :
    addresses.headD root < high := by
  cases h with
  | outermost hstands => exact hstands.1
  | inner hstands _ => exact hstands.1

/-- No open branch stands in front of the root. -/
theorem Opened.root_le
    (h : Opened store root rootBranch rootStop high inside addresses branches) :
    root ≤ addresses.headD root := by
  induction h with
  | outermost _ => exact Nat.le_refl _
  | inner _ houter ih => exact Nat.le_trans ih (Nat.le_of_lt houter.head_lt)

/-- The innermost open branch gets one more child. -/
theorem Opened.push (h : Opened store root rootBranch rootStop high inside addresses branches)
    (child : LinkedChild) :
    Opened (store.modify (addresses.headD root) (·.push child)) root rootBranch rootStop high
      (inside ++ [child]) addresses branches := by
  cases h with
  | outermost hstands =>
    exact .outermost (hstands.modify fun children => by simp [LinkedBranch.push])
  | inner hstands houter =>
    refine .inner (hstands.modify fun children => by simp [LinkedBranch.push]) ?_
    exact houter.frame (Nat.le_refl _) fun a ha =>
      List.getElem?_modify_ne _ store (Nat.ne_of_gt ha)

/-- The last child of the innermost open branch is counted among what was recorded in it. -/
theorem Opened.add {r : Recorder} {child : LinkedChild} {t : Trace}
    (h : Opened store root r.root rootStop high [child] addresses r.branches)
    (hhigh : high ≤ high')
    (hchild : Holds store (addresses.headD root + 1) high' (addresses.headD root) child t) :
    Opened store root (r.add t).root rootStop high' [] addresses (r.add t).branches := by
  unfold Recorder.add
  cases hbranches : r.branches with
  | nil =>
    rw [hbranches] at h
    cases h with
    | outermost hstands => exact .outermost (hstands.add hhigh hchild)
  | cons branch outer =>
    rw [hbranches] at h
    cases h with
    | inner hstands houter => exact .inner (hstands.add hhigh hchild) houter

/-- The innermost open branch is ended, and counted among what was recorded around it. -/
theorem Opened.close {r : Recorder} {address : Nat} {branch : OpenBranch} (time : Number)
    (h : Opened store root r.root rootStop high [] (address :: addresses) (branch :: r.branches)) :
    Opened (store.modify address (·.ended time)) root
      (r.add (branch.toTrace (some time))).root rootStop high [] addresses
      (r.add (branch.toTrace (some time))).branches := by
  obtain _ | ⟨hstands, houter⟩ := h
  have hsame : ∀ a, a < address → (store.modify address (·.ended time))[a]? = store[a]? :=
    fun a ha => List.getElem?_modify_ne _ store (Nat.ne_of_gt ha)
  have hended : Stands (store.modify address (·.ended time)) address high [] branch (some time)
      (some (addresses.headD root)) :=
    hstands.modify fun children => rfl
  have hlt : addresses.headD root < address := houter.head_lt
  refine (houter.frame (Nat.le_refl _) hsame).add (Nat.le_of_lt hstands.1) ?_
  obtain ⟨hhigh, children, hat, hall⟩ := hended
  refine ⟨rfl, address, children, rfl, hlt, hhigh, ?_, ?_⟩
  · rw [hat, List.append_nil]
  · have hle : addresses.headD root + 1 ≤ address + 1 := Nat.succ_le_succ (Nat.le_of_lt hlt)
    exact HoldsAll.frame hle (Nat.le_refl _) (fun a _ _ => rfl) _ hall

/-- A branch is opened inside the innermost open one, at the next free address. -/
theorem Opened.start
    (h : Opened store root rootBranch rootStop store.length [] addresses branches)
    (title : Title) (time : Number) :
    Opened
      (store.modify (addresses.headD root) (·.push (.branch store.length)) ++
        [⟨title, time, none, [], some (addresses.headD root)⟩])
      root rootBranch rootStop (store.length + 1) [] (store.length :: addresses)
      (⟨title, time, []⟩ :: branches) := by
  have hlength : (store.modify (addresses.headD root) (·.push (.branch store.length))).length =
      store.length := List.length_modify ..
  refine .inner ⟨Nat.lt_succ_self _, [], ?_, rfl⟩ ?_
  · rw [List.getElem?_append_right (Nat.le_of_eq hlength), hlength, Nat.sub_self]
    rfl
  · refine (h.push (.branch store.length)).frame (Nat.le_refl _) fun a ha => ?_
    exact List.getElem?_append_left (Nat.lt_of_lt_of_eq ha hlength.symm)

/-- The root is ended. -/
theorem Opened.endRoot (h : Opened store root rootBranch rootStop high inside addresses branches)
    (time : Number) :
    Opened (store.modify root (·.ended time)) root rootBranch (some time) high inside addresses
      branches := by
  induction h with
  | outermost hstands => exact .outermost (hstands.modify fun children => rfl)
  | inner hstands houter ih =>
    have hlt := Nat.lt_of_le_of_lt houter.root_le houter.head_lt
    refine .inner (hstands.frame (Nat.le_refl _) fun a ha _ => ?_) ih
    exact List.getElem?_modify_ne _ store (Nat.ne_of_lt (Nat.lt_of_lt_of_le hlt ha))

end

namespace Recorder

/-- Adding a trace takes no time. -/
theorem add_clock (r : Recorder) (trace : Trace) : (r.add trace).clock = r.clock := by
  unfold add
  split <;> rfl

/-- Adding a trace does not end the root. -/
theorem add_rootStop (r : Recorder) (trace : Trace) : (r.add trace).rootStop = r.rootStop := by
  unfold add
  split <;> rfl

/-- A linked recorder stands as a recorder does: its open branches, from the active one to the
root, are those of the recorder. -/
structure Linked (r : Recorder) (l : LinkedRecorder) : Prop where
  recording : r.recording = l.recording
  verbose : r.verbose = l.verbose
  clock : r.clock = l.clock
  opened : ∃ addresses, l.active = addresses.headD l.root ∧
    Opened l.store l.root r.root r.rootStop l.store.length [] addresses r.branches

/-- Before any call the linked recorder stands as the recorder does. -/
theorem linked_initial : Linked initial .initial where
  recording := rfl
  verbose := rfl
  clock := rfl
  opened := ⟨[], rfl, .outermost ⟨Nat.zero_lt_one, [], rfl, rfl⟩⟩

namespace Linked

variable {σ : Type} {r : Recorder} {l : LinkedRecorder}

/-- Linked recorders read the same time. -/
theorem now_eq (h : Linked r l) : r.now = l.now := congrArg Number.ofNat h.clock

/-- Clearing keeps two recorders linked, as the new root lies behind all that was there. -/
theorem clear (h : Linked r l) (title : Title) : Linked (r.clear title) (l.clear title) where
  recording := rfl
  verbose := h.verbose
  clock := congrArg (· + 1) h.clock
  opened := by
    refine ⟨[], rfl, .outermost ⟨?_, [], ?_, rfl⟩⟩
    · simp [LinkedRecorder.clear, LinkedRecorder.allocate, LinkedRecorder.tick]
    · simp [LinkedRecorder.clear, LinkedRecorder.allocate, LinkedRecorder.tick, Recorder.clear,
        h.now_eq]

/-- Opening a branch keeps two recorders linked. -/
theorem start (h : Linked r l) (title : Title) : Linked (r.start title) (l.start title) := by
  unfold Recorder.start LinkedRecorder.start
  by_cases hrecording : r.recording = true
  · rw [if_pos hrecording, if_pos (h.recording ▸ hrecording)]
    obtain ⟨addresses, hactive, hopened⟩ := h.opened
    refine ⟨h.recording, h.verbose, congrArg (· + 1) h.clock, l.store.length :: addresses, rfl, ?_⟩
    have hstarted := hopened.start title r.now
    rw [← hactive] at hstarted
    simpa [LinkedRecorder.allocate, LinkedRecorder.update, LinkedRecorder.tick, Recorder.tick,
      h.now_eq] using hstarted
  · rw [if_neg hrecording, if_neg (h.recording ▸ hrecording)]
    exact h

/-- An event with these details is recorded. -/
theorem mark (h : Linked r l) (title : Title) (details : Option String) :
    Linked (r.tick.add (.event title details r.now))
      (l.tick.update l.active (·.push (.event title details l.now))) where
  recording := (add_recording _ _).trans h.recording
  verbose := (add_verbose _ _).trans h.verbose
  clock := (add_clock _ _).trans (congrArg (· + 1) h.clock)
  opened := by
    obtain ⟨addresses, hactive, hopened⟩ := h.opened
    refine ⟨addresses, hactive, ?_⟩
    have hpushed := hopened.push (.event title details l.now)
    have hadded := Opened.add (r := r.tick) (t := .event title details r.now) hpushed
      (Nat.le_refl _) (congrArg (LinkedChild.event title details) h.now_eq.symm)
    rw [← hactive] at hadded
    simpa [LinkedRecorder.update, LinkedRecorder.tick, add_rootStop, Recorder.tick] using hadded

/-- The active branch is the innermost open one, and its parent the next open one. -/
theorem branchAt_active {addresses : List Nat} (hactive : l.active = addresses.headD l.root)
    (hopened : Opened l.store l.root r.root r.rootStop l.store.length [] addresses r.branches) :
    (l.branchAt l.active).title = r.active.title ∧
      (l.branchAt l.active).parent = parentOfFirst l.root addresses := by
  rw [hactive, LinkedRecorder.branchAt, Recorder.active]
  generalize r.branches = branches at hopened
  cases hopened with
  | outermost hstands =>
    obtain ⟨-, children, hat, -⟩ := hstands
    simp [hat, parentOfFirst]
  | inner hstands houter =>
    obtain ⟨-, children, hat, -⟩ := hstands
    simp [hat, parentOfFirst]

/-- A linked recorder that does not record takes no notice of a stop. -/
theorem stop_of_not_recording (h : l.recording = false) (title : Option Title) :
    l.stop title = .ok l := by
  rw [LinkedRecorder.stop, h]
  rfl

/-- A stop has the same outcome on two linked recorders, and keeps them linked. -/
theorem agrees_stop (h : Linked r l) (title : Option String) :
    SameEffect (σ := σ) Linked (Call.perform (.stop title) r) (Call.link (.stop title) l) := by
  unfold Call.perform Call.link
  cases hrecording : r.recording with
  | false =>
    have hlinked : l.recording = false := h.recording.symm.trans hrecording
    simp only [Recorder.stop_of_not_recording hrecording, stop_of_not_recording hlinked]
    exact sameEffect_pure none h
  | true =>
    have hlinked : l.recording = true := h.recording.symm.trans hrecording
    obtain ⟨addresses, hactive, hopened⟩ := h.opened
    obtain ⟨htitle, hparent⟩ := branchAt_active hactive hopened
    simp only [stop_of_recording hrecording, LinkedRecorder.stop, hlinked, htitle, hparent,
      Bool.not_true, Bool.false_eq_true, if_false]
    cases (title.map Title.text).filter fun given => !given.isSameText r.active.title with
    | some given => exact sameEffect_pure _ h
    | none =>
      cases hbranches : r.branches with
      | nil =>
        rw [hbranches] at hopened
        cases hopened with
        | outermost _ => exact sameEffect_pure _ h
      | cons branch outer =>
        rw [hbranches] at hopened
        cases addresses with
        | nil => cases hopened
        | cons address addresses =>
          refine sameEffect_pure none ⟨?_, ?_, ?_, addresses, rfl, ?_⟩
          · exact (add_recording _ _).trans h.recording
          · exact (add_verbose _ _).trans h.verbose
          · exact (add_clock _ _).trans (congrArg (· + 1) h.clock)
          · have hclosed := Opened.close (r := { r.tick with branches := outer }) r.now hopened
            have haddress : l.active = address := hactive
            rw [← haddress] at hclosed
            simpa [LinkedRecorder.update, LinkedRecorder.tick, add_rootStop, Recorder.tick,
              h.now_eq] using hclosed

/-- An event has the same outcome on two linked recorders, and keeps them linked. -/
theorem agrees_mark (h : Linked r l) (title : Title) (details : Option (StateM σ String)) :
    SameEffect Linked (Call.perform (.mark title details) r)
      (Call.link (.mark title details) l) := by
  cases hrecording : r.recording with
  | false =>
    have hlinked : l.recording = false := h.recording.symm.trans hrecording
    simp only [Call.perform, Recorder.mark, Call.link, LinkedRecorder.mark, hrecording, hlinked]
    exact sameEffect_pure none h
  | true =>
    have hlinked : l.recording = true := h.recording.symm.trans hrecording
    cases details with
    | none =>
      simp only [Call.perform, Recorder.mark, Call.link, LinkedRecorder.mark, hrecording, hlinked]
      exact sameEffect_pure none (h.mark title none)
    | some compute =>
      cases hverbose : r.verbose with
      | false =>
        have hlinkedVerbose : l.verbose = false := h.verbose.symm.trans hverbose
        simp only [Call.perform, Recorder.mark, Call.link, LinkedRecorder.mark, hrecording, hlinked,
          Recorder.detailsOf, LinkedRecorder.detailsOf, hverbose, hlinkedVerbose]
        exact sameEffect_pure none (h.mark title (some skippedDetails))
      | true =>
        have hlinkedVerbose : l.verbose = true := h.verbose.symm.trans hverbose
        simp only [Call.perform, Recorder.mark, Call.link, LinkedRecorder.mark, hrecording, hlinked,
          Recorder.detailsOf, LinkedRecorder.detailsOf, hverbose, hlinkedVerbose]
        intro world
        exact ⟨none, _, _, _, rfl, rfl, h.mark title _⟩

/-- Publishing keeps two recorders linked. -/
theorem agrees_publish (h : Linked r l) : Linked r.publish.2 l.publish where
  recording := h.recording
  verbose := h.verbose
  clock := congrArg (· + 1) h.clock
  opened := by
    obtain ⟨addresses, hactive, hopened⟩ := h.opened
    have hended := hopened.endRoot r.now
    refine ⟨addresses, hactive, ?_⟩
    simpa [LinkedRecorder.publish, LinkedRecorder.update, LinkedRecorder.tick, Recorder.publish,
      Recorder.tick, h.now_eq] using hended

/-- A call has the same effect on the world, throws the same, and leaves recorders in the same
state. -/
theorem perform (call : Call σ) (h : Linked r l) :
    SameEffect Linked (call.perform r) (call.link l) := by
  cases call with
  | clear title => exact sameEffect_pure none (h.clear (.text title))
  | stopRecording => exact sameEffect_pure none ⟨rfl, h.verbose, h.clock, h.opened⟩
  | setVerbose verbose => exact sameEffect_pure none ⟨h.recording, rfl, h.clock, h.opened⟩
  | start title => exact sameEffect_pure none (h.start title)
  | mark title details => exact agrees_mark h title details
  | stop title => exact agrees_stop h title
  | publish => exact sameEffect_pure none (agrees_publish h)

end Linked

end Recorder

end SummaryInlining
