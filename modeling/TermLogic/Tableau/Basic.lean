import TermLogic.Path
import TermLogic.Trace

/-!
# Tableaux

A tableau is a tree of branches that is kept in one array. A branch holds only what it adds to the
branch it grew from, to which it points, so that a fork copies nothing; what counts on a branch is
its whole path from the root.

* `Branch`, `Tableau`: the branches, the number of individuals introduced so far, and the trace the
  run is recorded into, if any.
* `Tableau.lineage`, `Tableau.path`: a branch with its ancestors, and all they hold together.
* `Tableau.holds`, `Tableau.pending`: whether a claim is on a branch or an ancestor of it, and what
  is to be expanded next there.
* `Tableau.add`, `Tableau.addAll`: put claims on a branch until it closes.
* `Tableau.ofSeed`: the tableau a run starts from.
-/

namespace TermLogic

/-- What a branch is still good for. -/
inductive Branch.State where
  /-- It is a leaf to be expanded. -/
  | active
  /-- It is fully expanded and holds no contradiction. -/
  | saturated
  /-- It holds a contradiction. -/
  | closed
  /-- It has forked, and its children are expanded in its place. -/
  | split
deriving DecidableEq

/-- What a branch adds to the branch it grew from. -/
structure Branch where
  /-- The branch it grew from; the root grew from none. -/
  parent : Option BranchId
  /-- The claims it adds, oldest first. -/
  claims : List Signed
  /-- The same claims as a set, in which they are looked up. -/
  index : List Signed
  /-- The slots of its path that were expanded on it. -/
  expanded : List Slot
  /-- The individuals that were introduced on it. -/
  individuals : List Individual
  /-- What it is still good for. -/
  state : Branch.State
deriving DecidableEq

/-- A new branch, which has nothing of its own. -/
def Branch.new (parent : Option BranchId) : Branch :=
  ⟨parent, [], [], [], [], .active⟩

/-- A tree of branches in the making. -/
structure Tableau where
  /-- The branches by number. -/
  branches : Array Branch
  /-- How many individuals have been introduced. -/
  introduced : Nat
  /-- What has been recorded, if the run is recorded. -/
  trace : Option Trace

namespace Tableau

/-! ### Looking at a branch

What counts on a branch is gathered from its ancestors each time it is asked for. Single claims are
looked up in the index of each of them, without the path being put together. -/

/-- A branch and up to `links` of its ancestors, the branch first. -/
def lineageWithin (branches : Array Branch) : (links : Nat) → BranchId → List Branch
  | links, b =>
    match branches[b]? with
    | none => []
    | some branch =>
      match links, branch.parent with
      | links + 1, some parent => branch :: lineageWithin branches links parent
      | _, _ => [branch]

/-- A branch and its ancestors, the branch first. A branch grows from one with a smaller number, so
that branch `b` has at most `b` ancestors. -/
def lineage (t : Tableau) (b : BranchId) : List Branch :=
  lineageWithin t.branches b b

/-- All that a branch and its ancestors hold together, from the root down. -/
def path (t : Tableau) (b : BranchId) : Path :=
  let line := (t.lineage b).reverse
  ⟨line.flatMap Branch.claims, line.flatMap Branch.expanded, line.flatMap Branch.individuals⟩

/-- Whether a branch or one of its ancestors has a signed claim. -/
def holds (t : Tableau) (b : BranchId) (s : Signed) : Bool :=
  (t.lineage b).any fun branch => branch.index.contains s

/-- The obligation to expand next on a branch, with its rule. -/
def pending (t : Tableau) (b : BranchId) : Option (Obligation × Rule) :=
  (t.path b).pendingBy (t.holds b)

/-- Whether a branch is in the given state. -/
def isIn (t : Tableau) (state : Branch.State) (b : BranchId) : Bool :=
  t.branches[b]?.any fun branch => branch.state = state

/-- The leaves that are to be expanded, in the order of their numbers. -/
def activeLeaves (t : Tableau) : List BranchId :=
  (List.range t.branches.size).filter (t.isIn .active)

/-! ### Changing a branch

A branch is changed in its entry of the array, and a fork appends two entries behind all others. No
entry is ever moved, so a branch keeps its number. -/

/-- Records an event, if the run is recorded. -/
def record (t : Tableau) (event : Event) : Tableau :=
  { t with trace := t.trace.map (·.push event) }

/-- Changes a branch. -/
def modify (t : Tableau) (b : BranchId) (change : Branch → Branch) : Tableau :=
  { t with branches := t.branches.modify b change }

/-- Puts a branch in a state. -/
def setState (t : Tableau) (b : BranchId) (state : Branch.State) : Tableau :=
  t.modify b fun branch => { branch with state := state }

/-- Writes a claim down as the last one of a branch. -/
def pushClaim (t : Tableau) (b : BranchId) (s : Signed) : Tableau :=
  t.modify b fun branch =>
    { branch with claims := branch.claims ++ [s], index := branch.index.insert s }

/-- Notes that a slot has been expanded on a branch. -/
def pushExpanded (t : Tableau) (b : BranchId) (slot : Slot) : Tableau :=
  t.modify b fun branch => { branch with expanded := branch.expanded ++ [slot] }

/-- Introduces the next individual on a branch. -/
def introduce (t : Tableau) (b : BranchId) : Tableau :=
  { t with introduced := t.introduced + 1 }.modify b fun branch =>
    { branch with individuals := branch.individuals ++ [t.introduced + 1] }

/-- Lets two new branches grow from a branch. -/
def fork (t : Tableau) (b : BranchId) : Tableau :=
  { t with branches := (t.branches.push (.new (some b))).push (.new (some b)) }.setState b .split

/-- Puts a claim on a branch. A claim that its path holds already is left out, and one that its path
holds with the other sign closes it. -/
def add (t : Tableau) (b : BranchId) (s : Signed) : Tableau :=
  if t.holds b s then t
  else if t.holds b s.flip then
    ((t.pushClaim b s).setState b .closed).record (.closed b s.claim)
  else t.pushClaim b s

/-- Puts claims on a branch, one after the other, until it closes. -/
def addAll (b : BranchId) : List Signed → Tableau → Tableau
  | [], t => t
  | s :: rest, t =>
    let t := t.add b s
    if t.isIn .closed b then t else addAll b rest t

/-! ### What recording leaves as it is

Recording touches the trace and nothing else. These lemmas let it be passed over wherever the
branches are spoken of. -/

/-- Recording leaves all branches as they are. -/
@[simp]
theorem branches_record (t : Tableau) (event : Event) : (t.record event).branches = t.branches :=
  rfl

/-- Recording introduces nobody. -/
@[simp]
theorem introduced_record (t : Tableau) (event : Event) :
    (t.record event).introduced = t.introduced := rfl

/-- The event comes last in the trace, if there is one. -/
@[simp]
theorem trace_record (t : Tableau) (event : Event) :
    (t.record event).trace = t.trace.map (·.push event) := rfl

/-- Recording leaves who is above a branch. -/
@[simp]
theorem lineage_record (t : Tableau) (event : Event) (b : BranchId) :
    (t.record event).lineage b = t.lineage b := rfl

/-- Recording leaves what is on a path. -/
@[simp]
theorem path_record (t : Tableau) (event : Event) (b : BranchId) :
    (t.record event).path b = t.path b := rfl

/-- Recording leaves which claims are found on a branch. -/
@[simp]
theorem holds_record (t : Tableau) (event : Event) (b : BranchId) :
    (t.record event).holds b = t.holds b := rfl

/-- Recording leaves the states of branches. -/
@[simp]
theorem isIn_record (t : Tableau) (event : Event) (state : Branch.State) (b : BranchId) :
    (t.record event).isIn state b = t.isIn state b := rfl

/-- Recording leaves which branches are to be expanded. -/
@[simp]
theorem activeLeaves_record (t : Tableau) (event : Event) :
    (t.record event).activeLeaves = t.activeLeaves := rfl

/-! ### The start -/

/-- Puts the claims a run starts from on the root, one after the other, until it closes. -/
def addSeeds : List Signed → Tableau → Tableau
  | [], t => t
  | s :: rest, t =>
    let t := (t.record (.seeded 0 s)).add 0 s
    if t.isIn .closed 0 then t else addSeeds rest t

/-- The tableau that has nothing but an empty root. -/
def root (trace : Option Trace) : Tableau :=
  ⟨#[.new none], 0, trace⟩

/-- The tableau a run starts from. -/
def ofSeed (seed : List Signed) (trace : Option Trace) : Tableau :=
  addSeeds seed (root trace)

end Tableau

end TermLogic
