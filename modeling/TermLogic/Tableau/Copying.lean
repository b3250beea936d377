import TermLogic.Tableau.Run

/-!
# Tableaux that copy

The plainest way to keep a tableau: every branch owns its whole path, and a fork copies the path
into both of its children. It follows the same rules in the same order as `Tableau`, which keeps
only what each branch adds, and serves to say what that one computes.

* `Copying`: the branches with their paths.
* `Copying.ofSeed`, `Copying.run`: the start and the whole run.
-/

namespace TermLogic

/-- A branch that owns its whole path. -/
structure Copying.Branch where
  /-- All that has come together on the way to the branch. -/
  path : Path
  /-- What the branch is still good for. -/
  state : Branch.State

/-- Branches with their paths. -/
structure Copying where
  /-- The branches by number. -/
  branches : Array Copying.Branch
  /-- How many individuals have been introduced. -/
  introduced : Nat
  /-- The events so far. -/
  events : List Event

namespace Copying

/-! ### Branches

The same operations as for `Tableau`, on whole paths. There is no trace to be had or not: what would
be recorded is always kept, in `events`. -/

/-- The path of a branch. -/
def path (t : Copying) (b : BranchId) : Path :=
  (t.branches[b]?.map Branch.path).getD ⟨[], [], []⟩

/-- Whether a branch is in the given state. -/
def isIn (t : Copying) (state : Branch.State) (b : BranchId) : Bool :=
  t.branches[b]?.any fun branch => branch.state = state

/-- The leaves that are to be expanded. -/
def activeLeaves (t : Copying) : List BranchId :=
  (List.range t.branches.size).filter (t.isIn .active)

/-- Records an event. -/
def record (t : Copying) (event : Event) : Copying :=
  { t with events := t.events ++ [event] }

/-- Changes the path of a branch. -/
def onPath (t : Copying) (b : BranchId) (change : Path → Path) : Copying :=
  { t with
    branches := t.branches.modify b fun branch => { branch with path := change branch.path } }

/-- Puts a branch in a state. -/
def setState (t : Copying) (b : BranchId) (state : Branch.State) : Copying :=
  { t with branches := t.branches.modify b fun branch => { branch with state := state } }

/-- Puts a claim on a branch, unless it is there already; a claim that is there with the other sign
closes the branch. -/
def add (t : Copying) (b : BranchId) (s : Signed) : Copying :=
  let added := t.onPath b fun path => { path with claims := path.claims ++ [s] }
  if (t.path b).holds s then t
  else if (t.path b).holds s.flip then (added.setState b .closed).record (.closed b s.claim)
  else added

/-- Puts claims on a branch, one after the other, until it closes. -/
def addAll (b : BranchId) : List Signed → Copying → Copying
  | [], t => t
  | s :: rest, t =>
    let t := t.add b s
    if t.isIn .closed b then t else addAll b rest t

/-- Puts the claims a run starts from on the root. -/
def addSeeds : List Signed → Copying → Copying
  | [], t => t
  | s :: rest, t =>
    let t := (t.record (.seeded 0 s)).add 0 s
    if t.isIn .closed 0 then t else addSeeds rest t

/-- The tableau a run starts from. -/
def ofSeed (seed : List Signed) : Copying :=
  addSeeds seed ⟨#[⟨⟨[], [], []⟩, .active⟩], 0, []⟩

/-! ### Runs

Steps, sweeps and rounds go through the branches as those of `Tableau` do. The closing events are
made from the branches after the last round and are no part of the tableau. -/

/-- Expands an obligation on a branch by its rule. -/
def apply (t : Copying) (round : Nat) (b : BranchId) (o : Obligation) (rule : Rule) : Copying :=
  let t := t.onPath b fun path => { path with expanded := path.expanded ++ [o.toSlot] }
  match rule with
  | .linear produced =>
    (t.record (.expanded round b o.claim o.individual produced)).addAll b produced
  | .witness terms =>
    let c := t.introduced + 1
    let produced := terms.map fun (term, sign) => .predication sign c term
    let t := { t with introduced := c }.onPath b fun path =>
      { path with individuals := path.individuals ++ [c] }
    (t.record (.expanded round b o.claim (some c) produced)).addAll b produced
  | .split left right =>
    let child := t.branches.size
    let copy : Branch := ⟨t.path b, .active⟩
    let t := { t with branches := (t.branches.push copy).push copy }.setState b .split
    let t := t.record (.split round b o.claim o.individual [(child, left), (child + 1, right)])
    (t.addAll child left).addAll (child + 1) right

/-- Lets each of the branches take one step; the first that is saturated ends the sweep. -/
def sweep (round : Nat) : List BranchId → Copying → Copying × Option BranchId
  | [], t => (t, none)
  | b :: rest, t =>
    match (t.path b).pending with
    | none => ((t.setState b .saturated).record (.saturated b), some b)
    | some (o, rule) => sweep round rest (t.apply round b o rule)

/-- Goes through at most `bound` rounds, the first of which has number `round`. -/
def rounds : (bound round : Nat) → Copying → Copying × Option BranchId
  | 0, _, t => (t, none)
  | bound + 1, round, t =>
    match t.activeLeaves with
    | [] => (t, none)
    | leaves =>
      match sweep round leaves t with
      | (t, some b) => (t, some b)
      | (t, none) => rounds bound (round + 1) t

/-- The outcome after the last round. -/
def outcome (t : Copying) : Option BranchId → Outcome
  | some b => .saturated b
  | none => if t.activeLeaves.isEmpty then .closed else .exhausted t.activeLeaves.length

/-- How a branch ends; one that has forked is no leaf. -/
def status? (branch : Branch) : Option Status :=
  match branch.state with
  | .active => some .unfinished
  | .saturated => some .saturated
  | .closed => some .closed
  | .split => none

/-- The closing events of a run: that the bound is used up, if so, and how each leaf ends. -/
def closing (t : Copying) (outcome : Outcome) : List Event :=
  (match outcome with
    | .exhausted active => [.exhausted active]
    | _ => []) ++
  t.branches.toList.zipIdx.filterMap fun (branch, b) => (status? branch).map (Event.status b)

/-- The outcome and the events of a run of at most `bound` rounds. -/
def run (t : Copying) (bound : Nat) : Outcome × List Event :=
  let (t, saturated) := rounds bound 0 t
  (t.outcome saturated, t.events ++ t.closing (t.outcome saturated))

end Copying

end TermLogic
