import TermLogic.Tableau.Basic

/-!
# Runs of a tableau

A run goes in rounds. In a round every leaf that is active at its start takes one step, in the order
of the branch numbers. The run stops when no leaf is active, when a leaf turns out to be saturated,
or when the bound on rounds is used up.

* `Tableau.apply`: expands an obligation on a branch by its rule.
* `Tableau.sweep`, `Tableau.rounds`: one round, and rounds up to the bound.
* `Outcome`: how a run ends.
* `Tableau.run`: a whole run, with the closing record of every leaf.
-/

namespace TermLogic

/-- How a run ends. -/
inductive Outcome where
  /-- Every branch has closed. -/
  | closed
  /-- This branch is fully expanded and has not closed. -/
  | saturated (branch : BranchId)
  /-- The bound is used up and this many leaves are still active. -/
  | exhausted (active : Nat)
deriving DecidableEq

/-- Only a run in which every branch closes shows validity. -/
def Outcome.isValid : Outcome → Bool
  | closed => true
  | saturated _ | exhausted _ => false

/-- What a run leaves behind. -/
structure Report where
  /-- How the run ended. -/
  outcome : Outcome
  /-- How many leaves were active at the start of each round. -/
  census : List Nat
  /-- The finished tableau. -/
  tableau : Tableau

namespace Tableau

/-! ### Steps

A step notes that the slot has been expanded, records the rule, and only then puts claims on
branches. So an event stands in the trace in front of the closures it leads to. -/

/-- Expands an obligation on a branch by its rule. -/
def apply (t : Tableau) (round : Nat) (b : BranchId) (o : Obligation) (rule : Rule) : Tableau :=
  let t := t.pushExpanded b o.toSlot
  match rule with
  | .linear produced =>
    (t.record (.expanded round b o.claim o.individual produced)).addAll b produced
  | .witness terms =>
    let c := t.introduced + 1
    let produced := terms.map fun (term, sign) => .predication sign c term
    ((t.introduce b).record (.expanded round b o.claim (some c) produced)).addAll b produced
  | .split left right =>
    let child := t.branches.size
    let children := [(child, left), (child + 1, right)]
    (((t.fork b).record (.split round b o.claim o.individual children)).addAll child left).addAll
      (child + 1) right

/-- Ends a branch on which nothing is pending. -/
def saturate (t : Tableau) (b : BranchId) : Tableau :=
  (t.setState b .saturated).record (.saturated b)

/-! ### Rounds

The leaves of a round are those that are active when it starts: branches that arise in it have to
wait for the next one. -/

/-- Lets each of the branches take one step; the first that is saturated ends the sweep. -/
def sweep (round : Nat) : List BranchId → Tableau → Tableau × Option BranchId
  | [], t => (t, none)
  | b :: rest, t =>
    match t.pending b with
    | none => (t.saturate b, some b)
    | some (o, rule) => sweep round rest (t.apply round b o rule)

/-- Goes through at most `bound` rounds, the first of which has number `round`. Gives the number of
active leaves at the start of each round, the tableau reached, and the saturated branch if there is
one. -/
def rounds : (bound round : Nat) → Tableau → List Nat × Tableau × Option BranchId
  | 0, _, t => ([], t, none)
  | bound + 1, round, t =>
    match t.activeLeaves with
    | [] => ([], t, none)
    | leaves =>
      match sweep round leaves t with
      | (t, some b) => ([leaves.length], t, some b)
      | (t, none) =>
        let (census, result) := rounds bound (round + 1) t
        (leaves.length :: census, result)

/-! ### The end

When the rounds are over, the trace takes in the ending of each leaf. The outcome is read off the
branches and not off the trace, so that it is there for a run without one. -/

/-- The ending to record for a branch; one that has forked is no leaf. -/
def status? (t : Tableau) (b : BranchId) : Option Status :=
  match t.branches[b]?.map Branch.state with
  | some .active => some .unfinished
  | some .saturated => some .saturated
  | some .closed => some .closed
  | some .split | none => none

/-- How each leaf ends, in the order of the branch numbers. -/
def endings (t : Tableau) : List (BranchId × Status) :=
  (List.range t.branches.size).filterMap fun b => (t.status? b).map (b, ·)

/-- Records how each leaf ends. -/
def recordEndings (t : Tableau) : Tableau :=
  t.endings.foldl (fun t (b, ending) => t.record (.status b ending)) t

/-- The outcome for a tableau after its last round. -/
def outcome (t : Tableau) : Option BranchId → Outcome
  | some b => .saturated b
  | none =>
    match t.activeLeaves.length with
    | 0 => .closed
    | active + 1 => .exhausted (active + 1)

/-- Records that the bound is used up, if that is how the run ended. -/
def recordOutcome (t : Tableau) : Outcome → Tableau
  | .exhausted active => t.record (.exhausted active)
  | .closed | .saturated _ => t

/-- Runs a tableau for at most `bound` rounds. -/
def run (t : Tableau) (bound : Nat) : Report :=
  let (census, t, saturated) := rounds bound 0 t
  let outcome := t.outcome saturated
  ⟨outcome, census, (t.recordOutcome outcome).recordEndings⟩

end Tableau

end TermLogic
