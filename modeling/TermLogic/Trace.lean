import TermLogic.Claim

/-!
# Traces

The record of tableau runs, and its text.

* `Event`: one recorded step.
* `Trace`: a buffer of events, which belongs to the caller and may take in several runs.
* `Trace.statuses`: how the branches ended, as recorded.
* `Trace.render`: one line per event, each branch set off by as many bars as it has ancestors. The
  depths of branches are taken from the forks recorded so far; a branch that no fork has announced
  stands at the margin.
-/

namespace TermLogic

/-- Branches are numbered from 0, the root, in the order in which they arise. -/
abbrev BranchId : Type := Nat

/-- How a leaf ends. -/
inductive Status where
  /-- It holds a contradiction. -/
  | closed
  /-- It is fully expanded and holds none. -/
  | saturated
  /-- The run stopped before it was found to hold one or to be fully expanded. That is found only
  when the leaf is visited again, so it need not have anything left to expand. -/
  | unfinished
deriving DecidableEq

/-- The word for a status: a fully expanded leaf without contradiction stays open. -/
def Status.render : Status → String
  | closed => "closed"
  | saturated => "open"
  | unfinished => "unfinished"

/-- One recorded step of a run. -/
inductive Event where
  /-- A claim the run starts from. -/
  | seeded (branch : BranchId) (claim : Signed)
  /-- A rule that does not fork: `individual` is the one it was applied to or introduced. -/
  | expanded (round : Nat) (branch : BranchId) (consumed : Signed)
      (individual : Option Individual) (produced : List Signed)
  /-- A rule that forks, with the claims for each new branch. -/
  | split (round : Nat) (branch : BranchId) (consumed : Signed)
      (individual : Option Individual) (children : List (BranchId × List Signed))
  /-- A branch has come to hold a claim with both signs. -/
  | closed (branch : BranchId) (claim : Claim)
  /-- A branch is fully expanded. -/
  | saturated (branch : BranchId)
  /-- The bound on rounds is used up. -/
  | exhausted (active : Nat)
  /-- How a leaf ends. -/
  | status (branch : BranchId) (ending : Status)
deriving DecidableEq

/-- A buffer of events. -/
structure Trace where
  /-- The events, oldest first. -/
  events : Array Event
deriving DecidableEq

namespace Trace

/-- The trace without events. -/
def empty : Trace := ⟨#[]⟩

/-- Records an event. -/
def push (trace : Trace) (event : Event) : Trace :=
  ⟨trace.events.push event⟩

/-- The number of events. -/
def size (trace : Trace) : Nat :=
  trace.events.size

/-- Whether nothing has been recorded. -/
def isEmpty (trace : Trace) : Bool :=
  trace.events.isEmpty

/-- The events, oldest first. -/
def toList (trace : Trace) : List Event :=
  trace.events.toList

/-- There is no event in the empty trace. -/
@[simp]
theorem toList_empty : empty.toList = [] := rfl

/-- What is recorded comes last. -/
@[simp]
theorem toList_push (trace : Trace) (event : Event) :
    (trace.push event).toList = trace.toList ++ [event] := by
  simp [push, toList]

/-- The recorded endings of leaves, in the order of their record. -/
def statuses (trace : Trace) : List (BranchId × Status) :=
  trace.toList.filterMap fun
    | .status branch ending => some (branch, ending)
    | _ => none

end Trace

/-! ### Text

The text of a trace is made from its events alone, one after the other. The table of depths is
carried along, and an event is shown with the forks that were recorded before it. -/

/-- The depths of the branches that forks have announced, the latest first. -/
abbrev Depths : Type := List (BranchId × Nat)

/-- The depth of a branch; one that no fork has announced is a root. -/
def Depths.get (depths : Depths) (branch : BranchId) : Nat :=
  (depths.lookup branch).getD 0

/-- The depths after an event: a fork puts its children one below its branch. -/
def Depths.after (depths : Depths) : Event → Depths
  | .split _ branch _ _ children =>
    children.foldl (fun table child => (child.1, depths.get branch + 1) :: table) depths
  | _ => depths

namespace Event

/-- The text of several claims. -/
def renderClaims (claims : List Signed) : String :=
  ", ".intercalate (claims.map Signed.render)

/-- The text of the individual a rule is about. -/
def renderIndividual : Option Individual → String
  | some c => " @c" ++ c.repr
  | none => ""

/-- The text of the branches that a fork makes. -/
def renderChildren (children : List (BranchId × List Signed)) : String :=
  " / ".intercalate (children.map fun child => "b" ++ child.1.repr ++ ": " ++ renderClaims child.2)

/-- The text of an applied rule. -/
def renderStep (round : Nat) (consumed : Signed) (individual : Option Individual)
    (result : String) : String :=
  "#" ++ round.repr ++ " " ++ consumed.render ++ renderIndividual individual ++ " => " ++ result

/-- A line about a branch, behind one bar for each of its ancestors. -/
def renderLine (depths : Depths) (branch : BranchId) (text : String) : String :=
  String.ofList (List.replicate (depths.get branch) '│') ++ "[b" ++ branch.repr ++ "] " ++ text ++
    "\n"

/-- The line for an event. -/
def render (depths : Depths) : Event → String
  | seeded branch claim => renderLine depths branch ("seed " ++ claim.render)
  | expanded round branch consumed individual produced =>
    renderLine depths branch (renderStep round consumed individual (renderClaims produced))
  | split round branch consumed individual children =>
    renderLine depths branch (renderStep round consumed individual (renderChildren children))
  | closed branch claim => renderLine depths branch ("closed on " ++ claim.render)
  | saturated branch => renderLine depths branch "saturated"
  | exhausted active =>
    "bound exhausted with " ++ active.repr ++ (if active = 1 then " branch" else " branches") ++
      " open\n"
  | status branch ending => renderLine depths branch ending.render

/-- The lines for a list of events, with the depths that are known before them. -/
def renderLines : Depths → List Event → List String
  | _, [] => []
  | depths, event :: rest => event.render depths :: renderLines (depths.after event) rest

end Event

/-- The text of a trace. -/
def Trace.render (trace : Trace) : String :=
  String.join (Event.renderLines [] trace.toList)

end TermLogic
