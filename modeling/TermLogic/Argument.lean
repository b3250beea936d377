import TermLogic.Config
import TermLogic.Tableau.Run

/-!
# Arguments

Validity by refutation: a conclusion follows from premises if no branch stays open in the tableau
that asserts the premises and denies the conclusion.

* `Argument`: premises and a conclusion; a formula on its own is an argument without premises.
* `Argument.seed`: the claims its tableau starts from.
* `Argument.run`, `Argument.isValid`: the run under a configuration, and its verdict.
* `LogEntry`, `Argument.log`: what a run says about its progress.
-/

namespace TermLogic

/-- Premises and a conclusion. -/
structure Argument where
  /-- What is taken for granted. -/
  premises : List Formula
  /-- What is to follow. -/
  conclusion : Formula
deriving DecidableEq

/-- One line about the progress of a run. -/
inductive LogEntry where
  /-- A round starts with this many active leaves. -/
  | round (number active : Nat)
  /-- An argument with this many premises has been decided. -/
  | verdict (premises : Nat) (conclusion : Formula) (outcome : Outcome)

/-- The name of an outcome in the log, with its branch or count. -/
def Outcome.describe : Outcome → String
  | closed => "Closed"
  | saturated branch => "Open \x7b branch: " ++ branch.repr ++ " \x7d"
  | exhausted active => "Exhausted \x7b open: " ++ active.repr ++ " \x7d"

/-- The text of a log entry, behind its level. -/
def LogEntry.render : LogEntry → String
  | round number active =>
    "TRACE round " ++ number.repr ++ ": " ++ active.repr ++ " open branches"
  | verdict premises conclusion outcome =>
    "DEBUG " ++ premises.repr ++ " premise(s) |- " ++ conclusion.render ++ ": " ++ outcome.describe

namespace Argument

/-- A formula on its own. -/
def ofFormula (f : Formula) : Argument :=
  ⟨[], f⟩

/-- The claims of a refutation: all premises asserted, then the conclusion denied. -/
def seed (argument : Argument) : List Signed :=
  argument.premises.map (Signed.formula true) ++ [.formula false argument.conclusion]

/-- Runs the tableau of an argument; events are appended to the trace if there is one. -/
def run (config : Config) (argument : Argument) (trace : Option Trace) : Report :=
  (Tableau.ofSeed argument.seed trace).run config.bound

/-- How the tableau of an argument ends. -/
def outcome (config : Config) (argument : Argument) : Outcome :=
  (argument.run config none).outcome

/-- Whether an argument is shown valid within the bound. -/
def isValid (config : Config) (argument : Argument) : Bool :=
  (argument.outcome config).isValid

/-- The log of a run: an entry for every round, then the verdict. -/
def log (argument : Argument) (report : Report) : List LogEntry :=
  report.census.mapIdx LogEntry.round ++
    [.verdict argument.premises.length argument.conclusion report.outcome]

end Argument

end TermLogic
