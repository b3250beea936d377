import TermLogic.Argument

/-!
# Sessions

A prover in use: a configuration, and one trace that lives through all commands.

* `Session.Command`: change the bound, decide an argument with or without recording it, or handle
  the trace.
* `Session.run`: what a command answers and how it changes the session. A refused command leaves the
  session as it is.
-/

namespace TermLogic

/-- A configuration and a shared trace. -/
structure Session where
  /-- The configuration in force. -/
  config : Config
  /-- All that has been recorded. -/
  trace : Trace

namespace Session

/-- What can be asked of a session. -/
inductive Command where
  /-- Put another bound in force. -/
  | setBound (bound : Nat)
  /-- Decide an argument, and record the run if asked to. -/
  | decide (argument : Argument) (record : Bool)
  /-- Append an event to the trace. -/
  | push (event : Event)
  /-- Empty the trace. -/
  | clear
  /-- Leave everything as it is. -/
  | view

/-- What a command answers. -/
inductive Reply where
  /-- The bound now in force. -/
  | bound (bound : Nat)
  /-- Whether the argument is valid. -/
  | verdict (valid : Bool)
  /-- Nothing but that it is done. -/
  | done
deriving DecidableEq

/-- A session with an empty trace. -/
def start (config : Config) : Session :=
  ⟨config, .empty⟩

/-- Decides an argument; the trace takes the run in if it is to be recorded. -/
def decide (session : Session) (argument : Argument) (record : Bool) : Bool × Session :=
  let report := argument.run session.config (if record then some session.trace else none)
  (report.outcome.isValid, { session with trace := report.tableau.trace.getD session.trace })

/-- Carries a command out. -/
def run (session : Session) : Command → Except ConfigError (Reply × Session)
  | .setBound bound => do
    let config ← Config.ofBound bound
    return (.bound config.bound, { session with config := config })
  | .decide argument record =>
    let (valid, session) := session.decide argument record
    .ok (.verdict valid, session)
  | .push event => .ok (.done, { session with trace := session.trace.push event })
  | .clear => .ok (.done, { session with trace := .empty })
  | .view => .ok (.done, session)

end Session

end TermLogic
