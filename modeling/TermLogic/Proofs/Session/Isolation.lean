import TermLogic.Proofs.Tableau.Recording
import TermLogic.Session

/-!
# Runs that share a trace

Recording a run changes nothing about it, and a run changes nothing about what the trace holds
already. So runs that share a trace, recorded or not, do not notice each other.

* `Tableau.recorded`: what a run records, taken by itself.
* `Job`, `Job.runAll`: runs one after the other, with one trace for those that are recorded.
* `Tableau.trace_run_of_recorded`: a recorded run puts its own events behind those that are there.
* `Job.runAll_eq`: so do runs one after the other, each with the outcome it has by itself.
* `Session.decide_eq`: the same for the arguments that a session decides.
* `Tableau.runs_isolated`: all of it.
-/

namespace TermLogic

namespace Tableau

/-- What a run records, taken by itself. -/
def recorded (seed : List Signed) (bound : Nat) : List Event :=
  (((ofSeed seed (some .empty)).run bound).tableau.trace.getD .empty).toList

/-- A run records the events of its copying twin. -/
theorem recorded_eq (seed : List Signed) (bound : Nat) :
    recorded seed bound = ((Copying.ofSeed seed).run bound).2 := by
  unfold recorded
  rw [trace_run, Option.map_some, Option.getD_some, Trace.toList_append, Trace.toList_empty,
    List.nil_append]

/-- A recorded run puts what it records by itself behind what the trace held. -/
theorem trace_run_of_recorded (seed : List Signed) (bound : Nat) (prior : Trace) :
    ((ofSeed seed (some prior)).run bound).tableau.trace =
      some (prior.append (recorded seed bound)) := by
  rw [trace_run, Option.map_some, recorded_eq]

/-- The outcome of a run is the same whether it is recorded or not. -/
theorem outcome_run_eq_unrecorded (seed : List Signed) (trace : Option Trace) (bound : Nat) :
    ((ofSeed seed trace).run bound).outcome = ((ofSeed seed none).run bound).outcome := by
  rw [outcome_run, outcome_run]

end Tableau

/-! ### Several runs

A job says what a run starts from, its bound, and whether it is recorded. The trace is handed from
one job to the next. -/

/-- One of several runs that share a trace. -/
structure Job where
  /-- The claims the run starts from. -/
  seed : List Signed
  /-- How many rounds it may take. -/
  bound : Nat
  /-- Whether it is recorded. -/
  isRecorded : Bool

namespace Job

/-- Carries a run out; the trace takes it in if it is to be recorded. -/
def run (job : Job) (trace : Trace) : Outcome × Trace :=
  let report :=
    (Tableau.ofSeed job.seed (if job.isRecorded then some trace else none)).run job.bound
  (report.outcome, report.tableau.trace.getD trace)

/-- Carries runs out one after the other. -/
def runAll : List Job → Trace → List Outcome × Trace
  | [], trace => ([], trace)
  | job :: rest, trace =>
    let (outcome, trace) := job.run trace
    let (outcomes, trace) := runAll rest trace
    (outcome :: outcomes, trace)

/-- The outcome that a run has by itself. -/
def outcome (job : Job) : Outcome :=
  ((Tableau.ofSeed job.seed none).run job.bound).outcome

/-- What a run adds to the shared trace. -/
def events (job : Job) : List Event :=
  if job.isRecorded then Tableau.recorded job.seed job.bound else []

/-- One of the runs has its own outcome and adds its own events. -/
theorem run_eq (job : Job) (prior : Trace) :
    job.run prior = (job.outcome, prior.append job.events) := by
  obtain ⟨seed, bound, isRecorded⟩ := job
  unfold run outcome events
  rcases isRecorded with _ | _
  · simp [Tableau.trace_run]
  · simp only [if_true, Tableau.trace_run_of_recorded, Option.getD_some]
    rw [Tableau.outcome_run_eq_unrecorded]

/-- Runs one after the other have their own outcomes and add their own events in order. -/
theorem runAll_eq (jobs : List Job) (prior : Trace) :
    runAll jobs prior = (jobs.map outcome, prior.append (jobs.flatMap events)) := by
  induction jobs generalizing prior with
  | nil => simp [runAll]
  | cons job rest ih =>
      simp only [runAll, run_eq, ih, Trace.append_append, List.map_cons, List.flatMap_cons]

/-- Only the recorded runs add events. -/
theorem flatMap_events (jobs : List Job) :
    jobs.flatMap events =
      (jobs.filter isRecorded).flatMap fun job => Tableau.recorded job.seed job.bound := by
  induction jobs with
  | nil => rfl
  | cons job rest ih =>
      by_cases hrecorded : job.isRecorded = true <;> simp [events, hrecorded, ih]

end Job

/-- A session decides an argument as a run of its own, and adds its own events if it records it. -/
theorem Session.decide_eq (session : Session) (argument : Argument) (record : Bool) :
    session.decide argument record =
      (argument.isValid session.config,
        { session with
          trace := session.trace.append
            (Job.events ⟨argument.seed, session.config.bound, record⟩) }) := by
  have hrun := Job.run_eq ⟨argument.seed, session.config.bound, record⟩ session.trace
  obtain ⟨houtcome, htrace⟩ := Prod.mk.inj hrun
  unfold Session.decide Argument.run Argument.isValid Argument.outcome
  simp only at houtcome htrace ⊢
  rw [houtcome, htrace]
  rfl

/-- **Runs are isolated.** Whatever a trace holds, a run that is recorded into it has the outcome of
the run that is not recorded, and leaves behind what the trace held, followed by what the run
records by itself; this depends on nothing but the claims and the bound. Of runs one after the other
that share a trace, each has the outcome it has by itself, and the trace ends up with the events of
the recorded ones in order. So do the arguments that a session decides. -/
theorem Tableau.runs_isolated (prior : Trace) :
    (∀ (seed : List Signed) (bound : Nat),
      ((ofSeed seed (some prior)).run bound).outcome = ((ofSeed seed none).run bound).outcome ∧
      ((ofSeed seed (some prior)).run bound).tableau.trace =
        some (prior.append (recorded seed bound))) ∧
    (∀ jobs : List Job,
      (Job.runAll jobs prior).1 =
        jobs.map (fun job => ((ofSeed job.seed none).run job.bound).outcome) ∧
      (Job.runAll jobs prior).2 =
        prior.append ((jobs.filter Job.isRecorded).flatMap fun job =>
          recorded job.seed job.bound)) ∧
    (∀ (config : Config) (argument : Argument) (record : Bool),
      Session.decide ⟨config, prior⟩ argument record =
        (argument.isValid config, ⟨config, if record then
          prior.append (recorded argument.seed config.bound) else prior⟩)) := by
  refine ⟨fun seed bound => ?_, fun jobs => ⟨?_, ?_⟩, fun config argument record => ?_⟩
  · exact ⟨outcome_run_eq_unrecorded seed (some prior) bound,
      trace_run_of_recorded seed bound prior⟩
  · rw [Job.runAll_eq]
    rfl
  · rw [Job.runAll_eq, Job.flatMap_events]
  · rw [Session.decide_eq]
    rcases record with _ | _ <;> simp [Job.events]

end TermLogic
