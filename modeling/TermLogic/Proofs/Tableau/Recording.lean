import Mathlib.Data.List.Basic
import Mathlib.Data.List.Induction
import TermLogic.Proofs.Tableau.Branches
import TermLogic.Proofs.Tableau.Sharing

/-!
# What a run records

A recorded run puts behind what its trace held before exactly the events of the copying twin, and an
unrecorded one goes the same way.

* `Event.isStep`: events that are recorded while a run goes on, and not at its end.
* `Tableau.trace_recordEndings`: the endings are recorded one after the other.
* `Tableau.Mirrors.closing_eq`: the copying twin has the same endings.
* `Tableau.outcome_run`, `Tableau.trace_run`: outcome and trace of a run, from its copying twin.
* `Tableau.run_refines_copying`: both together, with the paths on the way.
-/

namespace TermLogic

/-- The entries of a list with their places, by way of the places. -/
theorem zipIdx_eq_filterMap_range {α : Type} (xs : List α) :
    xs.zipIdx = (List.range xs.length).filterMap fun i => xs[i]?.map fun x => (x, i) := by
  induction xs using List.reverseRecOn with
  | nil => rfl
  | append_singleton xs x ih =>
      have hbefore : (List.range xs.length).filterMap (fun i => xs[i]?.map fun x => (x, i)) =
          (List.range xs.length).filterMap fun i => (xs ++ [x])[i]?.map fun x => (x, i) := by
        refine List.filterMap_congr fun i hi => ?_
        rw [List.getElem?_append_left (List.mem_range.1 hi)]
      rw [List.zipIdx_append, ih, hbefore, List.length_append, List.length_singleton,
        List.range_succ, List.filterMap_append]
      simp

/-- No claim is twice on a path of a tableau that copies. -/
theorem Copying.nodup_claims_rounds (seed : List Signed) (n : Nat) (b : BranchId) :
    (((Copying.ofSeed seed).rounds n 0).1.path b).claims.Nodup := by
  rcases hb : ((Copying.ofSeed seed).rounds n 0).1.branches[b]? with _ | branch
  · simp [Copying.path, hb]
  · rw [path_eq_of_getElem? hb]
    exact (Copying.Branch.tidy_rounds seed n 0 b branch hb).nodup

/-- Whether an event is recorded while a run goes on, and not at its end. -/
def Event.isStep : Event → Bool
  | exhausted _ | status _ _ => false
  | seeded _ _ | expanded _ _ _ _ _ | split _ _ _ _ _ | closed _ _ | saturated _ => true

/-- At its end, a run records no steps. -/
theorem Copying.isStep_of_mem_closing {u : Copying} {outcome : Outcome} {event : Event}
    (h : event ∈ u.closing outcome) : event.isStep = false := by
  unfold closing at h
  rcases List.mem_append.1 h with hbound | hending
  · cases outcome with
    | exhausted active =>
        rw [List.mem_singleton.1 hbound]
        rfl
    | _ => cases hbound
  · obtain ⟨⟨branch, b⟩, -, hstatus⟩ := List.mem_filterMap.1 hending
    obtain ⟨ending, -, rfl⟩ := Option.map_eq_some_iff.1 hstatus
    rfl

namespace Tableau

variable {prior : Option Trace} {t : Tableau} {u : Copying}

/-- Recording several events one after the other. -/
theorem trace_foldl_record (entries : List (BranchId × Status)) (t : Tableau) :
    (entries.foldl (fun t (b, ending) => t.record (.status b ending)) t).trace =
      t.trace.map fun trace => trace.append (entries.map fun (b, ending) => .status b ending) := by
  induction entries generalizing t with
  | nil => simp
  | cons first rest ih =>
      rw [List.foldl_cons, ih, trace_record, Option.map_map]
      simp [Function.comp_def, Trace.append, Trace.push]

/-- The endings are recorded one after the other. -/
theorem trace_recordEndings (t : Tableau) :
    t.recordEndings.trace =
      t.trace.map fun trace => trace.append (t.endings.map fun (b, ending) => .status b ending) :=
  trace_foldl_record t.endings t

/-- Both tableaux have the same ending for a branch. -/
theorem Mirrors.status?_eq (h : Mirrors prior t u) (b : BranchId) :
    u.branches[b]?.bind Copying.status? = t.status? b := by
  have hstate := h.state_eq b
  unfold status?
  rw [← hstate]
  cases u.branches[b]? with
  | none => rfl
  | some branch => cases hown : branch.state <;> simp [Copying.status?, hown]

/-- The copying twin closes with the endings of the other. -/
theorem Mirrors.closing_eq (h : Mirrors prior t u) :
    u.closing .closed = t.endings.map fun (b, ending) => .status b ending := by
  unfold Copying.closing endings
  rw [List.nil_append, ← h.size_eq, List.map_filterMap, zipIdx_eq_filterMap_range,
    List.filterMap_filterMap, Array.length_toList]
  refine List.filterMap_congr fun b _ => ?_
  rw [← h.status?_eq b, Array.getElem?_toList]
  cases u.branches[b]? with
  | none => rfl
  | some branch => simp [Function.comp_def]

/-- Both record the same endings. -/
theorem Mirrors.trace_recordEndings (h : Mirrors prior t u) :
    t.recordEndings.trace =
      prior.map fun own => own.append (u.events ++ u.closing .closed) := by
  rw [Tableau.trace_recordEndings, h.events_eq, Option.map_map, h.closing_eq]
  simp only [Function.comp_def, Trace.append_append]

/-- Both record the same events at the end of a run. -/
theorem Mirrors.trace_recordOutcome (h : Mirrors prior t u) (outcome : Outcome) :
    (t.recordOutcome outcome).recordEndings.trace =
      prior.map fun own => own.append (u.events ++ u.closing outcome) := by
  cases outcome with
  | closed => exact h.trace_recordEndings
  | saturated b => exact h.trace_recordEndings
  | exhausted active =>
      have hclosing : u.closing (.exhausted active) = .exhausted active :: u.closing .closed := rfl
      rw [hclosing, List.append_cons]
      exact (h.record (.exhausted active)).trace_recordEndings

/-- The outcome of a run is that of its copying twin. -/
theorem outcome_run (seed : List Signed) (trace : Option Trace) (bound : Nat) :
    ((ofSeed seed trace).run bound).outcome = ((Copying.ofSeed seed).run bound).1 := by
  obtain ⟨hrounds, hend⟩ := (mirrors_ofSeed seed trace).rounds bound 0
  unfold run Copying.run
  simp only [hrounds.outcome_eq, hend]

/-- A run that is recorded puts the events of its copying twin behind what the trace held. -/
theorem trace_run (seed : List Signed) (trace : Option Trace) (bound : Nat) :
    ((ofSeed seed trace).run bound).tableau.trace =
      trace.map fun own => own.append ((Copying.ofSeed seed).run bound).2 := by
  obtain ⟨hrounds, hend⟩ := (mirrors_ofSeed seed trace).rounds bound 0
  unfold run Copying.run
  simp only [hrounds.outcome_eq, hend]
  exact hrounds.trace_recordOutcome _

/-- **Sharing paths refines copying them.** A run has the outcome of the tableau in which every
branch owns its claims, its expanded obligations and its individuals and a fork copies them all, and
it records the same events. After any number of rounds the two have the same paths. What has been
expanded on a path of the copying tableau is kept by place, which is the same as keeping the set of
expanded obligations. -/
theorem run_refines_copying (seed : List Signed) (trace : Option Trace) (bound : Nat) :
    ((ofSeed seed trace).run bound).outcome = ((Copying.ofSeed seed).run bound).1 ∧
    ((ofSeed seed trace).run bound).tableau.trace =
      trace.map (fun own => own.append ((Copying.ofSeed seed).run bound).2) ∧
    ∀ (n : Nat) (b : BranchId),
      ((ofSeed seed trace).rounds n 0).2.1.path b = ((Copying.ofSeed seed).rounds n 0).1.path b ∧
      ∀ o ∈ (((Copying.ofSeed seed).rounds n 0).1.path b).obligations,
        ((((Copying.ofSeed seed).rounds n 0).1.path b).isExpanded o.toSlot = true ↔
          (o.claim, o.individual) ∈ (((Copying.ofSeed seed).rounds n 0).1.path b).spent) := by
  refine ⟨outcome_run seed trace bound, trace_run seed trace bound, fun n b => ⟨?_, fun o ho => ?_⟩⟩
  · obtain ⟨hrounds, -⟩ := (mirrors_ofSeed seed trace).rounds n 0
    exact (hrounds.path_eq b).symm
  · exact Path.isExpanded_iff_mem_spent (Copying.nodup_claims_rounds seed n b) ho

end Tableau

end TermLogic
