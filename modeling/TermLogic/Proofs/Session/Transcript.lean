import TermLogic.Proofs.Session.Isolation
import TermLogic.Proofs.Tableau.Arena
import TermLogic.Proofs.Tableau.Verdict
import TermLogic.Proofs.Trace.Lines

/-!
# The text of several runs

The branches of every run are numbered from 0, and the text of a trace takes the depths of branches
from one table, in which the depths of earlier runs are never struck out. They do no harm: a run
announces each of its branches before it says anything else of it, and never lets the first one grow
from another.

* `Tableau.ancestors`: the branches above a branch.
* `Tableau.parents`, `Tableau.Recounts`: from which branch each one has grown, which is what the
  recorded forks tell. It is kept by every operation.
* `Tableau.announced_recorded`: a run announces its branches.
* `Tableau.get_foldl_recorded`: its forks put each branch as deep as it has ancestors.
* `Tableau.renderLines_recorded`: so its lines do not depend on what was in the table.
* `Job.render_runAll`: the text of several runs.
-/

namespace TermLogic

namespace Tableau

variable {t t' : Tableau} {b : BranchId} {prior : Trace} {event : Event}

/-! ### Where branches have grown from

The tableau knows the parent of each branch, and the recorded forks tell it too. That both agree is
kept by every operation, and is what ties the text of a trace to the tableau. -/

/-- The branches above a branch, the nearest first. -/
def ancestors (t : Tableau) (b : BranchId) : List Branch :=
  (t.lineage b).tail

/-- From which branch each one has grown. -/
def parents (t : Tableau) : List (Option BranchId) :=
  t.branches.toList.map Branch.parent

/-- A change of a branch that leaves its parent leaves all parents. -/
theorem parents_modify {change : Branch → Branch}
    (h : ∀ branch, (change branch).parent = branch.parent) (t : Tableau) (b : BranchId) :
    (t.modify b change).parents = t.parents := by
  refine List.ext_getElem? fun i => ?_
  simp only [parents, Tableau.modify, List.getElem?_map, Array.getElem?_toList,
    Array.getElem?_modify]
  split
  · simp [Function.comp_def, h]
  · rfl

/-- A fork adds two branches that have grown from the one that forks. -/
theorem parents_fork (t : Tableau) (b : BranchId) :
    (t.fork b).parents = t.parents ++ [some b, some b] := by
  refine (parents_modify ?_ _ b).trans ?_
  · exact fun _ => rfl
  · simp [parents, Branch.new]

/-- What a tableau has recorded behind `prior` tells from which branch each one has grown. -/
def Recounts (prior : Trace) (t : Tableau) : Prop :=
  ∃ events, t.trace = some (prior.append events) ∧ stems events = t.parents

/-- Recording an event that tells of the branches that are new. -/
theorem recounts_record {events : List Event} (htrace : t.trace = some (prior.append events))
    (h : stems (events ++ [event]) = t.parents) : Recounts prior (t.record event) := by
  refine ⟨events ++ [event], ?_, h⟩
  rw [trace_record, htrace, Option.map_some, Trace.push_append]

namespace Recounts

/-- An event that is no fork tells of no new branch. -/
theorem record (h : Recounts prior t) (hsplit : event.isSplit = false) :
    Recounts prior (t.record event) := by
  obtain ⟨events, htrace, hstems⟩ := h
  refine recounts_record htrace ?_
  rw [stems_concat_of_isSplit_eq_false hsplit, hstems]

/-- A change of a branch that leaves its parent needs no event. -/
theorem modify (h : Recounts prior t) {change : Branch → Branch}
    (hparent : ∀ branch, (change branch).parent = branch.parent) (b : BranchId) :
    Recounts prior (t.modify b change) := by
  obtain ⟨events, htrace, hstems⟩ := h
  exact ⟨events, htrace, hstems.trans (parents_modify hparent t b).symm⟩

/-- Putting a claim on a branch keeps what the forks tell. -/
theorem add (h : Recounts prior t) (b : BranchId) (s : Signed) : Recounts prior (t.add b s) := by
  have hpush : Recounts prior (t.pushClaim b s) := h.modify (fun _ => by rfl) b
  unfold Tableau.add
  split
  · exact h
  · split
    · exact (hpush.modify (fun _ => by rfl) b).record rfl
    · exact hpush

/-- Putting several claims on a branch keeps what the forks tell. -/
theorem addAll (h : Recounts prior t) (b : BranchId) (claims : List Signed) :
    Recounts prior (t.addAll b claims) := by
  induction claims generalizing t with
  | nil => exact h
  | cons s rest ih =>
      simp only [Tableau.addAll]
      split
      · exact h.add b s
      · exact ih (h.add b s)

/-- A fork is recorded with the branches that it makes. -/
theorem fork (h : Recounts prior t) (round : Nat) (b : BranchId) (consumed : Signed)
    (individual : Option Individual) (left right : BranchId × List Signed) :
    Recounts prior ((t.fork b).record (.split round b consumed individual [left, right])) := by
  obtain ⟨events, htrace, hstems⟩ := h
  refine recounts_record htrace ?_
  rw [stems_concat, hstems, parents_fork]
  rfl

/-- Every step keeps what the forks tell: only a fork makes branches, and it is recorded. -/
theorem apply (h : Recounts prior t) (round : Nat) (b : BranchId) (o : Obligation) (rule : Rule) :
    Recounts prior (t.apply round b o rule) := by
  have hmark : Recounts prior (t.pushExpanded b o.toSlot) := h.modify (fun _ => by rfl) b
  rcases rule with produced | ⟨left, right⟩ | terms
  · exact (hmark.record rfl).addAll b produced
  · exact ((hmark.fork round b o.claim o.individual _ _).addAll _ left).addAll _ right
  · have hnew : Recounts prior ((t.pushExpanded b o.toSlot).introduce b) :=
      modify hmark (fun _ => by rfl) b
    exact (hnew.record rfl).addAll b _

/-- Ending a saturated branch keeps what the forks tell. -/
theorem saturate (h : Recounts prior t) (b : BranchId) : Recounts prior (t.saturate b) :=
  (h.modify (fun _ => by rfl) b).record rfl

/-- The notice that the bound is used up is no fork. -/
theorem recordOutcome (h : Recounts prior t) (outcome : Outcome) :
    Recounts prior (t.recordOutcome outcome) := by
  cases outcome with
  | exhausted active => exact h.record rfl
  | closed | saturated b => exact h

/-- The endings of leaves are no forks. -/
theorem recordEndings (h : Recounts prior t) : Recounts prior t.recordEndings := by
  unfold Tableau.recordEndings
  generalize t.endings = endings
  induction endings generalizing t with
  | nil => exact h
  | cons first rest ih => exact ih (h.record rfl)

end Recounts

variable (seed : List Signed) (bound : Nat)

/-- A tableau starts with a branch that has grown from none. -/
theorem recounts_ofSeed (prior : Trace) : Recounts prior (ofSeed seed (some prior)) := by
  have hadd : ∀ {t : Tableau}, Recounts prior t → Recounts prior (t.addSeeds seed) := by
    induction seed with
    | nil => exact fun h => h
    | cons s rest ih =>
        intro t h
        have hseeded : Recounts prior (t.record (.seeded 0 s)) := h.record rfl
        have hnext := hseeded.add 0 s
        simp only [Tableau.addSeeds]
        split
        · exact hnext
        · exact ih hnext
  exact hadd ⟨[], by simp [root], rfl⟩

/-- In every state that steps lead to, the recorded forks tell from which branch each one has
grown. -/
theorem Reachable.recounts {seed : List Signed} (h : Reachable seed (some prior) t) :
    Recounts prior t := by
  induction h with
  | start => exact recounts_ofSeed seed prior
  | expand round _ _ _ ih => exact ih.apply round _ _ _
  | saturate _ _ _ ih => exact ih.saturate _

/-- What a run records tells from which branch each one has grown, whatever its trace held. -/
theorem stems_recorded (prior : Trace) :
    stems (recorded seed bound) = ((ofSeed seed (some prior)).run bound).tableau.parents := by
  have hlast : Recounts prior ((ofSeed seed (some prior)).rounds bound 0).2.1 :=
    (Reachable.start.rounds bound 0).recounts
  obtain ⟨events, htrace, hstems⟩ := (hlast.recordOutcome _).recordEndings
  have hsame : prior.append events = prior.append (recorded seed bound) :=
    Option.some.inj (htrace.symm.trans (trace_run_of_recorded seed bound prior))
  have hevents : events = recorded seed bound := by
    have hlists := congrArg Trace.toList hsame
    rwa [Trace.toList_append, Trace.toList_append, List.append_cancel_left_eq] at hlists
  rw [← hevents]
  exact hstems

/-! ### Depths in a run

A branch stands one below its parent, and as deep as it has ancestors, by induction on its number:
parents have smaller ones. -/

/-- A run announces every branch before it says anything else of it. -/
theorem announced_recorded : Announced (recorded seed bound) := by
  have hfinished := Copying.finished_rounds seed bound
  rw [recorded_eq]
  unfold Copying.run
  generalize (Copying.ofSeed seed).rounds bound 0 = result at hfinished
  obtain ⟨u, saturated⟩ := result
  refine ((hfinished.orderly.announced hfinished.acts).append fun event hmem => ?_).1
  rw [Copying.closing_eq] at hmem
  rcases List.mem_append.1 hmem with hnotice | hending
  · rcases houtcome : u.outcome saturated with _ | _ | active <;>
      simp only [houtcome, Copying.notice, List.not_mem_nil, List.mem_singleton] at hnotice
    rw [hnotice]
    exact ⟨rfl, by rintro b ⟨⟩⟩
  · obtain ⟨⟨b, ending⟩, hleaf, rfl⟩ := List.mem_map.1 hending
    refine ⟨rfl, fun b' hb' => ?_⟩
    obtain rfl := Option.some.inj hb'
    obtain ⟨state, hstate, -⟩ := mem_leafEndings_iff.1 hleaf
    rw [length_stems, hfinished.roster_eq]
    exact (List.getElem?_eq_some_iff.1 hstate).1

/-- The shape of a tableau depends on nothing but the branches. -/
theorem Shaped.of_branches_eq (h : t.Shaped) (heq : t'.branches = t.branches) : t'.Shaped := by
  obtain ⟨branches, introduced, trace⟩ := t'
  obtain rfl : branches = t.branches := heq
  exact ⟨h.parent_lt, h.parent_ne⟩

/-- Finished tableaux have their shape. -/
theorem shaped_run (trace : Option Trace) : ((ofSeed seed trace).run bound).tableau.Shaped :=
  ((mirrors_ofSeed seed trace).rounds bound 0).1.shaped.of_branches_eq (branches_run _ bound)

/-- A branch without parent has no ancestors, and any other has one more than its parent. -/
theorem Shaped.length_ancestors (h : t.Shaped) {branch : Branch}
    (hb : t.branches[b]? = some branch) :
    (t.ancestors b).length =
      match branch.parent with
      | some parent => (t.ancestors parent).length + 1
      | none => 0 := by
  unfold ancestors
  rw [lineage_eq h hb, List.tail_cons]
  rcases hparent : branch.parent with _ | parent
  · rfl
  · obtain ⟨own, hown⟩ := h.exists_parent hb hparent
    simp only [lineage_eq h hown, List.length_cons, List.tail_cons]

/-- The forks of a run put each branch as deep as it has ancestors. -/
theorem get_foldl_recorded (prior : Trace) {depths : Depths} (hroot : depths.get 0 = 0)
    (hb : b < (stems (recorded seed bound)).length) :
    ((recorded seed bound).foldl Depths.after depths).get b =
      (((ofSeed seed (some prior)).run bound).tableau.ancestors b).length := by
  have hannounced := announced_recorded seed bound
  have hshaped := shaped_run seed bound (some prior)
  have hstems := stems_recorded seed bound prior
  generalize ((ofSeed seed (some prior)).run bound).tableau = t at hshaped hstems ⊢
  -- up the parents: depths and ancestors grow by one from a branch to the next
  induction b using Nat.strongRecOn with
  | ind b ih =>
      have hlt : b < t.branches.size := by simpa [hstems, parents] using hb
      have hget : t.branches[b]? = some t.branches[b] := Array.getElem?_eq_getElem hlt
      have hstem : (stems (recorded seed bound))[b]? = some t.branches[b].parent := by
        simp [hstems, parents, hget]
      rw [hannounced.get_foldl hroot hb, hstem, hshaped.length_ancestors hget]
      rcases hparent : t.branches[b].parent with _ | parent
      · rfl
      · have hless := hshaped.parent_lt hget hparent
        simp only [ih parent hless (Nat.lt_trans hless hb)]

/-- The lines for a run have as many bars as the branches have ancestors, whatever the table of
depths held before. -/
theorem renderLines_recorded (prior : Trace) {depths : Depths} (hroot : depths.get 0 = 0) :
    Event.renderLines depths (recorded seed bound) =
      (recorded seed bound).map (Event.lineAt fun b =>
        (((ofSeed seed (some prior)).run bound).tableau.ancestors b).length) := by
  have hannounced := announced_recorded seed bound
  rw [hannounced.renderLines_eq]
  refine List.map_congr_left fun event hmem => Event.lineAt_congr fun b hb => ?_
  exact get_foldl_recorded seed bound prior hroot (hannounced.subject_lt hmem hb)

end Tableau

/-! ### Several runs

Behind an earlier run the table still has the depths of that run's branches. The next run overwrites
the depth of each branch before it is first looked up, and the root, which is never announced, is
never put anywhere but at the margin. -/

/-- Joining texts in groups. -/
theorem join_flatMap {α : Type} (f : α → List String) (xs : List α) :
    String.join (xs.flatMap f) = String.join (xs.map fun x => String.join (f x)) := by
  induction xs with
  | nil => rfl
  | cons x xs ih => rw [List.flatMap_cons, String.join_append, List.map_cons, String.join_cons, ih]

namespace Job

/-- How many ancestors a branch has in the tableau of a run into a trace. -/
def depth (job : Job) (prior : Trace) (b : BranchId) : Nat :=
  (((Tableau.ofSeed job.seed (some prior)).run job.bound).tableau.ancestors b).length

/-- The lines for one run, in whatever state the earlier ones have left the table of depths. -/
theorem renderLines_events (job : Job) (prior : Trace) {depths : Depths}
    (hroot : depths.get 0 = 0) :
    Event.renderLines depths job.events = job.events.map (Event.lineAt (job.depth prior)) := by
  unfold events
  split
  · exact Tableau.renderLines_recorded job.seed job.bound prior hroot
  · rfl

/-- A run leaves the first branch at the margin. -/
theorem get_foldl_events (job : Job) {depths : Depths} (hroot : depths.get 0 = 0) :
    (job.events.foldl Depths.after depths).get 0 = 0 := by
  unfold events
  split
  · exact (Tableau.announced_recorded job.seed job.bound).get_foldl_zero hroot
  · exact hroot

/-- The lines for several runs are those of each one. -/
theorem renderLines_flatMap (jobs : List Job) (prior : Job → Trace) {depths : Depths}
    (hroot : depths.get 0 = 0) :
    Event.renderLines depths (jobs.flatMap events) =
      jobs.flatMap fun job => job.events.map (Event.lineAt (job.depth (prior job))) := by
  -- of the table that a run comes upon, only the depth of the first branch counts
  induction jobs generalizing depths with
  | nil => rfl
  | cons job rest ih =>
      rw [List.flatMap_cons, List.flatMap_cons, Event.renderLines_append,
        job.renderLines_events (prior job) hroot, ih (job.get_foldl_events hroot)]

/-- The line for what a run has recorded ends with its only line break, if the names in the claims
it starts from have none. -/
theorem exists_oneLine (job : Job) (h : ∀ s ∈ job.seed, ∀ name ∈ s.claim.names, OneLine name)
    {event : Event} (hevent : event ∈ job.events) (depth : BranchId → Nat) :
    ∃ line, OneLine line ∧ event.lineAt depth = line ++ "\n" := by
  refine Event.exists_oneLine (fun claim hclaim name hname => ?_) depth
  unfold events at hevent
  split at hevent
  · obtain ⟨s, hs, hmem⟩ := Tableau.exists_mem_seed_of_mem_recorded hevent hclaim hname
    exact h s hs name hmem
  · cases hevent

/-- **The text of several runs is that of each one.** Record runs one after the other into one
trace. The text of the trace consists of the texts for each run recorded by itself. It has a line
for each event, and a line about a branch begins with as many bars as the branch has ancestors in
the tableau of its run, whatever the trace held when the run began. If no name in the claims a run
starts from breaks the line, what stands for each of its events is one line indeed. -/
theorem render_runAll (jobs : List Job) (prior : Job → Trace) :
    (runAll jobs .empty).2.render = String.join (jobs.map fun job => (job.run .empty).2.render) ∧
    (runAll jobs .empty).2.render = String.join (jobs.flatMap fun job =>
      (job.run .empty).2.toList.map (Event.lineAt (job.depth (prior job)))) ∧
    ∀ job ∈ jobs, (∀ s ∈ job.seed, ∀ name ∈ s.claim.names, OneLine name) →
      ∀ event ∈ (job.run .empty).2.toList, ∃ line, OneLine line ∧
        event.lineAt (job.depth (prior job)) = line ++ "\n" := by
  have hroot : Depths.get [] 0 = 0 := rfl
  have hown : ∀ job : Job, (job.run .empty).2.toList = job.events := by
    intro job
    rw [run_eq, Trace.toList_append, Trace.toList_empty, List.nil_append]
  have hall : (runAll jobs .empty).2.toList = jobs.flatMap events := by
    rw [runAll_eq, Trace.toList_append, Trace.toList_empty, List.nil_append]
  have hlines := renderLines_flatMap jobs prior hroot
  refine ⟨?_, ?_, fun job _ hnames event hmem => ?_⟩
  · simp only [Trace.render, hall, hown, hlines, join_flatMap]
    refine congrArg String.join (List.map_congr_left fun job _ => ?_)
    rw [job.renderLines_events (prior job) hroot]
  · simp only [Trace.render, hall, hown, hlines]
  · rw [hown] at hmem
    exact job.exists_oneLine hnames hmem _

/-- Two runs in which branch 5 is not equally deep. -/
theorem render_runAll_two :
    ∃ first second : Job,
      first = ⟨[.formula true (.disjunction (.atom (.atom "A")) (.atom (.atom "B"))),
        .formula true (.disjunction (.atom (.atom "C")) (.atom (.atom "D")))], 2, true⟩ ∧
      second = ⟨[.formula true (.disjunction (.atom (.atom "A")) (.atom (.atom "B"))),
        .formula false (.atom (.atom "B")),
        .formula true (.disjunction (.atom (.atom "C")) (.atom (.atom "D"))),
        .formula true (.disjunction (.atom (.atom "E")) (.atom (.atom "F")))], 3, true⟩ ∧
      first.depth .empty 5 = 2 ∧ second.depth .empty 5 = 3 ∧
      (runAll [first, second] .empty).2.render =
        (first.run .empty).2.render ++ (second.run .empty).2.render ∧
      (runAll [first, second] .empty).2.render =
        String.join ((first.run .empty).2.toList.map (Event.lineAt (first.depth .empty)) ++
          (second.run .empty).2.toList.map (Event.lineAt (second.depth .empty))) ∧
      ∀ event ∈ (second.run .empty).2.toList, ∃ line, OneLine line ∧
        event.lineAt (second.depth .empty) = line ++ "\n" := by
  refine ⟨_, _, rfl, rfl, by decide +kernel, by decide +kernel, ?_⟩
  obtain ⟨htext, hlines, hone⟩ := render_runAll
    [⟨[.formula true (.disjunction (.atom (.atom "A")) (.atom (.atom "B"))),
      .formula true (.disjunction (.atom (.atom "C")) (.atom (.atom "D")))], 2, true⟩,
    ⟨[.formula true (.disjunction (.atom (.atom "A")) (.atom (.atom "B"))),
      .formula false (.atom (.atom "B")),
      .formula true (.disjunction (.atom (.atom "C")) (.atom (.atom "D"))),
      .formula true (.disjunction (.atom (.atom "E")) (.atom (.atom "F")))], 3, true⟩]
    fun _ => .empty
  refine ⟨?_, ?_, hone _ (List.mem_cons_of_mem _ List.mem_cons_self) (by decide +kernel)⟩
  · rw [htext]
    simp only [List.map_cons, List.map_nil, String.join_cons, String.join_nil, String.append_empty]
  · rw [hlines]
    simp only [List.flatMap_cons, List.flatMap_nil, List.append_nil]

end Job

end TermLogic
