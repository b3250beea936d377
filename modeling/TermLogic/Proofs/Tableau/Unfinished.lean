import Mathlib.Data.List.Find
import TermLogic.Proofs.Tableau.Arena
import TermLogic.Proofs.Tableau.Rounds
import TermLogic.Proofs.Tableau.Stability

/-!
# Unfinished leaves

Whether anything is pending on a leaf is seen only when the leaf is visited. So a leaf that is
recorded as unfinished has had something pending when it was visited last, but it may have nothing
pending any more: only one more round would show it.

* `Copying.Idle`: an active leaf on which nothing is pending.
* `Copying.sweep_eq_find?`, `Copying.outcome_run_succ_iff`: a round ends at the first idle leaf.
* `Tableau.Visit`: a state of a run in which an active leaf is visited, and what becomes of it.
  `Copying.exists_visit_rounds` finds the last visit behind each active leaf.
* `Tableau.unfinished_run`: what is known of the unfinished leaves of a run.
* `Tableau.unfinished_idle_leaf`: an unfinished leaf on which nothing is pending.
-/

namespace TermLogic

namespace Copying

variable {t : Copying} {a b : BranchId} {path : Path}

/-! ### Idle leaves

A leaf on which nothing is pending is found to be saturated when it is visited, and not before. So a
round ends at the first idle leaf there is at its start, and idle leaves that arise later are left
for the next round. -/

/-- An active leaf on which nothing is pending. -/
def Idle (t : Copying) (b : BranchId) : Prop :=
  ∃ path, t.branches[b]? = some ⟨path, .active⟩ ∧ path.pending = none

/-- A leaf is idle if it is active and nothing is pending on its path. -/
theorem idle_iff :
    t.Idle b ↔ (∃ path, t.branches[b]? = some ⟨path, .active⟩) ∧ (t.path b).pending = none := by
  unfold Idle
  rw [← exists_and_right]
  refine exists_congr fun path => and_congr_right fun hb => ?_
  rw [path_eq_of_getElem? hb]

/-- A round ends at the first leaf that is idle when the round starts. The steps before it do not
change the leaves still to be visited. -/
theorem sweep_eq_find? {leaves : List BranchId} (h : t.Scheduled leaves) (round : Nat) :
    (sweep round leaves t).2 = leaves.find? fun b => (t.path b).pending.isNone := by
  induction leaves generalizing t with
  | nil => rfl
  | cons b rest ih =>
      rw [List.find?_cons]
      cases hpending : (t.path b).pending with
      | none => simp only [sweep, hpending, Option.isNone_none]
      | some choice =>
          obtain ⟨o, rule⟩ := choice
          simp only [sweep, hpending, Option.isNone_some]
          rw [ih (h.apply round o rule)]
          refine List.find?_congr fun b' hb' => ?_
          unfold Copying.path
          rw [h.getElem?_apply round o rule hb']

/-- The first idle leaf ends the next round. -/
theorem rounds_one_eq_some_iff (round : Nat) :
    (rounds 1 round t).2 = some a ↔ t.Idle a ∧ ∀ b < a, ¬ t.Idle b := by
  have hround : (rounds 1 round t).2 = (sweep round t.activeLeaves t).2 := by
    cases hleaves : t.activeLeaves with
    | nil => simp only [rounds, hleaves, sweep]
    | cons first others =>
        simp only [rounds, hleaves]
        rcases sweep round (first :: others) t with ⟨later, _ | b⟩ <;> rfl
  rw [hround, sweep_eq_find? (scheduled_activeLeaves t), activeLeaves, List.find?_filter,
    List.find?_range_eq_some]
  simp only [isIn_iff, Option.isNone_iff_eq_none, ← idle_iff, decide_eq_true_eq,
    Bool.not_eq_true', decide_eq_false_iff_not]
  refine and_congr_right ?_
  rintro ⟨path, ha, -⟩
  exact and_iff_right (List.mem_range.2 (Array.getElem?_eq_some_iff.1 ha).1)

/-- A run that has used up its bound would, with one more round, end at its first idle leaf. -/
theorem outcome_run_succ_iff {n active : Nat} (h : (t.run n).1 = .exhausted active) :
    (t.run (n + 1)).1 = .saturated a ↔
      (t.rounds n 0).1.Idle a ∧ ∀ b < a, ¬ (t.rounds n 0).1.Idle b := by
  rw [← rounds_one_eq_some_iff (0 + n), ← rounds_add_of_exhausted h 1, fst_run]
  refine ⟨of_outcome_eq_saturated, fun hend => ?_⟩
  rw [hend]
  rfl

/-- Only the root may have expanded nothing. -/
def Grown (t : Copying) : Prop :=
  ∀ (b : BranchId) (branch : Branch), t.branches[b]? = some branch →
    branch.path.expanded = [] → b = 0

/-- At the start there is no branch but the root. -/
theorem grown_ofSeed (seed : List Signed) : (ofSeed seed).Grown := by
  intro b branch hb _
  have hlt : b < (ofSeed seed).branches.size := (Array.getElem?_eq_some_iff.1 hb).1
  rw [branches_ofSeed] at hlt
  exact Nat.lt_one_iff.1 hlt

/-- Every branch that a step makes has an expansion behind it. -/
theorem Grown.apply (h : t.Grown) (hb : t.branches[b]? = some ⟨path, .active⟩) (round : Nat)
    (o : Obligation) (rule : Rule) : (t.apply round b o rule).Grown := by
  intro b' branch hb' hempty
  have hstep : ∀ {branch : Branch}, branch = ⟨path.expand o.toSlot [], .split⟩ ∨
      branch ∈ path.next (t.introduced + 1) o rule → branch.path.expanded ≠ [] := by
    intro branch hmade
    rw [(Path.expanded_of_step hmade).1]
    simp
  rcases of_getElem?_apply hb hb' with ⟨-, hold⟩ | ⟨-, hforked⟩ | ⟨-, hmem⟩
  · exact h b' branch hold hempty
  · exact absurd hempty (hstep (.inl hforked))
  · exact absurd hempty (hstep (.inr hmem))

/-- Rounds make no branch without an expansion behind it. -/
theorem grown_rounds (seed : List Signed) (bound round : Nat) :
    ((ofSeed seed).rounds bound round).1.Grown := by
  have hcases : (∃ later, (ofSeed seed).rounds bound round = (later, none) ∧ later.Grown) ∨ _ :=
    rounds_cases (fun h hb _ => h.apply hb _ _ _) bound (grown_ofSeed seed)
  rcases hcases with ⟨later, hrounds, hend⟩ | ⟨before, b, path, hrounds, hend, hb, -⟩
  · rw [hrounds]
    exact hend
  · rw [hrounds]
    unfold Grown
    rw [branches_record, branches_setState hb]
    refine forall_getElem?_setIfInBounds ?_ fun b' branch _ hb' => hend b' branch hb'
    exact hend b ⟨path, .active⟩ hb

/-- When the rounds are over, each active leaf has made an expansion if there was a round at all. If
a branch has ended them, it is not that leaf, so not both can be the root. -/
theorem Stopped.expanded_ne_nil {bound : Nat} {saturated : Option BranchId}
    (h : t.Stopped bound saturated) (hgrown : t.Grown) (hbound : 0 < bound)
    (hb : t.branches[b]? = some ⟨path, .active⟩) : path.expanded ≠ [] := by
  intro hempty
  rcases saturated with _ | a
  · have hlength := h.used_up rfl b path hb
    rw [hempty, List.length_nil] at hlength
    exact Nat.ne_of_gt hbound hlength.symm
  · obtain ⟨own, ha, -, hlengths⟩ := h.ended a rfl
    have hown : own.expanded = [] := by
      rw [← List.length_eq_zero_iff]
      rcases hlengths b path hb with hlength | hlength
      · rw [← hlength, hempty, List.length_nil]
      · rw [hempty, List.length_nil] at hlength
        exact absurd hlength.symm (Nat.succ_ne_zero _)
    rw [hgrown b _ hb hempty] at hb
    rw [hgrown a _ ha hown, hb] at ha
    cases ha

end Copying

/-! ### The last visit

An active leaf owes its path to the last expansion on the way to it. This was made on the leaf
itself, or on the branch it has grown from, and when it was made it was pending there. -/

/-- A visit to an active leaf in the course of a run with the given events: the branch of the
expansion is a leaf on which its claim is pending, and the step puts an active branch with the path
in the place of the leaf. -/
structure Tableau.Visit (seed : List Signed) (events : List Event) (t : Tableau) (e : Expansion)
    (path : Path) : Prop where
  /-- Steps lead to the state. -/
  reachable : Reachable seed (some .empty) t
  /-- The run begins with what has been recorded in the state. -/
  recorded : ∃ before, t.trace = some before ∧ before.toList <+: events
  /-- The branch of the expansion is still to be expanded. -/
  active : t.isIn .active e.branch = true
  /-- The claim of the expansion is pending on it, and the path comes of its rule. -/
  pending : ∃ o rule, t.pending e.branch = some (o, rule) ∧ o.claim = e.consumed ∧
    ⟨path, .active⟩ ∈ (t.path e.branch).next (t.introduced + 1) o rule

/-- A visit stays one when the run goes on. -/
theorem Tableau.Visit.mono {seed : List Signed} {events more : List Event} {t : Tableau}
    {e : Expansion} {path : Path} (h : Visit seed events t e path) (hmore : events <+: more) :
    Visit seed more t e path where
  reachable := h.reachable
  recorded := by
    obtain ⟨before, htrace, hbefore⟩ := h.recorded
    exact ⟨before, htrace, hbefore.trans hmore⟩
  active := h.active
  pending := h.pending

namespace Copying

variable {u : Copying} {seed : List Signed} {b : BranchId} {path : Path}

/-- The last expansion on the way to each active branch was pending when it was made. Only a branch
on which nothing has been expanded owes its path to no visit. -/
structure Surveyed (seed : List Signed) (u : Copying) : Prop where
  /-- Steps lead to a tableau with the same branches. -/
  twin : ∃ t, Tableau.Reachable seed (some .empty) t ∧ Tableau.Mirrors (some .empty) t u
  /-- The events are in order and give the states of the branches. -/
  enrolled : u.Enrolled
  /-- The last expansion goes back to a visit. -/
  visited : ∀ (b : BranchId) (path : Path), u.branches[b]? = some ⟨path, .active⟩ →
    path.expanded ≠ [] → ∃ t e, (expansionsTo u.events b).getLast? = some e ∧
      Tableau.Visit seed u.events t e path

/-- The tableau a run starts from, in which nothing has been expanded. -/
theorem surveyed_ofSeed (seed : List Signed) : (ofSeed seed).Surveyed seed where
  twin := ⟨_, .start, Tableau.mirrors_ofSeed seed (some .empty)⟩
  enrolled := enrolled_ofSeed seed
  visited b path hb hexpanded := by
    have hroot := congrArg (·.path.expanded) (addAll_of_getElem?_ofSeed hb)
    rw [Path.expanded_addAll] at hroot
    exact absurd hroot.symm hexpanded

/-- A step is a visit, which accounts for the branches it makes. -/
theorem Surveyed.apply (h : u.Surveyed seed) (hb : u.branches[b]? = some ⟨path, .active⟩)
    {o : Obligation} {rule : Rule} (hpending : path.pending = some (o, rule)) (round : Nat) :
    (u.apply round b o rule).Surveyed seed := by
  obtain ⟨t, hreachable, hmirrors⟩ := h.twin
  have hpath : t.path b = path := by
    rw [← hmirrors.path_eq, path_eq_of_getElem? hb]
  have hactive : t.isIn .active b = true := by
    rw [← hmirrors.isIn_eq]
    exact isIn_iff.2 ⟨path, hb⟩
  have hchoice : t.pending b = some (o, rule) := by
    rw [Tableau.pending_eq hmirrors.indexed, hpath, hpending]
  have hlonger : u.events <+: (u.apply round b o rule).events := by
    obtain ⟨steps, hsteps, -⟩ := continues_apply u round b o rule
    exact ⟨steps, hsteps.symm⟩
  refine ⟨⟨_, .expand round hreachable hactive hchoice,
    hmirrors.apply (hmirrors.isLeaf_of_active hb) round o rule⟩, h.enrolled.apply hb round o rule,
    fun b' later hb' hexpanded => ?_⟩
  rcases h.enrolled.expansionsTo_apply_cases hb hpending round hb' with
    ⟨hold, heq⟩ | ⟨hforked | hmem, e, heq, -, rfl, hspends⟩
  · obtain ⟨t', e, hlast, hvisit⟩ := h.visited b' later hold hexpanded
    exact ⟨t', e, heq ▸ hlast, hvisit.mono hlonger⟩
  · cases hforked
  · refine ⟨t, e, by rw [heq, List.getLast?_concat], hreachable, ?_, hactive, o, rule, hchoice,
      (Prod.mk.inj hspends).1.symm, ?_⟩
    · refine ⟨.append .empty u.events, hmirrors.events_eq, ?_⟩
      rw [Trace.toList_append, Trace.toList_empty, List.nil_append]
      exact hlonger
    · rwa [hpath, ← hmirrors.introduced_eq]

/-- When the rounds are over, there is a last visit behind each active leaf on the way to which
something has been expanded. -/
theorem exists_visit_rounds (seed : List Signed) (bound : Nat)
    (hb : ((ofSeed seed).rounds bound 0).1.branches[b]? = some ⟨path, .active⟩)
    (hexpanded : path.expanded ≠ []) :
    ∃ t e, (expansionsTo ((ofSeed seed).rounds bound 0).1.events b).getLast? = some e ∧
      Tableau.Visit seed ((ofSeed seed).rounds bound 0).1.events t e path := by
  have hcases : (∃ later, (ofSeed seed).rounds bound 0 = (later, none) ∧ later.Surveyed seed) ∨ _ :=
    rounds_cases (fun h hb hpending => h.apply hb hpending _) bound (surveyed_ofSeed seed)
  rcases hcases with ⟨later, hrounds, hend⟩ | ⟨before, a, own, hrounds, hend, ha, -⟩
  · rw [hrounds] at hb ⊢
    exact hend.visited b path hb hexpanded
  · -- the branch that has ended the rounds is not active any more
    have hlt : a < before.branches.size := (Array.getElem?_eq_some_iff.1 ha).1
    rw [hrounds, branches_record, branches_setState ha] at hb
    have hne : a ≠ b := by
      rintro rfl
      rw [Array.getElem?_setIfInBounds_self_of_lt hlt] at hb
      cases hb
    rw [Array.getElem?_setIfInBounds_ne hne] at hb
    obtain ⟨t, e, hlast, hvisit⟩ := hend.visited b path hb hexpanded
    refine ⟨t, e, ?_, ?_⟩
    · rw [hrounds, expansionsTo_record _ rfl]
      exact hlast
    · rw [hrounds]
      exact hvisit.mono (List.prefix_append _ _)

end Copying

/-! ### What a run says of its leaves

What is known of all unfinished leaves, and a run in which no more can be said than that. -/

namespace Tableau

/-- The paths of a finished run are those of the copying twin after the last round. -/
theorem path_run (seed : List Signed) (trace : Option Trace) (bound : Nat) (b : BranchId) :
    ((ofSeed seed trace).run bound).tableau.path b =
      ((Copying.ofSeed seed).rounds bound 0).1.path b := by
  obtain ⟨saturated, copy, hrounds, -, hpath⟩ := mirrors_run seed trace bound
  rw [hrounds]
  exact hpath b

/-- What is pending on the branches of a finished run. -/
theorem pending_run (seed : List Signed) (trace : Option Trace) (bound : Nat) (b : BranchId) :
    ((ofSeed seed trace).run bound).tableau.pending b =
      (((Copying.ofSeed seed).rounds bound 0).1.path b).pending := by
  obtain ⟨hmirrors, -⟩ := (mirrors_ofSeed seed trace).rounds bound 0
  have hbranches : ((ofSeed seed trace).run bound).tableau.branches =
      ((ofSeed seed trace).rounds bound 0).2.1.branches := by
    unfold run
    simp only [branches_recordEndings, branches_recordOutcome]
  have hindexed : ((ofSeed seed trace).run bound).tableau.Indexed := by
    unfold Indexed
    rw [hbranches]
    exact hmirrors.indexed
  rw [pending_eq hindexed, path_eq_of_branches_eq hbranches, hmirrors.path_eq]

/-- **What "unfinished" means.** Take a run with at least one round. An unfinished leaf owes its
path to the last expansion on the way to it, and this was pending when the leaf, or the branch it
has grown from, was visited last. Whether there still is something pending on the leaf shows in the
next round only. If the run has used up its bound, one more round would end it at the first
unfinished leaf on which nothing is pending, if there is one. If a saturated branch has ended the
run, each unfinished leaf has been visited in as many rounds before, or in the last one too. -/
theorem unfinished_run (seed : List Signed) (bound : Nat) (hbound : 0 < bound) :
    ∃ report trace, report = (ofSeed seed (some .empty)).run bound ∧
      report.tableau.trace = some trace ∧
      (∀ b, (b, .unfinished) ∈ trace.statuses →
        ∃ t e, (expansionsTo trace.toList b).getLast? = some e ∧
          Visit seed trace.toList t e (report.tableau.path b)) ∧
      (∀ active, report.outcome = .exhausted active →
        ∀ a, ((ofSeed seed (some .empty)).run (bound + 1)).outcome = .saturated a ↔
          ((a, .unfinished) ∈ trace.statuses ∧ report.tableau.pending a = none) ∧
            ∀ b < a, (b, .unfinished) ∈ trace.statuses → report.tableau.pending b ≠ none) ∧
      (∀ a, report.outcome = .saturated a → report.tableau.pending a = none ∧
        ∀ b, (b, .unfinished) ∈ trace.statuses →
          (expansionsTo trace.toList b).length = (expansionsTo trace.toList a).length ∨
          (expansionsTo trace.toList b).length = (expansionsTo trace.toList a).length + 1) := by
  obtain ⟨trace, htrace, hevents, hstatuses, hexpansions⟩ := exists_trace_run seed bound
  have hstopped := Copying.stopped_rounds seed bound
  refine ⟨_, trace, rfl, htrace, ?_⟩
  simp only [hstatuses, Copying.unfinished_mem_leafEndings_iff, hexpansions, pending_run,
    outcome_run]
  have hlength : ∀ {b branch}, ((Copying.ofSeed seed).rounds bound 0).1.branches[b]? =
      some branch → (expansionsTo ((Copying.ofSeed seed).rounds bound 0).1.events b).length =
        branch.path.expanded.length := by
    intro b branch hb
    exact (hstopped.logged b branch hb).length_eq
  refine ⟨?_, ?_, ?_⟩
  · rintro b ⟨path, hb⟩
    have hexpanded : path.expanded ≠ [] :=
      hstopped.expanded_ne_nil (Copying.grown_rounds seed bound 0) hbound hb
    obtain ⟨t, e, hlast, hvisit⟩ := Copying.exists_visit_rounds seed bound hb hexpanded
    rw [path_run, Copying.path_eq_of_getElem? hb]
    exact ⟨t, e, hlast, hvisit.mono hevents⟩
  · intro active hactive a
    simp only [Copying.outcome_run_succ_iff hactive, Copying.idle_iff, not_and]
  · intro a ha
    obtain ⟨own, hown, hpending, hlengths⟩ :=
      hstopped.ended a (Copying.of_outcome_eq_saturated ha)
    rw [Copying.path_eq_of_getElem? hown]
    refine ⟨hpending, ?_⟩
    rintro b ⟨path, hb⟩
    rw [hlength hb, hlength hown]
    exact hlengths b path hb

/-- The denial of `A | B` uses up a bound of one round and is saturated in two. So after one round
nothing is pending on the root, which is unfinished. -/
theorem unfinished_run_disjunction :
    ∃ start report trace,
      start = ofSeed [.formula false (.disjunction (.atom (.atom "A")) (.atom (.atom "B")))]
        (some .empty) ∧
      report = start.run 1 ∧ report.outcome = .exhausted 1 ∧
      (start.run 2).outcome = .saturated 0 ∧ report.tableau.trace = some trace ∧
      (0, .unfinished) ∈ trace.statuses ∧
      (∃ t e, (expansionsTo trace.toList 0).getLast? = some e ∧
        Visit [.formula false (.disjunction (.atom (.atom "A")) (.atom (.atom "B")))] trace.toList t
          e (report.tableau.path 0)) ∧
      report.tableau.pending 0 = none := by
  have hexhausted : ((ofSeed [.formula false (.disjunction (.atom (.atom "A")) (.atom (.atom "B")))]
      (some .empty)).run 1).outcome = .exhausted 1 := by decide +kernel
  have hsaturated : ((ofSeed [.formula false (.disjunction (.atom (.atom "A")) (.atom (.atom "B")))]
      (some .empty)).run 2).outcome = .saturated 0 := by decide +kernel
  obtain ⟨_, trace, rfl, htrace, hvisited, hlonger, -⟩ := unfinished_run
    [.formula false (.disjunction (.atom (.atom "A")) (.atom (.atom "B")))] 1 Nat.one_pos
  obtain ⟨⟨hunfinished, hpending⟩, -⟩ := (hlonger 1 hexhausted 0).1 hsaturated
  exact ⟨_, _, trace, rfl, rfl, hexhausted, hsaturated, htrace, hunfinished,
    hvisited 0 hunfinished, hpending⟩

/-- **An unfinished leaf may have nothing pending.** After one round on the denial of `A | B`, the
bound is used up and nothing is pending on the root. In the run on the denial of `A & B`, the first
leaf is found to be saturated, and nothing is pending on the second. Both leaves are recorded as
unfinished. -/
theorem unfinished_idle_leaf :
    (∃ report,
      report = (ofSeed [.formula false (.disjunction (.atom (.atom "A")) (.atom (.atom "B")))]
        (some .empty)).run 1 ∧
      report.tableau.trace.map Trace.statuses = some [(0, .unfinished)] ∧
      report.tableau.pending 0 = none) ∧
    (∃ report,
      report = (ofSeed [.formula false (.conjunction (.atom (.atom "A")) (.atom (.atom "B")))]
        (some .empty)).run 50 ∧
      report.tableau.trace.map Trace.statuses = some [(1, .saturated), (2, .unfinished)] ∧
      report.tableau.pending 2 = none) := by
  refine ⟨⟨_, rfl, ?_, ?_⟩, _, rfl, ?_, ?_⟩ <;> decide +kernel

end Tableau

end TermLogic
