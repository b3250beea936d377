import TermLogic.Proofs.Session.Isolation
import TermLogic.Proofs.Tableau.Arena
import TermLogic.Proofs.Tableau.Verdict

/-!
# The choice of the next rule

On a branch the oldest obligation comes first whose rule does not fork, and forks wait until there
is no other rule left. So a branch forks only when nothing else can be done on it, and it is
saturated only when nothing at all can be done.

* `Obligation.IsSatisfied`, `Path.rule?_eq_none_iff`: when an obligation calls for no rule.
* `Path.remaining`: what is left to expand on a path, oldest first, each with its rule.
  `Path.pairwise_remaining` says what "oldest" means for two entries.
* `Path.pending_eq_find?`: what is pending, as a search through what is left. Expanded obligations
  are looked up by claim here, which is the same as by place because no claim is on a path twice.
* `Tableau.Decided`, `Tableau.Reachable.decided`: a branch that has forked or is saturated was an
  active leaf of a reachable state in which the choice fell so. It is kept by every step.
* `Tableau.nonforking_first`: the choice in every reachable state, and what follows from it for the
  branches of a run.
-/

namespace TermLogic

/-! ### Satisfied obligations

Only a claim about every individual can call for no rule, and it does where what it asks for is
there already. -/

/-- The claims say of the individual what the obligation asks for: that it falls outside the subject
or has the predicate, or that it falls outside one of two terms, or outside a term. An obligation
that is about no individual is satisfied by nothing but its expansion. -/
def Obligation.IsSatisfied (claims : List Signed) (o : Obligation) : Prop :=
  match o.individual, o.claim.claim with
  | some c, .formula (.universal s p) =>
    .predication false c s ∈ claims ∨ .predication true c p ∈ claims
  | some c, .formula (.particular s p) =>
    .predication false c s ∈ claims ∨ .predication false c p ∈ claims
  | some c, .formula (.existential t) => .predication false c t ∈ claims
  | _, _ => False

/-- There is no rule for two alternatives if one of them is there. -/
theorem Rule.either_eq_none_iff {holds : Signed → Bool} {first second : Signed} :
    Rule.either holds first second = none ↔ holds first = true ∨ holds second = true := by
  unfold Rule.either
  rw [← Bool.or_eq_true]
  split
  · next h => simp [h]
  · next h =>
    refine iff_of_false (fun hnone => ?_) h
    split at hnone
    · cases hnone
    · split at hnone <;> cases hnone

namespace Path

/-- An obligation of a path calls for no rule if the path satisfies it, and only then. -/
theorem rule?_eq_none_iff {path : Path} {o : Obligation} (ho : o ∈ path.obligations) :
    o.rule? path.holds = none ↔ o.IsSatisfied path.claims := by
  obtain ⟨-, hcalls⟩ := mem_obligations_iff.1 ho
  obtain ⟨⟨place, individual⟩, ⟨sign, claim⟩⟩ := o
  rcases individual with _ | c <;> rcases claim with f | ⟨d, t⟩
  -- what is expanded once always has a rule, and is satisfied by nothing else
  · rcases f with _ | _ | _ | _ | _ | _ | _ | _ | _ <;> rcases sign with _ | _ <;>
      simp_all [Signed.Calls, Signed.isGeneral, Signed.isLiteral, Obligation.rule?,
        Rule.ofFormula?, Obligation.IsSatisfied]
  · rcases t with _ | _ | _ <;> rcases sign with _ | _ <;>
      simp_all [Signed.Calls, Signed.isGeneral, Signed.isLiteral, Obligation.rule?,
        Obligation.IsSatisfied]
  -- only claims that speak of every individual are expanded for one
  · rcases f with _ | _ | _ | _ | _ | _ | _ | _ | _ <;>
      simp_all [Signed.Calls, Signed.isGeneral, Obligation.rule?, Rule.ofInstance?,
        Rule.either_eq_none_iff, Obligation.IsSatisfied]
  · simp [Signed.Calls, Signed.isGeneral] at hcalls

/-! ### What is left to expand

What is pending is defined by a search over all obligations that skips some. The list of those that
are not skipped is the same search made in two steps, and can be looked at as a whole. -/

/-- What is left to expand on a path: its obligations in their order, without those that have been
expanded and those that call for no rule, each with its rule. -/
def remaining (path : Path) : List (Obligation × Rule) :=
  path.obligations.filterMap fun o =>
    if (o.claim, o.individual) ∈ path.spent then none else (o.rule? path.holds).map (o, ·)

/-- What is left comes in the order in which its claims came onto the path, and what one claim asks
of several individuals in the order in which these were introduced. -/
theorem pairwise_remaining (path : Path) :
    path.remaining.Pairwise fun earlier later => earlier.1.Precedes path.individuals later.1 := by
  refine List.pairwise_filterMap.2 (path.pairwise_obligations.imp ?_)
  intro o o' hprecedes entry hentry entry' hentry'
  -- an entry is its obligation with a rule
  have hown : ∀ {o : Obligation} {entry : Obligation × Rule},
      (if (o.claim, o.individual) ∈ path.spent then none
        else (o.rule? path.holds).map (o, ·)) = some entry → entry.1 = o := by
    intro o entry hentry
    split at hentry
    · cases hentry
    · obtain ⟨rule, -, rfl⟩ := Option.map_eq_some_iff.1 hentry
      rfl
  rwa [hown hentry, hown hentry']

/-- The first obligation with a rule of some kind is the first of those that have a rule. -/
theorem firstAmong_eq_find? (rule? : Obligation → Option Rule) (kind : Rule → Bool)
    (among : List Obligation) :
    firstAmong rule? kind among =
      (among.filterMap fun o => (rule? o).map (o, ·)).find? fun entry => kind entry.2 := by
  rw [firstAmong, ← List.head?_filterMap, ← List.head?_filter, List.filter_filterMap]
  refine congrArg List.head? (List.filterMap_congr fun o _ => ?_)
  rcases rule? o with _ | rule
  · rfl
  · simp only [Option.filter, Option.map_some]
    split <;> rfl

/-- If no claim is on the path twice, what is left is what the look-up by place leaves open. -/
theorem remaining_eq {path : Path} (hnodup : path.claims.Nodup) :
    path.remaining = path.obligations.filterMap fun o => (path.openRule? o).map (o, ·) := by
  refine List.filterMap_congr fun o ho => ?_
  simp only [openRule?, isExpanded_iff_mem_spent hnodup ho]
  split <;> rfl

/-- What is pending is the first of what is left that does not fork, or else the first that
does. -/
theorem pending_eq_find? {path : Path} (hnodup : path.claims.Nodup) :
    path.pending = (path.remaining.find? fun entry => !entry.2.isSplit).or
      (path.remaining.find? fun entry => entry.2.isSplit) := by
  rw [pending_eq, pendingAmong_eq_firstAmong, Option.none_or, remaining_eq hnodup,
    firstAmong_eq_find?, firstAmong_eq_find?]

/-- If nothing is pending, each obligation has been expanded or is satisfied. -/
theorem spent_or_isSatisfied_of_pending_eq_none {path : Path} (hnodup : path.claims.Nodup)
    (h : path.pending = none) {o : Obligation} (ho : o ∈ path.obligations) :
    (o.claim, o.individual) ∈ path.spent ∨ o.IsSatisfied path.claims := by
  rcases of_pending_eq_none h ho with hexpanded | hnone
  · left
    rwa [← isExpanded_iff_mem_spent hnodup ho, isExpanded_iff]
  · exact .inr ((rule?_eq_none_iff ho).1 hnone)

/-- If a fork is pending, all that is left are forks, and it is the first of them. -/
theorem remaining_of_pending_eq_split {path : Path} (hnodup : path.claims.Nodup) {o : Obligation}
    {left right : List Signed} (h : path.pending = some (o, .split left right)) :
    path.remaining.head? = some (o, .split left right) ∧
      ∀ entry ∈ path.remaining, entry.2.isSplit = true := by
  rw [pending_eq_find? hnodup] at h
  -- the search for a rule that does not fork has found nothing, since it cannot find a fork
  rcases hfirst : path.remaining.find? (fun entry => !entry.2.isSplit) with _ | entry
  · have hall : ∀ entry ∈ path.remaining, entry.2.isSplit = true := by
      simpa using List.find?_eq_none.1 hfirst
    rw [hfirst, Option.none_or, ← List.head?_filter, List.filter_eq_self.2 hall] at h
    exact ⟨h, hall⟩
  · have hkind := List.find?_some hfirst
    rw [hfirst, Option.some_or, Option.some.injEq] at h
    simp [h, Rule.isSplit] at hkind

end Path

/-! ### Where the choice has led

A branch that has forked or is saturated will not change again, so why it came to its state has to
be remembered from the step in which it did. -/

/-- A step marks its branch as split only by a rule that forks. -/
theorem Copying.isSplit_of_getElem?_apply {u : Copying} {b : BranchId} {path forked : Path}
    (hb : u.branches[b]? = some ⟨path, .active⟩) {round : Nat} {o : Obligation} {rule : Rule}
    (h : (u.apply round b o rule).branches[b]? = some ⟨forked, .split⟩) : rule.isSplit = true := by
  have hlt : b < u.branches.size := (Array.getElem?_eq_some_iff.1 hb).1
  rcases branches_apply hb round o rule with ⟨only, hnext, heq⟩ | ⟨first, second, hnext, -⟩
  · rw [heq, Array.getElem?_setIfInBounds_self_of_lt hlt, Option.some.injEq] at h
    have hmem : only ∈ path.next (u.introduced + 1) o rule := by simp [hnext]
    obtain ⟨alternative, -, rfl⟩ := List.mem_map.1 hmem
    rcases (path.expand o.toSlot (rule.newcomers (u.introduced + 1))).state_addAll alternative
      with hstate | hstate <;> rw [h] at hstate <;> cases hstate
  · rcases rule with _ | _ | _
    · cases hnext
    · rfl
    · cases hnext

namespace Tableau

variable {seed : List Signed} {trace : Option Trace} {t : Tableau} {b : BranchId}

/-- How a branch came to its state: one that has forked, or is saturated, was an active leaf of a
reachable state with the path it has now, but for what the fork expanded, and in that state a fork,
or nothing, was pending on it. -/
def Decided (seed : List Signed) (trace : Option Trace) (b : BranchId) (path : Path) :
    Branch.State → Prop
  | .split => ∃ t o left right, Reachable seed trace t ∧ t.isIn .active b = true ∧
      t.pending b = some (o, .split left right) ∧ path = (t.path b).expand o.toSlot []
  | .saturated => ∃ t, Reachable seed trace t ∧ t.isIn .active b = true ∧ t.pending b = none ∧
      path = t.path b
  | .active | .closed => True

/-- Every state that steps lead to has a copying twin in which each branch came to its state by
choice. -/
theorem Reachable.exists_decided (h : Reachable seed trace t) :
    ∃ u, Mirrors trace t u ∧ ∀ (b : BranchId) (branch : Copying.Branch),
      u.branches[b]? = some branch → Decided seed trace b branch.path branch.state := by
  -- claims that are added leave a branch active or close it
  have hadded : ∀ (b : BranchId) (path : Path) (claims : List Signed),
      Decided seed trace b (path.addAll claims).path (path.addAll claims).state := by
    intro b path claims
    rcases path.state_addAll claims with hstate | hstate <;> rw [hstate] <;> exact trivial
  induction h with
  | start =>
      refine ⟨_, mirrors_ofSeed seed trace, fun b branch hb => ?_⟩
      rw [← Copying.addAll_of_getElem?_ofSeed hb]
      exact hadded b _ seed
  | @expand t b o rule round hreachable hactive hpending ih =>
      obtain ⟨u, hmirrors, hall⟩ := ih
      obtain ⟨hleaf, path, hpath, -⟩ := hmirrors.active_of_isIn hactive
      refine ⟨_, hmirrors.apply hleaf round o rule, fun b' branch hb' => ?_⟩
      rcases Copying.of_getElem?_apply hpath hb' with ⟨-, hold⟩ | ⟨rfl, rfl⟩ | ⟨-, hmem⟩
      · exact hall b' branch hold
      · have hsplit := Copying.isSplit_of_getElem?_apply hpath hb'
        rcases rule with _ | ⟨left, right⟩ | _
        · cases hsplit
        · refine ⟨t, o, left, right, hreachable, hactive, hpending, ?_⟩
          rw [← hmirrors.path_eq, Copying.path_eq_of_getElem? hpath]
        · cases hsplit
      · obtain ⟨alternative, -, rfl⟩ := List.mem_map.1 hmem
        exact hadded b' _ alternative
  | @saturate t b hreachable hactive hpending ih =>
      obtain ⟨u, hmirrors, hall⟩ := ih
      obtain ⟨hleaf, path, hpath, -⟩ := hmirrors.active_of_isIn hactive
      refine ⟨_, (hmirrors.setState hleaf .saturated).record (.saturated b), ?_⟩
      rw [Copying.branches_record, Copying.branches_setState hpath]
      refine forall_getElem?_setIfInBounds ?_ fun b' branch _ hb' => hall b' branch hb'
      refine ⟨t, hreachable, hactive, hpending, ?_⟩
      rw [← hmirrors.path_eq, Copying.path_eq_of_getElem? hpath]

/-- In every state that steps lead to, each branch came to its state by choice. -/
theorem Reachable.decided (h : Reachable seed trace t) {state : Branch.State}
    (hb : t.isIn state b = true) : Decided seed trace b (t.path b) state := by
  obtain ⟨u, hmirrors, hall⟩ := h.exists_decided
  rw [← hmirrors.isIn_eq, Copying.isIn_iff] at hb
  obtain ⟨path, hpath⟩ := hb
  rw [← hmirrors.path_eq, Copying.path_eq_of_getElem? hpath]
  exact hall b _ hpath

/-- In every state that steps lead to, no claim is on a path twice. -/
theorem Reachable.nodup_claims (h : Reachable seed trace t) (b : BranchId) :
    (t.path b).claims.Nodup := by
  obtain ⟨u, hmirrors, htidy, -⟩ :=
    h.exists_mirror Copying.Branch.branchInvariant_tidy (Copying.Branch.tidy_seed seed)
  rw [← hmirrors.path_eq]
  rcases hb : u.branches[b]? with _ | branch
  · simp [Copying.path, hb]
  · rw [Copying.path_eq_of_getElem? hb]
    exact (htidy b branch hb).nodup

/-- In every state that steps lead to, what is pending on a branch is pending on its path. -/
theorem Reachable.pending_eq (h : Reachable seed trace t) (b : BranchId) :
    t.pending b = (t.path b).pending := by
  obtain ⟨u, hmirrors, -⟩ := h.exists_decided
  exact Tableau.pending_eq hmirrors.indexed b

/-! ### Runs

What was shown for every reachable state, told of the branches of a finished run: a branch that has
forked had nothing but forks left, and a saturated one had nothing left. -/

/-- A branch that a run reports as saturated, by its outcome or in its record, is in that state when
the rounds are over. -/
theorem isIn_saturated_of_reported {bound : Nat}
    (h : ((ofSeed seed trace).run bound).outcome = .saturated b ∨
      .saturated b ∈ recorded seed bound) :
    ((ofSeed seed trace).rounds bound 0).2.1.isIn .saturated b = true := by
  have hmirrors := ((mirrors_ofSeed seed trace).rounds bound 0).1
  have hfinished := Copying.finished_rounds seed bound
  rw [outcome_run, recorded_eq] at h
  unfold Copying.run at h
  rw [← hmirrors.isIn_eq]
  generalize (Copying.ofSeed seed).rounds bound 0 = result at h hfinished
  obtain ⟨u, saturated⟩ := result
  have hstate : u.states[b]? = some .saturated := by
    rcases h with houtcome | hmem
    · exact (hfinished.saturated_iff b).2 (Copying.of_outcome_eq_saturated houtcome)
    · rcases List.mem_append.1 hmem with hstep | hclosing
      · rwa [hfinished.orderly.saturated_mem_iff, hfinished.roster_eq] at hstep
      · cases Copying.isStep_of_mem_closing hclosing
  rw [Copying.getElem?_states, Option.map_eq_some_iff] at hstate
  obtain ⟨⟨path, state⟩, hget, rfl⟩ := hstate
  exact Copying.isIn_iff.2 ⟨path, hget⟩

/-- **Rules that do not fork come first.** In every state that steps lead to, what is pending on a
branch is the first of what is left to expand on its path whose rule does not fork, or else the
first whose rule does. What is left comes in the order in which the claims came onto the path, and
for one claim in the order in which the individuals were introduced. So in every run a branch has
forked only after a state in which all that was left on its path were forks, of which it took the
first; the path it ends with is the one it had then, with this expansion. And a branch is reported
as saturated only if each obligation of its path has been expanded or is satisfied. -/
theorem nonforking_first (seed : List Signed) (trace : Option Trace) :
    (∀ t, Reachable seed trace t → ∀ b,
      t.pending b = ((t.path b).remaining.find? fun entry => !entry.2.isSplit).or
        ((t.path b).remaining.find? fun entry => entry.2.isSplit) ∧
      (t.path b).remaining.Pairwise fun earlier later =>
        earlier.1.Precedes (t.path b).individuals later.1) ∧
    ∀ bound b,
      (((ofSeed seed trace).run bound).tableau.isIn .split b = true →
        ∃ t o left right, Reachable seed trace t ∧ t.isIn .active b = true ∧
          t.pending b = some (o, .split left right) ∧
          (t.path b).remaining.head? = some (o, .split left right) ∧
          (∀ entry ∈ (t.path b).remaining, entry.2.isSplit = true) ∧
          ((ofSeed seed trace).run bound).tableau.path b = (t.path b).expand o.toSlot []) ∧
      (((ofSeed seed trace).run bound).tableau.isIn .saturated b = true ∨
          ((ofSeed seed trace).run bound).outcome = .saturated b ∨
          .saturated b ∈ recorded seed bound →
        ∀ o ∈ (((ofSeed seed trace).run bound).tableau.path b).obligations,
          (o.claim, o.individual) ∈ (((ofSeed seed trace).run bound).tableau.path b).spent ∨
            o.IsSatisfied (((ofSeed seed trace).run bound).tableau.path b).claims) := by
  refine ⟨fun t hreachable b => ?_, fun bound b => ?_⟩
  · rw [hreachable.pending_eq, Path.pending_eq_find? (hreachable.nodup_claims b)]
    exact ⟨rfl, (t.path b).pairwise_remaining⟩
  · have hbranches := branches_run (ofSeed seed trace) bound
    have hreached : Reachable seed trace ((ofSeed seed trace).rounds bound 0).2.1 :=
      Reachable.start.rounds bound 0
    rw [path_eq_of_branches_eq hbranches]
    unfold Tableau.isIn
    rw [hbranches]
    refine ⟨fun hsplit => ?_, fun hreported => ?_⟩
    · obtain ⟨t, o, left, right, hreachable, hactive, hpending, hpath⟩ := hreached.decided hsplit
      have hfork := hpending
      rw [hreachable.pending_eq] at hfork
      obtain ⟨hfirst, hall⟩ :=
        Path.remaining_of_pending_eq_split (hreachable.nodup_claims b) hfork
      exact ⟨t, o, left, right, hreachable, hactive, hpending, hfirst, hall, hpath⟩
    · have hstate := hreported.elim id isIn_saturated_of_reported
      obtain ⟨t, hreachable, hactive, hpending, hpath⟩ := hreached.decided hstate
      rw [hreachable.pending_eq] at hpending
      rw [hpath]
      intro o ho
      exact Path.spent_or_isSatisfied_of_pending_eq_none (hreachable.nodup_claims b) hpending ho

/-- "`A` or `B`, `C` and `D`": the conjunction comes first though it stands behind the fork, and
then the root forks and its first child is saturated. -/
theorem nonforking_first_behind_fork :
    ∃ seed, seed = [.formula true (.disjunction (.atom (.atom "A")) (.atom (.atom "B"))),
        .formula true (.conjunction (.atom (.atom "C")) (.atom (.atom "D")))] ∧
      ((ofSeed seed none).pending 0).map (·.1.place) = some 1 ∧
      ((ofSeed seed none).pending 0 =
        (((ofSeed seed none).path 0).remaining.find? fun entry => !entry.2.isSplit).or
          (((ofSeed seed none).path 0).remaining.find? fun entry => entry.2.isSplit)) ∧
      (((ofSeed seed none).path 0).remaining.map (·.1.place) = [0, 1] ∧
        ((ofSeed seed none).path 0).remaining.Pairwise fun earlier later =>
          earlier.1.Precedes ((ofSeed seed none).path 0).individuals later.1) ∧
      (∃ t o left right, Reachable seed none t ∧ t.isIn .active 0 = true ∧
        t.pending 0 = some (o, .split left right) ∧
        (t.path 0).remaining.head? = some (o, .split left right) ∧
        (∀ entry ∈ (t.path 0).remaining, entry.2.isSplit = true) ∧
        ((ofSeed seed none).run 3).tableau.path 0 = (t.path 0).expand o.toSlot []) ∧
      ((ofSeed seed none).run 3).outcome = .saturated 1 ∧
      ∀ o ∈ (((ofSeed seed none).run 3).tableau.path 1).obligations,
        (o.claim, o.individual) ∈ (((ofSeed seed none).run 3).tableau.path 1).spent ∨
          o.IsSatisfied (((ofSeed seed none).run 3).tableau.path 1).claims := by
  obtain ⟨hchoice, hsorted⟩ := (nonforking_first
    [.formula true (.disjunction (.atom (.atom "A")) (.atom (.atom "B"))),
      .formula true (.conjunction (.atom (.atom "C")) (.atom (.atom "D")))] none).1 _ .start 0
  refine ⟨_, rfl, by decide +kernel, hchoice, ⟨by decide +kernel, hsorted⟩,
    ((nonforking_first _ none).2 3 0).1 (by decide +kernel), by decide +kernel,
    ((nonforking_first _ none).2 3 1).2 (.inr (.inl (by decide +kernel)))⟩

end Tableau

end TermLogic
