import TermLogic.Argument
import TermLogic.Proofs.Tableau.Stability

/-!
# Excluded middle

The tableau that denies `f | -f` closes within three rounds, whatever `f` is and however long it
would take to expand it. The first round denies `f` and `-f`, and to expand the denial of `-f` is
then enough. This never forks, and no claim that comes later is expanded before it. So it is
expanded next, or the denial of `f` is expanded next without a fork and then the denial of `-f`.

* `Copying.Branch.ClosesWithin`: a tableau that has only this branch closes within so many rounds.
  `Copying.Branch.closesWithin_succ` takes one round off where the branch does not fork.
* `Path.Denying`: the path once `f` and `-f` have been denied, until the denial of `-f` is expanded.
  `Path.Denying.pending_cases` says what can be pending on it.
* `Argument.outcome_excluded_middle`: the run closes.
-/

namespace TermLogic

namespace Copying

/-! ### A single branch

A tableau of one branch that does not fork is the branch itself, so its rounds can be counted on the
path. -/

/-- A tableau that has only this branch closes, if it may take so many rounds. -/
def Branch.ClosesWithin (rounds : Nat) (branch : Branch) : Prop :=
  ∀ (t : Copying) (bound round : Nat), t.branches = #[branch] → rounds ≤ bound →
    (t.rounds bound round).1.outcome (t.rounds bound round).2 = .closed

/-- A closed branch takes no round. -/
theorem Branch.closesWithin_of_closed (path : Path) (n : Nat) :
    ClosesWithin n ⟨path, .closed⟩ := by
  intro t bound round hbranches _
  have hleaves : t.activeLeaves = [] := by
    unfold activeLeaves isIn
    rw [hbranches]
    rfl
  rw [rounds_of_activeLeaves_eq_nil hleaves]
  simp [outcome, hleaves]

/-- A branch closes within one round more than what comes in its place, if it does not fork. -/
theorem Branch.closesWithin_succ {path : Path} {o : Obligation} {rule : Rule} {n : Nat}
    (hpending : path.pending = some (o, rule)) (hsplit : rule.isSplit = false)
    (hnext : ∀ fresh, ∀ branch ∈ path.next fresh o rule, branch.ClosesWithin n) :
    ClosesWithin (n + 1) ⟨path, .active⟩ := by
  intro t bound round hbranches hle
  obtain ⟨bound, rfl⟩ : ∃ k, bound = k + 1 := ⟨bound - 1, by omega⟩
  have hroot : t.branches[0]? = some ⟨path, .active⟩ := by
    rw [hbranches]
    rfl
  have hleaves : t.activeLeaves = [0] := by
    unfold activeLeaves isIn
    rw [hbranches]
    rfl
  have hround : t.rounds (bound + 1) round = (t.apply round 0 o rule).rounds bound (round + 1) := by
    simp only [Copying.rounds, hleaves, sweep, path_eq_of_getElem? hroot, hpending]
  rw [hround]
  rcases branches_apply hroot round o rule with ⟨branch, hone, heq⟩ | ⟨first, second, htwo, -⟩
  · rw [hbranches] at heq
    refine hnext (t.introduced + 1) branch ?_ _ bound (round + 1) heq (by omega)
    rw [hone]
    exact List.mem_singleton_self branch
  · cases rule with
    | split left right => cases hsplit
    | linear | witness => cases htwo

end Copying

/-! ### What is pending

There are three claims to begin with: the denials of `f | -f`, of `f` and of `-f`. Whatever is
expanded before the denial of `-f` stands before it and does not fork, which leaves the denial of
`f` alone. -/

namespace Path

open Copying.Branch

/-- A path on which `f | -f` has been denied and expanded, and the denial of `-f` is still to be
expanded. -/
structure Denying (f : Formula) (path : Path) : Prop where
  /-- The run has started from the denial of `f | -f`. -/
  whole : path.claims[0]? = some (.formula false (.disjunction f (.negation f)))
  /-- Then `f` has been denied. -/
  left : path.claims[1]? = some (.formula false f)
  /-- Then `-f` has been denied. -/
  right : path.claims[2]? = some (.formula false (.negation f))
  /-- The first denial has been expanded. -/
  expanded : ⟨0, none⟩ ∈ path.expanded
  /-- The last one has not. -/
  waiting : ⟨2, none⟩ ∉ path.expanded
  /-- The path has not closed. -/
  consistent : path.Consistent

variable {f : Formula} {path : Path}

/-- On such a path, the denial of `f` is to be expanded next without a fork, or that of `-f` is. -/
theorem Denying.pending_cases (h : path.Denying f) :
    ∃ o rule, path.pending = some (o, rule) ∧ rule.isSplit = false ∧
      (o.place = 1 ∧ o.claim = .formula false f ∨
        o = ⟨⟨2, none⟩, .formula false (.negation f)⟩ ∧ rule = .linear [.formula true f]) := by
  have hmem : ⟨⟨2, none⟩, .formula false (.negation f)⟩ ∈ path.obligations :=
    mem_obligations_iff.2 ⟨h.right, rfl, rfl⟩
  have hopen : path.openRule? ⟨⟨2, none⟩, .formula false (.negation f)⟩ =
      some (.linear [.formula true f]) := by
    unfold openRule?
    rw [if_neg (fun hexp => h.waiting ((path.isExpanded_iff _).1 hexp))]
    rfl
  obtain ⟨o, rule, hpending, hsplit, hle⟩ := exists_pending_of_openRule? hmem hopen rfl
  obtain ⟨ho, hnot, hrule⟩ := of_pending_eq_some hpending
  obtain ⟨hclaim, hcalls⟩ := mem_obligations_iff.1 ho
  refine ⟨o, rule, hpending, hsplit, ?_⟩
  obtain ⟨⟨place, individual⟩, claim⟩ := o
  simp only at hle hclaim hcalls hnot
  -- neither the whole nor `-f` speaks of individuals, so each is expanded once
  obtain rfl | rfl | rfl : place = 0 ∨ place = 1 ∨ place = 2 := by omega
  · rw [h.whole] at hclaim
    cases hclaim
    rcases individual with _ | c
    · exact absurd h.expanded hnot
    · cases hcalls.1
  · rw [h.left] at hclaim
    cases hclaim
    exact .inl ⟨rfl, rfl⟩
  · rw [h.right] at hclaim
    cases hclaim
    rcases individual with _ | c
    · cases hrule
      exact .inr ⟨rfl, rfl⟩
    · cases hcalls.1

/-- Expanding the denial of `f` leaves the denial of `-f` to be expanded. -/
theorem Denying.follows {later : Path} {fresh : Individual} {o : Obligation} {rule : Rule}
    (h : path.Denying f) (hplace : o.place = 1) (hlater : path.Follows fresh o rule later) :
    later.Denying f where
  whole := hlater.getElem?_claims h.whole
  left := hlater.getElem?_claims h.left
  right := hlater.getElem?_claims h.right
  expanded := by simp [hlater.expanded_eq, h.expanded]
  waiting := by
    have hne : (⟨2, none⟩ : Slot) ≠ o.toSlot := by
      intro heq
      rw [← heq] at hplace
      cases hplace
    simp [hlater.expanded_eq, h.waiting, hne]
  consistent := hlater.consistent h.consistent

/-- The denial of `-f` closes the path. -/
theorem Denying.closesWithin_of_right (h : path.Denying f)
    (hpending : path.pending = some (⟨⟨2, none⟩, .formula false (.negation f)⟩,
      .linear [.formula true f])) (n : Nat) : ClosesWithin (n + 1) ⟨path, .active⟩ := by
  refine closesWithin_succ hpending rfl fun fresh branch hbranch => ?_
  have hdenied : Signed.formula false f ∈ path.claims := List.mem_of_getElem? h.left
  have hnot : Signed.formula true f ∉ path.claims := h.consistent _ hdenied
  obtain rfl := List.mem_singleton.1 hbranch
  unfold addAll
  rw [if_neg (by simpa using hnot), if_pos (by simpa using hdenied)]
  exact closesWithin_of_closed _ n

/-- Once the denial of `f` has been expanded, the next round closes the path. -/
theorem Denying.closesWithin_one (h : path.Denying f)
    (hgeneral : (Signed.formula false f).isGeneral = false) (hexp : ⟨1, none⟩ ∈ path.expanded) :
    ClosesWithin 1 ⟨path, .active⟩ := by
  obtain ⟨o, rule, hpending, -, ⟨hplace, hclaim⟩ | ⟨rfl, rfl⟩⟩ := h.pending_cases
  · obtain ⟨ho, hnot, -⟩ := of_pending_eq_some hpending
    obtain ⟨-, hcalls⟩ := mem_obligations_iff.1 ho
    obtain ⟨⟨place, _ | c⟩, claim⟩ := o <;> simp only at hplace hclaim hcalls hnot <;> subst hplace
    · exact absurd hexp hnot
    · rw [hclaim, Signed.Calls, hgeneral] at hcalls
      cases hcalls.1
  · exact h.closesWithin_of_right hpending 0

/-- Before any individual is introduced, two rounds close the path. -/
theorem Denying.closesWithin_two (h : path.Denying f) (hnobody : path.individuals = []) :
    ClosesWithin 2 ⟨path, .active⟩ := by
  obtain ⟨o, rule, hpending, hsplit, ⟨hplace, hclaim⟩ | ⟨rfl, rfl⟩⟩ := h.pending_cases
  · obtain ⟨ho, -, -⟩ := of_pending_eq_some hpending
    obtain ⟨-, hcalls⟩ := mem_obligations_iff.1 ho
    obtain ⟨⟨place, individual⟩, claim⟩ := o
    simp only at hplace hclaim hcalls
    subst hplace hclaim
    -- nobody is there to apply the denial of `f` to, so it is expanded once
    rcases individual with _ | c
    · refine closesWithin_succ hpending hsplit fun fresh branch hbranch => ?_
      obtain ⟨later, state⟩ := branch
      obtain ⟨alternative, -, heq⟩ := List.mem_map.1 hbranch
      rcases state_addAll (path.expand ⟨1, none⟩ (rule.newcomers fresh)) alternative with
        hactive | hclosed
      · obtain rfl : state = .active := by rw [← hactive, heq]
        have hfollows : path.Follows fresh ⟨⟨1, none⟩, .formula false f⟩ rule later :=
          follows_of_mem_next hbranch rfl
        exact (h.follows rfl hfollows).closesWithin_one hcalls.1 (by simp [hfollows.expanded_eq])
      · obtain rfl : state = .closed := by rw [← hclosed, heq]
        exact closesWithin_of_closed later 1
    · rw [hnobody] at hcalls
      cases hcalls.2
  · exact h.closesWithin_of_right hpending 1

/-- The first round denies `f` and `-f`. -/
theorem addAll_denying (f : Formula) :
    ∃ path : Path, path.Denying f ∧ path.individuals = [] ∧
      addAll ⟨[.formula false (.disjunction f (.negation f))], [⟨0, none⟩], []⟩
        [.formula false f, .formula false (.negation f)] = ⟨path, .active⟩ := by
  have hwhole : f ≠ .disjunction f (.negation f) := by rintro ⟨⟩
  have hinner : Formula.negation f ≠ f := by rintro ⟨⟩
  refine ⟨⟨[.formula false (.disjunction f (.negation f)), .formula false f,
    .formula false (.negation f)], [⟨0, none⟩], []⟩, ?_, rfl, ?_⟩
  · exact
      { whole := rfl
        left := rfl
        right := rfl
        expanded := List.mem_singleton_self _
        waiting := by simp
        consistent := by simp [Consistent, Signed.formula, Signed.flip] }
  · simp [addAll, holds, push, Signed.formula, Signed.flip, hwhole, hinner]

/-- The denial of `f | -f` closes within three rounds. -/
theorem closesWithin_three (f : Formula) :
    ClosesWithin 3 ⟨⟨[.formula false (.disjunction f (.negation f))], [], []⟩, .active⟩ := by
  have hpending : Path.pending ⟨[.formula false (.disjunction f (.negation f))], [], []⟩ =
      some (⟨⟨0, none⟩, .formula false (.disjunction f (.negation f))⟩,
        .linear [.formula false f, .formula false (.negation f)]) := rfl
  refine closesWithin_succ hpending rfl fun fresh branch hbranch => ?_
  obtain ⟨path, hdenying, hnobody, heq⟩ := addAll_denying f
  obtain rfl : branch = ⟨path, .active⟩ := (List.mem_singleton.1 hbranch).trans heq
  exact hdenying.closesWithin_two hnobody

end Path

/-- **Excluded middle within three rounds.** The tableau of `f | -f` closes under every bound of at
least three rounds, whatever formula `f` is. -/
theorem Argument.outcome_excluded_middle (f : Formula) {config : Config} (h : 3 ≤ config.bound)
    (trace : Option Trace) :
    (run config (ofFormula (.disjunction f (.negation f))) trace).outcome = .closed := by
  unfold run
  rw [Tableau.outcome_run, Copying.fst_run]
  refine Path.closesWithin_three f _ config.bound 0 ?_ h
  rw [Copying.branches_ofSeed]
  rfl

/-- Three rounds for the excluded middle of "no `A` are `B`, and all `B` are `C` or there are no
`A`". -/
theorem Argument.outcome_excluded_middle_mixed :
    3 ≤ (Config.mk 3 (by decide)).bound ∧
    (run ⟨3, by decide⟩ (ofFormula (.disjunction
      (.conjunction (.negation (.particular (.atom "A") (.atom "B")))
        (.disjunction (.universal (.atom "B") (.atom "C")) (.negation (.existential (.atom "A")))))
      (.negation (.conjunction (.negation (.particular (.atom "A") (.atom "B")))
        (.disjunction (.universal (.atom "B") (.atom "C"))
          (.negation (.existential (.atom "A")))))))) none).outcome = .closed :=
  ⟨by decide, outcome_excluded_middle _ (by decide) none⟩

/-- Two rounds are not enough where the denial of `f` is expanded before that of `-f`. -/
example : Argument.outcome ⟨2, by decide⟩ (.ofFormula (.disjunction (.negation (.atom (.atom "A")))
    (.negation (.negation (.atom (.atom "A")))))) = .exhausted 1 := by
  decide +kernel

end TermLogic
