import TermLogic.Proofs.Soundness
import TermLogic.Proofs.Countermodel
import TermLogic.Proofs.Formula.RoundTrip

/-!
# Verdicts on related arguments

Two arguments whose tableaux share no step can still not get contrary verdicts, because of what the
verdicts say about interpretations.

* `Argument.RefutedBy`: the interpretation makes all premises true and the conclusion not true. A
  refuted argument does not close, and an argument with a saturated branch is refuted.
* `Argument.outcome_ne_saturated_of_refutedBy`: if what refutes one argument refutes another one
  that closes, the first has no saturated branch.
* `Argument.outcome_ne_saturated_of_subset`: more premises, other orders and repetitions do not turn
  a closed argument into one with a saturated branch.
* `Argument.reread`: the argument that is read from the canonical texts of another one.
  `Argument.outcome_reread_not_contrary`: its verdict is not the contrary one, although "there are"
  comes back as "some are", which has other rules.
-/

namespace TermLogic

namespace Argument

universe u

variable {I : Interpretation.{u}} {argument weaker stronger : Argument} {config config' : Config}
  {trace trace' : Option Trace}

/-- The premises are true and the conclusion is not. -/
def RefutedBy (argument : Argument) (I : Interpretation.{u}) : Prop :=
  (∀ f ∈ argument.premises, f.Holds I) ∧ ¬ argument.conclusion.Holds I

/-- What refutes an argument makes the claims true from which its tableau starts. -/
theorem RefutedBy.holdsAt_seed (h : argument.RefutedBy I) :
    ∀ s ∈ argument.seed, s.HoldsAt I fun _ => none := by
  intro s hs
  rw [seed, List.mem_append, List.mem_singleton] at hs
  rcases hs with hs | rfl
  · obtain ⟨f, hf, rfl⟩ := List.mem_map.1 hs
    exact h.1 f hf
  · exact h.2

/-- A refuted argument does not close. -/
theorem RefutedBy.outcome_ne_closed (h : argument.RefutedBy I) (config : Config)
    (trace : Option Trace) : (argument.run config trace).outcome ≠ .closed :=
  outcome_ne_closed_of_holds trace config.bound h.holdsAt_seed

/-- An argument with a saturated branch is refuted by what can be read off the branch. -/
theorem exists_refutedBy {b : BranchId} (h : (argument.run config trace).outcome = .saturated b) :
    ∃ I : Interpretation.{0}, argument.RefutedBy I := by
  obtain ⟨hfinished, hseed⟩ := finished_of_outcome_eq_saturated h
  refine ⟨Path.reading _ hfinished.legal, fun f hf => ?_, fun hconclusion => ?_⟩
  · have hclaim : Signed.formula true f ∈ argument.seed :=
      List.mem_append_left _ (List.mem_map_of_mem hf)
    exact (hfinished.holds_reading f (hseed hclaim)).2 rfl
  · have hclaim : Signed.formula false argument.conclusion ∈ argument.seed :=
      List.mem_append_right _ List.mem_cons_self
    exact absurd ((hfinished.holds_reading _ (hseed hclaim)).1 hconclusion) Bool.false_ne_true

/-- If whatever refutes an argument refutes one that closes, nothing refutes it. -/
theorem outcome_ne_saturated_of_refutedBy
    (h : ∀ I : Interpretation.{0}, weaker.RefutedBy I → stronger.RefutedBy I)
    (hclosed : (stronger.run config trace).outcome = .closed) (b : BranchId) :
    (weaker.run config' trace').outcome ≠ .saturated b := by
  intro hsaturated
  obtain ⟨I, hI⟩ := exists_refutedBy hsaturated
  exact (h I hI).outcome_ne_closed config trace hclosed

/-- Whatever refutes an argument refutes it with fewer premises. -/
theorem RefutedBy.of_subset {premises more : List Formula} {conclusion : Formula}
    (hsubset : premises ⊆ more) (h : RefutedBy ⟨more, conclusion⟩ I) :
    RefutedBy ⟨premises, conclusion⟩ I :=
  ⟨fun f hf => h.1 f (hsubset hf), h.2⟩

/-- **Monotony.** If an argument closes, no argument that has all its premises, in any order, as
often as one likes and among others, and the same conclusion ends with a saturated branch, whatever
the bounds. -/
theorem outcome_ne_saturated_of_subset (premises more : List Formula) (conclusion : Formula)
    (config config' : Config) (trace trace' : Option Trace) (hsubset : premises ⊆ more)
    (hclosed : ((Argument.mk premises conclusion).run config trace).outcome = .closed)
    (b : BranchId) : ((Argument.mk more conclusion).run config' trace').outcome ≠ .saturated b :=
  outcome_ne_saturated_of_refutedBy (fun _ => RefutedBy.of_subset hsubset) hclosed b

/-- With its premises the other way round, one of them twice and an idle one between, "all `M` are
`P`, all `S` are `M`, so all `S` are `P`" has no saturated branch either, also if it gets a single
round. -/
theorem outcome_barbara_ne_saturated :
    ∃ premises more : List Formula, premises = [.universal (.atom "M") (.atom "P"),
        .universal (.atom "S") (.atom "M")] ∧
      more = [.universal (.atom "S") (.atom "M"), .existential (.atom "Q"),
        .universal (.atom "M") (.atom "P"), .universal (.atom "S") (.atom "M")] ∧
      premises ⊆ more ∧
      ((Argument.mk premises (.universal (.atom "S") (.atom "P"))).run .standard none).outcome =
        .closed ∧
      ∀ b, ((Argument.mk more (.universal (.atom "S") (.atom "P"))).run
        ⟨1, Nat.one_pos⟩ none).outcome ≠ .saturated b := by
  refine ⟨_, _, rfl, rfl, ?_⟩
  refine ⟨by decide, by decide +kernel, ?_⟩
  apply outcome_ne_saturated_of_subset [.universal (.atom "M") (.atom "P"),
    .universal (.atom "S") (.atom "M")] _ _ .standard ⟨1, Nat.one_pos⟩ none none
  · decide
  · decide +kernel

/-! ### Reading an argument back

Canonical text has no way to say "there are": it is written as "some are" with one term twice, and
read back as that. The formula that comes back has other rules, so that its runs may differ, but it
says the same. -/

/-- The argument read from the canonical texts of the premises and the conclusion. -/
def reread (argument : Argument) : Except SyntaxError Argument := do
  let premises ← argument.premises.mapM fun f => Formula.parse f.render
  let conclusion ← Formula.parse argument.conclusion.render
  return ⟨premises, conclusion⟩

/-- A writable formula that can be read back is read plainly. -/
theorem eq_plain_of_parse_render {f g : Formula} (hwritable : f.isWritable = true)
    (h : Formula.parse f.render = .ok g) : g = f.plain := by
  rcases (Formula.takes_parse_render hwritable).gives with hplain | ⟨e, herror, -⟩
  · exact Except.ok.inj (h.symm.trans hplain)
  · cases h.symm.trans herror

/-- The same for several formulas. -/
theorem eq_map_plain_of_mapM {formulas again : List Formula}
    (hwritable : ∀ f ∈ formulas, f.isWritable = true)
    (h : formulas.mapM (fun f => Formula.parse f.render) = .ok again) :
    again = formulas.map Formula.plain := by
  induction formulas generalizing again with
  | nil =>
      cases h
      rfl
  | cons f rest ih =>
      obtain ⟨hf, hrest⟩ := List.forall_mem_cons.1 hwritable
      rw [List.mapM_cons] at h
      rcases hfirst : Formula.parse f.render with e | g
      · rw [hfirst] at h
        cases h
      · rcases hothers : rest.mapM (fun f => Formula.parse f.render) with e | others
        · rw [hfirst, hothers] at h
          cases h
        · rw [hfirst, hothers] at h
          cases h
          rw [List.map_cons, eq_plain_of_parse_render hf hfirst, ih hrest hothers]

/-- A writable argument that can be read back is read plainly. -/
theorem eq_plain_of_reread {again : Argument}
    (hwritable : ∀ f ∈ argument.premises ++ [argument.conclusion], f.isWritable = true)
    (h : argument.reread = .ok again) :
    again = ⟨argument.premises.map Formula.plain, argument.conclusion.plain⟩ := by
  obtain ⟨hpremises, hconclusion⟩ := List.forall_mem_append.1 hwritable
  unfold reread at h
  rcases hfirst : argument.premises.mapM (fun f => Formula.parse f.render) with e | premises
  · rw [hfirst] at h
    cases h
  · rcases hlast : Formula.parse argument.conclusion.render with e | conclusion
    · rw [hfirst, hlast] at h
      cases h
    · rw [hfirst, hlast] at h
      cases h
      rw [eq_map_plain_of_mapM hpremises hfirst,
        eq_plain_of_parse_render (hconclusion _ List.mem_cons_self) hlast]

/-- What refutes an argument refutes it read plainly, and conversely. -/
theorem refutedBy_plain :
    RefutedBy ⟨argument.premises.map Formula.plain, argument.conclusion.plain⟩ I ↔
      argument.RefutedBy I := by
  simp only [RefutedBy, List.forall_mem_map, Formula.holds_plain]

/-- **Reading back.** Take an argument with plain names and read it back from its canonical texts.
If one of the two closes, the other one does not end with a saturated branch, whatever the
bounds. -/
theorem outcome_reread_not_contrary (argument again : Argument) (config config' : Config)
    (trace trace' : Option Trace)
    (hwritable : ∀ f ∈ argument.premises ++ [argument.conclusion], f.isWritable = true)
    (hreread : argument.reread = .ok again) :
    ((argument.run config trace).outcome = .closed →
      ∀ b, (again.run config' trace').outcome ≠ .saturated b) ∧
    ((again.run config' trace').outcome = .closed →
      ∀ b, (argument.run config trace).outcome ≠ .saturated b) := by
  obtain rfl := eq_plain_of_reread hwritable hreread
  exact ⟨outcome_ne_saturated_of_refutedBy fun _ => refutedBy_plain.1,
    outcome_ne_saturated_of_refutedBy fun _ => refutedBy_plain.2⟩

/-- "All `S` are `P`, and it is not so that there are no `S`, so some `S` are `P`" closes. Read
back, where it says that some `S` are `S`, it has no saturated branch after two rounds either. -/
theorem outcome_reread_existential :
    ∃ argument again : Argument, argument = ⟨[.universal (.atom "S") (.atom "P"),
        .negation (.negation (.existential (.atom "S")))],
        .particular (.atom "S") (.atom "P")⟩ ∧
      again = ⟨[.universal (.atom "S") (.atom "P"),
        .negation (.negation (.particular (.atom "S") (.atom "S")))],
        .particular (.atom "S") (.atom "P")⟩ ∧
      (∀ f ∈ argument.premises ++ [argument.conclusion], f.isWritable = true) ∧
      argument.reread = .ok again ∧ (argument.run .standard none).outcome = .closed ∧
      ∀ b, (again.run ⟨2, Nat.two_pos⟩ none).outcome ≠ .saturated b := by
  refine ⟨_, _, rfl, rfl, ?_⟩
  refine ⟨by decide, rfl, by decide +kernel, ?_⟩
  refine (outcome_reread_not_contrary ⟨[.universal (.atom "S") (.atom "P"),
    .negation (.negation (.existential (.atom "S")))], .particular (.atom "S") (.atom "P")⟩ _
    .standard ⟨2, Nat.two_pos⟩ none none ?_ rfl).1 ?_
  · decide
  · decide +kernel

end Argument

end TermLogic
