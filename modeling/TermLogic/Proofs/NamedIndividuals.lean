import TermLogic.Proofs.Countermodel
import TermLogic.Proofs.Tableau.Arena

/-!
# Claims about named individuals

A run may start from claims that name individuals. It does not take note of them: the individuals it
introduces are numbered from 1 as always, and what it claims of every individual it applies to those
it has introduced. So a named individual can be confused with one that is introduced, and a claim
about all can be left unapplied to it. Where neither happens, the run judges rightly.

* `Signed.Built`: formulas, and predications without leading complements.
* `Path.SatisfiableNaming`, `Copying.onSome_rounds_naming`: some branch can be made true as long as
  no named individual is introduced.
* `Path.Finished.holdsAt_reading`: a finished path makes its claims about its individuals true.
* `Tableau.run_naming`: what a closed and a saturated run show about claims that name individuals.
* `Tableau.run_naming_misjudges`: a closed run on claims that can be true, and a saturated run on
  claims that cannot.
-/

namespace TermLogic

universe u

/-- A signed claim as it is meant to be built: a formula, or a predication whose leading complements
have been taken off. -/
def Signed.Built (s : Signed) : Prop :=
  (∃ sign f, s = .formula sign f) ∨ ∃ sign c t, s = .predication sign c t

/-- Formulas are built as they are. -/
@[simp]
theorem Signed.built_formula (sign : Bool) (f : Formula) : (Signed.formula sign f).Built :=
  .inl ⟨sign, f, rfl⟩

/-- Predications are built by taking off leading complements. -/
@[simp]
theorem Signed.built_predication (sign : Bool) (c : Individual) (t : Term) :
    (Signed.predication sign c t).Built :=
  .inr ⟨sign, c, t, rfl⟩

variable {I : Interpretation.{u}} {member more : Individual → Option I.Domain}

/-! ### True paths

Members of the domain are chosen for named individuals at the start and for others when they are
introduced. A choice made for one does no harm to claims that do not speak of it. -/

/-- The truth of a claim depends only on what the individuals it speaks of stand for. -/
theorem Signed.HoldsAt.congr {s : Signed} (h : s.HoldsAt I member)
    (hsame : ∀ c ∈ s.claim.individuals, more c = member c) : s.HoldsAt I more := by
  obtain ⟨sign, f | ⟨c, t⟩⟩ := s
  · exact h
  · obtain ⟨d, hd, hsign⟩ := h
    exact ⟨d, (hsame c (List.mem_singleton_self c)).trans hd, hsign⟩

namespace Path

variable {path : Path} {o : Obligation} {rule : Rule}

/-- A path that is true for some choice of members for the named individuals and the first `n`. -/
def SatisfiableNaming (I : Interpretation.{u}) (named : List Individual) (n : Nat) (path : Path) :
    Prop :=
  ∃ member : Individual → Option I.Domain,
    path.TrueAt I member ∧ ∀ c d, member c = some d → c ∈ named ∨ c ≤ n

/-- A step hands satisfiability on to some active branch, if it introduces no named individual. -/
theorem SatisfiableNaming.next {named : List Individual} {n : Nat}
    (h : path.SatisfiableNaming I named n) (hpending : path.pending = some (o, rule))
    (hfresh : ∀ c ∈ rule.newcomers (n + 1), c ∉ named) :
    ∃ branch ∈ path.next (n + 1) o rule, branch.state = .active ∧
      branch.path.SatisfiableNaming I named (n + (rule.newcomers (n + 1)).length) := by
  obtain ⟨member, htrue, hmember⟩ := h
  have hnone : ∀ c ∈ rule.newcomers (n + 1), member c = none := by
    intro c hc
    refine Option.eq_none_iff_forall_ne_some.2 fun d hd => ?_
    rcases hmember c d hd with hnamed | hle
    · exact hfresh c hc hnamed
    · exact Nat.not_lt.2 hle (Rule.mem_newcomers hc).1
  obtain ⟨more, hsame, branch, hbranch, hactive, hlater⟩ := htrue.next hpending hnone
  refine ⟨branch, hbranch, hactive, more, hlater, fun c d hd => ?_⟩
  by_cases hc : c ∈ rule.newcomers (n + 1)
  · exact .inr (Rule.mem_newcomers hc).2
  · rw [hsame c hc] at hd
    exact (hmember c d hd).imp_right fun hle => Nat.le_trans hle (Nat.le_add_right _ _)

end Path

/-! ### Runs that introduce no named individual

As long as the individuals that are introduced differ from those that are named, each of them can
still be given any member of the domain, and soundness goes through as for formulas. -/

namespace Copying

variable {t later : Copying} {named : List Individual} {bound round : Nat}

/-- Some active branch can be made true after all rounds, if none of them ends with a saturated
branch and no named individual has been introduced. -/
theorem onSome_rounds_naming (h : Inherited.OnSome (Path.SatisfiableNaming I named) t)
    (hrounds : rounds bound round t = (later, none))
    (hfresh : ∀ c ∈ named, 0 < c → later.introduced < c) :
    Inherited.OnSome (Path.SatisfiableNaming I named) later := by
  -- the count of individuals only grows, so what it has come to in the end bounds it on the way
  have hstep : ∀ {t : Copying} {b : BranchId} {path : Path} {round : Nat} {o : Obligation}
      {rule : Rule},
      (t.introduced ≤ later.introduced →
        Inherited.OnSome (Path.SatisfiableNaming I named) t) →
      t.branches[b]? = some ⟨path, .active⟩ → path.pending = some (o, rule) →
      (t.apply round b o rule).introduced ≤ later.introduced →
        Inherited.OnSome (Path.SatisfiableNaming I named) (t.apply round b o rule) := by
    intro t b path round o rule hbefore hb hpending hle
    rw [introduced_apply] at hle
    refine Inherited.onSome_apply_of_step (hbefore (by omega)) hb ?_ fun hpath => ?_
    · rintro other ⟨member, htrue, hmember⟩
      exact ⟨member, htrue, fun c d hd => (hmember c d hd).imp_right fun hle =>
        Nat.le_trans hle (Nat.le_add_right _ _)⟩
    · refine hpath.next hpending fun c hc hnamed => ?_
      obtain ⟨hlt, hle'⟩ := Rule.mem_newcomers hc
      have hbeyond : later.introduced < c := hfresh c hnamed (Nat.zero_lt_of_lt hlt)
      exact Nat.lt_irrefl c (Nat.lt_of_le_of_lt (Nat.le_trans hle' hle) hbeyond)
  rcases rounds_cases hstep bound (fun _ => h) with
    ⟨after, hend, hsome⟩ | ⟨before, b, path, hend, -⟩
  · rw [hrounds] at hend
    cases hend
    exact hsome (Nat.le_refl _)
  · rw [hrounds] at hend
    cases hend

end Copying

/-- The individuals on the branches of a run are those it has introduced. -/
theorem Tableau.individuals_run (seed : List Signed) (trace : Option Trace) (bound : Nat) :
    ((ofSeed seed trace).run bound).tableau.individuals.Perm
      (List.range' 1 ((Copying.ofSeed seed).rounds bound 0).1.introduced) := by
  obtain ⟨-, -, -, hrooted⟩ := (Reachable.start.rounds bound 0).exists_mirror
    Copying.Branch.branchInvariant_tidy (Copying.Branch.tidy_seed seed)
  obtain ⟨hmirrors, -⟩ := (mirrors_ofSeed seed trace).rounds bound 0
  rw [hmirrors.introduced_eq]
  unfold individuals
  rw [branches_run]
  exact hrooted.individuals

/-- A run that introduces none of the individuals named in its claims closes only if these cannot be
true together. -/
theorem Tableau.not_holdsAt_of_outcome_eq_closed {seed : List Signed} {trace : Option Trace}
    {bound : Nat} (h : ((ofSeed seed trace).run bound).outcome = .closed)
    (hfresh : ∀ c ∈ Signed.individualsOf seed,
      c ∉ ((ofSeed seed trace).run bound).tableau.individuals) :
    ¬ ∀ s ∈ seed, s.HoldsAt I member := by
  intro hseed
  obtain ⟨saturated, later, hrounds, houtcome, -⟩ := mirrors_run seed trace bound
  obtain ⟨rfl, hend⟩ := Copying.of_outcome_eq_closed (houtcome.symm.trans h)
  have hbeyond : ∀ c ∈ Signed.individualsOf seed, 0 < c → later.introduced < c := by
    intro c hc hpos
    have hnot := hfresh c hc
    rw [(individuals_run seed trace bound).mem_iff, hrounds, List.mem_range'_1] at hnot
    refine Nat.not_le.1 fun hle => hnot ⟨hpos, ?_⟩
    rw [Nat.add_comm]
    exact Nat.lt_succ_of_le hle
  -- only the named individuals stand for members at the start
  have hnamed : ∀ s ∈ seed, s.HoldsAt I fun c =>
      if c ∈ Signed.individualsOf seed then member c else none := by
    intro s hs
    refine (hseed s hs).congr fun c hc => if_pos ?_
    exact List.mem_flatMap.2 ⟨s, hs, hc⟩
  have hempty : (⟨[], [], []⟩ : Path).TrueAt I fun c =>
      if c ∈ Signed.individualsOf seed then member c else none := ⟨by simp, by simp⟩
  obtain ⟨hactive, htrue⟩ := hempty.addAll hnamed
  have hstart : Inherited.OnSome (Path.SatisfiableNaming I (Signed.individualsOf seed))
      (Copying.ofSeed seed) := by
    refine ⟨0, (Path.addAll ⟨[], [], []⟩ seed).path, ?_, _, htrue, fun c d hd => ?_⟩
    · rw [Copying.branches_ofSeed, ← hactive]
      rfl
    · split at hd
      · next hc => exact .inl hc
      · cases hd
  obtain ⟨b, path, hb, -⟩ := Copying.onSome_rounds_naming hstart hrounds hbeyond
  exact hend b path hb

/-! ### Saturated branches

A saturated path is finished as far as its own individuals go. The named ones are put on it in
addition; if nothing is pending then either, it is finished for them as well. -/

namespace Path

/-- The path with further individuals on it. -/
def naming (path : Path) (named : List Individual) : Path :=
  { path with individuals := path.individuals ++ named }

/-- Further individuals leave a path fulfilled. -/
theorem Fulfilled.naming {seed : List Signed} {path : Path} (h : path.Fulfilled seed)
    (named : List Individual) : (path.naming named).Fulfilled seed where
  consistent := h.consistent
  seed := h.seed
  expanded slot hslot := by
    obtain ⟨s, holds, rule, hget, hrule, c, halternative, hnew⟩ := h.expanded slot hslot
    exact ⟨s, holds, rule, hget, hrule, c, halternative,
      fun d hd => List.mem_append_left _ (hnew hd)⟩

/-- Each individual of a path stands for itself in its reading. -/
def asMember (path : Path) (legal : path.Legal) (c : Individual) :
    Option (path.reading legal).Domain :=
  if h : c ∈ path.individuals then some ⟨c, h⟩ else none

/-- The reading of a finished path makes a claim on it true, if the individuals it speaks of are on
the path. -/
theorem Finished.holdsAt_reading {path : Path} (h : path.Finished) {s : Signed}
    (hs : s ∈ path.claims) (hbuilt : s.Built) (hnamed : s.claim.individuals ⊆ path.individuals) :
    s.HoldsAt (path.reading h.legal) (path.asMember h.legal) := by
  rcases hbuilt with ⟨sign, f, rfl⟩ | ⟨sign, c, t, rfl⟩
  · have htruth := h.holds_reading f hs
    cases sign <;> simpa using htruth
  · have hc : c ∈ path.individuals := hnamed (List.mem_singleton_self c)
    have hmember : path.asMember h.legal c = some ⟨c, hc⟩ := dif_pos hc
    have htruth : path.Falls c t ↔ sign = true := h.consistent.falls_iff hs
    rw [Signed.holdsAt_predication hmember]
    cases sign
    · exact fun hfalls => Bool.false_ne_true (htruth.1 hfalls)
    · exact htruth.2 rfl

end Path

/-! ### What a run shows

Both conditions can be read off the finished tableau: who has been introduced, and what would be
pending on the saturated branch. -/

namespace Tableau

/-- **Claims that name individuals.** Take a run from formulas and predications. If it closes and
has introduced none of the individuals named in them, no interpretation makes them all true,
whatever the named individuals stand for. If it ends with a saturated branch, and nothing would be
pending there if the named individuals had been introduced as well, some interpretation makes them
all true. -/
theorem run_naming (seed : List Signed) (hseed : ∀ s ∈ seed, s.Built) (bound : Nat)
    (trace : Option Trace) :
    (((ofSeed seed trace).run bound).outcome = .closed →
      (∀ c ∈ Signed.individualsOf seed,
        c ∉ ((ofSeed seed trace).run bound).tableau.individuals) →
      ∀ (I : Interpretation.{u}) (member : Individual → Option I.Domain),
        ¬ ∀ s ∈ seed, s.HoldsAt I member) ∧
    (∀ b, ((ofSeed seed trace).run bound).outcome = .saturated b →
      ((((ofSeed seed trace).run bound).tableau.path b).naming
        (Signed.individualsOf seed)).pending = none →
      ∃ (I : Interpretation.{0}) (member : Individual → Option I.Domain),
        ∀ s ∈ seed, s.HoldsAt I member) := by
  refine ⟨fun h hfresh I member => not_holdsAt_of_outcome_eq_closed h hfresh,
    fun b h hpending => ?_⟩
  obtain ⟨-, -, -, hfulfilled⟩ :=
    (Path.pathInvariant_fulfilled seed).of_outcome_eq_saturated Path.fulfilled_addAll h
  have hfinished := (hfulfilled.naming (Signed.individualsOf seed)).finished hpending
  refine ⟨_, _, fun s hs => hfinished.holdsAt_reading (hfulfilled.seed hs) (hseed s hs) ?_⟩
  intro c hc
  exact List.mem_append_right _ (List.mem_flatMap.2 ⟨s, hs, hc⟩)

/-- "Some `S` are `P`, `c7` lacks `P`, `c7` is `P`" closes and introduces `c1` only. "All `A` are
`B`, `c1` is `A`, `c1` is `B`" leaves branch 0 open, and has been applied to `c1`. -/
theorem run_naming_both :
    ∃ refuted satisfied : List Signed,
      refuted = [.formula true (.particular (.atom "S") (.atom "P")),
        .predication true 7 (.privation (.atom "P")), .predication true 7 (.atom "P")] ∧
      satisfied = [.formula true (.universal (.atom "A") (.atom "B")),
        .predication true 1 (.atom "A"), .predication true 1 (.atom "B")] ∧
      ((ofSeed refuted none).run 50).outcome = .closed ∧
      (∀ (I : Interpretation.{0}) (member : Individual → Option I.Domain),
        ¬ ∀ s ∈ refuted, s.HoldsAt I member) ∧
      ((ofSeed satisfied none).run 50).outcome = .saturated 0 ∧
      ∃ (I : Interpretation.{0}) (member : Individual → Option I.Domain),
        ∀ s ∈ satisfied, s.HoldsAt I member := by
  have hrefuted : ((ofSeed [.formula true (.particular (.atom "S") (.atom "P")),
      .predication true 7 (.privation (.atom "P")), .predication true 7 (.atom "P")]
      none).run 50).outcome = .closed := by decide +kernel
  have hsatisfied : ((ofSeed [.formula true (.universal (.atom "A") (.atom "B")),
      .predication true 1 (.atom "A"), .predication true 1 (.atom "B")] none).run 50).outcome =
      .saturated 0 := by decide +kernel
  refine ⟨_, _, rfl, rfl, hrefuted, (run_naming _ (by simp) 50 none).1 hrefuted ?_, hsatisfied,
    (run_naming.{0} _ (by simp) 50 none).2 0 hsatisfied ?_⟩
  · decide +kernel
  · decide +kernel

end Tableau

/-! ### Where named individuals are overlooked

Neither condition can be left out. Two runs show what becomes of the verdicts without them. -/

/-- Whether a member of a domain falls under a term, if it is known for the names and nothing lacks
anything. -/
def Term.Covers {D : Type u} (covers : String → D → Prop) (d : D) : Term → Prop
  | atom name => covers name d
  | complement t => ¬ t.Covers covers d
  | privation _ => False

/-- An interpretation by what falls under the names. -/
def Interpretation.ofNames {D : Type u} (covers : String → D → Prop) : Interpretation.{u} where
  Domain := D
  isTrue _ := False
  extension t d := t.Covers covers d
  complement_iff _ _ := Iff.rfl
  privation_disjoint _ _ := False.elim

/-- "`c1` is `A`, and not all `B` are `A`" can be true, but the `B` that is introduced is taken for
`c1`, and the run closes. "All `A` are `B`, `c1` is `A`, `c1` is not `B`" cannot be true, but the
first is not applied to `c1`, and branch 0 is left open at once. -/
theorem Tableau.run_naming_misjudges :
    (∃ seed : List Signed,
      seed = [.predication true 1 (.atom "A"),
        .formula false (.universal (.atom "B") (.atom "A"))] ∧
      (∀ s ∈ seed, s.Built) ∧ ((ofSeed seed none).run 50).outcome = .closed ∧
      ∃ (I : Interpretation.{0}) (member : Individual → Option I.Domain),
        ∀ s ∈ seed, s.HoldsAt I member) ∧
    (∃ seed : List Signed,
      seed = [.formula true (.universal (.atom "A") (.atom "B")),
        .predication true 1 (.atom "A"), .predication false 1 (.atom "B")] ∧
      (∀ s ∈ seed, s.Built) ∧ ((ofSeed seed none).run 50).outcome = .saturated 0 ∧
      ∀ (I : Interpretation.{0}) (member : Individual → Option I.Domain),
        ¬ ∀ s ∈ seed, s.HoldsAt I member) := by
  refine ⟨⟨_, rfl, by simp, by decide +kernel, ?_⟩, ⟨_, rfl, by simp, by decide +kernel, ?_⟩⟩
  · -- `A` covers `true` only and `B` covers `false` only
    refine ⟨.ofNames fun name d => if name = "A" then d = true else d = false,
      fun _ => some true, ?_⟩
    simp only [List.mem_cons, List.not_mem_nil, or_false, forall_eq_or_imp, forall_eq]
    refine ⟨⟨true, rfl, rfl⟩, fun hall => ?_⟩
    exact Bool.false_ne_true (hall false rfl)
  · intro I member hall
    simp only [List.mem_cons, List.not_mem_nil, or_false, forall_eq_or_imp, forall_eq] at hall
    obtain ⟨huniversal, ⟨d, hd, hA⟩, d', hd', hB⟩ := hall
    obtain rfl : d = d' := Option.some.inj (hd.symm.trans hd')
    exact hB (huniversal d hA)

end TermLogic
