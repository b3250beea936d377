import TermLogic.Semantics
import TermLogic.Argument
import TermLogic.Proofs.Tableau.Sharing

/-!
# Saturated branches are countermodels

If a run ends with a saturated branch, its path can be read as an interpretation in which the
premises are true and the conclusion is not.

* `Path.Falls`, `Path.reading`: which individuals fall under a term, read off the claims of a path,
  and the interpretation this makes. It is one if the path is `Path.Legal`.
* `Path.Carries`, `Path.Finished`: a path that has what a rule yields, and a path that has what each
  of its obligations asks for.
* `Path.Finished.holds_reading_universal` and so on: the truth of categorical formulas on a finished
  path, from the individuals on it.
* `Path.Finished.holds_reading`: on a finished path, a formula is true if it is asserted and not
  true if it is denied.
* `Path.Fulfilled`: what every step keeps, and what makes a saturated path a finished one.
* `countermodel_of_outcome_eq_saturated`: the countermodel of an argument.
-/

namespace TermLogic

namespace Path

/-! ### Reading a path

A path says something of some individuals and some terms only. The rest is filled in by the least
that is possible: nothing falls under a name or a privation unless it is asserted. -/

/-- Whether an individual falls under a term: a name or a privation has to be asserted of it, and
under a complement falls what does not fall under the term. -/
def Falls (path : Path) (c : Individual) : Term → Prop
  | .atom name => Signed.mk true (.predication c (.atom name)) ∈ path.claims
  | .privation t => Signed.mk true (.predication c (.privation t)) ∈ path.claims
  | .complement t => ¬ path.Falls c t

/-- No individual of the path falls under a term and under its privation. -/
def Legal (path : Path) : Prop :=
  ∀ t, ∀ c ∈ path.individuals, path.Falls c t.privation → ¬ path.Falls c t

/-- The interpretation that is read off a path: it speaks of the individuals of the path, and a term
is true as a proposition if it is asserted. -/
def reading (path : Path) (legal : path.Legal) : Interpretation where
  Domain := { c : Individual // c ∈ path.individuals }
  isTrue t := Signed.formula true (.atom t) ∈ path.claims
  extension t c := path.Falls c t
  complement_iff _ _ := Iff.rfl
  privation_disjoint t c := legal t c c.2

/-- A term says of an individual what is left of it without its leading complements says, or the
contrary if their number is odd. -/
theorem falls_iff_base (path : Path) (c : Individual) (t : Term) :
    path.Falls c t ↔ if t.isDenied then ¬ path.Falls c t.base else path.Falls c t.base := by
  induction t with
  | atom name => exact Iff.rfl
  | privation t ih => exact Iff.rfl
  | complement t ih =>
      rw [Term.base_complement, Term.isDenied_complement]
      show ¬ path.Falls c t ↔ _
      rw [ih]
      by_cases hdenied : t.isDenied = true <;> simp [hdenied]

/-- Without leading complements, an individual falls under a term if this is asserted. -/
theorem falls_base_iff (path : Path) (c : Individual) (t : Term) :
    path.Falls c t.base ↔ Signed.mk true (.predication c t.base) ∈ path.claims := by
  induction t with
  | atom name => exact Iff.rfl
  | privation t ih => exact Iff.rfl
  | complement t ih => exact ih

/-- On a consistent path, an individual falls under a term if this is asserted and outside it if it
is denied. -/
theorem Consistent.falls_iff {path : Path} (h : path.Consistent) {sign : Bool} {c : Individual}
    {t : Term} (ht : Signed.predication sign c t ∈ path.claims) :
    path.Falls c t ↔ sign = true := by
  have hbase : path.Falls c t.base ↔ (sign ^^ t.isDenied) = true := by
    rw [falls_base_iff]
    constructor
    · intro hasserted
      apply Classical.byContradiction
      intro hsign
      rw [Bool.not_eq_true] at hsign
      rw [Signed.predication, hsign] at ht
      exact h _ hasserted ht
    · intro hsign
      rw [Signed.predication, hsign] at ht
      exact ht
  rw [falls_iff_base, hbase]
  cases sign <;> cases t.isDenied <;> simp

/-- What is asserted to fall under a term falls under it. -/
theorem Consistent.falls {path : Path} (h : path.Consistent) {c : Individual} {t : Term}
    (ht : .predication true c t ∈ path.claims) : path.Falls c t :=
  (h.falls_iff ht).2 rfl

/-- What is denied to fall under a term does not fall under it. -/
theorem Consistent.not_falls {path : Path} (h : path.Consistent) {c : Individual} {t : Term}
    (ht : .predication false c t ∈ path.claims) : ¬ path.Falls c t := by
  intro hfalls
  exact absurd ((h.falls_iff ht).1 hfalls) Bool.false_ne_true

/-! ### Finished paths

On a finished path every claim has been met, so its truth follows from that of its parts, by
induction on the formula. Categorical sentences are where the individuals come in: one that speaks
of all has been applied to all that are on the path, and these are all there are in the reading. -/

/-- The claims of one alternative of a rule are on the path, and the individuals that the rule
introduces are among its individuals. -/
def Carries (path : Path) (rule : Rule) : Prop :=
  ∃ fresh, (∃ alternative ∈ rule.alternatives fresh, alternative ⊆ path.claims) ∧
    rule.newcomers fresh ⊆ path.individuals

/-- A path that carries a rule that adds claims has all of them. -/
theorem carries_linear {path : Path} {produced : List Signed} :
    path.Carries (.linear produced) ↔ produced ⊆ path.claims := by
  simp [Carries, Rule.alternatives, Rule.newcomers]

/-- A path that carries a fork has all claims of one side. -/
theorem carries_split {path : Path} {left right : List Signed} :
    path.Carries (.split left right) ↔ left ⊆ path.claims ∨ right ⊆ path.claims := by
  simp [Carries, Rule.alternatives, Rule.newcomers]

/-- A path that carries a rule that introduces an individual has somebody of whom all is said that
the rule says. -/
theorem carries_witness {path : Path} {terms : List (Term × Bool)} :
    path.Carries (.witness terms) ↔
      ∃ c ∈ path.individuals, ∀ entry ∈ terms, .predication entry.2 c entry.1 ∈ path.claims := by
  constructor
  · rintro ⟨c, ⟨alternative, hmem, hsub⟩, hnew⟩
    rw [List.mem_singleton.1 hmem] at hsub
    refine ⟨c, hnew List.mem_cons_self, ?_⟩
    intro entry hentry
    exact hsub (List.mem_map_of_mem hentry)
  · rintro ⟨c, hc, hterms⟩
    refine ⟨c, ⟨_, List.mem_cons_self, ?_⟩, by simpa [Rule.newcomers] using hc⟩
    intro s hs
    obtain ⟨entry, hentry, rfl⟩ := List.mem_map.1 hs
    exact hterms entry hentry

/-- A consistent path that has, for each of its obligations, what a rule for it yields, or else
calls for no rule. -/
structure Finished (path : Path) : Prop where
  /-- No claim is there with both signs. -/
  consistent : path.Consistent
  /-- Each obligation has been met. -/
  meets : ∀ o ∈ path.obligations,
    (∃ holds rule, o.rule? holds = some rule ∧ path.Carries rule) ∨ o.rule? path.holds = none

/-- What a claim of a finished path calls for has been met at its place. -/
theorem Finished.meets_of_calls {path : Path} (h : path.Finished) {s : Signed}
    {individual : Option Individual} (hs : s ∈ path.claims)
    (hcalls : s.Calls path.individuals individual) :
    ∃ place, (∃ holds rule, Obligation.rule? holds ⟨⟨place, individual⟩, s⟩ = some rule ∧
        path.Carries rule) ∨
      Obligation.rule? path.holds ⟨⟨place, individual⟩, s⟩ = none := by
  obtain ⟨place, hplace⟩ := List.mem_iff_getElem?.1 hs
  exact ⟨place, h.meets ⟨⟨place, individual⟩, s⟩ (mem_obligations_iff.2 ⟨hplace, hcalls⟩)⟩

end Path

/-- A formula that is expanded once is neither general nor a literal. -/
theorem Rule.calls_of_ofFormula? {sign : Bool} {f : Formula} {rule : Rule}
    (h : Rule.ofFormula? sign f = some rule) (individuals : List Individual) :
    (Signed.formula sign f).Calls individuals none := by
  cases f <;> cases sign <;>
    simp_all [Rule.ofFormula?, Signed.Calls, Signed.isGeneral, Signed.isLiteral, Signed.formula]

/-- A path that carries one of two claims as its rule asks for has one of them. -/
theorem Rule.mem_or_mem_of_either {path : Path} {holds : Signed → Bool} {first second : Signed}
    {rule : Rule} (hrule : Rule.either holds first second = some rule)
    (h : path.Carries rule) : first ∈ path.claims ∨ second ∈ path.claims := by
  rcases Rule.either_eq_some hrule with ⟨-, rfl⟩ | ⟨-, rfl⟩ | rfl
  · rw [Path.carries_linear] at h
    exact .inr (h List.mem_cons_self)
  · rw [Path.carries_linear] at h
    exact .inl (h List.mem_cons_self)
  · rw [Path.carries_split] at h
    exact h.imp (fun hleft => hleft List.mem_cons_self) fun hright => hright List.mem_cons_self

/-- A path on which one of two claims is to be looked for, but no rule is called for, has one of
them. -/
theorem Rule.mem_or_mem_of_either_eq_none {path : Path} {first second : Signed}
    (h : Rule.either path.holds first second = none) :
    first ∈ path.claims ∨ second ∈ path.claims := by
  unfold Rule.either at h
  split at h
  · next hholds => simpa using hholds
  · split at h
    · cases h
    · split at h <;> cases h

namespace Path.Finished

variable {path : Path}

/-- A formula that is expanded once has its rule carried out. -/
theorem carries (h : path.Finished) {sign : Bool} {f : Formula} {rule : Rule}
    (hf : .formula sign f ∈ path.claims) (hrule : Rule.ofFormula? sign f = some rule) :
    path.Carries rule := by
  obtain ⟨place, ⟨holds, rule', hrule', hcarries⟩ | hnone⟩ :=
    h.meets_of_calls hf (Rule.calls_of_ofFormula? hrule path.individuals)
  · have hsame : Rule.ofFormula? sign f = some rule' := hrule'
    rw [hrule, Option.some.injEq] at hsame
    exact hsame ▸ hcarries
  · have hnone' : Rule.ofFormula? sign f = none := hnone
    rw [hrule] at hnone'
    cases hnone'

/-- A formula that speaks of every individual has been applied to each one of the path, or asks for
nothing more there. -/
theorem instance_cases (h : path.Finished) {sign : Bool} {f : Formula} {c : Individual}
    (hf : .formula sign f ∈ path.claims) (hgeneral : (Signed.formula sign f).isGeneral = true)
    (hc : c ∈ path.individuals) :
    (∃ holds rule, Rule.ofInstance? holds c f = some rule ∧ path.Carries rule) ∨
      Rule.ofInstance? path.holds c f = none := by
  have hcalls : (Signed.formula sign f).Calls path.individuals (some c) := ⟨hgeneral, hc⟩
  obtain ⟨place, hmet⟩ := h.meets_of_calls hf hcalls
  exact hmet

/-- Under an asserted universal, every individual is outside the subject or has the predicate. -/
theorem universal (h : path.Finished) {s p : Term} {c : Individual}
    (hf : .formula true (.universal s p) ∈ path.claims) (hc : c ∈ path.individuals) :
    .predication false c s ∈ path.claims ∨ .predication true c p ∈ path.claims := by
  rcases h.instance_cases hf rfl hc with ⟨holds, rule, hrule, hcarries⟩ | hnone
  · exact Rule.mem_or_mem_of_either hrule hcarries
  · exact Rule.mem_or_mem_of_either_eq_none hnone

/-- Under a denied particular, every individual is outside one of its terms. -/
theorem particular (h : path.Finished) {s p : Term} {c : Individual}
    (hf : .formula false (.particular s p) ∈ path.claims) (hc : c ∈ path.individuals) :
    .predication false c s ∈ path.claims ∨ .predication false c p ∈ path.claims := by
  rcases h.instance_cases hf rfl hc with ⟨holds, rule, hrule, hcarries⟩ | hnone
  · exact Rule.mem_or_mem_of_either hrule hcarries
  · exact Rule.mem_or_mem_of_either_eq_none hnone

/-- Under a denied existential, every individual is outside its term. -/
theorem existential (h : path.Finished) {t : Term} {c : Individual}
    (hf : .formula false (.existential t) ∈ path.claims) (hc : c ∈ path.individuals) :
    .predication false c t ∈ path.claims := by
  rcases h.instance_cases hf rfl hc with ⟨holds, rule, hrule, hcarries⟩ | hnone
  · simp only [Rule.ofInstance?] at hrule
    split at hrule
    · cases hrule
    · cases hrule
      rw [carries_linear] at hcarries
      exact hcarries List.mem_cons_self
  · simp only [Rule.ofInstance?] at hnone
    split at hnone
    · next hholds => exact (path.holds_iff _).1 hholds
    · cases hnone

/-- What has the privation of a term is outside the term. -/
theorem privation (h : path.Finished) {t : Term} {c : Individual}
    (hc : Signed.mk true (.predication c (.privation t)) ∈ path.claims) :
    .predication false c t ∈ path.claims := by
  have hcalls : Signed.Calls path.individuals ⟨true, .predication c (.privation t)⟩ none :=
    ⟨rfl, rfl⟩
  obtain ⟨place, ⟨holds, rule, hrule, hcarries⟩ | hnone⟩ := h.meets_of_calls hc hcalls
  · cases hrule
    rw [carries_linear] at hcarries
    exact hcarries List.mem_cons_self
  · cases hnone

/-- No individual of a finished path falls under a term and under its privation. -/
theorem legal (h : path.Finished) : path.Legal := by
  intro t c hc hpriv
  exact h.consistent.not_falls (h.privation hpriv)

/-- A term that stands as a formula is true if it is asserted, and only then. -/
theorem holds_reading_atom (h : path.Finished) {t : Term} {sign : Bool}
    (hf : .formula sign (.atom t) ∈ path.claims) :
    (Formula.atom t).Holds (path.reading h.legal) ↔ sign = true := by
  show Signed.formula true (.atom t) ∈ path.claims ↔ sign = true
  constructor
  · intro hasserted
    apply Classical.byContradiction
    intro hsign
    rw [Bool.not_eq_true] at hsign
    rw [hsign] at hf
    exact h.consistent _ hasserted hf
  · intro hsign
    exact hsign ▸ hf

/-- The individual that a denied universal introduces is an exception to it. -/
theorem holds_reading_universal (h : path.Finished) {s p : Term} {sign : Bool}
    (hf : .formula sign (.universal s p) ∈ path.claims) :
    (Formula.universal s p).Holds (path.reading h.legal) ↔ sign = true := by
  cases sign with
  | true =>
      refine iff_of_true ?_ rfl
      rintro ⟨c, hc⟩ hs
      rcases h.universal hf hc with hdenied | hasserted
      · exact absurd hs (h.consistent.not_falls hdenied)
      · exact h.consistent.falls hasserted
  | false =>
      obtain ⟨c, hc, hs, hp⟩ : ∃ c ∈ path.individuals, .predication true c s ∈ path.claims ∧
          .predication false c p ∈ path.claims := by
        simpa [carries_witness] using h.carries hf rfl
      refine iff_of_false ?_ Bool.false_ne_true
      intro hall
      have hfalls : path.Falls c p := hall ⟨c, hc⟩ (h.consistent.falls hs)
      exact absurd hfalls (h.consistent.not_falls hp)

/-- The individual that an asserted particular introduces is an instance of it. -/
theorem holds_reading_particular (h : path.Finished) {s p : Term} {sign : Bool}
    (hf : .formula sign (.particular s p) ∈ path.claims) :
    (Formula.particular s p).Holds (path.reading h.legal) ↔ sign = true := by
  cases sign with
  | true =>
      obtain ⟨c, hc, hs, hp⟩ : ∃ c ∈ path.individuals, .predication true c s ∈ path.claims ∧
          .predication true c p ∈ path.claims := by
        simpa [carries_witness] using h.carries hf rfl
      refine iff_of_true ⟨⟨c, hc⟩, ?_, ?_⟩ rfl
      · exact h.consistent.falls hs
      · exact h.consistent.falls hp
  | false =>
      refine iff_of_false ?_ Bool.false_ne_true
      rintro ⟨⟨c, hc⟩, hs, hp⟩
      rcases h.particular hf hc with hdenied | hdenied
      · exact absurd hs (h.consistent.not_falls hdenied)
      · exact absurd hp (h.consistent.not_falls hdenied)

/-- The individual that an asserted existential introduces is what there is. -/
theorem holds_reading_existential (h : path.Finished) {t : Term} {sign : Bool}
    (hf : .formula sign (.existential t) ∈ path.claims) :
    (Formula.existential t).Holds (path.reading h.legal) ↔ sign = true := by
  cases sign with
  | true =>
      obtain ⟨c, hc, ht⟩ : ∃ c ∈ path.individuals, .predication true c t ∈ path.claims := by
        simpa [carries_witness] using h.carries hf rfl
      exact iff_of_true ⟨⟨c, hc⟩, h.consistent.falls ht⟩ rfl
  | false =>
      refine iff_of_false ?_ Bool.false_ne_true
      rintro ⟨⟨c, hc⟩, ht⟩
      exact absurd ht (h.consistent.not_falls (h.existential hf hc))

/-- **Truth on a finished path.** In the reading of the path, a formula that is asserted on it is
true, and one that is denied is not. -/
theorem holds_reading (h : path.Finished) (f : Formula) {sign : Bool}
    (hf : .formula sign f ∈ path.claims) : f.Holds (path.reading h.legal) ↔ sign = true := by
  induction f generalizing sign with
  | atom t => exact h.holds_reading_atom hf
  | negation f ih =>
      have hinner : .formula (!sign) f ∈ path.claims := by
        simpa [carries_linear] using h.carries hf rfl
      simp only [Formula.Holds, ih hinner]
      cases sign <;> simp
  | conjunction f g ihf ihg =>
      cases sign with
      | true =>
          have hboth : .formula true f ∈ path.claims ∧ .formula true g ∈ path.claims := by
            simpa [carries_linear] using h.carries hf rfl
          simp [Formula.Holds, ihf hboth.1, ihg hboth.2]
      | false =>
          have hone : .formula false f ∈ path.claims ∨ .formula false g ∈ path.claims := by
            simpa [carries_split] using h.carries hf rfl
          rcases hone with hleft | hright
          · simp [Formula.Holds, ihf hleft]
          · simp [Formula.Holds, ihg hright]
  | disjunction f g ihf ihg =>
      cases sign with
      | true =>
          have hone : .formula true f ∈ path.claims ∨ .formula true g ∈ path.claims := by
            simpa [carries_split] using h.carries hf rfl
          rcases hone with hleft | hright
          · simp [Formula.Holds, ihf hleft]
          · simp [Formula.Holds, ihg hright]
      | false =>
          have hboth : .formula false f ∈ path.claims ∧ .formula false g ∈ path.claims := by
            simpa [carries_linear] using h.carries hf rfl
          simp [Formula.Holds, ihf hboth.1, ihg hboth.2]
  | conditional f g ihf ihg =>
      cases sign with
      | true =>
          have hone : .formula false f ∈ path.claims ∨ .formula true g ∈ path.claims := by
            simpa [carries_split] using h.carries hf rfl
          rcases hone with hleft | hright
          · simp [Formula.Holds, ihf hleft]
          · simp [Formula.Holds, ihg hright]
      | false =>
          have hboth : .formula true f ∈ path.claims ∧ .formula false g ∈ path.claims := by
            simpa [carries_linear] using h.carries hf rfl
          simp [Formula.Holds, ihf hboth.1, ihg hboth.2]
  | biconditional f g ihf ihg =>
      have hone : .formula true f ∈ path.claims ∧ .formula sign g ∈ path.claims ∨
          .formula false f ∈ path.claims ∧ .formula (!sign) g ∈ path.claims := by
        simpa [carries_split] using h.carries hf rfl
      rcases hone with ⟨hleft, hright⟩ | ⟨hleft, hright⟩
      · simp [Formula.Holds, ihf hleft, ihg hright]
      · cases sign <;> simp [Formula.Holds, ihf hleft, ihg hright]
  | universal s p => exact h.holds_reading_universal hf
  | particular s p => exact h.holds_reading_particular hf
  | existential t => exact h.holds_reading_existential hf

end Path.Finished

/-! ### Runs

A path comes to be finished step by step. What has been expanded is carried from then on, as claims
are never taken back; and when nothing is pending, all has been expanded or was satisfied. -/

namespace Path

/-- What a run keeps true of its active paths: they are consistent, have all claims the run starts
from, and carry what was expanded on them. -/
structure Fulfilled (seed : List Signed) (path : Path) : Prop where
  /-- No claim is there with both signs. -/
  consistent : path.Consistent
  /-- The claims the run starts from are there. -/
  seed : seed ⊆ path.claims
  /-- What a slot was expanded to is there. -/
  expanded : ∀ slot ∈ path.expanded, ∃ s holds rule, path.claims[slot.place]? = some s ∧
    Obligation.rule? holds ⟨slot, s⟩ = some rule ∧ path.Carries rule

/-- What a path carries, the paths that follow it carry. -/
theorem Follows.carries {path later : Path} {fresh : Individual} {o : Obligation}
    {rule other : Rule} (h : path.Follows fresh o rule later) (hother : path.Carries other) :
    later.Carries other := by
  obtain ⟨c, ⟨alternative, hmem, hsub⟩, hnew⟩ := hother
  refine ⟨c, ⟨alternative, hmem, fun s hs => h.mem_claims (hsub hs)⟩, ?_⟩
  intro d hd
  rw [h.individuals_eq]
  exact List.mem_append_left _ (hnew hd)

/-- A path that follows another carries the rule that led to it. -/
theorem Follows.carries_self {path later : Path} {fresh : Individual} {o : Obligation}
    {rule : Rule} (h : path.Follows fresh o rule later) : later.Carries rule := by
  obtain ⟨alternative, hmem, added, -, -, hsub⟩ := h.claims_eq
  refine ⟨fresh, ⟨alternative, hmem, hsub⟩, ?_⟩
  rw [h.individuals_eq]
  exact List.subset_append_right _ _

/-- Every step keeps a path fulfilled. -/
theorem pathInvariant_fulfilled (seed : List Signed) :
    PathInvariant fun _ _ path => path.Fulfilled seed where
  mono _ h := h
  step := by
    intro round n path later o rule h hpending hfollows
    obtain ⟨ho, -, hrule⟩ := of_pending_eq_some hpending
    refine ⟨hfollows.consistent h.consistent, fun s hs => hfollows.mem_claims (h.seed hs), ?_⟩
    intro slot hslot
    rw [hfollows.expanded_eq, List.mem_append, List.mem_singleton] at hslot
    rcases hslot with hold | rfl
    · obtain ⟨s, holds, rule', hget, hrule', hcarries⟩ := h.expanded slot hold
      exact ⟨s, holds, rule', hfollows.getElem?_claims hget, hrule', hfollows.carries hcarries⟩
    · obtain ⟨hget, -⟩ := mem_obligations_iff.1 ho
      exact ⟨o.claim, path.holds, rule, hfollows.getElem?_claims hget, hrule, hfollows.carries_self⟩

/-- The root of a run, unless it closes at once, is fulfilled. -/
theorem fulfilled_addAll {seed : List Signed}
    (h : (Path.addAll ⟨[], [], []⟩ seed).state = .active) :
    (Path.addAll ⟨[], [], []⟩ seed).path.Fulfilled seed where
  consistent := Consistent.addAll (fun s hs => absurd hs List.not_mem_nil) h
  seed := subset_claims_addAll h
  expanded slot hslot := by simp at hslot

/-- A fulfilled path on which nothing is pending is finished: an obligation was met by its
expansion, or calls for no rule. -/
theorem Fulfilled.finished {seed : List Signed} {path : Path} (h : path.Fulfilled seed)
    (hpending : path.pending = none) : path.Finished where
  consistent := h.consistent
  meets := by
    intro o ho
    rcases of_pending_eq_none hpending ho with hexpanded | hnone
    · left
      obtain ⟨s, holds, rule, hget, hrule, hcarries⟩ := h.expanded o.toSlot hexpanded
      obtain ⟨hclaim, -⟩ := mem_obligations_iff.1 ho
      obtain rfl : o.claim = s := Option.some.inj (hclaim.symm.trans hget)
      exact ⟨holds, rule, hrule, hcarries⟩
    · exact .inr hnone

end Path

/-- The path of a saturated branch is finished and has all claims the run starts from. -/
theorem finished_of_outcome_eq_saturated {seed : List Signed} {trace : Option Trace} {bound : Nat}
    {b : BranchId} (h : ((Tableau.ofSeed seed trace).run bound).outcome = .saturated b) :
    (((Tableau.ofSeed seed trace).run bound).tableau.path b).Finished ∧
      seed ⊆ (((Tableau.ofSeed seed trace).run bound).tableau.path b).claims := by
  obtain ⟨hpending, k, n, hfulfilled⟩ :=
    (Path.pathInvariant_fulfilled seed).of_outcome_eq_saturated Path.fulfilled_addAll h
  exact ⟨hfulfilled.finished hpending, hfulfilled.seed⟩

/-- **Countermodels.** If a run ends with a saturated branch, the path of the branch is legal, and
its reading makes all premises true and the conclusion not true. -/
theorem countermodel_of_outcome_eq_saturated (config : Config) (argument : Argument)
    (trace : Option Trace) (b : BranchId) (h : (argument.run config trace).outcome = .saturated b) :
    ∃ legal : ((argument.run config trace).tableau.path b).Legal,
      (∀ f ∈ argument.premises,
        f.Holds (((argument.run config trace).tableau.path b).reading legal)) ∧
      ¬ argument.conclusion.Holds (((argument.run config trace).tableau.path b).reading legal) := by
  obtain ⟨hfinished, hseed⟩ := finished_of_outcome_eq_saturated h
  refine ⟨hfinished.legal, ?_, ?_⟩
  · intro f hf
    have hclaim : Signed.formula true f ∈ argument.seed :=
      List.mem_append_left _ (List.mem_map_of_mem hf)
    exact (hfinished.holds_reading f (hseed hclaim)).2 rfl
  · intro hconclusion
    have hclaim : Signed.formula false argument.conclusion ∈ argument.seed :=
      List.mem_append_right _ List.mem_cons_self
    exact absurd ((hfinished.holds_reading _ (hseed hclaim)).1 hconclusion) Bool.false_ne_true

/-- The argument "all `M` are `P`, some `S` are `M`, so all `S` lack `P`" has a countermodel on its
branch 1. -/
theorem countermodel_of_privation :
    ∃ argument : Argument, argument = ⟨[.universal (.atom "M") (.atom "P"),
        .particular (.atom "S") (.atom "M")], .universal (.atom "S") (.privation (.atom "P"))⟩ ∧
      (argument.run .standard none).outcome = .saturated 1 ∧
      ∃ legal : ((argument.run .standard none).tableau.path 1).Legal,
        (∀ f ∈ argument.premises,
          f.Holds (((argument.run .standard none).tableau.path 1).reading legal)) ∧
        ¬ argument.conclusion.Holds
          (((argument.run .standard none).tableau.path 1).reading legal) :=
  ⟨_, rfl, by decide +kernel,
    countermodel_of_outcome_eq_saturated .standard _ none 1 (by decide +kernel)⟩

end TermLogic
