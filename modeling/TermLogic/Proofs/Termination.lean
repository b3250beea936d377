import TermLogic.Argument
import TermLogic.Proofs.Tableau.Sharing

/-!
# Runs come to an end

A run that may take enough rounds is never cut off by its bound. In every round each active branch
expands one obligation, and there are only so many claims to expand on one path: the formulas are
nodes of the premises and the conclusion, the predications are about terms inside them, and
individuals come only from categorical sentences.

* `Formula.nodes`, `Term.nodes`: all formulas and terms inside a formula or a term.
* `Argument.connectives`, `Argument.categoricals`, `Argument.privations`: how many nodes of each
  sort an argument has.
* `Signed.Within`: the claims that can come up in the run of an argument. Every rule stays within
  them (`Obligation.within_of_rule?`).
* `Argument.agenda`: all that can be expanded on a path with the given individuals.
* `Argument.Ledger`: what every step keeps: the expansions so far are on the agenda, no two of them
  are the same, and each individual has come of one of them.
* `outcome_of_bound_lt`: the bound on rounds that is enough.
-/

namespace TermLogic

/-! ### Nodes

The nodes of a formula are listed as often as they occur in it. Counting those of one sort thus
counts places in the text of the argument, and is at least the number of different ones. -/

/-- The nodes of a term: the term itself and those of what is inside. -/
def Term.nodes : Term → List Term
  | atom name => [atom name]
  | complement inner => complement inner :: inner.nodes
  | privation inner => privation inner :: inner.nodes

/-- Whether a term is a privation. -/
def Term.isPrivation : Term → Bool
  | privation _ => true
  | atom _ | complement _ => false

/-- The nodes of a formula: the formula itself and those of what it is made of. -/
def Formula.nodes : Formula → List Formula
  | atom t => [atom t]
  | universal s p => [universal s p]
  | particular s p => [particular s p]
  | existential t => [existential t]
  | negation f => negation f :: f.nodes
  | conjunction f g => conjunction f g :: (f.nodes ++ g.nodes)
  | disjunction f g => disjunction f g :: (f.nodes ++ g.nodes)
  | conditional f g => conditional f g :: (f.nodes ++ g.nodes)
  | biconditional f g => biconditional f g :: (f.nodes ++ g.nodes)

/-- Whether a formula is made by a connective. -/
def Formula.isConnective : Formula → Bool
  | negation _ | conjunction _ _ | disjunction _ _ | conditional _ _ | biconditional _ _ => true
  | atom _ | universal _ _ | particular _ _ | existential _ => false

/-- Whether a formula is a categorical sentence. -/
def Formula.isCategorical : Formula → Bool
  | universal _ _ | particular _ _ | existential _ => true
  | _ => false

/-- The terms of a categorical sentence. -/
def Formula.terms : Formula → List Term
  | universal s p | particular s p => [s, p]
  | existential t => [t]
  | _ => []

/-- The sign with which a categorical sentence asks for an individual; with the other one it speaks
of all of them. -/
def Formula.opens : Formula → Bool
  | universal _ _ => false
  | _ => true

/-- A term is one of its own nodes. -/
theorem Term.mem_nodes_self (t : Term) : t ∈ t.nodes := by
  cases t <;> exact List.mem_cons_self

/-- What is inside a node of a term is inside the term. -/
theorem Term.nodes_subset {t u : Term} (h : t ∈ u.nodes) : t.nodes ⊆ u.nodes := by
  induction u with
  | atom name =>
      rw [List.mem_singleton.1 h]
      exact List.Subset.refl _
  | complement u ih | privation u ih =>
      rcases List.mem_cons.1 h with rfl | hinner
      · exact List.Subset.refl _
      · exact List.subset_cons_of_subset _ (ih hinner)

/-- Without its leading complements, a term is a node of itself. -/
theorem Term.base_mem_nodes (t : Term) : t.base ∈ t.nodes := by
  induction t with
  | atom name => exact List.mem_cons_self
  | complement t ih => exact List.mem_cons_of_mem _ ih
  | privation t ih => exact List.mem_cons_self

/-- A formula is one of its own nodes. -/
theorem Formula.mem_nodes_self (f : Formula) : f ∈ f.nodes := by
  cases f <;> exact List.mem_cons_self

/-- What is inside a node of a formula is inside the formula. -/
theorem Formula.nodes_subset {f g : Formula} (h : f ∈ g.nodes) : f.nodes ⊆ g.nodes := by
  induction g with
  | atom | universal | particular | existential =>
      rw [List.mem_singleton.1 h]
      exact List.Subset.refl _
  | negation g ih =>
      rcases List.mem_cons.1 h with rfl | hinner
      · exact List.Subset.refl _
      · exact List.subset_cons_of_subset _ (ih hinner)
  | conjunction g g' ih ih' | disjunction g g' ih ih' | conditional g g' ih ih'
  | biconditional g g' ih ih' =>
      rcases List.mem_cons.1 h with rfl | hinner
      · exact List.Subset.refl _
      · refine List.subset_cons_of_subset _ ?_
        rcases List.mem_append.1 hinner with hleft | hright
        · exact List.subset_append_of_subset_left _ (ih hleft)
        · exact List.subset_append_of_subset_right _ (ih' hright)

namespace Argument

/-- The nodes of the premises and the conclusion. -/
def nodes (argument : Argument) : List Formula :=
  (argument.premises ++ [argument.conclusion]).flatMap Formula.nodes

/-- The nodes of the terms in categorical sentences. -/
def termNodes (argument : Argument) : List Term :=
  (argument.nodes.flatMap Formula.terms).flatMap Term.nodes

/-- The number of connectives in an argument. -/
def connectives (argument : Argument) : Nat :=
  argument.nodes.countP Formula.isConnective

/-- The number of categorical sentences in an argument. -/
def categoricals (argument : Argument) : Nat :=
  argument.nodes.countP Formula.isCategorical

/-- The number of privations in the terms of categorical sentences of an argument. -/
def privations (argument : Argument) : Nat :=
  argument.termNodes.countP Term.isPrivation

variable {argument : Argument}

/-- What is inside a node of an argument is a node of it. -/
theorem mem_nodes_trans {f g : Formula} (hg : g ∈ argument.nodes) (h : f ∈ g.nodes) :
    f ∈ argument.nodes := by
  obtain ⟨whole, hwhole, hmem⟩ := List.mem_flatMap.1 hg
  exact List.mem_flatMap.2 ⟨whole, hwhole, Formula.nodes_subset hmem h⟩

/-- What is inside a term node of an argument is a term node of it. -/
theorem mem_termNodes_trans {t u : Term} (hu : u ∈ argument.termNodes) (h : t ∈ u.nodes) :
    t ∈ argument.termNodes := by
  obtain ⟨whole, hwhole, hmem⟩ := List.mem_flatMap.1 hu
  exact List.mem_flatMap.2 ⟨whole, hwhole, Term.nodes_subset hmem h⟩

/-- The terms of a categorical sentence in an argument are term nodes of it. -/
theorem mem_termNodes_of_mem_terms {f : Formula} {t : Term} (hf : f ∈ argument.nodes)
    (h : t ∈ f.terms) : t ∈ argument.termNodes :=
  List.mem_flatMap.2 ⟨t, List.mem_flatMap.2 ⟨f, hf, h⟩, t.mem_nodes_self⟩

end Argument

/-! ### The claims of a run

Rules take formulas apart and put individuals under terms, and a predication loses the leading
complements of its term. None of this leads out of the nodes of the argument, so each rule has a
lemma here, for the individuals of the path and those it introduces. -/

/-- A claim that can come up in the run of an argument: a node of it, or a predication of a term
node about one of the individuals. -/
def Signed.Within (argument : Argument) (individuals : List Individual) (s : Signed) : Prop :=
  match s.claim with
  | .formula f => f ∈ argument.nodes
  | .predication c t => c ∈ individuals ∧ t ∈ argument.termNodes

section

variable {argument : Argument} {individuals : List Individual}

/-- A formula can come up in a run if it is a node of the argument, with either sign and whoever has
been introduced. -/
theorem Signed.within_formula {sign : Bool} {f : Formula} :
    (Signed.formula sign f).Within argument individuals ↔ f ∈ argument.nodes := Iff.rfl

/-- A predication is within the claims of a run, whether or not its term begins with
complements. -/
theorem Signed.within_predication {sign : Bool} {c : Individual} {t : Term}
    (hc : c ∈ individuals) (ht : t ∈ argument.termNodes) :
    (Signed.predication sign c t).Within argument individuals :=
  ⟨hc, Argument.mem_termNodes_trans ht t.base_mem_nodes⟩

/-- Further individuals leave a claim within the claims of a run. -/
theorem Signed.Within.mono {s : Signed} (h : s.Within argument individuals)
    (newcomers : List Individual) : s.Within argument (individuals ++ newcomers) := by
  obtain ⟨sign, claim⟩ := s
  cases claim with
  | formula f => exact h
  | predication c t => exact ⟨List.mem_append_left _ h.1, h.2⟩

/-- All claims of all branches that a rule makes are within the claims of a run. -/
def Rule.Within (argument : Argument) (individuals : List Individual) (fresh : Individual)
    (rule : Rule) : Prop :=
  ∀ alternative ∈ rule.alternatives fresh, ∀ s ∈ alternative,
    s.Within argument (individuals ++ rule.newcomers fresh)

/-- A rule that adds claims that are within. -/
theorem Rule.within_linear {fresh : Individual} {produced : List Signed}
    (h : ∀ s ∈ produced, s.Within argument individuals) :
    (Rule.linear produced).Within argument individuals fresh := by
  intro alternative halt s hs
  rw [List.mem_singleton.1 halt] at hs
  exact (h s hs).mono _

/-- A rule that forks into claims that are within. -/
theorem Rule.within_split {fresh : Individual} {left right : List Signed}
    (hleft : ∀ s ∈ left, s.Within argument individuals)
    (hright : ∀ s ∈ right, s.Within argument individuals) :
    (Rule.split left right).Within argument individuals fresh := by
  intro alternative halt s hs
  simp only [Rule.alternatives, List.mem_cons, List.not_mem_nil, or_false] at halt
  rcases halt with rfl | rfl
  · exact (hleft s hs).mono _
  · exact (hright s hs).mono _

/-- A rule that introduces an individual for terms of the argument. -/
theorem Rule.within_witness {fresh : Individual} {terms : List (Term × Bool)}
    (h : ∀ entry ∈ terms, entry.1 ∈ argument.termNodes) :
    (Rule.witness terms).Within argument individuals fresh := by
  intro alternative halt s hs
  rw [List.mem_singleton.1 halt] at hs
  obtain ⟨entry, hentry, rfl⟩ := List.mem_map.1 hs
  exact Signed.within_predication (List.mem_append_right _ List.mem_cons_self) (h entry hentry)

/-- The rule for a formula that is expanded once yields claims about its parts. -/
theorem Rule.within_of_ofFormula? {sign : Bool} {f : Formula} {rule : Rule} {fresh : Individual}
    (hf : f ∈ argument.nodes) (hrule : Rule.ofFormula? sign f = some rule) :
    rule.Within argument individuals fresh := by
  have hpart : ∀ g ∈ f.nodes, g ∈ argument.nodes := fun g hg => Argument.mem_nodes_trans hf hg
  have hterm : ∀ t ∈ f.terms, t ∈ argument.termNodes :=
    fun t ht => Argument.mem_termNodes_of_mem_terms hf ht
  cases f with
  | atom t => cases hrule
  | negation f =>
      have hinner : f ∈ argument.nodes := hpart f (List.mem_cons_of_mem _ f.mem_nodes_self)
      cases hrule
      exact within_linear (by simpa [Signed.within_formula] using hinner)
  | conjunction f g | disjunction f g | conditional f g | biconditional f g =>
      have hleft : f ∈ argument.nodes :=
        hpart f (List.mem_cons_of_mem _ (List.mem_append_left _ f.mem_nodes_self))
      have hright : g ∈ argument.nodes :=
        hpart g (List.mem_cons_of_mem _ (List.mem_append_right _ g.mem_nodes_self))
      cases sign <;> cases hrule
      all_goals simp [Rule.Within, Rule.alternatives, Signed.within_formula, hleft, hright]
  | universal s p | particular s p | existential t =>
      cases sign <;> cases hrule
      exact within_witness (by simpa [Formula.terms] using hterm)

/-- The rule that looks for one of two claims yields no other claims. -/
theorem Rule.within_of_either {holds : Signed → Bool} {first second : Signed} {rule : Rule}
    {fresh : Individual} (hfirst : first.Within argument individuals)
    (hsecond : second.Within argument individuals)
    (hrule : Rule.either holds first second = some rule) :
    rule.Within argument individuals fresh := by
  rcases Rule.either_eq_some hrule with ⟨-, rfl⟩ | ⟨-, rfl⟩ | rfl
  · exact within_linear (by simpa using hsecond)
  · exact within_linear (by simpa using hfirst)
  · exact within_split (by simpa using hfirst) (by simpa using hsecond)

/-- The rule for a formula that speaks of every individual yields predications of its terms. -/
theorem Rule.within_of_ofInstance? {holds : Signed → Bool} {c : Individual} {f : Formula}
    {rule : Rule} {fresh : Individual} (hf : f ∈ argument.nodes) (hc : c ∈ individuals)
    (hrule : Rule.ofInstance? holds c f = some rule) :
    rule.Within argument individuals fresh := by
  have hterm : ∀ {t : Term} (sign : Bool), t ∈ f.terms →
      (Signed.predication sign c t).Within argument individuals :=
    fun sign ht => Signed.within_predication hc (Argument.mem_termNodes_of_mem_terms hf ht)
  cases f with
  | universal s p | particular s p =>
      exact within_of_either (hterm _ List.mem_cons_self)
        (hterm _ (List.mem_cons_of_mem _ List.mem_cons_self)) hrule
  | existential t =>
      simp only [Rule.ofInstance?] at hrule
      split at hrule
      · cases hrule
      · cases hrule
        exact within_linear (by simpa using hterm false List.mem_cons_self)
  | _ => cases hrule

/-- A formula that speaks of every individual introduces none. -/
theorem Rule.ofInstance?_ne_witness (holds : Signed → Bool) (c : Individual) (f : Formula)
    (terms : List (Term × Bool)) : Rule.ofInstance? holds c f ≠ some (.witness terms) := by
  cases f <;> simp only [Rule.ofInstance?, Rule.either] <;> grind

/-- Every rule stays within the claims of the run. -/
theorem Obligation.within_of_rule? {holds : Signed → Bool} {o : Obligation} {rule : Rule}
    {fresh : Individual} (hclaim : o.claim.Within argument individuals)
    (hcalls : o.claim.Calls individuals o.individual) (hrule : o.rule? holds = some rule) :
    rule.Within argument individuals fresh := by
  rcases Obligation.rule?_eq_some hrule with
    ⟨place, sign, f, rfl, hrule⟩ | ⟨place, c, t, rfl, rfl⟩ | ⟨place, c, sign, f, rfl, hrule⟩
  · exact Rule.within_of_ofFormula? hclaim hrule
  · obtain ⟨hc, ht⟩ := hclaim
    have hinner : t ∈ argument.termNodes :=
      Argument.mem_termNodes_trans ht (List.mem_cons_of_mem _ t.mem_nodes_self)
    exact Rule.within_linear (by simpa using Signed.within_predication hc hinner)
  · exact Rule.within_of_ofInstance? hclaim hcalls.2 hrule

end

/-! ### The agenda

An expansion is given by its claim and the individual it is made for, which is `none` for a claim
that is expanded once. The agenda lists all that can come up on a path; its length is the bound on
rounds, once the individuals have been counted. -/

namespace Argument

/-- The expansions that introduce an individual: at most one for each categorical sentence. -/
def openers (argument : Argument) : List (Signed × Option Individual) :=
  (argument.nodes.filter Formula.isCategorical).map fun f => (.formula f.opens f, none)

/-- All expansions that the claims of a run can call for on a path with the given individuals: each
connective with both signs, each categorical sentence once and for every individual, and each
privation for every individual. -/
def agenda (argument : Argument) (individuals : List Individual) :
    List (Signed × Option Individual) :=
  (argument.nodes.filter Formula.isConnective).flatMap
      (fun f => [(.formula true f, none), (.formula false f, none)]) ++
    (argument.openers ++
    ((argument.nodes.filter Formula.isCategorical).flatMap
      (fun f => individuals.map fun c => (.formula (!f.opens) f, some c)) ++
    (argument.termNodes.filter Term.isPrivation).flatMap
      (fun t => individuals.map fun c => (⟨true, .predication c t⟩, none))))

variable {argument : Argument} {individuals : List Individual}

/-- There is one opener for each categorical sentence. -/
theorem length_openers (argument : Argument) :
    argument.openers.length = argument.categoricals := by
  simp [openers, categoricals, List.countP_eq_length_filter]

/-- How many expansions are on the agenda. -/
theorem length_agenda (argument : Argument) (individuals : List Individual) :
    (argument.agenda individuals).length =
      2 * argument.connectives + argument.categoricals +
        argument.categoricals * individuals.length + argument.privations * individuals.length := by
  simp only [agenda, List.length_append, List.length_flatMap, List.length_map, List.length_cons,
    List.length_nil, List.map_const', List.sum_replicate_nat, length_openers, connectives,
    categoricals, privations, List.countP_eq_length_filter]
  omega

/-- Further individuals take nothing off the agenda. -/
theorem agenda_subset (argument : Argument) (individuals newcomers : List Individual) :
    argument.agenda individuals ⊆ argument.agenda (individuals ++ newcomers) := by
  intro entry hentry
  simp only [agenda, List.mem_append, List.mem_flatMap, List.mem_map] at hentry ⊢
  rcases hentry with hconn | hopen | ⟨f, hf, c, hc, rfl⟩ | ⟨t, ht, c, hc, rfl⟩
  · exact .inl hconn
  · exact .inr (.inl hopen)
  · exact .inr (.inr (.inl ⟨f, hf, c, .inl hc, rfl⟩))
  · exact .inr (.inr (.inr ⟨t, ht, c, .inl hc, rfl⟩))

/-- A categorical sentence that asks for an individual is among the openers. -/
theorem mem_openers {f : Formula} (hf : f ∈ argument.nodes) (hcat : f.isCategorical = true) :
    (.formula f.opens f, none) ∈ argument.openers :=
  List.mem_map.2 ⟨f, List.mem_filter.2 ⟨hf, hcat⟩, rfl⟩

/-- What a claim of a run calls for is on the agenda. -/
theorem mem_agenda_of_calls {s : Signed} {individual : Option Individual}
    (hs : s.Within argument individuals) (hcalls : s.Calls individuals individual) :
    (s, individual) ∈ argument.agenda individuals := by
  obtain ⟨sign, claim⟩ := s
  simp only [agenda, List.mem_append, List.mem_flatMap, List.mem_map, List.mem_filter]
  cases individual with
  | some c =>
      obtain ⟨hgeneral, hc⟩ := hcalls
      right; right; left
      cases claim with
      | predication c' t => cases hgeneral
      | formula f =>
          refine ⟨f, ⟨hs, ?_⟩, c, hc, ?_⟩
          · cases f <;> simp_all [Signed.isGeneral, Formula.isCategorical]
          · cases f <;> simp_all [Signed.isGeneral, Formula.opens, Signed.formula]
  | none =>
      obtain ⟨hgeneral, hliteral⟩ := hcalls
      cases claim with
      | formula f =>
          by_cases hconn : f.isConnective = true
          · left
            refine ⟨f, ⟨hs, hconn⟩, ?_⟩
            cases sign <;> simp [Signed.formula]
          · right; left
            have hcat : f.isCategorical = true := by
              cases f <;> simp_all [Formula.isConnective, Formula.isCategorical, Signed.isLiteral]
            have hsign : sign = f.opens := by
              cases f <;> cases sign <;>
                simp_all [Signed.isGeneral, Formula.opens, Formula.isCategorical]
            rw [hsign]
            exact mem_openers hs hcat
      | predication c t =>
          right; right; right
          obtain ⟨hc, ht⟩ := hs
          cases t with
          | privation t =>
              have hsign : sign = true := by simpa [Signed.isLiteral] using hliteral
              rw [hsign]
              exact ⟨t.privation, ⟨ht, rfl⟩, c, hc, rfl⟩
          | _ => cases hliteral

/-- Only openers introduce individuals. -/
theorem mem_openers_of_rule? {holds : Signed → Bool} {o : Obligation} {terms : List (Term × Bool)}
    (hclaim : o.claim.Within argument individuals)
    (hrule : o.rule? holds = some (.witness terms)) :
    (o.claim, o.individual) ∈ argument.openers := by
  rcases Obligation.rule?_eq_some hrule with
    ⟨place, sign, f, rfl, hwitness⟩ | ⟨place, c, t, rfl, hlinear⟩ | ⟨place, c, sign, f, rfl, hinst⟩
  · have hcat : f.isCategorical = true ∧ sign = f.opens := by
      cases f <;> cases sign <;>
        simp_all [Rule.ofFormula?, Formula.isCategorical, Formula.opens]
    rw [hcat.2]
    exact mem_openers hclaim hcat.1
  · cases hlinear
  · exact absurd hinst (Rule.ofInstance?_ne_witness holds c f terms)

end Argument

/-! ### What a run keeps

The two counts depend on each other: individuals come of expansions, and further individuals call
for further expansions. The circle is broken because only openers introduce individuals, and there
is one for each categorical sentence, whatever individuals there are. -/

namespace Argument

variable {argument : Argument} {round : Nat} {path later : Path}

/-- The expansions made on a path, one in each round. -/
structure Ledger (argument : Argument) (round : Nat) (path : Path)
    (spent : List (Signed × Option Individual)) : Prop where
  /-- There has been one in each round. -/
  length_eq : spent.length = round
  /-- None has been made twice. -/
  nodup : spent.Nodup
  /-- All of them were on the agenda. -/
  subset_agenda : spent ⊆ argument.agenda path.individuals
  /-- Each was noted at the place of its claim. -/
  noted : ∀ entry ∈ spent, ∃ place, path.claims[place]? = some entry.1 ∧
    ⟨place, entry.2⟩ ∈ path.expanded
  /-- No claim is on the path twice. -/
  claims_nodup : path.claims.Nodup
  /-- All claims are within the claims of the run. -/
  within : ∀ s ∈ path.claims, s.Within argument path.individuals
  /-- Each individual has come of an opener. -/
  individuals_le : path.individuals.length ≤ (spent.filter (· ∈ argument.openers)).length

/-- A path has no more individuals than there are categorical sentences. -/
theorem Ledger.length_individuals_le {spent : List (Signed × Option Individual)}
    (h : argument.Ledger round path spent) : path.individuals.length ≤ argument.categoricals := by
  have hsub : spent.filter (· ∈ argument.openers) ⊆ argument.openers := by
    intro entry hentry
    simpa using (List.mem_filter.1 hentry).2
  calc path.individuals.length
      ≤ (spent.filter (· ∈ argument.openers)).length := h.individuals_le
    _ ≤ argument.openers.length := List.Nodup.length_le_of_subset (h.nodup.filter _) hsub
    _ = argument.categoricals := argument.length_openers

/-- There are no more rounds than there can be different expansions. -/
theorem Ledger.round_le {spent : List (Signed × Option Individual)}
    (h : argument.Ledger round path spent) :
    round ≤ 2 * argument.connectives + argument.categoricals +
      argument.categoricals * argument.categoricals +
      argument.categoricals * argument.privations := by
  have hagenda : round ≤ (argument.agenda path.individuals).length := by
    rw [← h.length_eq]
    exact h.nodup.length_le_of_subset h.subset_agenda
  have hcat := Nat.mul_le_mul_left argument.categoricals h.length_individuals_le
  have hpriv := Nat.mul_le_mul_left argument.privations h.length_individuals_le
  rw [length_agenda] at hagenda
  rw [Nat.mul_comm argument.privations argument.categoricals] at hpriv
  omega

/-- A pending obligation has not been expanded before: it would stand at the same place. -/
theorem Ledger.not_mem_spent {spent : List (Signed × Option Individual)} {o : Obligation}
    (h : argument.Ledger round path spent) (ho : o ∈ path.obligations)
    (hopen : o.toSlot ∉ path.expanded) : (o.claim, o.individual) ∉ spent := by
  intro hspent
  obtain ⟨place, hget, hexpanded⟩ := h.noted _ hspent
  obtain ⟨hget', -⟩ := Path.mem_obligations_iff.1 ho
  have hlt : place < path.claims.length := (List.getElem?_eq_some_iff.1 hget).1
  have hplace : place = o.place := (List.getElem?_inj hlt h.claims_nodup).1 (hget.trans hget'.symm)
  subst hplace
  exact hopen hexpanded

/-- A step adds one expansion to the ledger. -/
theorem Ledger.step {spent : List (Signed × Option Individual)} {fresh : Individual}
    {o : Obligation} {rule : Rule} (h : argument.Ledger round path spent)
    (hpending : path.pending = some (o, rule)) (hfollows : path.Follows fresh o rule later) :
    argument.Ledger (round + 1) later (spent ++ [(o.claim, o.individual)]) := by
  obtain ⟨ho, hopen, hrule⟩ := Path.of_pending_eq_some hpending
  obtain ⟨hget, hcalls⟩ := Path.mem_obligations_iff.1 ho
  have hclaim : o.claim.Within argument path.individuals := h.within _ (List.mem_of_getElem? hget)
  constructor
  case length_eq => simp [h.length_eq]
  case nodup =>
    rw [List.nodup_append]
    refine ⟨h.nodup, by simp, ?_⟩
    rintro entry hentry entry' hentry' rfl
    rw [List.mem_singleton.1 hentry'] at hentry
    exact h.not_mem_spent ho hopen hentry
  case subset_agenda =>
    rw [hfollows.individuals_eq]
    intro entry hentry
    apply argument.agenda_subset
    rcases List.mem_append.1 hentry with hold | hnew
    · exact h.subset_agenda hold
    · rw [List.mem_singleton.1 hnew]
      exact mem_agenda_of_calls hclaim hcalls
  case noted =>
    intro entry hentry
    rw [hfollows.expanded_eq]
    rcases List.mem_append.1 hentry with hold | hnew
    · obtain ⟨place, hplace, hexpanded⟩ := h.noted entry hold
      exact ⟨place, hfollows.getElem?_claims hplace, List.mem_append_left _ hexpanded⟩
    · rw [List.mem_singleton.1 hnew]
      exact ⟨o.place, hfollows.getElem?_claims hget, List.mem_append_right _ List.mem_cons_self⟩
  case claims_nodup => exact hfollows.nodup h.claims_nodup
  case within =>
    intro s hs
    obtain ⟨alternative, halt, added, heq, hsub, -⟩ := hfollows.claims_eq
    rw [hfollows.individuals_eq]
    rw [heq] at hs
    rcases List.mem_append.1 hs with hold | hnew
    · exact (h.within s hold).mono _
    · exact Obligation.within_of_rule? hclaim hcalls hrule alternative halt s (hsub hnew)
  case individuals_le =>
    have hle := h.individuals_le
    rw [hfollows.individuals_eq, List.filter_append, List.length_append, List.length_append]
    cases rule with
    | linear produced | split left right => exact Nat.add_le_add hle (Nat.zero_le _)
    | witness terms =>
        have hopener := mem_openers_of_rule? hclaim hrule
        exact Nat.add_le_add hle (by simp [Rule.newcomers, hopener])

/-- Every step keeps a ledger. -/
theorem pathInvariant_ledger (argument : Argument) :
    PathInvariant fun round _ path => ∃ spent, argument.Ledger round path spent where
  mono _ h := h
  step := by
    rintro round n path later o rule ⟨spent, h⟩ hpending hfollows
    exact ⟨_, h.step hpending hfollows⟩

/-- The premises and the conclusion are nodes of the argument. -/
theorem within_of_mem_seed {s : Signed} (h : s ∈ argument.seed) (individuals : List Individual) :
    s.Within argument individuals := by
  have hnode : ∀ f ∈ argument.premises ++ [argument.conclusion], f ∈ argument.nodes :=
    fun f hf => List.mem_flatMap.2 ⟨f, hf, f.mem_nodes_self⟩
  rw [seed, List.mem_append, List.mem_singleton] at h
  rcases h with hpremise | rfl
  · obtain ⟨f, hf, rfl⟩ := List.mem_map.1 hpremise
    exact hnode f (List.mem_append_left _ hf)
  · exact hnode _ (List.mem_append_right _ List.mem_cons_self)

/-- At the root nothing has been expanded, and there are only premises and the conclusion. -/
theorem ledger_addAll (argument : Argument) :
    argument.Ledger 0 (Path.addAll ⟨[], [], []⟩ argument.seed).path [] where
  length_eq := rfl
  nodup := List.nodup_nil
  subset_agenda := List.nil_subset _
  noted := by simp
  claims_nodup := Path.nodup_claims_addAll _ List.nodup_nil
  within := by
    intro s hs
    obtain ⟨added, heq, hsub⟩ := Path.exists_claims_addAll ⟨[], [], []⟩ argument.seed
    rw [heq, List.nil_append] at hs
    exact within_of_mem_seed (hsub hs) _
  individuals_le := by simp

end Argument

/-- **Termination.** A run that may take more rounds than there can be different expansions on one
path is not cut off: its tableau closes, or a branch is saturated. -/
theorem outcome_of_bound_lt (config : Config) (argument : Argument) (trace : Option Trace)
    (h : 2 * argument.connectives + argument.categoricals +
      argument.categoricals * argument.categoricals +
      argument.categoricals * argument.privations < config.bound) :
    (argument.run config trace).outcome = .closed ∨
      ∃ b, (argument.run config trace).outcome = .saturated b := by
  cases houtcome : (argument.run config trace).outcome with
  | closed => exact .inl rfl
  | saturated b => exact .inr ⟨b, rfl⟩
  | exhausted active =>
      obtain ⟨n, path, spent, hledger⟩ :=
        argument.pathInvariant_ledger.of_outcome_eq_exhausted
          (fun _ => ⟨[], argument.ledger_addAll⟩) houtcome
      exact absurd hledger.round_le (Nat.not_le.2 h)

/-- The argument "all `M` lack `P`, not some `S` are `M`, so all `S` are `P`" has one connective,
three categorical sentences and one privation, so that 18 rounds are enough. -/
theorem outcome_of_eighteen_rounds :
    ∃ argument : Argument, argument = ⟨[.universal (.atom "M") (.privation (.atom "P")),
        .negation (.particular (.atom "S") (.atom "M"))], .universal (.atom "S") (.atom "P")⟩ ∧
      2 * argument.connectives + argument.categoricals +
        argument.categoricals * argument.categoricals +
        argument.categoricals * argument.privations = 17 ∧
      ((argument.run ⟨18, by decide⟩ none).outcome = .closed ∨
        ∃ b, (argument.run ⟨18, by decide⟩ none).outcome = .saturated b) :=
  ⟨_, rfl, by decide, outcome_of_bound_lt ⟨18, by decide⟩ _ none (by decide)⟩

end TermLogic
