import TermLogic.Proofs.Path.Growth

/-!
# Rules

The rules of the calculus as relations between a claim and what comes of it, and that what is
pending on a path is always an application of one of them. Whatever has to be shown of every rule is
shown of these relations, case by case.

* `Signed.Adds`, `Signed.Forks`, `Signed.Introduces`: the rules for claims that are expanded once.
* `Signed.AddsFor`, `Signed.ForksFor`: the rules for claims about every individual. They ask what is
  known already.
* `Rule.Allowed`, `Path.allowed_of_pending`: what is pending on a path is what the relations allow
  there.
-/

namespace TermLogic

/-! ### Relations

One relation for each shape of rule, and one constructor for each rule. They speak of formulas in
the way the calculus is written down, without slots and look-ups. -/

namespace Signed

/-- The rules that add claims to a branch. -/
inductive Adds : Signed → List Signed → Prop where
  /-- A negation turns the sign. -/
  | negation (sign : Bool) (f : Formula) :
      Adds (.formula sign (.negation f)) [.formula (!sign) f]
  /-- Both parts of an asserted conjunction are asserted. -/
  | conjunction (f g : Formula) :
      Adds (.formula true (.conjunction f g)) [.formula true f, .formula true g]
  /-- Both parts of a denied disjunction are denied. -/
  | disjunction (f g : Formula) :
      Adds (.formula false (.disjunction f g)) [.formula false f, .formula false g]
  /-- Of a denied conditional, the antecedent is asserted and the consequent denied. -/
  | conditional (f g : Formula) :
      Adds (.formula false (.conditional f g)) [.formula true f, .formula false g]
  /-- What has the privation of a term falls outside the term. -/
  | privation (c : Individual) (t : Term) :
      Adds ⟨true, .predication c (.privation t)⟩ [.predication false c t]

/-- The rules that fork a branch. -/
inductive Forks : Signed → List Signed → List Signed → Prop where
  /-- A part of a denied conjunction is denied. -/
  | conjunction (f g : Formula) :
      Forks (.formula false (.conjunction f g)) [.formula false f] [.formula false g]
  /-- A part of an asserted disjunction is asserted. -/
  | disjunction (f g : Formula) :
      Forks (.formula true (.disjunction f g)) [.formula true f] [.formula true g]
  /-- Of an asserted conditional, the antecedent is denied or the consequent asserted. -/
  | conditional (f g : Formula) :
      Forks (.formula true (.conditional f g)) [.formula false f] [.formula true g]
  /-- Both parts of an asserted biconditional are asserted or denied. -/
  | asserted (f g : Formula) :
      Forks (.formula true (.biconditional f g)) [.formula true f, .formula true g]
        [.formula false f, .formula false g]
  /-- One part of a denied biconditional is asserted and the other denied. -/
  | denied (f g : Formula) :
      Forks (.formula false (.biconditional f g)) [.formula true f, .formula false g]
        [.formula false f, .formula true g]

/-- The rules that introduce the individual `c`. -/
inductive Introduces (c : Individual) : Signed → List Signed → Prop where
  /-- If not all `s` are `p`, some `s` is not `p`. -/
  | universal (s p : Term) :
      Introduces c (.formula false (.universal s p)) [.predication true c s, .predication false c p]
  /-- If some `s` are `p`, something is `s` and `p`. -/
  | particular (s p : Term) :
      Introduces c (.formula true (.particular s p)) [.predication true c s, .predication true c p]
  /-- If there are `t`, something is `t`. -/
  | existential (t : Term) :
      Introduces c (.formula true (.existential t)) [.predication true c t]

/-- The rules that apply a claim about every individual to `c` and add a claim. Most of them need a
known claim about `c`. -/
inductive AddsFor (known : Signed → Prop) (c : Individual) : Signed → List Signed → Prop where
  /-- All `s` are `p`, and `c` is `s`. -/
  | universal {s p : Term} : known (.predication true c s) →
      AddsFor known c (.formula true (.universal s p)) [.predication true c p]
  /-- All `s` are `p`, and `c` is not `p`. -/
  | universal_of_not {s p : Term} : known (.predication false c p) →
      AddsFor known c (.formula true (.universal s p)) [.predication false c s]
  /-- No `s` are `p`, and `c` is `s`. -/
  | particular {s p : Term} : known (.predication true c s) →
      AddsFor known c (.formula false (.particular s p)) [.predication false c p]
  /-- No `s` are `p`, and `c` is `p`. -/
  | particular_of_second {s p : Term} : known (.predication true c p) →
      AddsFor known c (.formula false (.particular s p)) [.predication false c s]
  /-- There are no `t`. -/
  | existential (t : Term) :
      AddsFor known c (.formula false (.existential t)) [.predication false c t]

/-- It is not known whether `c` is `t`. -/
def Undecided (known : Signed → Prop) (c : Individual) (t : Term) : Prop :=
  ∀ sign, ¬ known (.predication sign c t)

/-- The rules that apply a claim about every individual to `c` and fork. -/
inductive ForksFor (known : Signed → Prop) (c : Individual) :
    Signed → List Signed → List Signed → Prop where
  /-- All `s` are `p`. -/
  | universal {s p : Term} : Undecided known c s → Undecided known c p →
      ForksFor known c (.formula true (.universal s p)) [.predication false c s]
        [.predication true c p]
  /-- No `s` are `p`. -/
  | particular {s p : Term} : Undecided known c s → Undecided known c p →
      ForksFor known c (.formula false (.particular s p)) [.predication false c s]
        [.predication false c p]

end Signed

/-! ### Pending rules

The look-up of a rule asks what is on the path, and the relations ask what is known; that these are
the same is all that has to be said in between. -/

/-- A rule of a tableau for a claim, which is expanded once or for an individual, is one of the
relations, where the claims `known` and the individuals are at hand. -/
def Rule.Allowed (known : Signed → Prop) (individuals : List Individual) (s : Signed) :
    Option Individual → Rule → Prop
  | none, linear produced => s.Adds produced
  | none, split left right => s.Forks left right
  | none, witness terms =>
    ∀ c, s.Introduces c (terms.map fun (term, sign) => .predication sign c term)
  | some c, linear produced => s.AddsFor known c produced ∧ c ∈ individuals
  | some c, split left right => s.ForksFor known c left right ∧ c ∈ individuals
  | some _, witness _ => False

/-- The rule that looks for one of two claims forks only if neither is known with either sign. -/
theorem Rule.not_holds_of_either {holds : Signed → Bool} {first second : Signed}
    {left right : List Signed} (h : Rule.either holds first second = some (.split left right)) :
    (¬ holds first = true ∧ ¬ holds second = true) ∧
      ¬ holds first.flip = true ∧ ¬ holds second.flip = true := by
  unfold Rule.either at h
  split at h
  · cases h
  · next hnone =>
    split at h
    · cases h
    · next hfirst =>
      split at h
      · cases h
      · next hsecond => exact ⟨by simpa using hnone, hfirst, hsecond⟩

/-- The rule for a formula that is expanded once is allowed, whatever is known: the look-up of rules
and the relations have the same cases. -/
theorem Rule.allowed_of_ofFormula? {known : Signed → Prop} {individuals : List Individual}
    {sign : Bool} {f : Formula} {rule : Rule} (h : Rule.ofFormula? sign f = some rule) :
    rule.Allowed known individuals (.formula sign f) none := by
  cases f with
  | atom t => cases h
  | negation f =>
      cases h
      exact .negation sign f
  | conjunction f g => cases sign <;> cases h <;> constructor
  | disjunction f g => cases sign <;> cases h <;> constructor
  | conditional f g => cases sign <;> cases h <;> constructor
  | biconditional f g => cases sign <;> cases h <;> constructor
  | universal s p =>
      cases sign <;> cases h
      exact fun c => .universal s p
  | particular s p =>
      cases sign <;> cases h
      exact fun c => .particular s p
  | existential t =>
      cases sign <;> cases h
      exact fun c => .existential t

section

variable {path : Path} {c : Individual} {s : Signed}

/-- The rule that applies a claim about every individual by looking for one of two claims about the
individual, given what comes of knowing each of them. -/
theorem Rule.allowed_of_either {t p : Term} {sign : Bool} {rule : Rule}
    (hc : c ∈ path.individuals)
    (hsubject : .predication true c t ∈ path.claims →
      s.AddsFor (· ∈ path.claims) c [.predication sign c p])
    (hpredicate : .predication (!sign) c p ∈ path.claims →
      s.AddsFor (· ∈ path.claims) c [.predication false c t])
    (hfork : Signed.Undecided (· ∈ path.claims) c t → Signed.Undecided (· ∈ path.claims) c p →
      s.ForksFor (· ∈ path.claims) c [.predication false c t] [.predication sign c p])
    (h : Rule.either path.holds (.predication false c t) (.predication sign c p) = some rule) :
    rule.Allowed (· ∈ path.claims) path.individuals s (some c) := by
  rcases Rule.either_eq_some h with ⟨hflip, rfl⟩ | ⟨hflip, rfl⟩ | rfl
  · rw [Signed.flip_predication, Path.holds_iff] at hflip
    exact ⟨hsubject hflip, hc⟩
  · rw [Signed.flip_predication, Path.holds_iff] at hflip
    exact ⟨hpredicate hflip, hc⟩
  · have hnone := Rule.not_holds_of_either h
    simp only [Signed.flip_predication, Path.holds_iff] at hnone
    obtain ⟨⟨hfirst, hsecond⟩, hfirst', hsecond'⟩ := hnone
    refine ⟨hfork ?_ ?_, hc⟩
    · rintro (_ | _)
      · exact hfirst
      · exact hfirst'
    · intro other
      by_cases heq : other = sign
      · rw [heq]
        exact hsecond
      · rw [Bool.eq_not_of_ne heq]
        exact hsecond'

/-- The rule for a claim about every individual is allowed for an individual of the path. What the
look-up has found on the path is what the relations ask for. -/
theorem Rule.allowed_of_ofInstance? {sign : Bool} {f : Formula} {rule : Rule}
    (hc : c ∈ path.individuals) (hgeneral : (Signed.formula sign f).isGeneral = true)
    (h : Rule.ofInstance? path.holds c f = some rule) :
    rule.Allowed (· ∈ path.claims) path.individuals (.formula sign f) (some c) := by
  cases f with
  | universal t p =>
      obtain rfl : sign = true := hgeneral
      exact allowed_of_either hc .universal .universal_of_not .universal h
  | particular t p =>
      obtain rfl : sign = false := by simpa [Signed.isGeneral, Signed.formula] using hgeneral
      exact allowed_of_either hc .particular .particular_of_second .particular h
  | existential t =>
      obtain rfl : sign = false := by simpa [Signed.isGeneral, Signed.formula] using hgeneral
      simp only [Rule.ofInstance?] at h
      split at h
      · cases h
      · cases h
        exact ⟨.existential t, hc⟩
  | _ => cases h

/-- What is pending on a path is allowed there. -/
theorem Path.allowed_of_pending {o : Obligation} {rule : Rule}
    (h : path.pending = some (o, rule)) :
    o.claim ∈ path.claims ∧
      rule.Allowed (· ∈ path.claims) path.individuals o.claim o.individual := by
  obtain ⟨ho, -, hrule⟩ := Path.of_pending_eq_some h
  obtain ⟨hget, hcalls⟩ := Path.mem_obligations_iff.1 ho
  refine ⟨List.mem_of_getElem? hget, ?_⟩
  rcases Obligation.rule?_eq_some hrule with
    ⟨place, sign, f, rfl, hrule⟩ | ⟨place, c, t, rfl, rfl⟩ | ⟨place, c, sign, f, rfl, hrule⟩
  · exact Rule.allowed_of_ofFormula? hrule
  · exact .privation c t
  · exact Rule.allowed_of_ofInstance? hcalls.2 hcalls.1 hrule

end

end TermLogic
