import TermLogic.Claim

/-!
# Meaning

What makes formulas true.

* `Interpretation`: a domain, which may be empty, a class of it for every term, and a truth value
  for every term that is used as a proposition. A complement is the rest of the domain. Of a
  privation we only know that it has nothing in common with its term.
* `Formula.Holds`: truth in an interpretation.
* `Entails`: the conclusion is true wherever all premises are.
-/

namespace TermLogic

universe u

/-- A reading of all terms. -/
structure Interpretation where
  /-- What there is to speak of. -/
  Domain : Type u
  /-- Which terms are true as propositions. -/
  isTrue : Term → Prop
  /-- What falls under a term. -/
  extension : Term → Domain → Prop
  /-- Under a complement falls all the rest. -/
  complement_iff : ∀ t d, extension t.complement d ↔ ¬ extension t d
  /-- What has the privation of a term falls outside the term. -/
  privation_disjoint : ∀ t d, extension t.privation d → ¬ extension t d

/-- Truth of a formula. A universal says nothing about whether there are subjects. -/
def Formula.Holds (I : Interpretation.{u}) : Formula → Prop
  | .atom t => I.isTrue t
  | .universal s p => ∀ d, I.extension s d → I.extension p d
  | .particular s p => ∃ d, I.extension s d ∧ I.extension p d
  | .existential t => ∃ d, I.extension t d
  | .negation f => ¬ f.Holds I
  | .conjunction f g => f.Holds I ∧ g.Holds I
  | .disjunction f g => f.Holds I ∨ g.Holds I
  | .conditional f g => f.Holds I → g.Holds I
  | .biconditional f g => f.Holds I ↔ g.Holds I

/-- The conclusion is true wherever all premises are. -/
def Entails (premises : List Formula) (conclusion : Formula) : Prop :=
  ∀ I : Interpretation.{u}, (∀ f ∈ premises, f.Holds I) → conclusion.Holds I

/-- Reading "there are" as "some are" does not change what is said. -/
@[simp]
theorem Formula.holds_plain (I : Interpretation.{u}) (f : Formula) :
    f.plain.Holds I ↔ f.Holds I := by
  induction f <;> simp_all [Formula.plain, Formula.Holds]

/-- Taking leading complements off a term turns what is said of an individual as often as there are
complements. -/
theorem Interpretation.extension_base (I : Interpretation.{u}) (t : Term) (d : I.Domain) :
    I.extension t.base d ↔ (if t.isDenied then ¬ I.extension t d else I.extension t d) := by
  induction t with
  | atom => simp
  | complement t ih =>
    rw [Term.base_complement, ih, Term.isDenied_complement, I.complement_iff]
    cases t.isDenied <;> simp
  | privation => simp

end TermLogic
