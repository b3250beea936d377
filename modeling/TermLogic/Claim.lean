import TermLogic.Formula.Printer

/-!
# Claims

What a branch of a tableau asserts or denies: formulas, and predications "individual `c` is `t`".

* `Claim`, `Signed`: a claim, and a claim together with its sign.
* `Signed.formula`, `Signed.predication`: signed claims of either sort. "`c` is not-`t`" is "`c` is
  `t`" with the other sign, so a predication is kept without leading complements.
* `Signed.flip`: the same claim with the other sign; a path that holds both is contradictory.
* `Claim.render`, `Signed.render`: the text of a claim.
-/

namespace TermLogic

/-- Individuals are numbered from 1 in the order in which they are introduced. -/
abbrev Individual : Type := Nat

/-- Something that can be asserted or denied. -/
inductive Claim where
  /-- A formula. -/
  | formula (formula : Formula)
  /-- The individual falls under the term. -/
  | predication (individual : Individual) (term : Term)
deriving DecidableEq

/-- The text of a claim. -/
def Claim.render : Claim → String
  | formula f => f.render
  | predication c t => "c" ++ c.repr ++ ":" ++ t.render

/-- A claim that is asserted (`true`) or denied (`false`). -/
structure Signed where
  /-- Whether the claim is asserted. -/
  sign : Bool
  /-- What is claimed. -/
  claim : Claim
deriving DecidableEq

namespace Signed

/-- A signed formula. -/
def formula (sign : Bool) (f : Formula) : Signed :=
  ⟨sign, .formula f⟩

/-- A signed predication: leading complements are taken off the term, each turning the sign. -/
def predication (sign : Bool) (c : Individual) (t : Term) : Signed :=
  ⟨sign ^^ t.isDenied, .predication c t.base⟩

/-- The same claim with the other sign. -/
def flip (s : Signed) : Signed :=
  ⟨!s.sign, s.claim⟩

/-- The text of a signed claim: `T` or `F`, then the claim. -/
def render (s : Signed) : String :=
  (if s.sign then "T " else "F ") ++ s.claim.render

/-- Turning the sign twice gives back the claim. -/
@[simp]
theorem flip_flip (s : Signed) : s.flip.flip = s := by
  simp [flip]

/-- A claim with the other sign is another signed claim. -/
theorem flip_ne (s : Signed) : s.flip ≠ s := by
  cases s
  simp [flip]

/-- Turning the sign of a formula. -/
@[simp]
theorem flip_formula (sign : Bool) (f : Formula) : (formula sign f).flip = formula (!sign) f := rfl

/-- Turning the sign of a predication, from whose term the leading complements have been taken
off. -/
@[simp]
theorem flip_predication (sign : Bool) (c : Individual) (t : Term) :
    (predication sign c t).flip = predication (!sign) c t := by
  simp [flip, predication]

/-- A complement turns the sign of a predication. -/
@[simp]
theorem predication_complement (sign : Bool) (c : Individual) (t : Term) :
    predication sign c t.complement = predication (!sign) c t := by
  simp [predication]

end Signed

end TermLogic
