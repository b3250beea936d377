import TermLogic.Claim

/-!
# Expansion rules

How a signed claim is expanded. Most claims are expanded once. An asserted universal and a denied
particular or existential speak of every individual, so they are expanded once for each.

* `Slot`, `Obligation`: a place on a path, with an individual if the claim there speaks of all of
  them; and the claim to expand there.
* `Signed.obligations`: what a claim obliges a path to expand, given the individuals on the path.
* `Rule`: what an expansion yields: claims on the same branch, a fork, or a new individual.
* `Obligation.rule?`: the table of rules. It asks which claims the path holds, and gives nothing
  where the path already satisfies the obligation.
-/

namespace TermLogic

/-- Which expansion is meant: a claim on a path keeps its place, and no claim comes onto a path
twice, so the place says which claim it is. -/
structure Slot where
  /-- The place of the claim on its path, from 0 at the root. -/
  place : Nat
  /-- The individual to expand it for, if it speaks of every individual. -/
  individual : Option Individual
deriving DecidableEq

/-- A claim that has to be expanded: once, or for one individual. -/
structure Obligation extends Slot where
  /-- The claim to expand. -/
  claim : Signed
deriving DecidableEq

/-- What expanding a claim yields. -/
inductive Rule where
  /-- Further claims on the same branch. -/
  | linear (produced : List Signed)
  /-- Two branches, each with its claims. -/
  | split (left right : List Signed)
  /-- A new individual, which falls under (`true`) or outside (`false`) each term. -/
  | witness (terms : List (Term × Bool))
deriving DecidableEq

/-- Whether a rule forks the branch. -/
def Rule.isSplit : Rule → Bool
  | split _ _ => true
  | linear _ | witness _ => false

namespace Signed

/-- Whether a signed claim speaks of every individual. -/
def isGeneral (s : Signed) : Bool :=
  match s.claim with
  | .formula (.universal _ _) => s.sign
  | .formula (.particular _ _) | .formula (.existential _) => !s.sign
  | _ => false

/-- Whether a signed claim says nothing beyond itself: a bare term, a denied privation, or a
predication of a name. -/
def isLiteral (s : Signed) : Bool :=
  match s.claim with
  | .formula (.atom _) => true
  | .formula _ => false
  | .predication _ (.privation _) => !s.sign
  | .predication _ _ => true

/-- What a signed claim at a place of a path obliges to expand, given the path's individuals. -/
def obligations (individuals : List Individual) (place : Nat) (s : Signed) : List Obligation :=
  if s.isGeneral then individuals.map fun c => ⟨⟨place, some c⟩, s⟩
  else if s.isLiteral then []
  else [⟨⟨place, none⟩, s⟩]

end Signed

namespace Rule

/-- The rules for formulas that are expanded once. -/
def ofFormula? (sign : Bool) : Formula → Option Rule
  | .atom _ => none
  | .negation f => some (linear [.formula (!sign) f])
  | .conjunction f g =>
    if sign then some (linear [.formula true f, .formula true g])
    else some (split [.formula false f] [.formula false g])
  | .disjunction f g =>
    if sign then some (split [.formula true f] [.formula true g])
    else some (linear [.formula false f, .formula false g])
  | .conditional f g =>
    if sign then some (split [.formula false f] [.formula true g])
    else some (linear [.formula true f, .formula false g])
  | .biconditional f g =>
    some (split [.formula true f, .formula sign g] [.formula false f, .formula (!sign) g])
  | .universal s p => if sign then none else some (witness [(s, true), (p, false)])
  | .particular s p => if sign then some (witness [(s, true), (p, true)]) else none
  | .existential t => if sign then some (witness [(t, true)]) else none

/-- Two alternatives of which the path must hold one: nothing to do if it holds one already, only
the other one if it contradicts one, and a fork otherwise. -/
def either (holds : Signed → Bool) (first second : Signed) : Option Rule :=
  if holds first || holds second then none
  else if holds first.flip then some (linear [second])
  else if holds second.flip then some (linear [first])
  else some (split [first] [second])

/-- The rules for formulas that speak of every individual, applied to `c`: it falls outside the
subject or has the predicate, it falls outside one of two terms, or it falls outside a term. -/
def ofInstance? (holds : Signed → Bool) (c : Individual) : Formula → Option Rule
  | .universal s p => either holds (.predication false c s) (.predication true c p)
  | .particular s p => either holds (.predication false c s) (.predication false c p)
  | .existential t =>
    if holds (.predication false c t) then none else some (linear [.predication false c t])
  | _ => none

end Rule

/-- The rule for an obligation on a path that holds the claims `holds`, or nothing if the path
satisfies it already. What has the privation of a term falls outside that term. -/
def Obligation.rule? (holds : Signed → Bool) (o : Obligation) : Option Rule :=
  match o.individual, o.claim.claim with
  | none, .formula f => Rule.ofFormula? o.claim.sign f
  | none, .predication c (.privation t) =>
    if o.claim.sign then some (.linear [.predication false c t]) else none
  | none, .predication _ _ => none
  | some c, .formula f => Rule.ofInstance? holds c f
  | some _, .predication _ _ => none

end TermLogic
