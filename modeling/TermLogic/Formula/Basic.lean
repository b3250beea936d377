import TermLogic.Term

/-!
# Formulas

Formulas are categorical sentences about terms, bare terms used as propositions, and the classical
connectives over them.

* `Formula`: the trees. Two formulas are the same formula exactly when their trees are equal, and
  this equality is decidable.
* `Formula.plain`: every "there are `t`" replaced by "some `t` are `t`", which has the same text.
-/

namespace TermLogic

/-- A formula tree. -/
inductive Formula where
  /-- A bare term used as a proposition. -/
  | atom (term : Term)
  /-- `[s]p`: all `s` are `p`. -/
  | universal (subject predicate : Term)
  /-- `<s>p`: some `s` are `p`. -/
  | particular (subject predicate : Term)
  /-- There are `t`. It has no text of its own and is written `<t>t`. -/
  | existential (term : Term)
  /-- `-f` -/
  | negation (inner : Formula)
  /-- `f & g` -/
  | conjunction (left right : Formula)
  /-- `f | g` -/
  | disjunction (left right : Formula)
  /-- `f -> g` -/
  | conditional (left right : Formula)
  /-- `f <-> g` -/
  | biconditional (left right : Formula)
deriving DecidableEq

namespace Formula

/-- The formula with every "there are `t`" read as "some `t` are `t`". -/
def plain : Formula → Formula
  | atom t => atom t
  | universal s p => universal s p
  | particular s p => particular s p
  | existential t => particular t t
  | negation f => negation f.plain
  | conjunction f g => conjunction f.plain g.plain
  | disjunction f g => disjunction f.plain g.plain
  | conditional f g => conditional f.plain g.plain
  | biconditional f g => biconditional f.plain g.plain

/-- A formula read plainly has nothing left to replace. -/
@[simp]
theorem plain_plain (f : Formula) : f.plain.plain = f.plain := by
  induction f <;> simp_all [plain]

end Formula

end TermLogic
