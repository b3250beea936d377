import TermLogic.Formula.Printer

/-!
# The grammar of formulas

Which token sequences spell which formulas, said without a reading procedure.

* `Term.Spelt height tokens t`: the tokens spell the term `t`.
* `Formula.Spelt place height tokens f`: the tokens spell the formula `f` where the binding strength
  `place` is needed. `&`, `|` and `<->` group to the left, `->` to the right.
* `Formula.Denotes tokens f`: the tokens spell `f` on their own.

The `height` of a spelling is the greatest number of operators and parenthesis pairs on a way from
its root to a leaf.
-/

namespace TermLogic

/-- Spellings of terms: a name behind any number of operators. -/
inductive Term.Spelt : (height : Nat) → List Token → Term → Prop where
  /-- A name. -/
  | atom (name : String) : Spelt 0 [.ident name] (.atom name)
  /-- A complement. -/
  | complement {height : Nat} {tokens : List Token} {t : Term} :
      Spelt height tokens t → Spelt (height + 1) (.complement :: tokens) t.complement
  /-- A privation. -/
  | privation {height : Nat} {tokens : List Token} {t : Term} :
      Spelt height tokens t → Spelt (height + 1) (.privation :: tokens) t.privation

namespace Formula

/-- Spellings of formulas where a binding strength is needed. -/
inductive Spelt : (place : Precedence) → (height : Nat) → List Token → Formula → Prop where
  /-- A name used as a proposition. -/
  | name (name : String) : Spelt .primary 0 [.ident name] (.atom (.atom name))
  /-- `[s]p` -/
  | universal {h k : Nat} {ts us : List Token} {s p : Term} :
      Term.Spelt h ts s → Term.Spelt k us p →
      Spelt .primary (max h k) (.leftBracket :: ts ++ .rightBracket :: us) (.universal s p)
  /-- `<s>p` -/
  | particular {h k : Nat} {ts us : List Token} {s p : Term} :
      Term.Spelt h ts s → Term.Spelt k us p →
      Spelt .primary (max h k) (.leftAngle :: ts ++ .rightAngle :: us) (.particular s p)
  /-- Any formula in parentheses. -/
  | parenthesised {h : Nat} {ts : List Token} {f : Formula} :
      Spelt .biconditional h ts f →
      Spelt .primary (h + 1) (.leftParen :: ts ++ [.rightParen]) f
  /-- `-f` -/
  | negation {h : Nat} {ts : List Token} {f : Formula} :
      Spelt .unary h ts f → Spelt .unary (h + 1) (.not :: ts) f.negation
  /-- `f & g` -/
  | conjunction {h k : Nat} {ts us : List Token} {f g : Formula} :
      Spelt .conjunction h ts f → Spelt .unary k us g →
      Spelt .conjunction (max h k + 1) (ts ++ .and :: us) (f.conjunction g)
  /-- `f | g` -/
  | disjunction {h k : Nat} {ts us : List Token} {f g : Formula} :
      Spelt .disjunction h ts f → Spelt .conjunction k us g →
      Spelt .disjunction (max h k + 1) (ts ++ .or :: us) (f.disjunction g)
  /-- `f -> g` -/
  | conditional {h k : Nat} {ts us : List Token} {f g : Formula} :
      Spelt .disjunction h ts f → Spelt .conditional k us g →
      Spelt .conditional (max h k + 1) (ts ++ .imply :: us) (f.conditional g)
  /-- `f <-> g` -/
  | biconditional {h k : Nat} {ts us : List Token} {f g : Formula} :
      Spelt .biconditional h ts f → Spelt .conditional k us g →
      Spelt .biconditional (max h k + 1) (ts ++ .iff :: us) (f.biconditional g)
  /-- What binds tighter may stand where less is needed. -/
  | loosen {place own : Precedence} {h : Nat} {ts : List Token} {f : Formula} :
      place.rank < own.rank → Spelt own h ts f → Spelt place h ts f

/-- The tokens spell the formula, with whatever height. -/
def Denotes (tokens : List Token) (f : Formula) : Prop :=
  ∃ height, Spelt .biconditional height tokens f

end Formula

end TermLogic
