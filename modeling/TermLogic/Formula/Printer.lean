import TermLogic.Formula.Basic

/-!
# Canonical text of formulas

A formula is written with as few parentheses as its connectives' binding strengths allow: a part is
parenthesised exactly when it binds looser than the place it stands in.

* `Precedence`: how tightly a formula binds, from `<->` to categorical sentences.
* `Formula.tokens`: the tokens of the canonical text, and `Formula.tokensAt` the same for a part
  that stands where a given strength is needed.
* `Formula.render`: the canonical text, blanks included.
-/

namespace TermLogic

/-- Binding strengths, from loosest to tightest. -/
inductive Precedence where
  /-- `<->` -/
  | biconditional
  /-- `->` -/
  | conditional
  /-- `|` -/
  | disjunction
  /-- `&` -/
  | conjunction
  /-- `-` -/
  | unary
  /-- Categorical sentences, bare terms and parenthesised formulas. -/
  | primary
deriving DecidableEq

/-- The strengths as numbers, a tighter one greater. -/
def Precedence.rank : Precedence → Nat
  | biconditional => 0
  | conditional => 1
  | disjunction => 2
  | conjunction => 3
  | unary => 4
  | primary => 5

namespace Formula

/-- How tightly the outermost operator of a formula binds. -/
def precedence : Formula → Precedence
  | atom _ | universal _ _ | particular _ _ | existential _ => .primary
  | negation _ => .unary
  | conjunction _ _ => .conjunction
  | disjunction _ _ => .disjunction
  | conditional _ _ => .conditional
  | biconditional _ _ => .biconditional

/-- The tokens of a formula, in parentheses if it binds looser than the place it stands in. -/
def enclose (place own : Precedence) (tokens : List Token) : List Token :=
  if own.rank < place.rank then .leftParen :: tokens ++ [.rightParen] else tokens

/-- The tokens of the canonical text. `&`, `|` and `<->` group to the left and `->` to the right, so
the operand on that side may be of the same strength. -/
def tokens : Formula → List Token
  | atom t => t.tokens
  | universal s p => .leftBracket :: s.tokens ++ .rightBracket :: p.tokens
  | particular s p => .leftAngle :: s.tokens ++ .rightAngle :: p.tokens
  | existential t => .leftAngle :: t.tokens ++ .rightAngle :: t.tokens
  | negation f => .not :: enclose .unary f.precedence f.tokens
  | conjunction f g =>
    enclose .conjunction f.precedence f.tokens ++ .and :: enclose .unary g.precedence g.tokens
  | disjunction f g =>
    enclose .disjunction f.precedence f.tokens ++ .or :: enclose .conjunction g.precedence g.tokens
  | conditional f g =>
    enclose .disjunction f.precedence f.tokens ++
      .imply :: enclose .conditional g.precedence g.tokens
  | biconditional f g =>
    enclose .biconditional f.precedence f.tokens ++
      .iff :: enclose .conditional g.precedence g.tokens

/-- The tokens of a formula that stands where the strength `place` is needed. -/
def tokensAt (place : Precedence) (f : Formula) : List Token :=
  enclose place f.precedence f.tokens

/-- The canonical text of a formula. -/
def render (f : Formula) : String :=
  Token.layoutAll f.tokens

/-- Anything may stand without parentheses in the loosest place. -/
@[simp]
theorem tokensAt_biconditional (f : Formula) : f.tokensAt .biconditional = f.tokens := by
  simp [tokensAt, enclose, Precedence.rank]

/-- "There are `t`" is written as "some `t` are `t`". -/
@[simp]
theorem tokens_existential (t : Term) : (existential t).tokens = (particular t t).tokens := rfl

/-- Reading "there are" plainly does not change how tightly a formula binds. -/
@[simp]
theorem precedence_plain (f : Formula) : f.plain.precedence = f.precedence := by
  cases f <;> rfl

/-- Reading "there are" plainly does not change the tokens of a formula. -/
@[simp]
theorem tokens_plain (f : Formula) : f.plain.tokens = f.tokens := by
  induction f <;> simp_all [plain, tokens]

/-- Reading "there are" plainly does not change the text of a formula. -/
@[simp]
theorem render_plain (f : Formula) : f.plain.render = f.render := by
  simp [render]

end Formula

end TermLogic
