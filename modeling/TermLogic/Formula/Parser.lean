import TermLogic.Formula.Basic
import TermLogic.Token.Lexer

/-!
# Reading formulas

A formula is read from left to right, one binding strength inside the other: an operand, then the
`&` that join operands, then the `|` that join those, then `->`, then `<->`. Each of the last four
is a *tail*: what may follow a formula that is already read.

Every operator and every opening parenthesis costs one level of nesting, and a part is read with the
levels that are left. In a chain such as `f & g & h` each further operand lies one level deeper, as
the tree built so far comes to lie one level deeper too. All functions are recursive in the number
of levels left, which is why they end.

* `Parser`: readers of a part, which take the tokens ahead and give back those behind the part.
* `Parser.term`, `Parser.operand`, `Parser.conjunctionTail` and so on: the parts of a formula.
* `Formula.ofTokens`: the formula that a whole sequence of placed tokens spells.
* `Formula.parse`: the formula that a text spells.
-/

namespace TermLogic.Formula

open Token (Placed)

/-- A reader of a part of a formula: it takes the tokens ahead, and gives the part with the tokens
behind it, or a fault. -/
abbrev Parser : Type → Type :=
  StateT (List Placed) (Except SyntaxError)

namespace Parser

/-- The fault of an operator or parenthesis at `position` for which no level is left. -/
def tooDeep {α : Type} (position : Nat) : Except SyntaxError α :=
  .error ⟨.tooDeep, position⟩

/-- Takes the token that closes a group. -/
def close (closer : Token) (opener : Placed) : Parser Unit
  | [] => .error ⟨.unmatched opener.token, opener.position⟩
  | found :: rest =>
    if found.token = closer then .ok ((), rest)
    else .error ⟨.mismatched closer opener.token opener.position found.token, found.position⟩

/-! ### Terms and categorical sentences

Throughout, `stop` is the length of the whole text, where a text that ends too early is at fault,
and `levels` is the number of levels of nesting that are left. -/

/-- Reads a term. -/
def term (stop levels : Nat) : Parser Term
  | [] => .error ⟨.ended .term, stop⟩
  | ⟨token, position⟩ :: rest =>
    match token with
    | .ident name => .ok (.atom name, rest)
    | .complement =>
      match levels with
      | 0 => tooDeep position
      | levels + 1 => (.complement <$> term stop levels) rest
    | .privation =>
      match levels with
      | 0 => tooDeep position
      | levels + 1 => (.privation <$> term stop levels) rest
    | .not | .leftParen | .leftBracket | .leftAngle => .error ⟨.formulaOperator token, position⟩
    | _ => .error ⟨.unexpected .term token, position⟩

/-- Reads what follows the opening delimiter of a categorical sentence. -/
def categorical (stop levels : Nat) (form : Term → Term → Formula) (closer : Token)
    (opener : Placed) : Parser Formula := do
  let subject ← term stop levels
  close closer opener
  let predicate ← term stop levels
  return form subject predicate

/-! ### Formulas

The readers call each other: an operand in parentheses is any formula. Each opening parenthesis and
each connective takes a level, so that every circle of calls has fewer levels left. -/

mutual

/-- Reads a categorical sentence, a name, a negation or a parenthesised formula. -/
def operand (stop levels : Nat) : Parser Formula
  | [] => .error ⟨.ended .formula, stop⟩
  | ⟨token, position⟩ :: rest =>
    match token with
    | .ident name => .ok (.atom (.atom name), rest)
    | .leftBracket => categorical stop levels .universal .rightBracket ⟨token, position⟩ rest
    | .leftAngle => categorical stop levels .particular .rightAngle ⟨token, position⟩ rest
    | .not =>
      match levels with
      | 0 => tooDeep position
      | levels + 1 => (.negation <$> operand stop levels) rest
    | .leftParen =>
      match levels with
      | 0 => tooDeep position
      | levels + 1 =>
        (do let inner ← operand stop levels >>= conjunctionTail stop levels >>=
              disjunctionTail stop levels >>= conditionalTail stop levels >>=
              biconditionalTail stop levels
            close .rightParen ⟨token, position⟩
            return inner : Parser Formula) rest
    | .complement | .privation => .error ⟨.termOperator token, position⟩
    | _ => .error ⟨.unexpected .formula token, position⟩

/-- Reads the operands that `&` joins to a formula. -/
def conjunctionTail (stop levels : Nat) (left : Formula) : Parser Formula
  | ⟨.and, position⟩ :: rest =>
    match levels with
    | 0 => tooDeep position
    | levels + 1 =>
      (do let right ← operand stop levels
          conjunctionTail stop levels (.conjunction left right) : Parser Formula) rest
  | tokens => .ok (left, tokens)

/-- Reads the conjunctions that `|` joins to a formula. -/
def disjunctionTail (stop levels : Nat) (left : Formula) : Parser Formula
  | ⟨.or, position⟩ :: rest =>
    match levels with
    | 0 => tooDeep position
    | levels + 1 =>
      (do let right ← operand stop levels >>= conjunctionTail stop levels
          disjunctionTail stop levels (.disjunction left right) : Parser Formula) rest
  | tokens => .ok (left, tokens)

/-- Reads the consequent that `->` joins to a formula; the consequent takes all further `->`. -/
def conditionalTail (stop levels : Nat) (left : Formula) : Parser Formula
  | ⟨.imply, position⟩ :: rest =>
    match levels with
    | 0 => tooDeep position
    | levels + 1 =>
      (do let right ← operand stop levels >>= conjunctionTail stop levels >>=
            disjunctionTail stop levels >>= conditionalTail stop levels
          return .conditional left right : Parser Formula) rest
  | tokens => .ok (left, tokens)

/-- Reads the conditionals that `<->` joins to a formula. -/
def biconditionalTail (stop levels : Nat) (left : Formula) : Parser Formula
  | ⟨.iff, position⟩ :: rest =>
    match levels with
    | 0 => tooDeep position
    | levels + 1 =>
      (do let right ← operand stop levels >>= conjunctionTail stop levels >>=
            disjunctionTail stop levels >>= conditionalTail stop levels
          biconditionalTail stop levels (.biconditional left right) : Parser Formula) rest
  | tokens => .ok (left, tokens)

end

/-- Reads operands joined by `&`. -/
def conjunction (stop levels : Nat) : Parser Formula :=
  operand stop levels >>= conjunctionTail stop levels

/-- Reads conjunctions joined by `|`. -/
def disjunction (stop levels : Nat) : Parser Formula :=
  conjunction stop levels >>= disjunctionTail stop levels

/-- Reads disjunctions joined by `->`. -/
def conditional (stop levels : Nat) : Parser Formula :=
  disjunction stop levels >>= conditionalTail stop levels

/-- Reads conditionals joined by `<->`, which is to say any formula. -/
def biconditional (stop levels : Nat) : Parser Formula :=
  conditional stop levels >>= biconditionalTail stop levels

end Parser

/-- The formula that a sequence of placed tokens spells, where `stop` is the length of the text. -/
def ofTokens (stop : Nat) : List Placed → Except SyntaxError Formula
  | [] => .error ⟨.empty, 0⟩
  | first :: others => do
    let (formula, rest) ← Parser.biconditional stop maxNesting (first :: others)
    match rest with
    | [] => return formula
    | ⟨.rightParen, position⟩ :: _ => .error ⟨.unmatched .rightParen, position⟩
    | ⟨found, position⟩ :: _ => .error ⟨.trailing found, position⟩

/-- The formula that a text spells. -/
def parse (text : String) : Except SyntaxError Formula := do
  let tokens ← Token.scan text
  ofTokens text.utf8ByteSize tokens

end TermLogic.Formula
