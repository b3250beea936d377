import TermLogic.Text.Quoted
import TermLogic.Token

/-!
# Faults in formula text

Why a text is not a formula, and where.

* `SyntaxError.Cause`: what went wrong, with the tokens a message names.
* `SyntaxError.kind`: the class of the fault, which is all that most callers ask for.
* `SyntaxError.message`: the text shown to the author of the formula; it ends with the position.

A position is a byte offset in the UTF-8 form of the text.
-/

namespace TermLogic

/-- The deepest nesting of operators and parentheses that formula text may have. -/
def maxNesting : Nat := 256

namespace SyntaxError

/-- What the grammar wants where the fault is. -/
inductive Wanted where
  /-- A formula. -/
  | formula
  /-- A term. -/
  | term
deriving DecidableEq

/-- How a message names what was wanted. -/
def Wanted.describe : Wanted → String
  | formula => "a formula"
  | term => "a term"

/-- What is wrong with a text. -/
inductive Cause where
  /-- There are no tokens. -/
  | empty
  /-- A character that is part of no token. -/
  | unknownCharacter (character : Char)
  /-- A token that starts nothing of the wanted kind. -/
  | unexpected (wanted : Wanted) (found : Token)
  /-- A token where an opened group had to be closed. -/
  | mismatched (closer opener : Token) (openedAt : Nat) (found : Token)
  /-- The text ends too early. -/
  | ended (wanted : Wanted)
  /-- A delimiter without its partner. -/
  | unmatched (delimiter : Token)
  /-- A token after a complete formula. -/
  | trailing (found : Token)
  /-- A term operator where a formula was wanted. -/
  | termOperator (operator : Token)
  /-- A formula operator or delimiter where a term was wanted. -/
  | formulaOperator (operator : Token)
  /-- Operators or parentheses nested deeper than `maxNesting`. -/
  | tooDeep
deriving DecidableEq

/-- The classes of faults. -/
inductive Kind where
  /-- No tokens. -/
  | empty
  /-- A character outside the alphabet. -/
  | unknownCharacter
  /-- A token that cannot stand where it does. -/
  | unexpectedToken
  /-- The text ends too early. -/
  | unexpectedEnd
  /-- A delimiter without its partner. -/
  | unmatched
  /-- A token after a complete formula. -/
  | trailing
  /-- A term operator where a formula was wanted. -/
  | termOperatorInFormula
  /-- A formula operator where a term was wanted. -/
  | formulaOperatorInTerm
  /-- Nesting beyond the limit. -/
  | tooDeep
deriving DecidableEq

/-- The class a cause belongs to. -/
def Cause.kind : Cause → Kind
  | empty => .empty
  | unknownCharacter _ => .unknownCharacter
  | unexpected _ _ => .unexpectedToken
  | mismatched _ _ _ _ => .unexpectedToken
  | ended _ => .unexpectedEnd
  | unmatched _ => .unmatched
  | trailing _ => .trailing
  | termOperator _ => .termOperatorInFormula
  | formulaOperator _ => .formulaOperatorInTerm
  | tooDeep => .tooDeep

/-- The wording of a cause, without its position. -/
def Cause.describe : Cause → String
  | empty => "empty formula"
  | unknownCharacter c => "unexpected character " ++ Text.quoted [c]
  | unexpected wanted found => "expected " ++ wanted.describe ++ ", found " ++ found.describe
  | mismatched closer opener openedAt found =>
    "expected " ++ closer.describe ++ " to close " ++ opener.describe ++ " at position " ++
      openedAt.repr ++ ", found " ++ found.describe
  | ended wanted => "expected " ++ wanted.describe ++ ", found end of input"
  | unmatched delimiter => "unmatched " ++ delimiter.describe
  | trailing found => "unexpected " ++ found.describe ++ " after a complete formula"
  | termOperator operator => "term operator " ++ operator.describe ++ " cannot apply to a formula"
  | formulaOperator operator =>
    "formula operator " ++ operator.describe ++ " cannot apply to a term"
  | tooDeep => "formula nested deeper than " ++ maxNesting.repr ++ " levels"

end SyntaxError

/-- A fault in formula text: its cause, and the byte offset it is found at, which is the length of
the text when the text ends too early. -/
structure SyntaxError where
  /-- What is wrong. -/
  cause : SyntaxError.Cause
  /-- Where. -/
  position : Nat
deriving DecidableEq

namespace SyntaxError

/-- The class of a fault. -/
def kind (e : SyntaxError) : Kind :=
  e.cause.kind

/-- The message shown for a fault. -/
def message (e : SyntaxError) : String :=
  e.cause.describe ++ " at position " ++ e.position.repr

end SyntaxError

end TermLogic
