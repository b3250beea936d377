/-!
# Tokens

The words and symbols formulas are written with.

* `Token`: an identifier, a delimiter, a connective or a term operator.
* `Token.spelling`: the characters a token stands for.
* `Token.layout`: the same, with a blank on either side of a two-place connective; laying out the
  tokens of a formula one after the other gives its canonical text.
* `Token.describe`: how a message names a token.
* `Token.Placed`: a token together with the byte offset at which it starts.
-/

namespace TermLogic

/-- A word or symbol of formula text. -/
inductive Token where
  /-- A name. -/
  | ident (name : String)
  /-- `(` -/
  | leftParen
  /-- `)` -/
  | rightParen
  /-- `[` -/
  | leftBracket
  /-- `]` -/
  | rightBracket
  /-- `<` -/
  | leftAngle
  /-- `>` -/
  | rightAngle
  /-- `&` -/
  | and
  /-- `|` -/
  | or
  /-- `-` -/
  | not
  /-- `->` -/
  | imply
  /-- `<->` -/
  | iff
  /-- `~` -/
  | complement
  /-- `^` -/
  | privation
deriving DecidableEq

namespace Token

/-- The characters a token stands for. -/
def spelling : Token → List Char
  | ident name => name.toList
  | leftParen => ['(']
  | rightParen => [')']
  | leftBracket => ['[']
  | rightBracket => [']']
  | leftAngle => ['<']
  | rightAngle => ['>']
  | and => ['&']
  | or => ['|']
  | not => ['-']
  | imply => ['-', '>']
  | iff => ['<', '-', '>']
  | complement => ['~']
  | privation => ['^']

/-- Whether a token joins two formulas. -/
def isConnective : Token → Bool
  | and | or | imply | iff => true
  | _ => false

/-- How a token stands in canonical text: a connective between blanks, all else as it is spelt. -/
def layout (token : Token) : List Char :=
  if token.isConnective then ' ' :: token.spelling ++ [' '] else token.spelling

/-- How a message names a token. -/
def describe : Token → String
  | ident name => "identifier '" ++ name ++ "'"
  | token => "'" ++ String.ofList token.spelling ++ "'"

/-- A token and the byte offset in the text at which its spelling starts. -/
structure Placed where
  /-- The token. -/
  token : Token
  /-- Where it starts. -/
  position : Nat
deriving DecidableEq

end Token

/-- The canonical text of a sequence of tokens. -/
def Token.layoutAll (tokens : List Token) : String :=
  String.ofList (tokens.flatMap Token.layout)

end TermLogic
