import TermLogic.SyntaxError

/-!
# Reading tokens

Formula text is a sequence of token spellings with blanks between them. The longest spelling wins,
so `<->` is one token and not three, and an identifier runs as far as it can.

* `Token.isBlank`, `Token.isWordChar`, `Token.ofSymbol?`: the three classes of characters.
* `Token.scanFrom position text`: the placed tokens of a text whose first character stands at
  `position`, or the first character that belongs to no class.
* `Token.scan`: the same for a whole text.
-/

namespace TermLogic.Token

/-- The characters that may stand between tokens. -/
def isBlank (c : Char) : Bool :=
  c = ' ' || c = '\t' || c = '\r' || c = '\n'

/-- The characters of identifiers: ASCII letters, digits and the underscore. -/
def isWordChar (c : Char) : Bool :=
  c.isAlphanum || c = '_'

/-- The token that a single symbol spells. -/
def ofSymbol? (c : Char) : Option Token :=
  match c with
  | '(' => some leftParen
  | ')' => some rightParen
  | '[' => some leftBracket
  | ']' => some rightBracket
  | '<' => some leftAngle
  | '>' => some rightAngle
  | '&' => some and
  | '|' => some or
  | '-' => some not
  | '~' => some complement
  | '^' => some privation
  | _ => none

/-- Puts a word character at `position` in front of the tokens that follow it: it joins an
identifier that starts right behind it, and is an identifier of its own otherwise. -/
def consWordChar (c : Char) (position : Nat) : List Placed → List Placed
  | ⟨ident name, next⟩ :: rest =>
    if next = position + 1 then ⟨ident (String.singleton c ++ name), position⟩ :: rest
    else ⟨ident (String.singleton c), position⟩ :: ⟨ident name, next⟩ :: rest
  | rest => ⟨ident (String.singleton c), position⟩ :: rest

/-- The placed tokens of a text that starts at `position`. The first character outside every class
is the fault, whatever else is wrong. -/
def scanFrom : Nat → List Char → Except SyntaxError (List Placed)
  | _, [] => .ok []
  | position, '<' :: '-' :: '>' :: rest =>
    (⟨iff, position⟩ :: ·) <$> scanFrom (position + 3) rest
  | position, '-' :: '>' :: rest =>
    (⟨imply, position⟩ :: ·) <$> scanFrom (position + 2) rest
  | position, c :: rest =>
    if isBlank c then scanFrom (position + 1) rest
    else if isWordChar c then consWordChar c position <$> scanFrom (position + 1) rest
    else
      match ofSymbol? c with
      | some symbol => (⟨symbol, position⟩ :: ·) <$> scanFrom (position + 1) rest
      | none => .error ⟨.unknownCharacter c, position⟩

/-- The placed tokens of a text. -/
def scan (text : String) : Except SyntaxError (List Placed) :=
  scanFrom 0 text.toList

end TermLogic.Token
