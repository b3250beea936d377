import TermLogic.Formula.Parser
import TermLogic.Formula.Printer

/-!
# Reading with a cursor

The readers of `Parser` hand on the tokens that are still ahead and the levels that are left. A walk
reads the same formulas from a fixed sequence of tokens and keeps a place in it and a depth, which
it counts up at each operator and parenthesis. Some parts count the depth down again behind a nested
part, and chains of `&`, `|` and `<->` put it back to what it was before the chain. Nothing here
says that the depth cannot be counted down below 0, nor that a walk comes to an end: both have to be
proved. `fuel` is how deep calls may lie in each other; a walk that needs more has no end.

* `Cursor`, `Walk`: the place and the depth; and walks, which have no end (`none`) if the fuel is
  used up, and which note every call of a reader.
* `Walk.enter`, `Walk.leave`: one level deeper and back.
* `Walk.term`, `Walk.formula`, `Walk.level`: the readers, one level for each binding strength.
* `Walk.parse`: the formula that all tokens spell.
-/

namespace TermLogic.Formula

open Token (Placed)

/-- The parts of a formula that have a reader of their own. -/
inductive Production where
  /-- Any formula. -/
  | formula
  /-- A formula where a binding strength is needed. -/
  | level (place : Precedence)
  /-- A term. -/
  | term
deriving DecidableEq

/-- Where a walk has come to. -/
structure Cursor where
  /-- How many tokens have been read. -/
  pos : Nat
  /-- How many levels deep the part is that is being read. -/
  depth : Nat
deriving DecidableEq

/-- A cursor, with the calls of readers so far. -/
structure Walk.State extends Cursor where
  /-- Which readers have been called and where, oldest first. -/
  calls : List (Production × Cursor)
deriving DecidableEq

/-- Why a walk stops without a result. -/
inductive Walk.Halt where
  /-- The tokens are at fault. -/
  | fault (e : SyntaxError)
  /-- A depth of 0 was to be counted down. -/
  | underflow

/-- A walk over tokens. It gives a result or a reason to stop, and the state it has come to, or it
has no end. -/
abbrev Walk : Type → Type :=
  ExceptT Walk.Halt (StateT Walk.State Option)

namespace Walk

/-- A walk without end. -/
def endless {α : Type} : Walk α :=
  fun _ => none

/-- Stops at a fault. -/
def fail {α : Type} (cause : SyntaxError.Cause) (position : Nat) : Walk α :=
  throw (.fault ⟨cause, position⟩)

/-- Notes the call of a reader. -/
def note (production : Production) : Walk Unit :=
  modify fun s => { s with calls := s.calls ++ [(production, s.toCursor)] }

/-- Goes one level deeper, for the operator or parenthesis at `position`. -/
def enter (position : Nat) : Walk Unit := do
  modify fun s => { s with depth := s.depth + 1 }
  if maxNesting < (← get).depth then fail .tooDeep position

/-- Comes back one level. -/
def leave : Walk Unit := do
  match (← get).depth with
  | 0 => throw .underflow
  | depth + 1 => modify fun s => { s with depth := depth }

/-- Steps over a token. -/
def advance : Walk Unit :=
  modify fun s => { s with pos := s.pos + 1 }

section

variable (tokens : List Placed) (stop : Nat)

/-- The next token. -/
def peek : Walk (Option Placed) := do
  return tokens[(← get).pos]?

/-- Takes the next token, if there is one. -/
def bump : Walk (Option Placed) := do
  let found ← peek tokens
  if found.isSome then advance
  return found

/-- Takes the next token if it is the expected one, and gives its position. -/
def eatAt (expected : Token) : Walk (Option Nat) := do
  match ← peek tokens with
  | none => return none
  | some found =>
    if found.token = expected then
      advance
      return some found.position
    else return none

/-- Takes the token that closes a group. -/
def close (closer : Token) (opener : Placed) : Walk Unit := do
  match ← peek tokens with
  | none => fail (.unmatched opener.token) opener.position
  | some found =>
    if found.token = closer then advance
    else fail (.mismatched closer opener.token opener.position found.token) found.position

/-! ### Terms and categorical sentences -/

/-- Reads a term. -/
def term : (fuel : Nat) → Walk Term
  | 0 => endless
  | fuel + 1 => do
    note .term
    match ← bump tokens with
    | none => fail (.ended .term) stop
    | some ⟨token, position⟩ =>
      match token with
      | .complement | .privation =>
        enter position
        let inner ← term fuel
        leave
        return if token = .complement then inner.complement else inner.privation
      | .ident name => return .atom name
      | .not | .leftParen | .leftBracket | .leftAngle => fail (.formulaOperator token) position
      | _ => fail (.unexpected .term token) position

/-- Reads what follows the opening delimiter of a categorical sentence. -/
def categorical (fuel : Nat) (form : Term → Term → Formula) (closer : Token) (opener : Placed) :
    Walk Formula := do
  let subject ← term tokens stop fuel
  close tokens closer opener
  let predicate ← term tokens stop fuel
  return form subject predicate

/-! ### Formulas

The readers call each other with one unit of fuel less each time, whatever they have taken. A link
of a chain goes a level deeper and does not come back: the call for the chain keeps the depth at
which it started. -/

mutual

/-- Reads any formula. -/
def formula : (fuel : Nat) → Walk Formula
  | 0 => endless
  | fuel + 1 => do
    note .formula
    level fuel .biconditional

/-- Reads a formula where a binding strength is needed. -/
def level : (fuel : Nat) → Precedence → Walk Formula
  | 0, _ => endless
  | fuel + 1, place => do
    note (.level place)
    match place with
    | .biconditional => chain fuel .iff Formula.biconditional .conditional
    | .conditional =>
      let left ← level fuel .disjunction
      match ← eatAt tokens .imply with
      | none => return left
      | some position =>
        enter position
        let right ← level fuel .conditional
        leave
        return .conditional left right
    | .disjunction => chain fuel .or Formula.disjunction .conjunction
    | .conjunction => chain fuel .and Formula.conjunction .unary
    | .unary =>
      match ← eatAt tokens .not with
      | none => level fuel .primary
      | some position =>
        enter position
        let inner ← level fuel .unary
        leave
        return .negation inner
    | .primary =>
      match ← bump tokens with
      | none => fail (.ended .formula) stop
      | some ⟨token, position⟩ =>
        match token with
        | .leftBracket => categorical tokens stop fuel .universal .rightBracket ⟨token, position⟩
        | .leftAngle => categorical tokens stop fuel .particular .rightAngle ⟨token, position⟩
        | .leftParen =>
          enter position
          let inner ← formula fuel
          close tokens .rightParen ⟨token, position⟩
          leave
          return inner
        | .ident name => return .atom (.atom name)
        | .complement | .privation => fail (.termOperator token) position
        | _ => fail (.unexpected .formula token) position

/-- Reads operands joined by a token that groups to the left. Each further operand lies one level
deeper, and behind the last one the depth is put back. -/
def chain : (fuel : Nat) → Token → (Formula → Formula → Formula) → Precedence → Walk Formula
  | 0, _, _, _ => endless
  | fuel + 1, token, join, operand => do
    let depth := (← get).depth
    let left ← level fuel operand
    let whole ← links fuel token join operand left
    modify fun s => { s with depth := depth }
    return whole

/-- Reads what a token that groups to the left joins to a formula. -/
def links : (fuel : Nat) → Token → (Formula → Formula → Formula) → Precedence → Formula →
    Walk Formula
  | 0, _, _, _, _ => endless
  | fuel + 1, token, join, operand, left => do
    match ← eatAt tokens token with
    | none => return left
    | some position =>
      enter position
      let right ← level fuel operand
      links fuel token join operand (join left right)

end

/-- Calls the reader of a part. -/
def perform (fuel : Nat) : Production → Walk (Term ⊕ Formula)
  | .formula => .inr <$> formula tokens stop fuel
  | .level place => .inr <$> level tokens stop fuel place
  | .term => .inl <$> term tokens stop fuel

/-- Reads the formula that all tokens spell. -/
def parse (fuel : Nat) : Walk Formula := do
  if tokens.isEmpty then fail .empty 0
  let formula ← formula tokens stop fuel
  match ← peek tokens with
  | none => return formula
  | some ⟨.rightParen, position⟩ => fail (.unmatched .rightParen) position
  | some ⟨found, position⟩ => fail (.trailing found) position

end

/-- The state in which reading starts. -/
def State.start : State :=
  ⟨⟨0, 0⟩, []⟩

end Walk

end TermLogic.Formula
