import TermLogic.Formula.Grammar
import TermLogic.Formula.Parser

/-!
# What readers read

Whatever a reader accepts is spelt by the tokens it has taken, and a reader runs out of levels only
if the tokens ahead nest that deep.

* `Token.isNesting`: the tokens that cost a level.
* `Formula.Spells`: a spelling of whatever height.
* `Parser.Meets`, `Parser.Reads`: the contract of one run of a reader, and of a reader. Contracts
  are put together as readers are (`Parser.Reads.bind`, `Parser.Reads.map`).
* `Parser.reads_term`, `Parser.contracts`: the contracts of all readers, by induction on the levels
  that are left.
-/

namespace TermLogic

/-- Whether a token costs a level of nesting: an operator or an opening parenthesis. -/
def Token.isNesting : Token → Bool
  | .and | .or | .not | .imply | .iff | .complement | .privation | .leftParen => true
  | .ident _ | .rightParen | .leftBracket | .rightBracket | .leftAngle | .rightAngle => false

namespace Formula

open Token (Placed)

/-- The tokens spell the formula where a binding strength is needed, with whatever height. -/
def Spells (place : Precedence) (tokens : List Token) (f : Formula) : Prop :=
  ∃ height, Spelt place height tokens f

namespace Spells

variable {place own : Precedence} {ts us : List Token} {f g : Formula}

/-- What binds tighter may stand where less is needed. -/
theorem loosen (h : Spells own ts f) (hrank : place.rank < own.rank) : Spells place ts f := by
  obtain ⟨height, hf⟩ := h
  exact ⟨height, .loosen hrank hf⟩

/-- In parentheses every formula may stand at every place. -/
theorem parenthesised (h : Spells .biconditional ts f) :
    Spells .primary (.leftParen :: ts ++ [.rightParen]) f := by
  obtain ⟨height, hf⟩ := h
  exact ⟨height + 1, .parenthesised hf⟩

/-- A negation is spelt by its sign and an operand. -/
theorem negation (h : Spells .unary ts f) : Spells .unary (.not :: ts) f.negation := by
  obtain ⟨height, hf⟩ := h
  exact ⟨height + 1, .negation hf⟩

/-- A conjunction associates to the left: its right operand is no conjunction without
parentheses. -/
theorem conjunction (hf : Spells .conjunction ts f) (hg : Spells .unary us g) :
    Spells .conjunction (ts ++ .and :: us) (f.conjunction g) := by
  obtain ⟨h, hf⟩ := hf
  obtain ⟨k, hg⟩ := hg
  exact ⟨max h k + 1, .conjunction hf hg⟩

/-- A disjunction associates to the left, and its operands are conjunctions or tighter. -/
theorem disjunction (hf : Spells .disjunction ts f) (hg : Spells .conjunction us g) :
    Spells .disjunction (ts ++ .or :: us) (f.disjunction g) := by
  obtain ⟨h, hf⟩ := hf
  obtain ⟨k, hg⟩ := hg
  exact ⟨max h k + 1, .disjunction hf hg⟩

/-- A conditional associates to the right: its left operand is no conditional without
parentheses. -/
theorem conditional (hf : Spells .disjunction ts f) (hg : Spells .conditional us g) :
    Spells .conditional (ts ++ .imply :: us) (f.conditional g) := by
  obtain ⟨h, hf⟩ := hf
  obtain ⟨k, hg⟩ := hg
  exact ⟨max h k + 1, .conditional hf hg⟩

/-- A biconditional associates to the left, and its operands are conditionals or tighter. -/
theorem biconditional (hf : Spells .biconditional ts f) (hg : Spells .conditional us g) :
    Spells .biconditional (ts ++ .iff :: us) (f.biconditional g) := by
  obtain ⟨h, hf⟩ := hf
  obtain ⟨k, hg⟩ := hg
  exact ⟨max h k + 1, .biconditional hf hg⟩

end Spells

namespace Parser

/-! ### Contracts

A contract speaks of the tokens that a reader has taken and of those that it has left, so that the
contracts of parts add up to that of the whole. What has been read and why levels have run out are
carried together, as a part that has been read decides what is ahead for the next one. -/

section

variable {α β : Type} {levels : Nat} {P : List Token → α → Prop} {Q : List Token → β → Prop}

/-- How many of the tokens ahead cost a level. -/
def nesting (ahead : List Placed) : Nat :=
  ahead.countP fun placed => placed.token.isNesting

/-- A token that opens a level counts once. -/
theorem nesting_cons_of_isNesting {token : Token} (position : Nat) (rest : List Placed)
    (h : token.isNesting = true) : nesting (⟨token, position⟩ :: rest) = nesting rest + 1 := by
  simp [nesting, h]

/-- What is still ahead has no more of such tokens than the whole. -/
theorem nesting_le_append (taken rest : List Placed) : nesting rest ≤ nesting (taken ++ rest) :=
  (List.sublist_append_right taken rest).countP_le

/-- What a result on the tokens ahead has to be: a part that is right for the tokens taken, or a
fault, which is one of nesting only if more tokens cost a level than levels were left. -/
def Meets (levels : Nat) (P : List Token → α → Prop) (ahead : List Placed) :
    Except SyntaxError (α × List Placed) → Prop
  | .ok (part, rest) => ∃ taken, ahead = taken ++ rest ∧ P (taken.map Placed.token) part
  | .error e => e.kind = .tooDeep → levels < nesting ahead

/-- A reader whose results are right whatever is ahead. -/
def Reads (levels : Nat) (P : List Token → α → Prop) (reader : Parser α) : Prop :=
  ∀ ahead, Meets levels P ahead (reader ahead)

/-- A fault of another class than nesting meets every contract. -/
theorem meets_error {ahead : List Placed} {e : SyntaxError} (h : e.kind ≠ .tooDeep) :
    Meets levels P ahead (.error e) :=
  fun hkind => absurd hkind h

/-- With no level left, a token that costs one is a fault of nesting. -/
theorem meets_tooDeep {token : Token} (position : Nat) (rest : List Placed)
    (h : token.isNesting = true) :
    Meets 0 P (⟨token, position⟩ :: rest) (tooDeep position) := by
  intro _
  rw [nesting_cons_of_isNesting position rest h]
  exact Nat.succ_pos _

/-- A token in front that costs a level. -/
theorem Meets.cons_nesting {ahead : List Placed} {result : Except SyntaxError (α × List Placed)}
    {token : Token} (position : Nat) (htoken : token.isNesting = true)
    (h : Meets levels (fun ts => P (token :: ts)) ahead result) :
    Meets (levels + 1) P (⟨token, position⟩ :: ahead) result := by
  rcases result with e | ⟨part, rest⟩
  · intro hkind
    have hlt : levels < nesting ahead := h hkind
    rw [nesting_cons_of_isNesting position ahead htoken]
    exact Nat.succ_lt_succ hlt
  · obtain ⟨taken, rfl, hpart⟩ := h
    exact ⟨⟨token, position⟩ :: taken, rfl, hpart⟩

/-- A token in front that costs no level. -/
theorem Meets.cons {ahead : List Placed} {result : Except SyntaxError (α × List Placed)}
    {token : Token} (position : Nat) (h : Meets levels (fun ts => P (token :: ts)) ahead result) :
    Meets levels P (⟨token, position⟩ :: ahead) result := by
  rcases result with e | ⟨part, rest⟩
  · intro hkind
    exact Nat.lt_of_lt_of_le (h hkind) (nesting_le_append [⟨token, position⟩] ahead)
  · obtain ⟨taken, rfl, hpart⟩ := h
    exact ⟨⟨token, position⟩ :: taken, rfl, hpart⟩

/-- A result that is already there takes nothing. -/
theorem meets_ok {ahead : List Placed} {part : α} (h : P [] part) :
    Meets levels P ahead (.ok (part, ahead)) :=
  ⟨[], rfl, h⟩

/-- One reader after the other. -/
theorem Reads.bind {reader : Parser α} {next : α → Parser β} (h : Reads levels P reader)
    (hnext : ∀ ts part, P ts part → Reads levels (fun us => Q (ts ++ us)) (next part)) :
    Reads levels Q (reader >>= next) := by
  intro ahead
  have hfirst := h ahead
  show Meets levels Q ahead (reader ahead >>= fun (part, rest) => next part rest)
  cases hresult : reader ahead with
  | error e =>
      rw [hresult] at hfirst
      exact hfirst
  | ok result =>
      obtain ⟨part, rest⟩ := result
      rw [hresult] at hfirst
      obtain ⟨taken, rfl, hpart⟩ := hfirst
      have hsecond := hnext _ part hpart rest
      show Meets levels Q (taken ++ rest) (next part rest)
      cases hresult' : next part rest with
      | error e =>
          rw [hresult'] at hsecond
          intro hkind
          exact Nat.lt_of_lt_of_le (hsecond hkind) (nesting_le_append taken rest)
      | ok result =>
          rw [hresult'] at hsecond
          obtain ⟨more, rfl, hboth⟩ := hsecond
          refine ⟨taken ++ more, (List.append_assoc _ _ _).symm, ?_⟩
          rw [List.map_append]
          exact hboth

/-- A result that is given back takes nothing. -/
theorem reads_pure {part : α} (h : P [] part) : Reads levels P (pure part : Parser α) :=
  fun _ => meets_ok h

/-- A reader whose part is turned into another. -/
theorem Reads.map {reader : Parser α} {change : α → β} (h : Reads levels P reader)
    (hchange : ∀ ts part, P ts part → Q ts (change part)) :
    Reads levels Q (change <$> reader) := by
  refine h.bind fun ts part hpart => reads_pure ?_
  rw [List.append_nil]
  exact hchange ts part hpart

/-- Closing a group takes the closing token. -/
theorem reads_close (closer : Token) (opener : Placed) :
    Reads levels (fun ts _ => ts = [closer]) (close closer opener) := by
  rintro (_ | ⟨found, rest⟩)
  · exact meets_error nofun
  · by_cases hfound : found.token = closer
    · simp only [close, if_pos hfound]
      exact ⟨[found], rfl, by simp [hfound]⟩
    · simp only [close, if_neg hfound]
      exact meets_error nofun

end

/-! ### Terms and categorical sentences -/

/-- What the reader of terms reads is a term. -/
theorem reads_term (stop levels : Nat) :
    Reads levels (fun ts t => ∃ height, Term.Spelt height ts t) (term stop levels) := by
  induction levels using Nat.strongRecOn with
  | ind levels ih =>
      rintro (_ | ⟨⟨token, position⟩, rest⟩)
      · rw [term]
        exact meets_error nofun
      · cases token with
        | ident name =>
            rw [term]
            exact ⟨[⟨.ident name, position⟩], rfl, 0, .atom name⟩
        | complement =>
            rcases levels with _ | levels
            · exact meets_tooDeep position rest rfl
            · have hinner := ih levels levels.lt_succ_self
              refine Meets.cons_nesting position rfl (hinner.map ?_ rest)
              rintro ts t ⟨height, ht⟩
              exact ⟨height + 1, .complement ht⟩
        | privation =>
            rcases levels with _ | levels
            · exact meets_tooDeep position rest rfl
            · have hinner := ih levels levels.lt_succ_self
              refine Meets.cons_nesting position rfl (hinner.map ?_ rest)
              rintro ts t ⟨height, ht⟩
              exact ⟨height + 1, .privation ht⟩
        | _ =>
            simp only [term]
            exact meets_error nofun

/-- What follows the opening delimiter of a categorical sentence is a term, the closing delimiter
and another term. -/
theorem reads_categorical {P : List Token → Formula → Prop} (stop levels : Nat)
    (form : Term → Term → Formula) (closer : Token) (opener : Placed)
    (hform : ∀ {h k us vs s p}, Term.Spelt h us s → Term.Spelt k vs p →
      P (us ++ closer :: vs) (form s p)) :
    Reads levels P (categorical stop levels form closer opener) := by
  refine (reads_term stop levels).bind fun us s hs => ?_
  refine (reads_close closer opener).bind fun cs _ hcs => ?_
  refine (reads_term stop levels).bind fun vs p hp => reads_pure ?_
  obtain ⟨h, hs⟩ := hs
  obtain ⟨k, hp⟩ := hp
  subst hcs
  simpa using hform hs hp

/-! ### Tails

The tails of the four connectives have one form. They differ in their token, in what is read behind
it, and in whether they go on after that, so one contract with a parameter for the step does for
all. -/

/-- A tail that goes on behind a token, at the cost of a level, and ends before any other. -/
def tailOn (token : Token) (levels : Nat) (left : Formula) (step : Nat → Parser Formula) :
    Parser Formula
  | [] => .ok (left, [])
  | found :: rest =>
    if found.token = token then
      match levels with
      | 0 => tooDeep found.position
      | levels + 1 => step levels rest
    else .ok (left, found :: rest)

/-- The tail of a conjunction in the form shared by all four connectives. -/
theorem conjunctionTail_eq (stop levels : Nat) (left : Formula) :
    conjunctionTail stop levels left = tailOn .and levels left fun levels =>
      operand stop levels >>= fun right =>
        conjunctionTail stop levels (left.conjunction right) := by
  funext ahead
  rcases ahead with _ | ⟨⟨token, position⟩, rest⟩
  · simp only [conjunctionTail, tailOn]
  · cases token <;> cases levels <;> rfl

/-- The tail of a disjunction in the form shared by all four connectives. -/
theorem disjunctionTail_eq (stop levels : Nat) (left : Formula) :
    disjunctionTail stop levels left = tailOn .or levels left fun levels =>
      conjunction stop levels >>= fun right =>
        disjunctionTail stop levels (left.disjunction right) := by
  funext ahead
  rcases ahead with _ | ⟨⟨token, position⟩, rest⟩
  · simp only [disjunctionTail, tailOn]
  · cases token <;> cases levels <;> rfl

/-- The tail of a conditional in the form shared by all four connectives. It has no further tail,
because the right operand takes in all that follows. -/
theorem conditionalTail_eq (stop levels : Nat) (left : Formula) :
    conditionalTail stop levels left = tailOn .imply levels left fun levels =>
      conditional stop levels >>= fun right => pure (left.conditional right) := by
  funext ahead
  rcases ahead with _ | ⟨⟨token, position⟩, rest⟩
  · simp only [conditionalTail, tailOn]
  · cases token <;> cases levels <;> rfl

/-- The tail of a biconditional in the form shared by all four connectives. -/
theorem biconditionalTail_eq (stop levels : Nat) (left : Formula) :
    biconditionalTail stop levels left = tailOn .iff levels left fun levels =>
      conditional stop levels >>= fun right =>
        biconditionalTail stop levels (left.biconditional right) := by
  funext ahead
  rcases ahead with _ | ⟨⟨token, position⟩, rest⟩
  · simp only [biconditionalTail, tailOn]
  · cases token <;> cases levels <;> rfl

/-- The contract of a tail: the formula is right as it stands, and its step is right behind the
token. -/
theorem reads_tailOn {token : Token} {levels : Nat} {left : Formula} {step : Nat → Parser Formula}
    {P : List Token → Formula → Prop} (htoken : token.isNesting = true) (hend : P [] left)
    (hstep : ∀ n, n < levels → Reads n (fun ts => P (token :: ts)) (step n)) :
    Reads levels P (tailOn token levels left step) := by
  rintro (_ | ⟨⟨found, position⟩, rest⟩)
  · exact meets_ok hend
  · by_cases hfound : found = token
    · subst hfound
      rcases levels with _ | levels
      · simp only [tailOn, if_true]
        exact meets_tooDeep position rest htoken
      · simp only [tailOn, if_true]
        exact (hstep levels levels.lt_succ_self rest).cons_nesting position htoken
    · simp only [tailOn, if_neg hfound]
      exact meets_ok hend

/-! ### Formulas

Operands and tails are read with the levels that are left, and what they nest is read with fewer.
The readers for looser places are put together from these. -/

/-- The contracts of the readers of formulas with a number of levels left: an operand, and what may
follow a formula that is already read. -/
structure Contracts (stop levels : Nat) : Prop where
  /-- An operand is spelt where `-` may stand. -/
  operand : Reads levels (Spells .unary) (operand stop levels)
  /-- A conjunction goes on as a conjunction. -/
  conjunctionTail : ∀ {ts : List Token} {f : Formula}, Spells .conjunction ts f →
    Reads levels (fun us => Spells .conjunction (ts ++ us)) (conjunctionTail stop levels f)
  /-- A disjunction goes on as a disjunction. -/
  disjunctionTail : ∀ {ts : List Token} {f : Formula}, Spells .disjunction ts f →
    Reads levels (fun us => Spells .disjunction (ts ++ us)) (disjunctionTail stop levels f)
  /-- A disjunction becomes a conditional. -/
  conditionalTail : ∀ {ts : List Token} {f : Formula}, Spells .disjunction ts f →
    Reads levels (fun us => Spells .conditional (ts ++ us)) (conditionalTail stop levels f)
  /-- A biconditional goes on as a biconditional. -/
  biconditionalTail : ∀ {ts : List Token} {f : Formula}, Spells .biconditional ts f →
    Reads levels (fun us => Spells .biconditional (ts ++ us)) (biconditionalTail stop levels f)

namespace Contracts

variable {stop levels : Nat}

/-- Operands joined by `&` are spelt where `&` may stand. -/
theorem conjunction (h : Contracts stop levels) :
    Reads levels (Spells .conjunction) (conjunction stop levels) :=
  h.operand.bind fun _ _ hf => h.conjunctionTail (hf.loosen (by decide))

/-- Conjunctions joined by `|` are spelt where `|` may stand. -/
theorem disjunction (h : Contracts stop levels) :
    Reads levels (Spells .disjunction) (disjunction stop levels) :=
  h.conjunction.bind fun _ _ hf => h.disjunctionTail (hf.loosen (by decide))

/-- Disjunctions joined by `->` are spelt where `->` may stand. -/
theorem conditional (h : Contracts stop levels) :
    Reads levels (Spells .conditional) (conditional stop levels) :=
  h.disjunction.bind fun _ _ hf => h.conditionalTail hf

/-- Conditionals joined by `<->` are spelt where `<->` may stand. -/
theorem biconditional (h : Contracts stop levels) :
    Reads levels (Spells .biconditional) (biconditional stop levels) :=
  h.conditional.bind fun _ _ hf => h.biconditionalTail (hf.loosen (by decide))

end Contracts

/-- All readers of formulas keep their contracts. -/
theorem contracts (stop levels : Nat) : Contracts stop levels := by
  induction levels using Nat.strongRecOn with
  | ind levels ih =>
      constructor
      case operand =>
        rintro (_ | ⟨⟨token, position⟩, rest⟩)
        · rw [operand]
          exact meets_error nofun
        · cases token with
          | ident name =>
              rw [operand]
              refine ⟨[⟨.ident name, position⟩], rfl, ?_⟩
              exact ⟨0, .loosen (by decide) (.name name)⟩
          | leftBracket =>
              rw [operand]
              refine Meets.cons position (reads_categorical stop levels _ _ _ ?_ rest)
              intro h k us vs s p hs hp
              exact ⟨max h k, .loosen (by decide) (.universal hs hp)⟩
          | leftAngle =>
              rw [operand]
              refine Meets.cons position (reads_categorical stop levels _ _ _ ?_ rest)
              intro h k us vs s p hs hp
              exact ⟨max h k, .loosen (by decide) (.particular hs hp)⟩
          | not =>
              rcases levels with _ | levels
              · exact meets_tooDeep position rest rfl
              · have hlt := levels.lt_succ_self
                refine Meets.cons_nesting position rfl (Reads.map (ih levels hlt).operand ?_ rest)
                intro ts f hf
                exact hf.negation
          | leftParen =>
              rcases levels with _ | levels
              · exact meets_tooDeep position rest rfl
              · have hlt := levels.lt_succ_self
                refine Meets.cons_nesting position rfl
                  (Reads.bind (ih levels hlt).biconditional (fun ts f hf => ?_) rest)
                refine (reads_close .rightParen _).bind fun us _ hus => reads_pure ?_
                subst hus
                exact hf.parenthesised.loosen (by decide)
          | _ =>
              simp only [operand]
              exact meets_error nofun
      case conjunctionTail =>
        intro ts f hf
        rw [conjunctionTail_eq]
        refine reads_tailOn rfl (by simpa using hf) fun n hn => ?_
        refine (ih n hn).operand.bind fun us g hg => ?_
        simpa using (ih n hn).conjunctionTail (hf.conjunction hg)
      case disjunctionTail =>
        intro ts f hf
        rw [disjunctionTail_eq]
        refine reads_tailOn rfl (by simpa using hf) fun n hn => ?_
        refine (ih n hn).conjunction.bind fun us g hg => ?_
        simpa using (ih n hn).disjunctionTail (hf.disjunction hg)
      case conditionalTail =>
        intro ts f hf
        rw [conditionalTail_eq]
        refine reads_tailOn rfl (by simpa using hf.loosen (by decide)) fun n hn => ?_
        refine (ih n hn).conditional.bind fun us g hg => reads_pure ?_
        simpa using hf.conditional hg
      case biconditionalTail =>
        intro ts f hf
        rw [biconditionalTail_eq]
        refine reads_tailOn rfl (by simpa using hf) fun n hn => ?_
        refine (ih n hn).conditional.bind fun us g hg => ?_
        simpa using (ih n hn).biconditionalTail (hf.biconditional hg)

end Parser

end Formula

end TermLogic
