import TermLogic.Proofs.Formula.RoundTrip
import TermLogic.Proofs.Token.Positions

/-!
# Where faults are found

A text that is not read, other than for its nesting, is at fault where it cannot go on to a formula:
at the first token that nothing can follow up to a formula, or at its end if it has no such token.

* `Viable`: tokens that some others behind them complete to a formula.
* `unclosed`: the opening delimiters that tokens leave open.
* `Parser.Promising`: tokens that some others complete to what a reader wants.
* `Parser.Ends`, `Parser.Locates`: how a run of a reader ends, and a reader that always ends so. Its
  result depends on the tokens taken and the next one only. A fault at the end is found with all
  tokens promising; a fault at a token is found with those before it promising, and whatever follows
  the token. Readers are put together (`Parser.Locates.bind`) as in `Parser.Reads`.
* `Parser.locates_term`, `Parser.pointers`: all readers locate their faults, by induction on the
  levels that are left.
* `Formula.parse_error_located`: the fault of a text.
-/

namespace TermLogic

open Token (Placed)

/-! ### Delimiters

The delimiters that are open are kept as a stack, so that the one a closing token has to match is at
its head. -/

/-- The opening delimiters that are open behind a token, the innermost first, if those of the stack
are open before it. -/
def Token.Placed.onto (placed : Placed) (stack : List Placed) : List Placed :=
  match placed.token with
  | .leftParen | .leftBracket | .leftAngle => placed :: stack
  | .rightParen | .rightBracket | .rightAngle => stack.tail
  | _ => stack

/-- The opening delimiters that are open behind tokens, the innermost first, if those of the stack
are open before them. -/
def unclosed (stack tokens : List Placed) : List Placed :=
  tokens.foldl (fun stack placed => placed.onto stack) stack

/-- The brackets that are open after tokens and further tokens. -/
theorem unclosed_append (stack tokens more : List Placed) :
    unclosed stack (tokens ++ more) = unclosed (unclosed stack tokens) more :=
  List.foldl_append

/-- Whether a cause is found at a token, and not at the end of the text. -/
def SyntaxError.Cause.isAtToken : SyntaxError.Cause → Bool
  | unexpected _ _ | mismatched _ _ _ _ | trailing _ | termOperator _ | formulaOperator _ => true
  | unmatched delimiter => delimiter = .rightParen
  | empty | unknownCharacter _ | ended _ | tooDeep => false

namespace Formula.Parser

/-! ### Contracts

A reader is one part of a larger whole, and whether tokens can go on to a formula depends on that
whole. So a contract says what can go on to what the reader itself wants, and leaves it to its
callers to say the same of theirs. -/

section

variable {α β : Type} {stop levels : Nat} {stack during after : List Placed}
  {P : List Token → α → Prop} {Q : List Token → β → Prop} {reader inner : Parser α}

/-- Some tokens behind these complete them to what is wanted. -/
def Promising (P : List Token → α → Prop) (ts : List Token) : Prop :=
  ∃ more part, P (ts ++ more) part

/-- A fault at the end of the tokens ahead: more of them are wanted, or the innermost delimiter that
is open is not closed. -/
def FaultyEnd (stop : Nat) (stack : List Placed) (P : List Token → α → Prop)
    (ahead : List Placed) (e : SyntaxError) : Prop :=
  Promising P (ahead.map Placed.token) ∧
    ((∃ wanted, e = ⟨.ended wanted, stop⟩) ∨
      ∃ opener, (unclosed stack ahead).head? = some opener ∧ opener.token ≠ .rightParen ∧
        e = ⟨.unmatched opener.token, opener.position⟩)

/-- A fault at one of the tokens ahead, which the reader finds whatever follows the token. -/
def FaultyToken (P : List Token → α → Prop) (reader : Parser α) (ahead : List Placed)
    (e : SyntaxError) : Prop :=
  e.cause.isAtToken = true ∧ ∃ before found behind, ahead = before ++ found :: behind ∧
    e.position = found.position ∧ Promising P (before.map Placed.token) ∧
    ∀ more, reader (before ++ found :: more) = .error e

/-- How a run of a reader ends. The delimiters of `stack` are open before it, and those of `after`
behind the part that it reads. -/
structure Ends (stop : Nat) (stack after : List Placed) (P : List Token → α → Prop)
    (reader : Parser α) (ahead : List Placed) : Prop where
  /-- What is read depends on the tokens taken and the next one. -/
  part : ∀ part rest, reader ahead = .ok (part, rest) → ∃ taken, ahead = taken ++ rest ∧
    unclosed stack taken = after ∧
    ∀ other, other.head? = rest.head? → reader (taken ++ other) = .ok (part, other)
  /-- A fault, other than one of nesting, is found at the end or at a token. -/
  fault : ∀ e, reader ahead = .error e → e.kind ≠ .tooDeep →
    FaultyEnd stop stack P ahead e ∨ FaultyToken P reader ahead e

/-- A reader all of whose runs end so. -/
def Locates (stop : Nat) (stack after : List Placed) (P : List Token → α → Prop)
    (reader : Parser α) : Prop :=
  ∀ ahead, Ends stop stack after P reader ahead

/-- What is complete can go on with nothing. -/
theorem promising_of {ts : List Token} {part : α} (h : P ts part) : Promising P ts :=
  ⟨[], part, by rwa [List.append_nil]⟩

/-- What can go on to something that can go on can go on. -/
theorem Promising.trans {ts : List Token} (h : Promising P ts)
    (hgo : ∀ us part, P us part → Promising Q us) : Promising Q ts := by
  obtain ⟨more, part, hpart⟩ := h
  obtain ⟨others, result, hresult⟩ := hgo _ part hpart
  exact ⟨more ++ others, result, by rwa [← List.append_assoc]⟩

/-- Lists with something in common in front of the same first element start alike. -/
theorem head?_append_congr {γ : Type} (front : List γ) {first second : List γ}
    (h : first.head? = second.head?) : (front ++ first).head? = (front ++ second).head? := by
  rw [List.head?_append, List.head?_append, h]

/-- What a reader reads is right for the tokens taken. -/
theorem Reads.of_eq_ok {part : α} {taken rest : List Placed} (h : Reads levels P reader)
    (hok : reader (taken ++ rest) = .ok (part, rest)) : P (taken.map Placed.token) part := by
  have hmeets := h (taken ++ rest)
  rw [hok] at hmeets
  obtain ⟨same, hsame, hpart⟩ := hmeets
  rwa [List.append_cancel_right hsame]

/-- One reader after the other. -/
theorem Locates.bind {next : α → Parser β} (hreads : Reads levels P reader)
    (h : Locates stop stack during P reader)
    (hgo : ∀ ts part, P ts part → Promising Q ts)
    (hnext : ∀ ts part, P ts part →
      Locates stop during after (fun us => Q (ts ++ us)) (next part)) :
    Locates stop stack after Q (reader >>= next) := by
  intro ahead
  have hbind : ∀ ahead, (reader >>= next) ahead =
      (reader ahead >>= fun (part, rest) => next part rest) := fun _ => rfl
  cases hresult : reader ahead with
  | error e =>
      have hwhole : (reader >>= next) ahead = .error e := by
        rw [hbind, hresult]
        rfl
      refine ⟨fun part rest hok => ?_, fun e' he hkind => ?_⟩
      · rw [hwhole] at hok
        cases hok
      · rw [hwhole] at he
        cases he
        rcases (h ahead).fault e hresult hkind with hend | hfound
        · exact .inl ⟨hend.1.trans hgo, hend.2⟩
        · obtain ⟨hcause, before, found, behind, rfl, hposition, hbefore, hmore⟩ := hfound
          refine .inr ⟨hcause, before, found, behind, rfl, hposition, hbefore.trans hgo, ?_⟩
          intro more
          rw [hbind, hmore more]
          rfl
  | ok result =>
      obtain ⟨part, rest⟩ := result
      have hwhole : (reader >>= next) ahead = next part rest := by
        rw [hbind, hresult]
        rfl
      obtain ⟨taken, rfl, hstack, hlocal⟩ := (h ahead).part part rest hresult
      -- the part is right for the tokens taken, so the second reader keeps its contract
      have hpart : P (taken.map Placed.token) part := hreads.of_eq_ok hresult
      have hsecond := hnext _ part hpart rest
      have hthrough : ∀ other, other.head? = rest.head? →
          (reader >>= next) (taken ++ other) = next part other := by
        intro other hother
        rw [hbind, hlocal other hother]
        rfl
      refine ⟨fun result behind hok => ?_, fun e he hkind => ?_⟩
      · rw [hwhole] at hok
        obtain ⟨more, rfl, hafter, hlocal'⟩ := hsecond.part result behind hok
        refine ⟨taken ++ more, (List.append_assoc _ _ _).symm, ?_, fun other hother => ?_⟩
        · rw [unclosed_append, hstack, hafter]
        · rw [List.append_assoc, hthrough _ (head?_append_congr more hother)]
          exact hlocal' other hother
      · rw [hwhole] at he
        rcases hsecond.fault e he hkind with ⟨⟨more, result, hmore⟩, hend⟩ | hfound
        · refine .inl ⟨⟨more, result, ?_⟩, ?_⟩
          · rwa [List.map_append, List.append_assoc]
          · rwa [unclosed_append, hstack]
        · obtain ⟨hcause, before, found, behind, rfl, hposition, ⟨more, result, hmore⟩, hsame⟩ :=
            hfound
          refine .inr ⟨hcause, taken ++ before, found, behind, (List.append_assoc _ _ _).symm,
            hposition, ⟨more, result, ?_⟩, fun other => ?_⟩
          · rwa [List.map_append, List.append_assoc]
          · have hhead : (before ++ found :: other).head? = (before ++ found :: behind).head? :=
              head?_append_congr before rfl
            rw [List.append_assoc, hthrough _ hhead]
            exact hsame other

/-- A result that is given back takes nothing. -/
theorem locates_pure (part : α) : Locates stop stack stack P (pure part : Parser α) := by
  intro ahead
  refine ⟨fun result rest hok => ?_, fun e he => ?_⟩
  · cases hok
    exact ⟨[], rfl, rfl, fun other _ => rfl⟩
  · cases he

/-- A reader whose part is turned into another. -/
theorem Locates.map {change : α → β} (hreads : Reads levels P reader)
    (h : Locates stop stack after P reader) (hchange : ∀ ts part, P ts part → Q ts (change part)) :
    Locates stop stack after Q (change <$> reader) :=
  Locates.bind hreads h (fun ts part hpart => promising_of (hchange ts part hpart))
    fun _ _ _ => locates_pure _

/-- A token in front. -/
theorem Ends.front {placed : Placed} {rest : List Placed}
    (heq : ∀ rest, reader (placed :: rest) = inner rest)
    (h : Ends stop (placed.onto stack) after (fun ts => P (placed.token :: ts)) inner rest) :
    Ends stop stack after P reader (placed :: rest) := by
  refine ⟨fun part behind hok => ?_, fun e he hkind => ?_⟩
  · rw [heq] at hok
    obtain ⟨taken, rfl, hstack, hlocal⟩ := h.part part behind hok
    refine ⟨placed :: taken, rfl, hstack, fun other hother => ?_⟩
    rw [List.cons_append, heq]
    exact hlocal other hother
  · rw [heq] at he
    rcases h.fault e he hkind with hend | hfound
    · exact .inl hend
    · obtain ⟨hcause, before, found, behind, rfl, hposition, hbefore, hsame⟩ := hfound
      refine .inr ⟨hcause, placed :: before, found, behind, rfl, hposition, hbefore, fun more => ?_⟩
      rw [List.cons_append, heq]
      exact hsame more

/-- A token that is a part on its own. -/
theorem ends_single {placed : Placed} {rest : List Placed} {part : α}
    (heq : ∀ rest, reader (placed :: rest) = .ok (part, rest))
    (hstack : placed.onto stack = after) :
    Ends stop stack after P reader (placed :: rest) := by
  subst hstack
  exact Ends.front heq (locates_pure part rest)

/-- A fault of nesting. -/
theorem ends_tooDeep {ahead : List Placed} {position : Nat}
    (heq : reader ahead = tooDeep position) : Ends stop stack after P reader ahead := by
  refine ⟨fun part rest hok => ?_, fun e he hkind => ?_⟩
  · rw [heq] at hok
    cases hok
  · rw [heq] at he
    cases he
    exact absurd rfl hkind

/-- No token is left where one is wanted. -/
theorem ends_ended {wanted : SyntaxError.Wanted} (heq : reader [] = .error ⟨.ended wanted, stop⟩)
    (hstart : Promising P []) : Ends stop stack after P reader [] := by
  refine ⟨fun part rest hok => ?_, fun e he _ => ?_⟩
  · rw [heq] at hok
    cases hok
  · rw [heq] at he
    cases he
    exact .inl ⟨hstart, .inl ⟨wanted, rfl⟩⟩

/-- A token with which no part starts. -/
theorem ends_refused {placed : Placed} {rest : List Placed} {cause : SyntaxError.Cause}
    (hstart : Promising P [])
    (heq : ∀ rest, reader (placed :: rest) = .error ⟨cause, placed.position⟩)
    (hcause : cause.isAtToken = true) :
    Ends stop stack after P reader (placed :: rest) := by
  refine ⟨fun part behind hok => ?_, fun e he _ => ?_⟩
  · rw [heq] at hok
    cases hok
  · rw [heq] at he
    cases he
    exact .inr ⟨hcause, [], placed, rest, rfl, rfl, hstart, heq⟩

/-- Closing a group. -/
theorem locates_close {closer : Token} {opener : Placed} (hopener : opener.token ≠ .rightParen)
    (hcloser : ∀ position stack, (Placed.mk closer position).onto stack = stack.tail) :
    Locates stop (opener :: stack) stack (fun ts _ => ts = [closer]) (close closer opener) := by
  rintro (_ | ⟨⟨token, position⟩, rest⟩)
  · refine ⟨nofun, ?_⟩
    rintro e ⟨⟩ _
    exact .inl ⟨⟨[closer], (), rfl⟩, .inr ⟨opener, rfl, hopener, rfl⟩⟩
  · by_cases hfound : token = closer
    · subst hfound
      have heq : ∀ rest, close token opener (⟨token, position⟩ :: rest) = .ok ((), rest) := by
        intro rest
        simp [close]
      exact ends_single heq (hcloser position (opener :: stack))
    · have heq : ∀ rest, close closer opener (⟨token, position⟩ :: rest) =
          .error ⟨.mismatched closer opener.token opener.position token, position⟩ := by
        intro rest
        simp [close, hfound]
      exact ends_refused ⟨[closer], (), rfl⟩ heq rfl

end

/-! ### Terms and categorical sentences

A term ends with its name and has no choice to make behind it, so unless it nests too deep, a fault
in one lies at the first token that is neither a name nor an operator, or at the end. -/

section

variable {stop levels : Nat} {stack : List Placed}

/-- The reader of terms locates its faults. -/
theorem locates_term (stop levels : Nat) (stack : List Placed) :
    Locates stop stack stack (fun ts t => ∃ height, Term.Spelt height ts t) (term stop levels) := by
  have hstart : Promising (fun ts t => ∃ height, Term.Spelt height ts t) [] :=
    ⟨[.ident "A"], .atom "A", 0, .atom "A"⟩
  induction levels using Nat.strongRecOn with
  | ind levels ih =>
      rintro (_ | ⟨⟨token, position⟩, rest⟩)
      · exact ends_ended (by rw [term]) hstart
      · cases token with
        | ident name => exact ends_single (fun rest => by rw [term]) rfl
        | complement =>
            rcases levels with _ | levels
            · exact ends_tooDeep rfl
            · refine Ends.front (fun rest => rfl) (Locates.map (reads_term stop levels)
                (ih levels levels.lt_succ_self) ?_ rest)
              rintro ts t ⟨height, ht⟩
              exact ⟨height + 1, .complement ht⟩
        | privation =>
            rcases levels with _ | levels
            · exact ends_tooDeep rfl
            · refine Ends.front (fun rest => rfl) (Locates.map (reads_term stop levels)
                (ih levels levels.lt_succ_self) ?_ rest)
              rintro ts t ⟨height, ht⟩
              exact ⟨height + 1, .privation ht⟩
        | _ =>
            apply ends_refused hstart
            · intro rest
              simp only [term]
              rfl
            · rfl

/-- What follows the opening delimiter of a categorical sentence locates its faults. -/
theorem locates_categorical {P : List Token → Formula → Prop} (form : Term → Term → Formula)
    {closer : Token} (opener : Placed) (hopener : opener.token ≠ .rightParen)
    (hcloser : ∀ position stack, (Placed.mk closer position).onto stack = stack.tail)
    (hform : ∀ {h k us vs s p}, Term.Spelt h us s → Term.Spelt k vs p →
      P (us ++ closer :: vs) (form s p)) :
    Locates stop (opener :: stack) stack P (categorical stop levels form closer opener) := by
  refine Locates.bind (reads_term stop levels) (locates_term stop levels (opener :: stack)) ?_ ?_
  · rintro us s ⟨h, hs⟩
    exact ⟨[closer, .ident "A"], form s (.atom "A"), hform hs (.atom "A")⟩
  rintro us s ⟨h, hs⟩
  refine Locates.bind (reads_close closer opener : Reads levels _ _)
    (locates_close hopener hcloser) ?_ ?_
  · rintro _ _ rfl
    exact ⟨[.ident "A"], form s (.atom "A"), hform hs (.atom "A")⟩
  rintro _ _ rfl
  refine Locates.map (reads_term stop levels) (locates_term stop levels stack) ?_
  rintro vs p ⟨k, hp⟩
  exact hform hs hp

/-! ### Tails

A tail has no fault of its own but for nesting: where its token does not follow, it takes nothing,
and behind its token it is the step that wants something. -/

/-- A tail locates its faults if its step does. -/
theorem locates_tailOn {token : Token} {left : Formula} {step : Nat → Parser Formula}
    {P : List Token → Formula → Prop}
    (htoken : ∀ position, (Placed.mk token position).onto stack = stack)
    (hstep : ∀ n, n < levels → Locates stop stack stack (fun ts => P (token :: ts)) (step n)) :
    Locates stop stack stack P (tailOn token levels left step) := by
  -- a tail that ends depends on the next token only
  have hends : ∀ ahead : List Placed, (∀ found ∈ ahead.head?, found.token ≠ token) →
      Ends stop stack stack P (tailOn token levels left step) ahead := by
    intro ahead hne
    have heq : ∀ other : List Placed, other.head? = ahead.head? →
        tailOn token levels left step other = .ok (left, other) := by
      intro other hother
      refine tailOn_of_ne levels left step ?_
      rwa [hother]
    refine ⟨fun part rest hok => ?_, fun e he => ?_⟩
    · rw [heq ahead rfl] at hok
      cases hok
      exact ⟨[], rfl, rfl, heq⟩
    · rw [heq ahead rfl] at he
      cases he
  rintro (_ | ⟨⟨found, position⟩, rest⟩)
  · exact hends [] nofun
  · by_cases hfound : found = token
    · subst hfound
      rcases levels with _ | levels
      · have hnone : tailOn found 0 left step (⟨found, position⟩ :: rest) = tooDeep position := by
          simp only [tailOn, if_true]
        exact ends_tooDeep hnone
      · have hone : ∀ rest, tailOn found (levels + 1) left step (⟨found, position⟩ :: rest) =
            step levels rest := by
          intro rest
          simp only [tailOn, if_true]
        refine Ends.front hone ?_
        rw [htoken]
        exact hstep levels levels.lt_succ_self rest
    · refine hends _ ?_
      rintro _ ⟨⟩
      exact hfound

end

/-! ### Formulas

All readers at once, by induction on the levels: what a parenthesis opens is read with fewer of
them. -/

/-- The readers of formulas with a number of levels left locate their faults. -/
structure Pointers (stop levels : Nat) : Prop where
  operand : ∀ stack, Locates stop stack stack (Spells .unary) (operand stop levels)
  conjunctionTail : ∀ {ts : List Token} {f : Formula} (stack : List Placed),
    Spells .conjunction ts f → Locates stop stack stack (fun us => Spells .conjunction (ts ++ us))
      (conjunctionTail stop levels f)
  disjunctionTail : ∀ {ts : List Token} {f : Formula} (stack : List Placed),
    Spells .disjunction ts f → Locates stop stack stack (fun us => Spells .disjunction (ts ++ us))
      (disjunctionTail stop levels f)
  conditionalTail : ∀ {ts : List Token} {f : Formula} (stack : List Placed),
    Spells .disjunction ts f → Locates stop stack stack (fun us => Spells .conditional (ts ++ us))
      (conditionalTail stop levels f)
  biconditionalTail : ∀ {ts : List Token} {f : Formula} (stack : List Placed),
    Spells .biconditional ts f →
      Locates stop stack stack (fun us => Spells .biconditional (ts ++ us))
        (biconditionalTail stop levels f)

/-- A formula can go on to one at a looser place. -/
theorem promising_loosen {place own : Precedence} (hrank : place.rank < own.rank)
    (ts : List Token) (f : Formula) (hf : Spells own ts f) : Promising (Spells place) ts :=
  promising_of (hf.loosen hrank)

namespace Pointers

variable {stop levels : Nat}

/-- A conjunction leaves the open brackets as they are, and a fault in it is located. -/
theorem conjunction (h : Pointers stop levels) (stack : List Placed) :
    Locates stop stack stack (Spells .conjunction) (conjunction stop levels) :=
  (h.operand stack).bind (contracts stop levels).operand (promising_loosen (by decide))
    fun _ _ hf => h.conjunctionTail stack (hf.loosen (by decide))

/-- A disjunction leaves the open brackets as they are, and a fault in it is located. -/
theorem disjunction (h : Pointers stop levels) (stack : List Placed) :
    Locates stop stack stack (Spells .disjunction) (disjunction stop levels) :=
  (h.conjunction stack).bind (contracts stop levels).conjunction (promising_loosen (by decide))
    fun _ _ hf => h.disjunctionTail stack (hf.loosen (by decide))

/-- A conditional leaves the open brackets as they are, and a fault in it is located. -/
theorem conditional (h : Pointers stop levels) (stack : List Placed) :
    Locates stop stack stack (Spells .conditional) (conditional stop levels) :=
  (h.disjunction stack).bind (contracts stop levels).disjunction (promising_loosen (by decide))
    fun _ _ hf => h.conditionalTail stack hf

/-- A biconditional leaves the open brackets as they are, and a fault in it is located. -/
theorem biconditional (h : Pointers stop levels) (stack : List Placed) :
    Locates stop stack stack (Spells .biconditional) (biconditional stop levels) :=
  (h.conditional stack).bind (contracts stop levels).conditional (promising_loosen (by decide))
    fun _ _ hf => h.biconditionalTail stack (hf.loosen (by decide))

/-- What follows an opening parenthesis, up to its partner. -/
theorem group (h : Pointers stop levels) (position : Nat) (stack : List Placed) :
    Locates stop (⟨.leftParen, position⟩ :: stack) stack
      (fun ts => Spells .unary (.leftParen :: ts)) (do
        let inner ← Parser.biconditional stop levels
        close .rightParen ⟨.leftParen, position⟩
        return inner) := by
  have hclosed : ∀ {ts f}, Spells .biconditional ts f →
      Spells .unary (.leftParen :: (ts ++ [.rightParen])) f :=
    fun hf => hf.parenthesised.loosen (by decide)
  refine (h.biconditional _).bind (contracts stop levels).biconditional ?_ fun ts f hf => ?_
  · exact fun ts f hf => ⟨[.rightParen], f, hclosed hf⟩
  refine Locates.bind (reads_close .rightParen _ : Reads levels _ _)
    (locates_close (show Token.leftParen ≠ _ by decide) fun _ _ => rfl) ?_
    fun _ _ _ => locates_pure f
  rintro _ _ rfl
  exact promising_of (hclosed hf)

end Pointers

/-- All readers of formulas locate their faults. -/
theorem pointers (stop levels : Nat) : Pointers stop levels := by
  have hstart : Promising (Spells .unary) [] :=
    ⟨[.ident "A"], .atom (.atom "A"), 0, .loosen (by decide) (.name "A")⟩
  induction levels using Nat.strongRecOn with
  | ind levels ih =>
      constructor
      case operand =>
        rintro stack (_ | ⟨⟨token, position⟩, rest⟩)
        · exact ends_ended (by rw [operand]) hstart
        · cases token with
          | ident name => exact ends_single (fun rest => by rw [operand]) rfl
          | leftBracket =>
              refine Ends.front (fun rest => by rw [operand]) (locates_categorical _
                ⟨.leftBracket, position⟩ (show Token.leftBracket ≠ _ by decide) (fun _ _ => rfl) ?_
                rest)
              intro h k us vs s p hs hp
              exact ⟨max h k, .loosen (by decide) (.universal hs hp)⟩
          | leftAngle =>
              refine Ends.front (fun rest => by rw [operand]) (locates_categorical _
                ⟨.leftAngle, position⟩ (show Token.leftAngle ≠ _ by decide) (fun _ _ => rfl) ?_
                rest)
              intro h k us vs s p hs hp
              exact ⟨max h k, .loosen (by decide) (.particular hs hp)⟩
          | not =>
              rcases levels with _ | levels
              · exact ends_tooDeep rfl
              · refine Ends.front (fun rest => rfl) (Locates.map (contracts stop levels).operand
                  ((ih levels levels.lt_succ_self).operand stack) ?_ rest)
                intro ts f hf
                exact hf.negation
          | leftParen =>
              rcases levels with _ | levels
              · exact ends_tooDeep rfl
              · exact Ends.front (fun rest => rfl)
                  ((ih levels levels.lt_succ_self).group position stack rest)
          | _ =>
              apply ends_refused hstart
              · intro rest
                simp only [operand]
                rfl
              · rfl
      case conjunctionTail =>
        intro ts f stack hf
        rw [conjunctionTail_eq]
        refine locates_tailOn (fun _ => rfl) fun n hn => ?_
        refine ((ih n hn).operand stack).bind (contracts stop n).operand ?_ ?_
        · exact fun us g hg => promising_of (hf.conjunction hg)
        · intro us g hg
          simpa using (ih n hn).conjunctionTail stack (hf.conjunction hg)
      case disjunctionTail =>
        intro ts f stack hf
        rw [disjunctionTail_eq]
        refine locates_tailOn (fun _ => rfl) fun n hn => ?_
        refine ((ih n hn).conjunction stack).bind (contracts stop n).conjunction ?_ ?_
        · exact fun us g hg => promising_of (hf.disjunction hg)
        · intro us g hg
          simpa using (ih n hn).disjunctionTail stack (hf.disjunction hg)
      case conditionalTail =>
        intro ts f stack hf
        rw [conditionalTail_eq]
        refine locates_tailOn (fun _ => rfl) fun n hn => ?_
        exact ((ih n hn).conditional stack).map (contracts stop n).conditional
          fun us g hg => hf.conditional hg
      case biconditionalTail =>
        intro ts f stack hf
        rw [biconditionalTail_eq]
        refine locates_tailOn (fun _ => rfl) fun n hn => ?_
        refine ((ih n hn).conditional stack).bind (contracts stop n).conditional ?_ ?_
        · exact fun us g hg => promising_of (hf.biconditional hg)
        · intro us g hg
          simpa using (ih n hn).biconditionalTail stack (hf.biconditional hg)

end Formula.Parser

/-! ### Texts

Behind the outermost formula nothing may be left over, and a token that is left over is the first
with which the text cannot go on. -/

namespace Formula

open TermLogic.Formula.Parser

variable {stop : Nat} {tokens : List Placed} {e : SyntaxError}

/-- Some tokens behind these complete them to a formula. -/
def Viable (ts : List Token) : Prop :=
  ∃ more f, Denotes (ts ++ more) f

/-- What is wrong with a token that is left over behind a formula. -/
def leftover : Token → SyntaxError.Cause
  | .rightParen => .unmatched .rightParen
  | token => .trailing token

/-- A token that is left over is at fault itself. -/
theorem isAtToken_leftover (token : Token) : (leftover token).isAtToken = true := by
  cases token <;> rfl

/-- A fault that the reader of formulas finds is that of the tokens. -/
theorem ofTokens_of_error (hne : tokens ≠ [])
    (h : Parser.biconditional stop maxNesting tokens = .error e) :
    ofTokens stop tokens = .error e := by
  rcases tokens with _ | ⟨first, others⟩
  · exact absurd rfl hne
  · simp only [ofTokens, h]
    rfl

/-- A token that the reader of formulas leaves over is the fault of the tokens. -/
theorem ofTokens_of_leftover {f : Formula} {found : Placed} {rest : List Placed}
    (h : Parser.biconditional stop maxNesting tokens = .ok (f, found :: rest)) :
    ofTokens stop tokens = .error ⟨leftover found.token, found.position⟩ := by
  rcases tokens with _ | ⟨first, others⟩
  · cases h
  · obtain ⟨token, position⟩ := found
    simp only [ofTokens, h]
    cases token <;> rfl

/-- Tokens that are not read whatever follows them are not viable. -/
theorem not_viable_of_ofTokens {before : List Placed} {found : Placed}
    (h : ∀ more, ofTokens stop (before ++ found :: more) = .error e) (hkind : e.kind ≠ .tooDeep) :
    ¬ Viable ((before ++ [found]).map Placed.token) := by
  rintro ⟨more, f, hf⟩
  have hplaced : (before ++ found :: more.map fun token => ⟨token, 0⟩).map Placed.token =
      (before ++ [found]).map Placed.token ++ more := by
    simp [Function.comp_def]
  rw [← hplaced] at hf
  rcases gives_ofTokens stop hf with hok | ⟨e', he', hdeep⟩
  · rw [h] at hok
    cases hok
  · rw [h] at he'
    cases he'
    exact hkind hdeep

/-- The fault of tokens is found at their end, or at the first token with which they are not viable
any more. -/
theorem fault_ofTokens (hne : tokens ≠ []) (h : ofTokens stop tokens = .error e)
    (hkind : e.kind ≠ .tooDeep) :
    FaultyEnd stop [] (Spells .biconditional) tokens e ∨
      (e.cause.isAtToken = true ∧ ∃ before found behind, tokens = before ++ found :: behind ∧
        e.position = found.position ∧ Viable (before.map Placed.token) ∧
        ¬ Viable ((before ++ [found]).map Placed.token)) := by
  have hends := (pointers stop maxNesting).biconditional [] tokens
  cases hresult : Parser.biconditional stop maxNesting tokens with
  | error e' =>
      obtain rfl : e' = e := Except.error.inj ((ofTokens_of_error hne hresult).symm.trans h)
      refine (hends.fault e' hresult hkind).imp_right ?_
      rintro ⟨hcause, before, found, behind, rfl, hposition, hbefore, hsame⟩
      refine ⟨hcause, before, found, behind, rfl, hposition, hbefore, ?_⟩
      exact not_viable_of_ofTokens (fun more => ofTokens_of_error (by simp) (hsame more)) hkind
  | ok result =>
      obtain ⟨f, _ | ⟨found, rest⟩⟩ := result
      · rw [ofTokens_eq_ok_iff.2 hresult] at h
        cases h
      · obtain rfl : ⟨leftover found.token, found.position⟩ = e :=
          Except.error.inj ((ofTokens_of_leftover hresult).symm.trans h)
        obtain ⟨taken, rfl, -, hlocal⟩ := hends.part f (found :: rest) hresult
        have hspelt : Denotes (taken.map Placed.token) f :=
          (contracts stop maxNesting).biconditional.of_eq_ok hresult
        refine .inr ⟨isAtToken_leftover _, taken, found, rest, rfl, rfl, promising_of hspelt, ?_⟩
        exact not_viable_of_ofTokens (fun more => ofTokens_of_leftover (hlocal (found :: more) rfl))
          hkind

/-- Where the fault of a text is. -/
structure Located (text : String) (tokens : List Placed) (e : SyntaxError) : Prop where
  /-- If the text ends too early, it can go on to a formula and is none, and its fault is at its
  end. -/
  ended : e.kind = .unexpectedEnd → Viable (tokens.map Placed.token) ∧
    (¬ ∃ f, Denotes (tokens.map Placed.token) f) ∧ e.position = text.utf8ByteSize
  /-- If it ends with a delimiter open, it can go on to a formula, and its fault is at the innermost
  delimiter that is open. -/
  unclosed : ∀ opener, e.cause = .unmatched opener → opener ≠ .rightParen →
    Viable (tokens.map Placed.token) ∧ (unclosed [] tokens).head? = some ⟨opener, e.position⟩
  /-- Otherwise its fault is at a token. What stands before the token can go on to a formula, but
  not together with the token. -/
  token : e.kind ≠ .unexpectedEnd → (e.kind = .unmatched → e.cause = .unmatched .rightParen) →
    ∃ before found behind, tokens = before ++ found :: behind ∧ e.position = found.position ∧
      Viable (before.map Placed.token) ∧ ¬ Viable ((before ++ [found]).map Placed.token)
  /-- Tokens are placed at the byte offsets of their spellings. -/
  offsets : ∀ placed ∈ tokens, Token.StandsIn 0 text.toList placed

/-- **Faults are found where a text cannot go on.** Take a text that has tokens, and none with an
unknown character. If it is not read, other than for its nesting, its fault is at its end, at a
delimiter that is not closed, or at the first token with which it cannot go on to a formula. -/
theorem parse_error_located {text : String} (hscan : Token.scan text = .ok tokens)
    (hne : tokens ≠ []) (hparse : parse text = .error e) (hkind : e.kind ≠ .tooDeep) :
    Located text tokens e := by
  rw [parse_of_scan hscan] at hparse
  have hoffsets : ∀ placed ∈ tokens, Token.StandsIn 0 text.toList placed :=
    fun placed hmem => Token.standsIn_of_mem_scan hscan hmem
  rcases fault_ofTokens hne hparse hkind with ⟨hviable, hend⟩ | ⟨hcause, hfound⟩
  · have hnone : ¬ ∃ f, Denotes (tokens.map Placed.token) f := by
      rintro ⟨f, hf⟩
      rcases gives_ofTokens text.utf8ByteSize hf with hok | ⟨e', he', hdeep⟩
      · rw [hparse] at hok
        cases hok
      · rw [hparse] at he'
        cases he'
        exact hkind hdeep
    rcases hend with ⟨wanted, rfl⟩ | ⟨⟨token, position⟩, hhead, htoken, rfl⟩
    · exact ⟨fun _ => ⟨hviable, hnone, rfl⟩, nofun, fun hother => absurd rfl hother, hoffsets⟩
    · refine ⟨nofun, ?_, fun _ hstray => ?_, hoffsets⟩
      · rintro opener ⟨⟩ -
        exact ⟨hviable, hhead⟩
      · cases hstray rfl
        exact absurd rfl htoken
  · refine ⟨fun hended => ?_, fun opener hopener hnot => ?_, fun _ _ => hfound, hoffsets⟩
    · obtain ⟨_ | _ | _ | _ | _ | _ | _ | _ | _ | _, position⟩ := e <;> cases hended
      cases hcause
    · rw [hopener] at hcause
      exact absurd (of_decide_eq_true hcause) hnot

/-- In `(A & B] | C` the fault is the bracket. -/
theorem parse_error_located_bracket :
    ∃ tokens e, Token.scan "(A & B] | C" = .ok tokens ∧ tokens ≠ [] ∧
      parse "(A & B] | C" = .error e ∧
      e = ⟨.mismatched .rightParen .leftParen 0 .rightBracket, 6⟩ ∧ e.kind ≠ .tooDeep ∧
      Located "(A & B] | C" tokens e := by
  have hscan : Token.scan "(A & B] | C" = .ok [⟨.leftParen, 0⟩, ⟨.ident "A", 1⟩, ⟨.and, 3⟩,
      ⟨.ident "B", 5⟩, ⟨.rightBracket, 6⟩, ⟨.or, 8⟩, ⟨.ident "C", 10⟩] := rfl
  have hparse : parse "(A & B] | C" =
      .error ⟨.mismatched .rightParen .leftParen 0 .rightBracket, 6⟩ := rfl
  exact ⟨_, _, hscan, by simp, hparse, rfl, nofun, parse_error_located hscan (by simp) hparse nofun⟩

end Formula

end TermLogic
