import TermLogic.Proofs.Formula.RoundTrip

/-!
# Canonical text has the fewest parentheses

Whatever tokens spell a formula, they have at least as many opening parentheses as its canonical
text. So none of these can be left out.

* `Formula.count_tokensAt_le`: a formula needs no more parentheses in a looser place.
* `Formula.count_tokensAt_le_of_spelt`: no spelling at a place has fewer parentheses than the
  canonical one, by induction on the spelling.
* `Token.count_leftParen_scan`: the scanner finds as many opening parentheses as there are in the
  text.
* `Formula.render_fewest_parentheses`: both together, and what is left of canonical text without a
  pair of parentheses.
-/

namespace TermLogic

open Token (Placed)

/-! ### Spellings

By induction on the spelling. A pair of parentheses is needed only where a formula binds less
tightly than its place asks for, and there every spelling has one. -/

/-- A term is spelt in one way. -/
theorem Term.Spelt.eq_tokens {height : Nat} {ts : List Token} {t : Term}
    (h : Term.Spelt height ts t) : ts = t.tokens := by
  induction h with
  | atom name => rfl
  | complement _ ih | privation _ ih => rw [ih, Term.tokens]

namespace Formula

variable {f : Formula} {place own : Precedence}

/-- In a looser place a formula needs no more parentheses. -/
theorem count_tokensAt_le (f : Formula) (hrank : place.rank ≤ own.rank) :
    (f.tokensAt place).count .leftParen ≤ (f.tokensAt own).count .leftParen := by
  unfold tokensAt enclose
  by_cases hplace : f.precedence.rank < place.rank
  · rw [if_pos hplace, if_pos (Nat.lt_of_lt_of_le hplace hrank)]
  · rw [if_neg hplace]
    split
    · exact (List.infix_append' [.leftParen] f.tokens [.rightParen]).sublist.count_le _
    · exact Nat.le_refl _

/-- Wherever it stands, a formula needs one pair of parentheses around it at most. -/
theorem count_tokensAt_le_succ (f : Formula) (place : Precedence) :
    (f.tokensAt place).count .leftParen ≤ f.tokens.count .leftParen + 1 := by
  unfold tokensAt enclose
  split <;> simp

/-- No spelling at a place has fewer opening parentheses than the canonical one. -/
theorem count_tokensAt_le_of_spelt {height : Nat} {ts : List Token} (h : Spelt place height ts f) :
    (f.tokensAt place).count .leftParen ≤ ts.count .leftParen := by
  -- two operands around a connective, which is no parenthesis
  have hjoin : ∀ {ts us vs ws : List Token} {connective : Token}, connective ≠ .leftParen →
      ts.count .leftParen ≤ vs.count .leftParen → us.count .leftParen ≤ ws.count .leftParen →
      (ts ++ connective :: us).count .leftParen ≤ (vs ++ connective :: ws).count .leftParen := by
    intro ts us vs ws connective hne hleft hright
    rw [List.count_append, List.count_append, List.count_cons_of_ne hne, List.count_cons_of_ne hne]
    exact Nat.add_le_add hleft hright
  induction h with
  | name name => exact Nat.le_refl _
  | universal hs hp | particular hs hp =>
      rw [hs.eq_tokens, hp.eq_tokens]
      exact Nat.le_refl _
  | @parenthesised h ts f _ ih =>
      rw [tokensAt_biconditional] at ih
      calc (f.tokensAt .primary).count .leftParen
          ≤ f.tokens.count .leftParen + 1 := f.count_tokensAt_le_succ .primary
        _ ≤ ts.count .leftParen + 1 := Nat.succ_le_succ ih
        _ = List.count .leftParen (.leftParen :: ts ++ [.rightParen]) := by simp
  | @negation h ts f _ ih =>
      have hown : f.negation.tokensAt .unary = .not :: f.tokensAt .unary := rfl
      simpa [hown] using ih
  | conjunction _ _ ihf ihg => exact hjoin nofun ihf ihg
  | disjunction _ _ ihf ihg => exact hjoin nofun ihf ihg
  | conditional _ _ ihf ihg => exact hjoin nofun ihf ihg
  | biconditional _ _ ihf ihg => exact hjoin nofun ihf ihg
  | loosen hrank _ ih => exact Nat.le_trans (count_tokensAt_le _ (Nat.le_of_lt hrank)) ih

/-- Tokens that spell a formula have at least as many opening parentheses as its canonical ones. -/
theorem Denotes.count_tokens_le {ts : List Token} (h : Denotes ts f) :
    f.tokens.count .leftParen ≤ ts.count .leftParen := by
  obtain ⟨height, hspelt⟩ := h
  have hle := count_tokensAt_le_of_spelt hspelt
  rwa [tokensAt_biconditional] at hle

end Formula

/-! ### Texts

Parentheses are counted in texts, where one could be taken out, and compared in tokens, where
spellings are known. -/

namespace Token

/-- Putting a word character in front of tokens adds no parenthesis. -/
theorem count_consWordChar (c : Char) (position : Nat) (tokens : List Placed) :
    ((consWordChar c position tokens).map Placed.token).count leftParen =
      (tokens.map Placed.token).count leftParen := by
  unfold consWordChar
  split
  · split <;> simp
  · simp

/-- The scanner finds as many opening parentheses as there are in the text. -/
theorem count_leftParen_scanFrom {position : Nat} {text : List Char} {tokens : List Placed}
    (h : scanFrom position text = .ok tokens) :
    (tokens.map Placed.token).count leftParen = text.count '(' := by
  fun_induction scanFrom position text generalizing tokens with
  | case1 position =>
      cases h
      rfl
  | case2 position rest ih | case3 position rest ih =>
      obtain ⟨others, hothers, rfl⟩ := map_eq_ok_iff.1 h
      simpa using ih hothers
  | case4 position c rest _ _ hblank ih =>
      have hne : c ≠ '(' := by
        rintro rfl
        cases hblank
      rw [ih h, List.count_cons_of_ne hne]
  | case5 position c rest _ _ hblank hc ih =>
      obtain ⟨others, hothers, rfl⟩ := map_eq_ok_iff.1 h
      rw [count_consWordChar, ih hothers, List.count_cons_of_ne (ne_of_isWordChar hc rfl)]
  | case6 position c rest _ _ hblank hc symbol hsymbol ih =>
      obtain ⟨others, hothers, rfl⟩ := map_eq_ok_iff.1 h
      have hsame : (symbol == leftParen) = (c == '(') := by
        unfold ofSymbol? at hsymbol
        split at hsymbol <;> cases hsymbol <;> rfl
      rw [List.map_cons, List.count_cons, List.count_cons, ih hothers, hsame]
  | case7 => cases h

/-- The scanner finds as many opening parentheses as there are in the text. -/
theorem count_leftParen_scan {text : String} {tokens : List Placed} (h : scan text = .ok tokens) :
    (tokens.map Placed.token).count leftParen = text.toList.count '(' :=
  count_leftParen_scanFrom h

end Token

namespace Formula

variable {f : Formula}

/-- **Canonical text has the fewest parentheses.** The canonical text of a writable formula spells
the formula, with "there are" read plainly, and all tokens that spell it have at least as many
opening parentheses as this text. Without an opening and a later closing parenthesis, the text does
not spell the formula any more. -/
theorem render_fewest_parentheses (h : f.isWritable = true) :
    ∃ tokens, Token.scan f.render = .ok tokens ∧ Denotes (tokens.map Placed.token) f.plain ∧
      (∀ ts, Denotes ts f.plain →
        (tokens.map Placed.token).count .leftParen ≤ ts.count .leftParen) ∧
      ∀ before inner behind : List Char,
        f.render.toList = before ++ '(' :: inner ++ ')' :: behind →
        (¬ ∃ fewer, Token.scan (String.ofList (before ++ inner ++ behind)) = .ok fewer ∧
          Denotes (fewer.map Placed.token) f.plain) ∧
        parse (String.ofList (before ++ inner ++ behind)) ≠ .ok f.plain := by
  obtain ⟨tokens, hscan, htokens⟩ := scan_render h
  have hfewest : ∀ ts, Denotes ts f.plain →
      (tokens.map Placed.token).count .leftParen ≤ ts.count .leftParen := by
    intro ts hts
    have hle := hts.count_tokens_le
    rwa [tokens_plain, ← htokens] at hle
  have hspelt : Denotes (tokens.map Placed.token) f.plain := by
    rw [htokens]
    exact denotes_tokens h
  refine ⟨tokens, hscan, hspelt, hfewest, fun before inner behind htext => ?_⟩
  have hnone : ¬ ∃ fewer, Token.scan (String.ofList (before ++ inner ++ behind)) = .ok fewer ∧
      Denotes (fewer.map Placed.token) f.plain := by
    rintro ⟨fewer, hfewer, hspelt⟩
    have hle := hfewest _ hspelt
    rw [Token.count_leftParen_scan hscan, Token.count_leftParen_scan hfewer, htext,
      String.toList_ofList] at hle
    simp only [List.append_assoc, List.cons_append, List.count_append, List.count_cons_self,
      List.count_cons] at hle
    omega
  refine ⟨hnone, fun hparse => hnone ?_⟩
  cases hfewer : Token.scan (String.ofList (before ++ inner ++ behind)) with
  | error e =>
      rw [parse, hfewer] at hparse
      cases hparse
  | ok fewer =>
      rw [parse_of_scan hfewer] at hparse
      exact ⟨fewer, rfl, denotes_of_ofTokens hparse⟩

/-- Without its parentheses, `(A | <S>S) & -(B -> C)` is another formula or none. -/
theorem render_fewest_parentheses_mixed :
    ∃ f : Formula, f = conjunction (disjunction (atom (.atom "A")) (existential (.atom "S")))
        (negation (conditional (atom (.atom "B")) (atom (.atom "C")))) ∧
      f.isWritable = true ∧ f.render = "(A | <S>S) & -(B -> C)" ∧
      (∃ ts, Denotes ts f.plain ∧ ts.count .leftParen = 2) ∧
      (∀ ts, Denotes ts f.plain → 2 ≤ ts.count .leftParen) ∧
      parse "A | <S>S & -(B -> C)" ≠ .ok f.plain ∧ parse "(A | <S>S) & -B -> C" ≠ .ok f.plain := by
  have hwritable : (conjunction (disjunction (atom (.atom "A")) (existential (.atom "S")))
      (negation (conditional (atom (.atom "B")) (atom (.atom "C"))))).isWritable = true := rfl
  obtain ⟨tokens, hscan, hspelt, hfewest, hless⟩ := render_fewest_parentheses hwritable
  have htwo : (tokens.map Placed.token).count .leftParen = 2 := Token.count_leftParen_scan hscan
  rw [htwo] at hfewest
  exact ⟨_, rfl, hwritable, rfl, ⟨_, hspelt, htwo⟩, hfewest,
    (hless [] "A | <S>S".toList " & -(B -> C)".toList rfl).2,
    (hless "(A | <S>S) & -".toList "B -> C".toList [] rfl).2⟩

end Formula

end TermLogic
