import TermLogic.Proofs.Formula.Acceptance
import TermLogic.Proofs.Formula.Canonical

/-!
# Reading canonical text back

The canonical text of a formula is read as that formula, with "there are" read plainly, or nests too
deep; which of the two is known from the formula.

* `Formula.levels`: the levels that canonical text takes. In a chain of `&`, `|` or `<->` each
  further operand lies one level deeper, so a formula may take more levels without parentheses than
  with them.
* `Formula.accepts_tokens`: canonical tokens are accepted with exactly these levels, by induction on
  the formula.
* `Formula.takes_parse_render`: the same for canonical text.
* `Formula.parse_render_derives`: canonical text against the grammar, and a number of operators that
  does not nest too deep.
* `Formula.parse_render_of_parse`: the canonical text of a formula that has been read.
  `Formula.parse_render_chain`: it may nest too deep although the text it was read from did not.
-/

namespace TermLogic

open Token (Placed)

/-! ### Terms and places -/

/-- The number of operators of a term. -/
def Term.operators : Term → Nat
  | atom _ => 0
  | complement inner | privation inner => inner.operators + 1

/-- The tokens of a term spell it, as high as it has operators. -/
theorem Term.spelt_tokens (t : Term) : Term.Spelt t.operators t.tokens t := by
  induction t with
  | atom name => exact .atom name
  | complement t ih => exact .complement ih
  | privation t ih => exact .privation ih

/-- Every operator of a term costs a level. -/
theorem Term.countP_tokens (t : Term) : t.tokens.countP Token.isNesting = t.operators := by
  induction t with
  | atom name => rfl
  | complement t ih | privation t ih => rw [tokens, List.countP_cons_of_pos rfl, ih, operators]

/-- A term that is spelt with names is writable. -/
theorem Term.isWritable_of_spelt {height : Nat} {ts : List Token} {t : Term}
    (h : Term.Spelt height ts t) (hname : ∀ name, .ident name ∈ ts → Token.isName name = true) :
    t.isWritable = true := by
  induction h with
  | atom name => exact hname name List.mem_cons_self
  | complement _ ih | privation _ ih =>
      exact ih fun name hmem => hname name (List.mem_cons_of_mem _ hmem)

/-- Different places differ in rank. -/
theorem Precedence.eq_of_rank_eq {first second : Precedence} (h : first.rank = second.rank) :
    first = second := by
  cases first <;> cases second <;> simp_all [rank]

/-- No place needs more strength than that of a primary. -/
theorem Precedence.rank_le_primary (place : Precedence) : place.rank ≤ primary.rank := by
  cases place <;> decide

namespace Formula

open TermLogic.Formula.Parser

variable {stop : Nat} {f g : Formula}

/-! ### Levels

Canonical text is a spelling among others, and the levels it takes can be computed from the
formula. -/

/-- The levels of a part in its place: parentheses cost one. -/
def enclosedLevels (place own : Precedence) (levels : Nat) : Nat :=
  if own.rank < place.rank then levels + 1 else levels

/-- The connectives of the chain that a formula ends, if its connective groups to the left: its own
and those of the chain that its left operand ends. -/
def chain : Formula → Nat
  | conjunction f _ => (if f.precedence = .conjunction then f.chain else 0) + 1
  | disjunction f _ => (if f.precedence = .disjunction then f.chain else 0) + 1
  | biconditional f _ => (if f.precedence = .biconditional then f.chain else 0) + 1
  | _ => 0

/-- The chain that a formula ends in a place for that sort of chain. -/
def chainAt (place : Precedence) (f : Formula) : Nat :=
  if f.precedence = place then f.chain else 0

/-- The levels that the canonical text of a formula takes. A right operand lies below all the
connectives of the chain it is joined to. -/
def levels : Formula → Nat
  | atom t | existential t => t.operators
  | universal s p | particular s p => max s.operators p.operators
  | negation f => enclosedLevels .unary f.precedence f.levels + 1
  | conjunction f g =>
    max (enclosedLevels .conjunction f.precedence f.levels)
      (f.chainAt .conjunction + (enclosedLevels .unary g.precedence g.levels + 1))
  | disjunction f g =>
    max (enclosedLevels .disjunction f.precedence f.levels)
      (f.chainAt .disjunction + (enclosedLevels .conjunction g.precedence g.levels + 1))
  | conditional f g =>
    max (enclosedLevels .disjunction f.precedence f.levels)
      (enclosedLevels .conditional g.precedence g.levels + 1)
  | biconditional f g =>
    max (enclosedLevels .biconditional f.precedence f.levels)
      (f.chainAt .biconditional + (enclosedLevels .conditional g.precedence g.levels + 1))

/-- The levels of a formula that stands in a place. -/
def levelsAt (place : Precedence) (f : Formula) : Nat :=
  enclosedLevels place f.precedence f.levels

/-! ### Canonical tokens are accepted

By induction on the formula: canonical tokens put parentheses where the reader would otherwise group
in another way. -/

/-- What is accepted where its own strength is needed is accepted in every place, in parentheses if
need be. -/
theorem accepts_tokensAt (h : Accepts stop f.precedence f.levels f.chain f.tokens f.plain)
    (place : Precedence) :
    Accepts stop place (f.levelsAt place) (f.chainAt place) (f.tokensAt place) f.plain := by
  unfold levelsAt enclosedLevels chainAt tokensAt enclose
  rcases Nat.lt_trichotomy f.precedence.rank place.rank with hlt | heq | hgt
  · have hne : f.precedence ≠ place := by
      rintro rfl
      exact Nat.lt_irrefl _ hlt
    rw [if_pos hlt, if_pos hlt, if_neg hne]
    have hloose : ∃ kept, Accepts stop .biconditional f.levels kept f.tokens f.plain := by
      rcases Nat.eq_zero_or_pos f.precedence.rank with hzero | hpos
      · have hown : f.precedence = .biconditional := Precedence.eq_of_rank_eq hzero
        rw [hown] at h
        exact ⟨_, h⟩
      · exact ⟨0, h.loosen hpos⟩
    obtain ⟨kept, hloose⟩ := hloose
    rcases Nat.eq_or_lt_of_le place.rank_le_primary with hprimary | htight
    · obtain rfl := Precedence.eq_of_rank_eq hprimary
      exact hloose.parenthesised
    · exact hloose.parenthesised.loosen htight
  · obtain rfl := Precedence.eq_of_rank_eq heq
    rw [if_neg (Nat.lt_irrefl _), if_neg (Nat.lt_irrefl _), if_pos rfl]
    exact h
  · have hne : f.precedence ≠ place := by
      rintro rfl
      exact Nat.lt_irrefl _ hgt
    rw [if_neg (Nat.lt_asymm hgt), if_neg (Nat.lt_asymm hgt), if_neg hne]
    exact h.loosen hgt

/-- The canonical tokens of a formula are accepted as that formula, with its levels. -/
theorem accepts_tokens (stop : Nat) (h : f.isWritable = true) :
    Accepts stop f.precedence f.levels f.chain f.tokens f.plain := by
  induction f with
  | atom t =>
      cases t with
      | atom name => exact .name stop name
      | complement t => cases h
      | privation t => cases h
  | universal s p => exact .universal stop s.spelt_tokens p.spelt_tokens
  | particular s p => exact .particular stop s.spelt_tokens p.spelt_tokens
  | existential t =>
      have hboth : Accepts stop .primary (max t.operators t.operators) 0
          (existential t).tokens (particular t t) :=
        .particular stop t.spelt_tokens t.spelt_tokens
      rw [Nat.max_self] at hboth
      exact hboth
  | negation f ih => exact (accepts_tokensAt (ih h) .unary).negation
  | conjunction f g ihf ihg =>
      obtain ⟨hf, hg⟩ := Bool.and_eq_true_iff.1 h
      exact (accepts_tokensAt (ihf hf) .conjunction).conjunction (accepts_tokensAt (ihg hg) .unary)
  | disjunction f g ihf ihg =>
      obtain ⟨hf, hg⟩ := Bool.and_eq_true_iff.1 h
      exact (accepts_tokensAt (ihf hf) .disjunction).disjunction
        (accepts_tokensAt (ihg hg) .conjunction)
  | conditional f g ihf ihg =>
      obtain ⟨hf, hg⟩ := Bool.and_eq_true_iff.1 h
      exact (accepts_tokensAt (ihf hf) .disjunction).conditional
        (accepts_tokensAt (ihg hg) .conditional)
  | biconditional f g ihf ihg =>
      obtain ⟨hf, hg⟩ := Bool.and_eq_true_iff.1 h
      exact (accepts_tokensAt (ihf hf) .biconditional).biconditional
        (accepts_tokensAt (ihg hg) .conditional)

/-- Canonical tokens are read as their formula with as many levels as it takes. -/
theorem takes_biconditional_tokens (stop levels : Nat) (h : f.isWritable = true)
    {tokens : List Placed} (htokens : tokens.map Placed.token = f.tokens) :
    Takes f.levels levels (Parser.biconditional stop levels tokens) (.ok (f.plain, [])) := by
  have haccepts := accepts_tokensAt (accepts_tokens stop h) .biconditional
  have hlevels : f.levelsAt .biconditional = f.levels := by
    simp [levelsAt, enclosedLevels, Precedence.rank]
  rw [tokensAt_biconditional, hlevels, ← htokens] at haccepts
  exact takes_biconditional haccepts levels

/-! ### Canonical text

From tokens to texts: canonical text is scanned as the canonical tokens, so what holds of reading
these holds of reading the text. -/

/-- Reading a text is reading its tokens. -/
theorem parse_of_scan {text : String} {tokens : List Placed} (h : Token.scan text = .ok tokens) :
    parse text = ofTokens text.utf8ByteSize tokens := by
  rw [parse, h]
  rfl

/-- Canonical text is read as its formula if that takes no more levels than there are, and nests too
deep otherwise. -/
theorem takes_parse_render (h : f.isWritable = true) :
    Takes f.levels maxNesting (parse f.render) (.ok f.plain) := by
  obtain ⟨tokens, hscan, htokens⟩ := scan_render h
  obtain ⟨henough, hfew⟩ :=
    takes_biconditional_tokens f.render.utf8ByteSize maxNesting h htokens
  rw [parse_of_scan hscan]
  exact ⟨fun hle => ofTokens_eq_ok_iff.2 (henough hle),
    fun hlt => isTooDeep_ofTokens_iff.2 (hfew hlt)⟩

/-- Canonical tokens spell their formula. -/
theorem denotes_tokens (h : f.isWritable = true) : Denotes f.tokens f.plain := by
  obtain ⟨tokens, -, htokens⟩ := scan_render h
  -- with enough levels they are read, and what is read is spelt
  have hread := (takes_biconditional_tokens 0 f.levels h htokens).1 (Nat.le_refl _)
  rw [← htokens]
  exact denotes_of_biconditional hread

/-! ### Operators

A bound on levels that can be seen without counting them: each connective costs its own token and at
most one pair of parentheses. -/

/-- The number of connectives in a formula. -/
def connectives : Formula → Nat
  | atom _ | universal _ _ | particular _ _ | existential _ => 0
  | negation f => f.connectives + 1
  | conjunction f g | disjunction f g | conditional f g | biconditional f g =>
    f.connectives + g.connectives + 1

/-- The number of operators in the terms of a formula. -/
def termOperators : Formula → Nat
  | atom t | existential t => t.operators
  | universal s p | particular s p => s.operators + p.operators
  | negation f => f.termOperators
  | conjunction f g | disjunction f g | conditional f g | biconditional f g =>
    f.termOperators + g.termOperators

/-- The levels that a formula can cost apart from its own tokens: a pair of parentheses, unless it
needs none anywhere. -/
def parentheses (f : Formula) : Nat :=
  if f.precedence = .primary then 0 else 1

/-- Whatever its place, a formula has at most its parentheses in addition to its own tokens. -/
theorem countP_tokensAt_le (f : Formula) (place : Precedence) :
    (f.tokensAt place).countP Token.isNesting ≤
      f.tokens.countP Token.isNesting + f.parentheses := by
  unfold tokensAt enclose
  split
  · rename_i hlt
    have hne : f.precedence ≠ .primary := by
      intro heq
      rw [heq] at hlt
      exact absurd hlt (Nat.not_lt.2 place.rank_le_primary)
    have hclose : [Token.rightParen].countP Token.isNesting = 0 := rfl
    rw [List.cons_append, List.countP_cons_of_pos rfl, List.countP_append, hclose, parentheses,
      if_neg hne]
  · exact Nat.le_add_right _ _

/-- The tokens of a categorical sentence that cost a level are the operators of its terms. -/
theorem countP_categorical {opener closer : Token} (hopener : ¬ opener.isNesting = true)
    (hcloser : ¬ closer.isNesting = true) (s p : Term) :
    (opener :: s.tokens ++ closer :: p.tokens).countP Token.isNesting =
      s.operators + p.operators := by
  rw [List.cons_append, List.countP_cons_of_neg hopener, List.countP_append,
    List.countP_cons_of_neg hcloser, s.countP_tokens, p.countP_tokens]

/-- Two operands with a connective between them cost at most what both cost, the connective, and
the parentheses around the whole. -/
theorem countP_join_le {f g : Formula} {k l : Nat} (place inner : Precedence) (connective : Token)
    (hconn : connective.isNesting = true)
    (hf : f.tokens.countP Token.isNesting + f.parentheses ≤ k)
    (hg : g.tokens.countP Token.isNesting + g.parentheses ≤ l) :
    (f.tokensAt place ++ connective :: g.tokensAt inner).countP Token.isNesting + 1 ≤
      k + l + 2 := by
  have hfirst := f.countP_tokensAt_le place
  have hsecond := g.countP_tokensAt_le inner
  rw [List.countP_append, List.countP_cons_of_pos hconn]
  omega

/-- Each connective brings at most two tokens that cost a level into canonical text, and each term
operator one. -/
theorem countP_tokens_le (f : Formula) :
    f.tokens.countP Token.isNesting + f.parentheses ≤
      2 * f.plain.connectives + f.plain.termOperators := by
  induction f with
  | atom t =>
      have hown : (atom t).tokens.countP Token.isNesting = t.operators := t.countP_tokens
      show _ + 0 ≤ 2 * 0 + t.operators
      omega
  | universal s p =>
      have hown : (universal s p).tokens.countP Token.isNesting = s.operators + p.operators :=
        countP_categorical (by decide) (by decide) s p
      show _ + 0 ≤ 2 * 0 + (s.operators + p.operators)
      omega
  | particular s p =>
      have hown : (particular s p).tokens.countP Token.isNesting = s.operators + p.operators :=
        countP_categorical (by decide) (by decide) s p
      show _ + 0 ≤ 2 * 0 + (s.operators + p.operators)
      omega
  | existential t =>
      have hown : (existential t).tokens.countP Token.isNesting = t.operators + t.operators :=
        countP_categorical (by decide) (by decide) t t
      show _ + 0 ≤ 2 * 0 + (t.operators + t.operators)
      omega
  | negation f ih =>
      have hinner := f.countP_tokensAt_le .unary
      have hown : (negation f).tokens.countP Token.isNesting =
          (f.tokensAt .unary).countP Token.isNesting + 1 := List.countP_cons_of_pos rfl
      show _ + 1 ≤ 2 * (f.plain.connectives + 1) + f.plain.termOperators
      omega
  | conjunction f g ihf ihg =>
      have hown := countP_join_le .conjunction .unary .and rfl ihf ihg
      show _ + 1 ≤ 2 * (f.plain.connectives + g.plain.connectives + 1) +
        (f.plain.termOperators + g.plain.termOperators)
      exact Nat.le_trans hown (by omega)
  | disjunction f g ihf ihg =>
      have hown := countP_join_le .disjunction .conjunction .or rfl ihf ihg
      show _ + 1 ≤ 2 * (f.plain.connectives + g.plain.connectives + 1) +
        (f.plain.termOperators + g.plain.termOperators)
      exact Nat.le_trans hown (by omega)
  | conditional f g ihf ihg =>
      have hown := countP_join_le .disjunction .conditional .imply rfl ihf ihg
      show _ + 1 ≤ 2 * (f.plain.connectives + g.plain.connectives + 1) +
        (f.plain.termOperators + g.plain.termOperators)
      exact Nat.le_trans hown (by omega)
  | biconditional f g ihf ihg =>
      have hown := countP_join_le .biconditional .conditional .iff rfl ihf ihg
      show _ + 1 ≤ 2 * (f.plain.connectives + g.plain.connectives + 1) +
        (f.plain.termOperators + g.plain.termOperators)
      exact Nat.le_trans hown (by omega)

/-- Canonical text with few enough operators does not nest too deep. -/
theorem not_isTooDeep_parse_render (h : f.isWritable = true)
    (hfew : 2 * f.plain.connectives + f.plain.termOperators ≤ maxNesting) :
    ¬ IsTooDeep (parse f.render) := by
  obtain ⟨tokens, hscan, htokens⟩ := scan_render h
  intro hdeep
  rw [parse_of_scan hscan] at hdeep
  have hcount : nesting tokens = f.tokens.countP Token.isNesting := by
    rw [← htokens, List.countP_map]
    rfl
  have hmany := lt_nesting_of_isTooDeep hdeep
  have hle := f.countP_tokens_le
  omega

/-- **Canonical text against the grammar.** The tokens of the canonical text of a writable formula
spell that formula, with "there are" read plainly, and no other one. So the text is read as this
formula or nests too deep, and it is read if twice the number of connectives and the number of term
operators are at most 256 together. -/
theorem parse_render_derives (h : f.isWritable = true) :
    ∃ tokens, Token.scan f.render = .ok tokens ∧
      Denotes (tokens.map Placed.token) f.plain ∧
      (∀ g, Denotes (tokens.map Placed.token) g → g = f.plain) ∧
      (parse f.render = .ok f.plain ∨ ∃ e, parse f.render = .error e ∧ e.kind = .tooDeep) ∧
      (2 * f.plain.connectives + f.plain.termOperators ≤ 256 →
        parse f.render = .ok f.plain) := by
  obtain ⟨tokens, hscan, htokens⟩ := scan_render h
  have hspelt : Denotes (tokens.map Placed.token) f.plain := by
    rw [htokens]
    exact denotes_tokens h
  have hgives := (takes_parse_render h).gives
  refine ⟨tokens, hscan, hspelt, fun g hg => hg.unique hspelt, hgives, fun hfew => ?_⟩
  exact hgives.resolve_right (not_isTooDeep_parse_render h hfew)

/-- A disjunction under a negation in front of "there are" is read back from `-(A | B) & <~S>~S`. -/
theorem parse_render_derives_mixed :
    ∃ f : Formula, f = conjunction
        (negation (disjunction (atom (.atom "A")) (atom (.atom "B"))))
        (existential (.complement (.atom "S"))) ∧
      f.render = "-(A | B) & <~S>~S" ∧ f.isWritable = true ∧
      2 * f.plain.connectives + f.plain.termOperators ≤ 256 ∧
      parse f.render = .ok (conjunction
        (negation (disjunction (atom (.atom "A")) (atom (.atom "B"))))
        (particular (.complement (.atom "S")) (.complement (.atom "S")))) := by
  have hwritable : (conjunction (negation (disjunction (atom (.atom "A")) (atom (.atom "B"))))
      (existential (.complement (.atom "S")))).isWritable = true := rfl
  obtain ⟨tokens, -, -, -, -, hread⟩ := parse_render_derives hwritable
  exact ⟨_, rfl, rfl, hwritable, by decide, hread (by decide)⟩

/-! ### Text that has been read

What has been read is writable, so canonical text can be made of it. It may still take more levels
than the text that was read: parentheses that canonical text leaves out may have kept a part from
lying below the connectives of a chain. -/

/-- A formula that is spelt with names is writable, and has no "there are". -/
theorem isWritable_of_spelt {place : Precedence} {height : Nat} {ts : List Token} {f : Formula}
    (h : Spelt place height ts f) (hname : ∀ name, .ident name ∈ ts → Token.isName name = true) :
    f.isWritable = true ∧ f.plain = f := by
  -- the names of both sides of a token are among the names of the whole
  have hsides : ∀ {ts us : List Token} {token : Token},
      (∀ name, .ident name ∈ ts ++ token :: us → Token.isName name = true) →
      (∀ name, .ident name ∈ ts → Token.isName name = true) ∧
        ∀ name, .ident name ∈ us → Token.isName name = true := by
    intro ts us token hname
    exact ⟨fun name hmem => hname name (List.mem_append_left _ hmem),
      fun name hmem => hname name (List.mem_append_right _ (List.mem_cons_of_mem _ hmem))⟩
  induction h with
  | name name => exact ⟨hname name List.mem_cons_self, rfl⟩
  | universal hs hp | particular hs hp =>
      obtain ⟨hfirst, hsecond⟩ := hsides hname
      refine ⟨Bool.and_eq_true_iff.2 ⟨?_, Term.isWritable_of_spelt hp hsecond⟩, rfl⟩
      exact Term.isWritable_of_spelt hs fun name hmem => hfirst name (List.mem_cons_of_mem _ hmem)
  | parenthesised _ ih =>
      obtain ⟨hfirst, -⟩ := hsides hname
      exact ih fun name hmem => hfirst name (List.mem_cons_of_mem _ hmem)
  | negation _ ih =>
      obtain ⟨hwritable, hplain⟩ := ih fun name hmem => hname name (List.mem_cons_of_mem _ hmem)
      exact ⟨hwritable, congrArg negation hplain⟩
  | conjunction _ _ ihf ihg | disjunction _ _ ihf ihg | conditional _ _ ihf ihg
  | biconditional _ _ ihf ihg =>
      obtain ⟨hfirst, hsecond⟩ := hsides hname
      obtain ⟨hf, hplainf⟩ := ihf hfirst
      obtain ⟨hg, hplaing⟩ := ihg hsecond
      exact ⟨Bool.and_eq_true_iff.2 ⟨hf, hg⟩, by rw [plain, hplainf, hplaing]⟩
  | loosen _ _ ih => exact ih hname

/-- What a text is read as is writable, and has no "there are". -/
theorem isWritable_of_parse {text : String} (h : parse text = .ok f) :
    f.isWritable = true ∧ f.plain = f := by
  unfold parse at h
  cases hscan : Token.scan text with
  | error e =>
      rw [hscan] at h
      cases h
  | ok tokens =>
      rw [hscan] at h
      obtain ⟨height, hspelt⟩ := denotes_of_ofTokens h
      refine isWritable_of_spelt hspelt fun name hmem => ?_
      obtain ⟨⟨token, position⟩, hfound, rfl⟩ := List.mem_map.1 hmem
      exact Token.isName_of_mem_scan hscan hfound

/-- **Reading canonical text of what has been read.** The canonical text of a formula that has been
read is read as the same formula if this takes at most 256 levels, and nests too deep otherwise. -/
theorem parse_render_of_parse {text : String} (h : parse text = .ok f) :
    (f.levels ≤ 256 → parse f.render = .ok f) ∧
    (256 < f.levels → ∃ e, parse f.render = .error e ∧ e.kind = .tooDeep) := by
  obtain ⟨hwritable, hplain⟩ := isWritable_of_parse h
  have htakes := takes_parse_render hwritable
  rw [hplain] at htakes
  exact htakes

/-- The parentheses of `((A -> B)) & C`, of which canonical text keeps one pair. -/
theorem parse_render_of_parse_conditional :
    ∃ f, parse "((A -> B)) & C" = .ok f ∧ f.levels ≤ 256 ∧ f.render = "(A -> B) & C" ∧
      parse f.render = .ok f := by
  have hparse : parse "((A -> B)) & C" = .ok (conjunction
      (conditional (atom (.atom "A")) (atom (.atom "B"))) (atom (.atom "C"))) := rfl
  exact ⟨_, hparse, by decide, rfl, (parse_render_of_parse hparse).1 (by decide)⟩

/-- The text `(A & B) & -…-A` with 255 negations is read, but its canonical text, which has no
parentheses, nests too deep: the negations lie one level deeper in the chain `A & B & -…-A`. -/
theorem parse_render_chain :
    ∃ text f, text = "(A & B) & " ++ String.ofList (List.replicate 255 '-') ++ "A" ∧
      parse text = .ok f ∧
      f.render = "A & B & " ++ String.ofList (List.replicate 255 '-') ++ "A" ∧
      ∃ e, parse f.render = .error e ∧ e.kind = .tooDeep := by
  have htext : ("(A & B) & " ++ String.ofList (List.replicate 255 '-') ++ "A").toList =
      "(A & B) & ".toList ++ List.replicate 255 '-' ++ "A".toList := by
    simp only [String.toList_append, String.toList_ofList]
  refine ⟨_, conjunction (conjunction (atom (.atom "A")) (atom (.atom "B")))
    (negation^[255] (atom (.atom "A"))), rfl, ?_, ?_, ?_⟩
  · rw [parse, Token.scan, htext]
    decide +kernel
  · decide +kernel
  · exact (takes_parse_render (by decide +kernel)).2 (by decide +kernel)

end Formula

end TermLogic
