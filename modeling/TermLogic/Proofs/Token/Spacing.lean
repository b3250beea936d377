import TermLogic.Proofs.Token.LongestMatch

/-!
# Spaced tokens

A text is read as tokens exactly if it is made of their spellings, in order and with blanks before,
between and behind them, and a blank wherever two spellings next to each other would be read as
something else. Any other text has a character outside the alphabet, and is refused at the first.

* `Token.IsLegal`: the characters of the alphabet.
* `Token.runsInto`: the neighbours that need a blank between them.
* `Token.Spaced`, `Token.WellSpaced`: tokens with the gaps before them, and gaps that keep them
  apart.
* `Token.place`: the byte offsets at which spaced tokens stand.
* `Token.scanFrom_wellSpaced`, `Token.Munched.exists_wellSpaced`, `Token.Munched.exists_illegal`:
  the parts of the main statement. That tokens are kept apart is what taking the longest match
  comes to.
* `Token.scan_exact`: the main statement.
-/

namespace TermLogic.Token

/-! ### The alphabet

Three classes of characters make up the alphabet: word characters, blanks, and the characters of
symbols. -/

/-- The characters that formula text may have. -/
def IsLegal (c : Char) : Prop :=
  'A' ≤ c ∧ c ≤ 'Z' ∨ 'a' ≤ c ∧ c ≤ 'z' ∨ '0' ≤ c ∧ c ≤ '9' ∨ c = '_' ∨
    c ∈ [' ', '\t', '\r', '\n'] ∨ c ∈ ['(', ')', '[', ']', '<', '>', '&', '|', '-', '~', '^']

/-- Word characters are letters, digits and the underscore. -/
theorem isWordChar_iff {c : Char} :
    isWordChar c = true ↔
      'A' ≤ c ∧ c ≤ 'Z' ∨ 'a' ≤ c ∧ c ≤ 'z' ∨ '0' ≤ c ∧ c ≤ '9' ∨ c = '_' := by
  have hupper : c.isUpper = true ↔ 'A' ≤ c ∧ c ≤ 'Z' := decide_eq_true_iff
  have hlower : c.isLower = true ↔ 'a' ≤ c ∧ c ≤ 'z' := by
    refine (Bool.and_eq_true _ _).to_iff.trans (and_congr ?_ ?_) <;> exact decide_eq_true_iff
  have hdigit : c.isDigit = true ↔ '0' ≤ c ∧ c ≤ '9' := by
    refine (Bool.and_eq_true _ _).to_iff.trans (and_congr ?_ ?_) <;> exact decide_eq_true_iff
  have hclasses : isWordChar c = ((c.isUpper || c.isLower || c.isDigit) || decide (c = '_')) := rfl
  rw [hclasses, Bool.or_eq_true, Bool.or_eq_true, Bool.or_eq_true, hupper, hlower, hdigit,
    decide_eq_true_iff, or_assoc, or_assoc]

/-- The characters of the alphabet are those of the three classes. -/
theorem isLegal_iff {c : Char} :
    IsLegal c ↔ isWordChar c = true ∨ isBlank c = true ∨ ofSymbol? c ≠ none := by
  have hblank : c ∈ [' ', '\t', '\r', '\n'] ↔ isBlank c = true := by simp [isBlank, or_assoc]
  have hsymbol : c ∈ ['(', ')', '[', ']', '<', '>', '&', '|', '-', '~', '^'] ↔
      ofSymbol? c ≠ none := by
    constructor
    · intro h
      simp only [List.mem_cons, List.not_mem_nil, or_false] at h
      rcases h with rfl | rfl | rfl | rfl | rfl | rfl | rfl | rfl | rfl | rfl | rfl <;> decide
    · intro h
      unfold ofSymbol? at h
      split at h
      all_goals first | exact absurd rfl h | decide
  rw [isWordChar_iff, ← hblank, ← hsymbol]
  simp only [IsLegal, or_assoc]

/-- The characters of spellings are of the alphabet. -/
theorem isLegal_of_mem_spelling {token : Token}
    (hname : ∀ name, token = ident name → isName name = true) {c : Char}
    (h : c ∈ token.spelling) : IsLegal c := by
  cases token with
  | ident name =>
      have hword := hname name rfl
      rw [isName, Bool.and_eq_true, List.all_eq_true] at hword
      exact isLegal_iff.2 (.inl (hword.2 c h))
  | imply =>
      simp only [spelling, List.mem_cons, List.not_mem_nil, or_false] at h
      rcases h with rfl | rfl <;> simp [IsLegal]
  | iff =>
      simp only [spelling, List.mem_cons, List.not_mem_nil, or_false] at h
      rcases h with rfl | rfl | rfl <;> simp [IsLegal]
  | _ =>
      rw [List.mem_singleton.1 h]
      simp [IsLegal]

/-- A character that no rule but the last matches is outside the alphabet. -/
theorem not_isLegal_of_lexeme? {c : Char} (h : lexeme? [c] = some (.unknown c)) : ¬ IsLegal c := by
  rw [isLegal_iff]
  rintro (hword | hblank | hsymbol)
  · have hname : ∀ name, ident (String.ofList [c]) = ident name → isName name = true := by
      rintro _ ⟨⟩
      exact isName_iff.2 ⟨c, [], rfl, hword, List.forall_mem_nil _⟩
    have hspelling := lexeme?_spelling hname
    rw [spelling, String.toList_ofList, h] at hspelling
    cases hspelling
  · have hgap : ∀ d ∈ [c], isBlank d = true := List.forall_mem_singleton.2 hblank
    have hblanks : Munches ([c] ++ []) .blanks [c] [] :=
      munches_blanks (List.cons_ne_nil c []) hgap (by simp)
    cases h.symm.trans hblanks.matched
  · obtain ⟨token, htoken⟩ := Option.ne_none_iff_exists'.1 hsymbol
    have hident := ofSymbol?_ne_ident htoken
    have hspelling : lexeme? token.spelling = some (.token token) :=
      lexeme?_spelling fun name heq => absurd heq (hident name)
    rw [(spelling_of_ofSymbol? htoken).1, h] at hspelling
    cases hspelling

/-! ### Gaps

A gap is what stands before a token, and what stands behind the last one is kept apart from the
list. Then a list of spaced tokens can be taken apart at its head, with the gap that belongs
there. -/

/-- Whether a token next to another is read as something else than the two. -/
def runsInto : Token → Token → Bool
  | ident _, ident _ => true
  | not, rightAngle => true
  | leftAngle, imply => true
  | _, _ => false

/-- A token with what stands between it and the token before it. -/
structure Spaced where
  /-- What stands before the token. -/
  gap : List Char
  /-- The token. -/
  token : Token

/-- The characters of a token together with its gap. -/
def Spaced.text (piece : Spaced) : List Char :=
  piece.gap ++ piece.token.spelling

/-- Tokens that are kept apart by blanks. -/
structure WellSpaced (pieces : List Spaced) : Prop where
  /-- Gaps are runs of blanks, which may be empty. -/
  blank : ∀ piece ∈ pieces, ∀ c ∈ piece.gap, isBlank c = true
  /-- Identifiers have names. -/
  isName : ∀ piece ∈ pieces, ∀ name, piece.token = ident name → isName name = true
  /-- A gap is not empty where two tokens would run into each other. -/
  apart : pieces.IsChain fun piece next =>
    piece.token.runsInto next.token = true → next.gap ≠ []

/-- Spaced tokens with the byte offsets of their spellings, if the first gap starts at `start`. -/
def place : (start : Nat) → List Spaced → List Placed
  | _, [] => []
  | start, piece :: others =>
    ⟨piece.token, start + (String.ofList piece.gap).utf8ByteSize⟩ ::
      place (start + (String.ofList piece.text).utf8ByteSize) others

/-- All but the first of well-spaced tokens. -/
theorem WellSpaced.tail {piece : Spaced} {others : List Spaced} (h : WellSpaced (piece :: others)) :
    WellSpaced others :=
  ⟨fun p hp => h.blank p (List.mem_cons_of_mem piece hp),
    fun p hp => h.isName p (List.mem_cons_of_mem piece hp), h.apart.tail⟩

/-- A token in front of well-spaced ones. -/
theorem WellSpaced.cons {piece : Spaced} {others : List Spaced} (h : WellSpaced others)
    (hblank : ∀ c ∈ piece.gap, isBlank c = true)
    (hname : ∀ name, piece.token = ident name → Token.isName name = true)
    (hnext : ∀ next ∈ others.head?, piece.token.runsInto next.token = true → next.gap ≠ []) :
    WellSpaced (piece :: others) :=
  ⟨List.forall_mem_cons.2 ⟨hblank, h.blank⟩, List.forall_mem_cons.2 ⟨hname, h.isName⟩,
    h.apart.cons hnext⟩

/-! ### Reading spaced tokens

From spaced tokens to what the scanner finds: by induction on the tokens, each of which ends before
what follows it. -/

section

variable {first second : Token} {rest : List Char}

/-- Every token ends before a blank, and where the text does. -/
theorem endsBefore_of_blank (first : Token) (h : ∀ c ∈ rest.head?, isBlank c = true) :
    first.EndsBefore rest := by
  have hne : ∀ {c : Char} {more : List Char}, isBlank c = false → ¬ c :: more <+: rest := by
    rintro c more hc ⟨after, rfl⟩
    rw [h c rfl] at hc
    cases hc
  cases first with
  | ident name =>
      intro c hc
      by_contra hword
      rw [Bool.not_eq_false] at hword
      have hblank := isBlank_of_isWordChar hword
      rw [h c hc] at hblank
      cases hblank
  | not | leftAngle => exact hne rfl
  | _ => trivial

/-- A token ends before another that it does not run into, if that one ends before what follows. -/
theorem endsBefore_spelling (hruns : first.runsInto second = false)
    (hname : ∀ name, second = ident name → isName name = true) (hends : second.EndsBefore rest) :
    first.EndsBefore (second.spelling ++ rest) := by
  -- a name starts with no symbol
  have hword : ∀ {name : String} {c : Char} {more : List Char}, second = ident name →
      isWordChar c = false → ¬ c :: more <+: second.spelling ++ rest := by
    rintro name c more rfl hc hpre
    obtain ⟨d, ds, rfl, hd, -⟩ := isName_iff.1 (hname name rfl)
    rw [spelling, String.toList_ofList] at hpre
    exact ne_of_isWordChar hd hc (List.cons_prefix_cons.1 hpre).1.symm
  cases first with
  | ident name =>
      cases second with
      | ident name => cases hruns
      | _ => rintro c ⟨⟩; rfl
  | not =>
      cases second with
      | ident name => exact hword rfl rfl
      | rightAngle => cases hruns
      | _ => exact fun hpre => absurd (List.cons_prefix_cons.1 hpre).1 (by decide)
  | leftAngle =>
      cases second with
      | ident name => exact hword rfl rfl
      | not => exact fun hpre => hends (List.cons_prefix_cons.1 hpre).2
      | imply => cases hruns
      | _ => exact fun hpre => absurd (List.cons_prefix_cons.1 hpre).1 (by decide)
  | _ => trivial

end

section

variable {piece : Spaced} {pieces : List Spaced} {last : List Char}

/-- Of well-spaced tokens, each ends before what follows it. -/
theorem WellSpaced.endsBefore (h : WellSpaced (piece :: pieces))
    (hlast : ∀ c ∈ last, isBlank c = true) :
    piece.token.EndsBefore (pieces.flatMap Spaced.text ++ last) := by
  induction pieces generalizing piece with
  | nil => exact endsBefore_of_blank _ fun c hc => hlast c (List.mem_of_mem_head? hc)
  | cons next others ih =>
      rw [List.flatMap_cons, Spaced.text, List.append_assoc, List.append_assoc]
      rcases hgap : next.gap with _ | ⟨c, gap⟩
      · have hruns : piece.token.runsInto next.token = false :=
          Bool.eq_false_iff.2 fun hruns => (List.isChain_cons_cons.1 h.apart).1 hruns hgap
        exact endsBefore_spelling hruns (h.tail.isName next List.mem_cons_self) (ih h.tail)
      · refine endsBefore_of_blank _ ?_
        rintro _ ⟨⟩
        exact h.tail.blank next List.mem_cons_self c (by simp [hgap])

/-- Well-spaced tokens are read as they stand. -/
theorem scanFrom_wellSpaced (h : WellSpaced pieces) (hlast : ∀ c ∈ last, isBlank c = true)
    (start : Nat) :
    scanFrom start (pieces.flatMap Spaced.text ++ last) = .ok (place start pieces) := by
  induction pieces generalizing start with
  | nil =>
      have hscan := scanFrom_blanks hlast start []
      rwa [List.append_nil] at hscan
  | cons piece others ih =>
      have hname := h.isName piece List.mem_cons_self
      have hnext : start + (String.ofList piece.gap).utf8ByteSize +
          (String.ofList piece.token.spelling).utf8ByteSize =
          start + (String.ofList piece.text).utf8ByteSize := by
        rw [Spaced.text, String.ofList_append, String.utf8ByteSize_append, Nat.add_assoc]
      calc scanFrom start ((piece :: others).flatMap Spaced.text ++ last)
          = scanFrom (start + (String.ofList piece.gap).utf8ByteSize)
              (piece.token.spelling ++ (others.flatMap Spaced.text ++ last)) := by
            rw [← scanFrom_blanks (h.blank piece List.mem_cons_self)]
            simp only [List.flatMap_cons, Spaced.text, List.append_assoc]
        _ = (⟨piece.token, start + (String.ofList piece.gap).utf8ByteSize⟩ :: ·) <$>
              scanFrom (start + (String.ofList piece.text).utf8ByteSize)
                (others.flatMap Spaced.text ++ last) := by
            rw [scanFrom_spelling hname (h.endsBefore hlast), ← utf8ByteSize_spelling hname, hnext]
        _ = .ok (place start (piece :: others)) := by
            rw [ih h.tail]
            rfl

end

/-! ### Spacing of texts that are read

From what is found back to spaced tokens, by induction on how the text is taken apart. Two tokens
that run into each other cannot stand side by side in it: some rule would have matched both
together, which is longer than the first. -/

/-- What a rule makes a token of is the spelling of the token. -/
theorem spelling_of_lexeme? {cs : List Char} {token : Token}
    (h : lexeme? cs = some (.token token)) :
    cs = token.spelling ∧ ∀ name, token = ident name → isName name = true := by
  rcases lexeme?_cases h with ⟨-, -, heq⟩ | ⟨name, hname, hcs, heq⟩ | ⟨symbol, hsymbol, hcs, heq⟩ |
    ⟨c, -, heq⟩
  · cases heq
  · cases heq
    refine ⟨hcs, ?_⟩
    rintro _ ⟨⟩
    exact hname
  · cases heq
    exact ⟨hcs, fun name hident => absurd hident (hsymbol name)⟩
  · cases heq

/-- What a rule makes blanks of is blanks. -/
theorem isBlank_of_lexeme? {cs : List Char} (h : lexeme? cs = some .blanks) :
    ∀ c ∈ cs, isBlank c = true := by
  rcases lexeme?_cases h with ⟨-, hcs, -⟩ | ⟨name, -, -, heq⟩ | ⟨symbol, -, -, heq⟩ | ⟨c, -, heq⟩
  · exact hcs
  all_goals cases heq

/-- A rule matches two tokens together that run into each other. -/
theorem lexeme?_of_runsInto {first second : Token} (h : first.runsInto second = true)
    (hfirst : ∀ name, first = ident name → isName name = true)
    (hsecond : ∀ name, second = ident name → isName name = true) :
    lexeme? (first.spelling ++ second.spelling) ≠ none := by
  unfold runsInto at h
  split at h
  · rename_i name name'
    have hboth : ∀ both, ident (name ++ name') = ident both → isName both = true := by
      rintro _ ⟨⟩
      have hname := hfirst name rfl
      have hname' := hsecond name' rfl
      rw [isName, Bool.and_eq_true, List.all_eq_true] at hname hname' ⊢
      rw [String.toList_append]
      refine ⟨by simpa using fun hnil => absurd hnil (by simpa using hname.1), ?_⟩
      exact List.forall_mem_append.2 ⟨hname.2, hname'.2⟩
    have hlexeme := lexeme?_spelling hboth
    rw [spelling, String.toList_append] at hlexeme
    exact Option.ne_none_iff_exists'.2 ⟨_, hlexeme⟩
  · exact Option.ne_none_iff_exists'.2 ⟨.token imply, rfl⟩
  · exact Option.ne_none_iff_exists'.2 ⟨.token iff, rfl⟩
  · cases h

namespace Munched

variable {start : Nat} {text : List Char} {result : Except SyntaxError (List Placed)}

/-- A text that is taken apart into tokens is made of them, kept apart by blanks. -/
theorem exists_wellSpaced (h : Munched start text result) {tokens : List Placed}
    (hok : result = .ok tokens) :
    ∃ pieces last, WellSpaced pieces ∧ (∀ c ∈ last, isBlank c = true) ∧
      text = pieces.flatMap Spaced.text ++ last ∧ tokens = place start pieces := by
  induction h generalizing tokens with
  | nil =>
      cases hok
      exact ⟨[], [], ⟨nofun, nofun, .nil⟩, nofun, rfl, rfl⟩
  | @blanks start _ taken _ _ hmunches _ ih =>
      obtain ⟨pieces, last, hspaced, hlast, htext, rfl⟩ := ih hok
      have htaken := isBlank_of_lexeme? hmunches.matched
      rcases pieces with _ | ⟨piece, others⟩
      · refine ⟨[], taken ++ last, hspaced, List.forall_mem_append.2 ⟨htaken, hlast⟩, ?_, rfl⟩
        rw [hmunches.text_eq, htext]
        rfl
      · -- the blanks widen the first gap
        have hgap := hspaced.blank piece List.mem_cons_self
        have hwider : WellSpaced (⟨taken ++ piece.gap, piece.token⟩ :: others) :=
          hspaced.tail.cons (List.forall_mem_append.2 ⟨htaken, hgap⟩)
            (hspaced.isName piece List.mem_cons_self) hspaced.apart.rel_head?
        refine ⟨_, last, hwider, hlast, ?_, ?_⟩
        · rw [hmunches.text_eq, htext]
          simp [Spaced.text]
        · simp only [place, Spaced.text, List.append_assoc, String.ofList_append,
            String.utf8ByteSize_append, Nat.add_assoc]
  | @token start token _ taken rest _ hmunches _ ih =>
      obtain ⟨others, hothers, rfl⟩ := map_eq_ok_iff.1 hok
      obtain ⟨pieces, last, hspaced, hlast, htext, rfl⟩ := ih hothers
      obtain ⟨rfl, hname⟩ := spelling_of_lexeme? hmunches.matched
      refine ⟨⟨[], token⟩ :: pieces, last, hspaced.cons nofun hname ?_, hlast, ?_, rfl⟩
      · intro next hnext hruns hgap
        -- without a gap, a rule would have matched both
        obtain ⟨others, rfl⟩ := List.head?_eq_some_iff.1 hnext
        have hsecond := hspaced.isName next List.mem_cons_self
        refine lexeme?_of_runsInto hruns hname hsecond (hmunches.longest _ ?_ ?_)
        · obtain ⟨c, cs, hspelling, -⟩ := exists_spelling_eq_cons hsecond
          simp [hspelling]
        · rw [htext, List.flatMap_cons, Spaced.text, hgap, List.nil_append, List.append_assoc]
          exact List.prefix_append _ _
      · rw [hmunches.text_eq, htext]
        simp [Spaced.text]
  | unknown _ => cases hok

/-- A text that is refused is refused at its first character outside the alphabet. -/
theorem exists_illegal (h : Munched start text result) {e : SyntaxError}
    (herror : result = .error e) :
    ∃ before c behind, text = before ++ c :: behind ∧ (∀ d ∈ before, IsLegal d) ∧ ¬ IsLegal c ∧
      e = ⟨.unknownCharacter c, start + (String.ofList before).utf8ByteSize⟩ := by
  -- what has been taken before the fault is of the alphabet
  have hpast : ∀ {start : Nat} {text taken rest : List Char} {lexeme : Lexeme},
      Munches text lexeme taken rest → (∀ d ∈ taken, IsLegal d) →
      (∃ before c behind, rest = before ++ c :: behind ∧ (∀ d ∈ before, IsLegal d) ∧ ¬ IsLegal c ∧
        e = ⟨.unknownCharacter c, start + (String.ofList taken).utf8ByteSize +
          (String.ofList before).utf8ByteSize⟩) →
      ∃ before c behind, text = before ++ c :: behind ∧ (∀ d ∈ before, IsLegal d) ∧ ¬ IsLegal c ∧
        e = ⟨.unknownCharacter c, start + (String.ofList before).utf8ByteSize⟩ := by
    rintro start text taken rest lexeme hmunches htaken ⟨before, c, behind, rfl, hbefore, hc, rfl⟩
    refine ⟨taken ++ before, c, behind, ?_, List.forall_mem_append.2 ⟨htaken, hbefore⟩, hc, ?_⟩
    · rw [hmunches.text_eq, List.append_assoc]
    · rw [String.ofList_append, String.utf8ByteSize_append, Nat.add_assoc]
  induction h with
  | nil => cases herror
  | blanks hmunches _ ih =>
      have htaken := isBlank_of_lexeme? hmunches.matched
      exact hpast hmunches (fun d hd => isLegal_iff.2 (.inr (.inl (htaken d hd)))) (ih herror)
  | @token _ _ _ _ _ result hmunches _ ih =>
      obtain ⟨rfl, hname⟩ := spelling_of_lexeme? hmunches.matched
      have hresult : result = .error e := by
        cases result with
        | ok tokens => cases herror
        | error e' =>
            cases herror
            rfl
      exact hpast hmunches (fun d hd => isLegal_of_mem_spelling hname hd) (ih hresult)
  | @unknown start c text taken rest hmunches =>
      cases herror
      rcases lexeme?_cases hmunches.matched with ⟨-, -, heq⟩ | ⟨name, -, -, heq⟩ |
        ⟨token, -, -, heq⟩ | ⟨d, rfl, heq⟩
      · cases heq
      · cases heq
      · cases heq
      · cases heq
        exact ⟨[], c, rest, hmunches.text_eq, nofun, not_isLegal_of_lexeme? hmunches.matched, rfl⟩

end Munched

/-! ### Texts -/

/-- The characters of spaced tokens are of the alphabet. -/
theorem WellSpaced.isLegal {pieces : List Spaced} {last : List Char} (h : WellSpaced pieces)
    (hlast : ∀ c ∈ last, isBlank c = true) :
    ∀ c ∈ pieces.flatMap Spaced.text ++ last, IsLegal c := by
  have hblank : ∀ {c : Char}, isBlank c = true → IsLegal c :=
    fun hc => isLegal_iff.2 (.inr (.inl hc))
  refine List.forall_mem_append.2 ⟨fun c hc => ?_, fun c hc => hblank (hlast c hc)⟩
  obtain ⟨piece, hpiece, hc⟩ := List.mem_flatMap.1 hc
  rcases List.mem_append.1 hc with hc | hc
  · exact hblank (h.blank piece hpiece c hc)
  · exact isLegal_of_mem_spelling (h.isName piece hpiece) hc

/-- There is only one first character outside the alphabet. -/
theorem eq_of_first_illegal {before before' behind behind' : List Char} {c c' : Char}
    (heq : before ++ c :: behind = before' ++ c' :: behind') (hbefore : ∀ d ∈ before, IsLegal d)
    (hc : ¬ IsLegal c) (hbefore' : ∀ d ∈ before', IsLegal d) (hc' : ¬ IsLegal c') :
    before = before' ∧ c = c' := by
  induction before generalizing before' with
  | nil =>
      rcases before' with _ | ⟨d, before'⟩
      · exact ⟨rfl, (List.cons.inj heq).1⟩
      · obtain rfl : c = d := (List.cons.inj heq).1
        exact absurd (hbefore' c List.mem_cons_self) hc
  | cons d before ih =>
      rcases before' with _ | ⟨d', before'⟩
      · obtain rfl : d = c' := (List.cons.inj heq).1
        exact absurd (hbefore d List.mem_cons_self) hc'
      · obtain ⟨rfl, hrest⟩ := List.cons.inj heq
        rw [List.forall_mem_cons] at hbefore hbefore'
        obtain ⟨rfl, rfl⟩ := ih hrest hbefore.2 hbefore'.2
        exact ⟨rfl, rfl⟩

/-- **Texts are read by longest matches, and exactly the spellings of tokens are read.** The scanner
takes a text apart by longest matches. The tokens of a text are those whose spellings, in order and
with blanks before, between and behind them, are the text, where two identifiers, `-` and `>`, and
`<` and `->` have at least one blank between them; they are placed at the byte offsets of their
spellings. All other texts have a character outside the alphabet and are refused at the first. -/
theorem scan_exact (text : String) :
    (∀ result, scan text = result ↔ Munched 0 text.toList result) ∧
    (∀ tokens, scan text = .ok tokens ↔
      ∃ pieces last, WellSpaced pieces ∧ (∀ c ∈ last, isBlank c = true) ∧
        text.toList = pieces.flatMap Spaced.text ++ last ∧ tokens = place 0 pieces) ∧
    ∀ e, scan text = .error e ↔
      ∃ before c behind, text.toList = before ++ c :: behind ∧ (∀ d ∈ before, IsLegal d) ∧
        ¬ IsLegal c ∧ e = ⟨.unknownCharacter c, (String.ofList before).utf8ByteSize⟩ := by
  have hmunched := munched_scanFrom 0 text.toList
  have hread : ∀ tokens, scan text = .ok tokens →
      ∃ pieces last, WellSpaced pieces ∧ (∀ c ∈ last, isBlank c = true) ∧
        text.toList = pieces.flatMap Spaced.text ++ last ∧ tokens = place 0 pieces :=
    fun tokens hok => hmunched.exists_wellSpaced hok
  have hrefused : ∀ e, scan text = .error e →
      ∃ before c behind, text.toList = before ++ c :: behind ∧ (∀ d ∈ before, IsLegal d) ∧
        ¬ IsLegal c ∧ e = ⟨.unknownCharacter c, (String.ofList before).utf8ByteSize⟩ := by
    intro e herror
    simpa using hmunched.exists_illegal herror
  refine ⟨fun result => munched_iff.symm, fun tokens => ⟨hread tokens, ?_⟩,
    fun e => ⟨hrefused e, ?_⟩⟩
  · rintro ⟨pieces, last, hspaced, hlast, htext, rfl⟩
    rw [scan, htext]
    exact scanFrom_wellSpaced hspaced hlast 0
  · rintro ⟨before, c, behind, htext, hbefore, hc, rfl⟩
    rcases hscan : scan text with e' | tokens
    · obtain ⟨before', c', behind', htext', hbefore', hc', rfl⟩ := hrefused e' hscan
      obtain ⟨rfl, rfl⟩ :=
        eq_of_first_illegal (htext.symm.trans htext') hbefore hc hbefore' hc'
      rfl
    · obtain ⟨pieces, last, hspaced, hlast, htext', -⟩ := hread tokens hscan
      have hlegal := hspaced.isLegal hlast
      rw [← htext', htext] at hlegal
      exact absurd (hlegal c (by simp)) hc

end TermLogic.Token
