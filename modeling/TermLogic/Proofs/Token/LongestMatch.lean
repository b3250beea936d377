import TermLogic.Proofs.Token.Positions

/-!
# The longest match

Which tokens a text has is settled by rules: a rule matches some sequences of characters as a whole,
and makes something of them. From where a token starts, the longest sequence counts that any rule
matches, and of several rules that match it the first.

* `Token.Lexeme`, `Token.rules`, `Token.lexeme?`: what rules make, the rules in their order, and
  what the first that matches makes of a sequence of characters.
* `Token.Munches`: the longest sequence at the start of a text that a rule matches.
* `Token.Munched`: a whole text taken apart this way, up to the first character that no other rule
  matches.
* `Token.munched_iff`: the scanner takes texts apart this way, and there is no other way.
-/

namespace TermLogic.Token

/-- What a rule makes of the characters it matches. -/
inductive Lexeme where
  /-- Blanks, which are passed over. -/
  | blanks
  /-- A token. -/
  | token (token : Token)
  /-- A character outside every class, which is a fault. -/
  | unknown (character : Char)

/-- The rule for runs of characters of a class. -/
def runRule (isOfClass : Char → Bool) (make : List Char → Lexeme) (cs : List Char) :
    Option Lexeme :=
  if !cs.isEmpty && cs.all isOfClass then some (make cs) else none

/-- The rule for the spelling of a token. -/
def spellingRule (token : Token) (cs : List Char) : Option Lexeme :=
  if cs = token.spelling then some (.token token) else none

/-- The rule for a single character, whatever it is. -/
def anyRule : List Char → Option Lexeme
  | [c] => some (.unknown c)
  | _ => none

/-- The tokens that are always spelt the same, in the order of their rules. -/
def symbols : List Token :=
  [leftParen, rightParen, leftBracket, rightBracket, iff, imply, leftAngle, rightAngle, and, or,
    not, complement, privation]

/-- The rules in their order. -/
def rules : List (List Char → Option Lexeme) :=
  runRule isBlank (fun _ => .blanks) ::
    runRule isWordChar (fun cs => .token (ident (String.ofList cs))) ::
    (symbols.map spellingRule ++ [anyRule])

/-- What the first rule that matches the characters makes of them. -/
def lexeme? (cs : List Char) : Option Lexeme :=
  rules.findSome? fun rule => rule cs

/-- A rule matches the characters `taken` at the start of the text, and no rule matches more. -/
structure Munches (text : List Char) (lexeme : Lexeme) (taken rest : List Char) : Prop where
  /-- The characters stand at the start of the text. -/
  text_eq : text = taken ++ rest
  /-- A rule matches them. -/
  matched : lexeme? taken = some lexeme
  /-- No rule matches them together with more. -/
  longest : ∀ more, more ≠ [] → more <+: rest → lexeme? (taken ++ more) = none

/-- A text, which starts at `start`, is taken apart by longest matches. -/
inductive Munched : (start : Nat) → List Char → Except SyntaxError (List Placed) → Prop where
  /-- Nothing is left. -/
  | nil {start : Nat} : Munched start [] (.ok [])
  /-- Blanks are passed over. -/
  | blanks {start : Nat} {text taken rest : List Char} {result : Except SyntaxError (List Placed)} :
      Munches text .blanks taken rest →
      Munched (start + (String.ofList taken).utf8ByteSize) rest result → Munched start text result
  /-- A token is placed where its characters start. -/
  | token {start : Nat} {token : Token} {text taken rest : List Char}
      {result : Except SyntaxError (List Placed)} :
      Munches text (.token token) taken rest →
      Munched (start + (String.ofList taken).utf8ByteSize) rest result →
      Munched start text ((⟨token, start⟩ :: ·) <$> result)
  /-- A character that no other rule matches is a fault. -/
  | unknown {start : Nat} {c : Char} {text taken rest : List Char} :
      Munches text (.unknown c) taken rest →
      Munched start text (.error ⟨.unknownCharacter c, start⟩)

/-! ### Rules

Only two tokens that are always spelt the same have more than one character, `->` and `<->`.
Everything else that a rule matches is a single character or a run of characters of one class. -/

/-- A rule for runs matches the runs that are not empty. -/
theorem runRule_eq_some_iff {isOfClass : Char → Bool} {make : List Char → Lexeme}
    {cs : List Char} {lexeme : Lexeme} :
    runRule isOfClass make cs = some lexeme ↔
      cs ≠ [] ∧ (∀ c ∈ cs, isOfClass c = true) ∧ lexeme = make cs := by
  unfold runRule
  rw [Option.ite_none_right_eq_some, Bool.and_eq_true, List.all_eq_true, and_assoc,
    Option.some.injEq, eq_comm (a := lexeme)]
  simp

/-- Which characters rules match, and what is made of them. -/
theorem lexeme?_cases {cs : List Char} {lexeme : Lexeme} (h : lexeme? cs = some lexeme) :
    (cs ≠ [] ∧ (∀ c ∈ cs, isBlank c = true) ∧ lexeme = .blanks) ∨
    (∃ name, isName name = true ∧ cs = name.toList ∧ lexeme = .token (ident name)) ∨
    (∃ token, (∀ name, token ≠ ident name) ∧ cs = token.spelling ∧ lexeme = .token token) ∨
    ∃ c, cs = [c] ∧ lexeme = .unknown c := by
  obtain ⟨rule, hrule, hmatch⟩ := List.exists_of_findSome?_eq_some h
  simp only [rules, List.mem_cons, List.mem_append, List.mem_map, List.not_mem_nil, or_false]
    at hrule
  rcases hrule with rfl | rfl | ⟨token, htoken, rfl⟩ | rfl
  · exact .inl (runRule_eq_some_iff.1 hmatch)
  · obtain ⟨hne, hall, heq⟩ := runRule_eq_some_iff.1 hmatch
    refine .inr (.inl ⟨String.ofList cs, ?_, String.toList_ofList.symm, heq⟩)
    rw [isName, String.toList_ofList, Bool.and_eq_true, List.all_eq_true]
    exact ⟨by simpa using hne, hall⟩
  · rw [spellingRule, Option.ite_none_right_eq_some] at hmatch
    refine .inr (.inr (.inl ⟨token, ?_, hmatch.1, (Option.some.inj hmatch.2).symm⟩))
    rintro name rfl
    simp [symbols] at htoken
  · refine .inr (.inr (.inr ?_))
    unfold anyRule at hmatch
    split at hmatch
    · exact ⟨_, rfl, (Option.some.inj hmatch).symm⟩
    · cases hmatch

section

variable {token : Token} {rest : List Char}

/-- A spelling starts with a character that is no blank. -/
theorem exists_spelling_eq_cons (hname : ∀ name, token = ident name → isName name = true) :
    ∃ c cs, token.spelling = c :: cs ∧ isBlank c = false := by
  cases token with
  | ident name =>
      obtain ⟨c, cs, rfl, hc, -⟩ := isName_iff.1 (hname name rfl)
      exact ⟨c, cs, String.toList_ofList, isBlank_of_isWordChar hc⟩
  | _ => exact ⟨_, _, rfl, rfl⟩

/-- The rules make a token of its spelling. -/
theorem lexeme?_spelling (hname : ∀ name, token = ident name → isName name = true) :
    lexeme? token.spelling = some (.token token) := by
  cases token with
  | ident name =>
      obtain ⟨c, cs, rfl, hc, hcs⟩ := isName_iff.1 (hname name rfl)
      have hall : ∀ d ∈ c :: cs, isWordChar d = true := List.forall_mem_cons.2 ⟨hc, hcs⟩
      have hblanks : runRule isBlank (fun _ => .blanks) (c :: cs) = none := by
        refine Option.eq_none_iff_forall_ne_some.2 fun lexeme h => ?_
        have hhead := (runRule_eq_some_iff.1 h).2.1 c List.mem_cons_self
        rw [isBlank_of_isWordChar hc] at hhead
        cases hhead
      have hword : runRule isWordChar (fun cs => .token (ident (String.ofList cs))) (c :: cs) =
          some (.token (ident (String.ofList (c :: cs)))) :=
        runRule_eq_some_iff.2 ⟨List.cons_ne_nil c cs, hall, rfl⟩
      rw [spelling, String.toList_ofList, lexeme?, rules]
      simp only [List.findSome?_cons, hblanks, hword]
  | _ => rfl

/-- Only `->` and `<->` are spelt with more than one character that is not of a word. -/
theorem spelling_eq_cons_cons {c d : Char} {cs : List Char} (h : ∀ name, token ≠ ident name)
    (heq : token.spelling = c :: d :: cs) :
    c :: d :: cs = ['-', '>'] ∨ c :: d :: cs = ['<', '-', '>'] := by
  cases token with
  | ident name => exact absurd rfl (h name)
  | imply => exact .inl heq.symm
  | iff => exact .inr heq.symm
  | _ => cases heq

/-- No rule matches a spelling together with more, if the token ends before what follows. -/
theorem lexeme?_spelling_append (hname : ∀ name, token = ident name → isName name = true)
    (hends : token.EndsBefore rest) {more : List Char} (hne : more ≠ []) (hpre : more <+: rest) :
    lexeme? (token.spelling ++ more) = none := by
  obtain ⟨c, cs, hspelling, hc⟩ := exists_spelling_eq_cons hname
  obtain ⟨d, ds, rfl⟩ := List.exists_cons_of_ne_nil hne
  obtain ⟨after, rfl⟩ := hpre
  rcases hlexeme : lexeme? (token.spelling ++ d :: ds) with _ | lexeme
  · rfl
  exfalso
  rcases lexeme?_cases hlexeme with ⟨-, hblank, -⟩ | ⟨name, hword, heq, -⟩ |
    ⟨longer, hlonger, heq, -⟩ | ⟨e, heq, -⟩
  · have hhead := hblank c (by simp [hspelling])
    rw [hc] at hhead
    cases hhead
  · -- a longer name would go on with a word character
    rw [isName, Bool.and_eq_true, List.all_eq_true, ← heq] at hword
    have hall := hword.2
    rw [List.forall_mem_append, List.forall_mem_cons] at hall
    cases token with
    | ident name =>
        have hd := hends d rfl
        rw [hall.2.1] at hd
        cases hd
    | _ => exact absurd (hall.1 _ List.mem_cons_self) (by decide)
  · obtain ⟨e, es, hes⟩ : ∃ e es, cs ++ d :: ds = e :: es := by
      cases cs <;> exact ⟨_, _, rfl⟩
    have hlong := spelling_eq_cons_cons hlonger
      (heq.symm.trans (by rw [hspelling, List.cons_append, hes]))
    rw [← hes, ← List.cons_append, ← hspelling] at hlong
    cases token with
    | ident name =>
        obtain ⟨e, es, rfl, he, -⟩ := isName_iff.1 (hname name rfl)
        simp only [spelling, String.toList_ofList] at hlong
        rcases hlong with hlong | hlong
        · exact ne_of_isWordChar he rfl (List.cons.inj hlong).1
        · exact ne_of_isWordChar he rfl (List.cons.inj hlong).1
    | not =>
        obtain ⟨rfl, rfl⟩ : d = '>' ∧ ds = [] := by simpa [spelling] using hlong
        exact hends ⟨after, rfl⟩
    | leftAngle =>
        obtain ⟨rfl, rfl⟩ : d = '-' ∧ ds = ['>'] := by simpa [spelling] using hlong
        exact hends ⟨after, rfl⟩
    | _ => simp [spelling] at hlong
  · simp [hspelling] at heq

/-! ### Longest matches

What can stand at the start of a text is the spelling of a token, a run of blanks or an unknown
character. Each is the longest match where it ends, and there is no other. -/

/-- A token that ends before what follows it is the longest match. -/
theorem munches_spelling (hname : ∀ name, token = ident name → isName name = true)
    (hends : token.EndsBefore rest) :
    Munches (token.spelling ++ rest) (.token token) token.spelling rest :=
  ⟨rfl, lexeme?_spelling hname, fun _ => lexeme?_spelling_append hname hends⟩

/-- All blanks up to another character are the longest match. -/
theorem munches_blanks {gap : List Char} (hne : gap ≠ []) (hgap : ∀ c ∈ gap, isBlank c = true)
    (hrest : ∀ c ∈ rest.head?, isBlank c = false) : Munches (gap ++ rest) .blanks gap rest := by
  obtain ⟨c, cs, rfl⟩ := List.exists_cons_of_ne_nil hne
  have hblank := hgap c List.mem_cons_self
  refine ⟨rfl, ?_, fun more hmore hpre => ?_⟩
  · rw [lexeme?, rules]
    simp only [List.findSome?_cons, runRule_eq_some_iff.2 ⟨hne, hgap, rfl⟩]
  obtain ⟨d, ds, rfl⟩ := List.exists_cons_of_ne_nil hmore
  obtain ⟨after, rfl⟩ := hpre
  rcases hlexeme : lexeme? (c :: cs ++ d :: ds) with _ | lexeme
  · rfl
  exfalso
  rcases lexeme?_cases hlexeme with ⟨-, hall, -⟩ | ⟨name, hword, heq, -⟩ |
    ⟨token, htoken, heq, -⟩ | ⟨e, heq, -⟩
  · have hd := hrest d rfl
    rw [hall d (by simp)] at hd
    cases hd
  · obtain ⟨e, es, rfl, he, -⟩ := isName_iff.1 hword
    rw [String.toList_ofList] at heq
    rw [(List.cons.inj heq).1, isBlank_of_isWordChar he] at hblank
    cases hblank
  · obtain ⟨e, es, hspelling, he⟩ :=
      exists_spelling_eq_cons fun name hident => absurd hident (htoken name)
    rw [hspelling] at heq
    rw [(List.cons.inj heq).1, he] at hblank
    cases hblank
  · simp at heq

/-- Every spelling that is no word starts with a symbol. -/
theorem ofSymbol?_ne_none {c : Char} {cs : List Char} (h : ∀ name, token ≠ ident name)
    (heq : token.spelling = c :: cs) : ofSymbol? c ≠ none := by
  cases token with
  | ident name => exact absurd rfl (h name)
  | _ =>
      cases heq
      decide

/-- A character outside every class is the longest match. -/
theorem munches_unknown {c : Char} (hblank : isBlank c = false) (hword : isWordChar c = false)
    (hsymbol : ofSymbol? c = none) : Munches (c :: rest) (.unknown c) [c] rest := by
  -- what a rule matches from here on, it matches because any character will do
  have honly : ∀ {more lexeme}, lexeme? (c :: more) = some lexeme →
      more = [] ∧ lexeme = .unknown c := by
    intro more lexeme hlexeme
    rcases lexeme?_cases hlexeme with ⟨-, hall, -⟩ | ⟨name, hname, heq, -⟩ |
      ⟨token, htoken, heq, -⟩ | ⟨e, heq, rfl⟩
    · rw [hall c List.mem_cons_self] at hblank
      cases hblank
    · obtain ⟨e, es, rfl, he, -⟩ := isName_iff.1 hname
      rw [String.toList_ofList] at heq
      rw [(List.cons.inj heq).1, he] at hword
      cases hword
    · exact absurd hsymbol (ofSymbol?_ne_none htoken heq.symm)
    · cases heq
      exact ⟨rfl, rfl⟩
  refine ⟨rfl, ?_, fun more hne _ => ?_⟩
  · rcases hlexeme : lexeme? [c] with _ | lexeme
    · have hnone := List.findSome?_eq_none_iff.1 hlexeme anyRule (by simp [rules])
      cases hnone
    · rw [(honly hlexeme).2]
  · rcases hlexeme : lexeme? ([c] ++ more) with _ | lexeme
    · rfl
    · exact absurd (honly hlexeme).1 hne

end

/-- There is only one longest match. -/
theorem Munches.unique {text taken rest taken' rest' : List Char} {lexeme lexeme' : Lexeme}
    (h : Munches text lexeme taken rest) (h' : Munches text lexeme' taken' rest') :
    lexeme = lexeme' ∧ taken = taken' ∧ rest = rest' := by
  have hshorter : ∀ {taken rest taken' rest' : List Char} {lexeme lexeme' : Lexeme},
      Munches text lexeme taken rest → Munches text lexeme' taken' rest' → taken <+: taken' →
      taken = taken' := by
    rintro taken rest taken' rest' lexeme lexeme' h h' ⟨more, rfl⟩
    by_contra hne
    have hmore : more ≠ [] := fun hnil => hne (by simp [hnil])
    have hrest : rest = more ++ rest' :=
      List.append_cancel_left (h.text_eq.symm.trans (h'.text_eq.trans (List.append_assoc _ _ _)))
    have hnone := h.longest more hmore ⟨rest', hrest.symm⟩
    rw [h'.matched] at hnone
    cases hnone
  have htaken : taken = taken' := by
    rcases List.prefix_or_prefix_of_prefix (⟨rest, h.text_eq.symm⟩ : taken <+: text)
      (⟨rest', h'.text_eq.symm⟩ : taken' <+: text) with hpre | hpre
    · exact hshorter h h' hpre
    · exact (hshorter h' h hpre).symm
  subst htaken
  refine ⟨Option.some.inj (h.matched.symm.trans h'.matched), rfl, ?_⟩
  exact List.append_cancel_left (h.text_eq.symm.trans h'.text_eq)

/-- In an empty text nothing is matched. -/
theorem Munches.ne_nil {text taken rest : List Char} {lexeme : Lexeme}
    (h : Munches text lexeme taken rest) : text ≠ [] := by
  rintro rfl
  have htaken : taken = [] := (List.append_eq_nil_iff.1 h.text_eq.symm).1
  have hmatched := h.matched
  rw [htaken] at hmatched
  cases hmatched

/-! ### The scanner

Both directions follow from one: the scanner takes every text apart by longest matches, and as there
is one way only to do so, whatever takes the text apart finds what the scanner finds. -/

/-- Characters of one byte each take as many bytes as they are. -/
theorem utf8ByteSize_ofList {cs : List Char}
    (h : ∀ c ∈ cs, (String.ofList [c]).utf8ByteSize = 1) :
    (String.ofList cs).utf8ByteSize = cs.length := by
  induction cs with
  | nil => rfl
  | cons c cs ih =>
      rw [List.forall_mem_cons] at h
      rw [← List.singleton_append, String.ofList_append, String.utf8ByteSize_append, h.1, ih h.2,
        List.length_append, List.length_singleton]

/-- All characters of spellings take one byte. -/
theorem utf8ByteSize_spelling {token : Token}
    (hname : ∀ name, token = ident name → isName name = true) :
    (String.ofList token.spelling).utf8ByteSize = token.spelling.length := by
  cases token with
  | ident name =>
      have hword := hname name rfl
      rw [isName, Bool.and_eq_true, List.all_eq_true] at hword
      exact utf8ByteSize_ofList fun c hc => utf8ByteSize_of_isWordChar (hword.2 c hc)
  | _ => rfl

/-- The scanner passes over blanks. -/
theorem scanFrom_blanks {gap : List Char} (hgap : ∀ c ∈ gap, isBlank c = true) (start : Nat)
    (rest : List Char) :
    scanFrom start (gap ++ rest) = scanFrom (start + (String.ofList gap).utf8ByteSize) rest := by
  rw [utf8ByteSize_ofList fun c hc => utf8ByteSize_of_isBlank (hgap c hc)]
  induction gap generalizing start with
  | nil => rfl
  | cons c gap ih =>
      rw [List.forall_mem_cons] at hgap
      have hne : ∀ {d : Char}, isBlank d = false → c ≠ d := by
        rintro d hd rfl
        rw [hgap.1] at hd
        cases hd
      rw [List.cons_append, scanFrom_cons start (fun hc => absurd hc (hne rfl))
        (fun hc => absurd hc (hne rfl)), if_pos hgap.1, ih hgap.2, List.length_cons,
        Nat.add_assoc, Nat.add_comm 1]

/-- The characters of a class at the start of a text. -/
theorem exists_run (isOfClass : Char → Bool) (text : List Char) :
    ∃ run after, text = run ++ after ∧ (∀ c ∈ run, isOfClass c = true) ∧
      ∀ c ∈ after.head?, isOfClass c = false := by
  refine ⟨text.takeWhile isOfClass, text.dropWhile isOfClass,
    List.takeWhile_append_dropWhile.symm, List.all_eq_true.1 List.all_takeWhile, ?_⟩
  intro c hc
  have hhead := List.head?_dropWhile_not isOfClass text
  rw [Option.mem_def.1 hc] at hhead
  exact hhead

/-- A text that does not start with a blank starts with a token that ends before what follows it, or
with a character outside every class. -/
theorem exists_spelling_or_unknown {c : Char} (hblank : isBlank c = false) (rest : List Char) :
    (∃ token after, c :: rest = token.spelling ++ after ∧
      (∀ name, token = ident name → isName name = true) ∧ token.EndsBefore after) ∨
    isWordChar c = false ∧ ofSymbol? c = none := by
  by_cases hword : isWordChar c = true
  · obtain ⟨more, after, rfl, hmore, hafter⟩ := exists_run isWordChar rest
    refine .inl ⟨ident (String.ofList (c :: more)), after, ?_, ?_, hafter⟩
    · rw [spelling, String.toList_ofList, List.cons_append]
    · rintro _ ⟨⟩
      exact isName_iff.2 ⟨c, more, rfl, hword, hmore⟩
  rw [Bool.not_eq_true] at hword
  rcases hsymbol : ofSymbol? c with _ | symbol
  · exact .inr ⟨hword, rfl⟩
  left
  by_cases hiff : c = '<' ∧ ['-', '>'] <+: rest
  · obtain ⟨rfl, after, rfl⟩ := hiff
    exact ⟨iff, after, rfl, by simp, trivial⟩
  by_cases himply : c = '-' ∧ ['>'] <+: rest
  · obtain ⟨rfl, after, rfl⟩ := himply
    exact ⟨imply, after, rfl, by simp, trivial⟩
  obtain ⟨hspelling, -⟩ := spelling_of_ofSymbol? hsymbol
  have hident := ofSymbol?_ne_ident hsymbol
  refine ⟨symbol, rest, by rw [hspelling, List.singleton_append],
    fun name heq => absurd heq (hident name), ?_⟩
  cases symbol with
  | ident name => exact absurd rfl (hident name)
  | not =>
      obtain rfl : '-' = c := List.singleton_inj.1 hspelling
      exact fun hpre => himply ⟨rfl, hpre⟩
  | leftAngle =>
      obtain rfl : '<' = c := List.singleton_inj.1 hspelling
      exact fun hpre => hiff ⟨rfl, hpre⟩
  | _ => trivial

/-- The scanner takes a text apart by longest matches. -/
theorem munched_scanFrom (start : Nat) (text : List Char) :
    Munched start text (scanFrom start text) := by
  induction hlength : text.length using Nat.strongRecOn generalizing start text with
  | ind n ih =>
      subst hlength
      rcases text with _ | ⟨c, rest⟩
      · exact .nil
      by_cases hblank : isBlank c = true
      · obtain ⟨more, after, rfl, hmore, hafter⟩ := exists_run isBlank rest
        have hgap : ∀ d ∈ c :: more, isBlank d = true := List.forall_mem_cons.2 ⟨hblank, hmore⟩
        have hlt : after.length < (c :: (more ++ after)).length := by
          rw [List.length_cons, List.length_append]
          omega
        rw [← List.cons_append, scanFrom_blanks hgap]
        exact .blanks (munches_blanks (List.cons_ne_nil c more) hgap hafter)
          (ih after.length hlt _ after rfl)
      rw [Bool.not_eq_true] at hblank
      rcases exists_spelling_or_unknown hblank rest with
        ⟨token, after, htext, hname, hends⟩ | ⟨hword, hsymbol⟩
      · have hlt : after.length < (c :: rest).length := by
          obtain ⟨d, ds, hspelling, -⟩ := exists_spelling_eq_cons hname
          rw [htext, hspelling, List.length_append, List.length_cons]
          omega
        rw [htext, scanFrom_spelling hname hends, ← utf8ByteSize_spelling hname]
        exact .token (munches_spelling hname hends) (ih after.length hlt _ after rfl)
      · have hscan : scanFrom start (c :: rest) = .error ⟨.unknownCharacter c, start⟩ := by
          rw [scanFrom_cons start, hblank, hword, hsymbol]
          · rfl
          · rintro rfl
            cases hsymbol
          · rintro rfl
            cases hsymbol
        rw [hscan]
        exact .unknown (munches_unknown hblank hword hsymbol)

/-- A text can be taken apart by longest matches in one way only. -/
theorem Munched.unique {start : Nat} {text : List Char}
    {result result' : Except SyntaxError (List Placed)} (h : Munched start text result)
    (h' : Munched start text result') : result = result' := by
  induction h generalizing result' with
  | nil =>
      cases h' with
      | nil => rfl
      | blanks hother _ | token hother _ | unknown hother =>
          exact absurd rfl hother.ne_nil
  | blanks hmunches _ ih =>
      cases h' with
      | nil => exact absurd rfl hmunches.ne_nil
      | blanks hother hrest =>
          obtain ⟨-, rfl, rfl⟩ := hmunches.unique hother
          exact ih hrest
      | token hother _ | unknown hother => cases (hmunches.unique hother).1
  | token hmunches _ ih =>
      cases h' with
      | nil => exact absurd rfl hmunches.ne_nil
      | token hother hrest =>
          obtain ⟨hsame, rfl, rfl⟩ := hmunches.unique hother
          cases hsame
          rw [ih hrest]
      | blanks hother _ | unknown hother => cases (hmunches.unique hother).1
  | unknown hmunches =>
      cases h' with
      | nil => exact absurd rfl hmunches.ne_nil
      | unknown hother =>
          cases (hmunches.unique hother).1
          rfl
      | blanks hother _ | token hother _ => cases (hmunches.unique hother).1

/-- Taking a text apart by longest matches gives what the scanner gives. -/
theorem munched_iff {text : String} {result : Except SyntaxError (List Placed)} :
    Munched 0 text.toList result ↔ scan text = result := by
  have hscan := munched_scanFrom 0 text.toList
  exact ⟨fun h => hscan.unique h, fun h => h ▸ hscan⟩

end TermLogic.Token
