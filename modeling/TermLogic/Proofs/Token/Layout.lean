import Mathlib.Data.List.Chain
import TermLogic.Token.Lexer

/-!
# Reading laid-out tokens

Tokens that are laid out one after the other are read back as they were, if no two neighbours could
be taken for other tokens together.

* `Token.isName`: the names that identifiers can have. The scanner finds no others
  (`Token.isName_of_mem_scan`).
* `Token.EndsBefore`: no longer spelling than that of the token starts where it does.
* `Token.scanFrom_spelling`: the scanner takes a token that ends before what follows it.
* `Token.sticksTo`: neighbours that could be taken for other tokens together.
* `Token.scan_layoutAll`: tokens among which there are no such neighbours are read back.
-/

namespace TermLogic.Token

/-- Whether a text can be the name of an identifier: word characters, and at least one. -/
def isName (name : String) : Bool :=
  !name.toList.isEmpty && name.toList.all isWordChar

/-- A name starts with a word character and goes on with word characters. -/
theorem isName_iff {name : String} :
    isName name = true ↔ ∃ c rest, name = String.ofList (c :: rest) ∧ isWordChar c = true ∧
      ∀ d ∈ rest, isWordChar d = true := by
  constructor
  · intro h
    rw [isName, Bool.and_eq_true, List.all_eq_true] at h
    obtain ⟨hne, hall⟩ := h
    cases hname : name.toList with
    | nil => simp [hname] at hne
    | cons c rest =>
        rw [hname, List.forall_mem_cons] at hall
        exact ⟨c, rest, by rw [← hname, String.ofList_toList], hall⟩
  · rintro ⟨c, rest, rfl, hc, hrest⟩
    simpa [isName, hc] using hrest

/-! ### Single characters

One equation for each kind of character at the start of a text, so that what follows never unfolds
the scanner. -/

/-- A character that is known not to be a word character differs from one that is. -/
theorem ne_of_isWordChar {c d : Char} (hc : isWordChar c = true) (hd : isWordChar d = false) :
    c ≠ d := by
  rintro rfl
  rw [hc] at hd
  cases hd

/-- A character with which neither `<->` nor `->` starts is taken on its own. -/
theorem scanFrom_cons {c : Char} {rest : List Char} (position : Nat)
    (hiff : c = '<' → ¬ ['-', '>'] <+: rest) (himply : c = '-' → ¬ ['>'] <+: rest) :
    scanFrom position (c :: rest) =
      if isBlank c then scanFrom (position + 1) rest
      else if isWordChar c then consWordChar c position <$> scanFrom (position + 1) rest
      else
        match ofSymbol? c with
        | some symbol => (⟨symbol, position⟩ :: ·) <$> scanFrom (position + 1) rest
        | none => .error ⟨.unknownCharacter c, position⟩ := by
  conv => lhs; unfold scanFrom
  split
  · rename_i heq
    cases heq
  · rename_i heq
    cases heq
    exact absurd ⟨_, rfl⟩ (hiff rfl)
  · rename_i heq
    cases heq
    exact absurd ⟨_, rfl⟩ (himply rfl)
  · rename_i heq
    cases heq
    rfl

/-- A blank is passed over. -/
theorem scanFrom_blank (position : Nat) (rest : List Char) :
    scanFrom position (' ' :: rest) = scanFrom (position + 1) rest :=
  scanFrom_cons position nofun nofun

/-- Word characters are no blanks. -/
theorem isBlank_of_isWordChar {c : Char} (h : isWordChar c = true) : isBlank c = false := by
  have hne : ∀ {d : Char}, isWordChar d = false → c ≠ d := ne_of_isWordChar h
  simp [isBlank, hne (d := ' ') rfl, hne (d := '\t') rfl, hne (d := '\r') rfl,
    hne (d := '\n') rfl]

/-- A word character is put in front of the tokens behind it. -/
theorem scanFrom_wordChar {c : Char} (h : isWordChar c = true) (position : Nat)
    (rest : List Char) :
    scanFrom position (c :: rest) = consWordChar c position <$> scanFrom (position + 1) rest := by
  have hne : ∀ {d : Char}, isWordChar d = false → c ≠ d := ne_of_isWordChar h
  rw [scanFrom_cons position (fun hc => absurd hc (hne rfl)) (fun hc => absurd hc (hne rfl)),
    isBlank_of_isWordChar h, h]
  rfl

/-! ### What the scanner finds

The scanner reads identifiers a character at a time, from behind: a word character is put in front
of the identifier that starts right behind it, if there is one. -/

/-- A placed token that can come of a text which starts at `position`. -/
structure Found (position : Nat) (text : List Char) (placed : Placed) : Prop where
  /-- It does not start before the text. -/
  position_le : position ≤ placed.position
  /-- An identifier has a name. -/
  isName : ∀ name, placed.token = ident name → isName name = true
  /-- An identifier at the start of the text starts with a word character. -/
  head : ∀ name, placed.token = ident name → placed.position = position →
    ∃ c ∈ text.head?, isWordChar c = true

/-- A token behind the first characters of a text. -/
theorem Found.behind {position more : Nat} {text rest : List Char} {placed : Placed}
    (h : Found (position + (more + 1)) rest placed) : Found position text placed := by
  have hle := h.position_le
  refine ⟨by omega, h.isName, ?_⟩
  intro name _ heq
  omega

/-- A symbol at the start of a text. -/
theorem found_symbol {position : Nat} {text : List Char} {token : Token}
    (h : ∀ name, token ≠ ident name) : Found position text ⟨token, position⟩ :=
  ⟨Nat.le_refl _, fun name heq => absurd heq (h name), fun name heq => absurd heq (h name)⟩

/-- No single symbol is an identifier. -/
theorem ofSymbol?_ne_ident {c : Char} {token : Token} (h : ofSymbol? c = some token)
    (name : String) : token ≠ ident name := by
  rintro rfl
  unfold ofSymbol? at h
  split at h <;> cases h

/-- What comes of putting a word character in front of tokens: a token that was there, the character
as an identifier, or the identifier right behind it with the character in front. -/
theorem mem_consWordChar {c : Char} {position : Nat} {tokens : List Placed} {placed : Placed}
    (h : placed ∈ consWordChar c position tokens) :
    placed ∈ tokens ∨ placed = ⟨ident (String.singleton c), position⟩ ∨
      ∃ name, ⟨ident name, position + 1⟩ ∈ tokens ∧
        placed = ⟨ident (String.singleton c ++ name), position⟩ := by
  unfold consWordChar at h
  split at h
  · rename_i name next rest
    split at h
    · rename_i hnext
      subst hnext
      rcases List.mem_cons.1 h with rfl | hmem
      · exact .inr (.inr ⟨name, List.mem_cons_self, rfl⟩)
      · exact .inl (List.mem_cons_of_mem _ hmem)
    · rcases List.mem_cons.1 h with rfl | hmem
      · exact .inr (.inl rfl)
      · exact .inl hmem
  · rcases List.mem_cons.1 h with rfl | hmem
    · exact .inr (.inl rfl)
    · exact .inl hmem

/-- A word character in front of what is found behind it. -/
theorem found_of_mem_consWordChar {c : Char} {position : Nat} {rest : List Char}
    {tokens : List Placed} {placed : Placed} (hc : isWordChar c = true)
    (htokens : ∀ placed ∈ tokens, Found (position + 1) rest placed)
    (h : placed ∈ consWordChar c position tokens) : Found position (c :: rest) placed := by
  have hhead : ∃ d ∈ (c :: rest).head?, isWordChar d = true := ⟨c, rfl, hc⟩
  rcases mem_consWordChar h with hmem | rfl | ⟨name, hmem, rfl⟩
  · exact (htokens placed hmem).behind
  · refine ⟨Nat.le_refl _, ?_, fun _ _ _ => hhead⟩
    rintro _ ⟨⟩
    simp [isName, hc]
  · refine ⟨Nat.le_refl _, ?_, fun _ _ _ => hhead⟩
    rintro _ ⟨⟩
    have hname := (htokens _ hmem).isName name rfl
    rw [isName, Bool.and_eq_true] at hname
    simp [isName, hc, hname.2]

/-- Turning what a step gives into what the scanner gives. -/
theorem map_eq_ok_iff {ε α β : Type} {f : α → β} {result : Except ε α} {b : β} :
    f <$> result = .ok b ↔ ∃ a, result = .ok a ∧ f a = b := by
  cases result with
  | error e => exact ⟨nofun, fun ⟨_, h, _⟩ => nomatch h⟩
  | ok a => exact ⟨fun h => ⟨a, rfl, Except.ok.inj h⟩, fun ⟨_, h, hb⟩ => by cases h; rw [← hb]; rfl⟩

/-- What the scanner finds can come of the text. -/
theorem found_of_mem_scanFrom {position : Nat} {text : List Char} {tokens : List Placed}
    (h : scanFrom position text = .ok tokens) : ∀ placed ∈ tokens, Found position text placed := by
  fun_induction scanFrom position text generalizing tokens with
  | case1 position =>
      cases h
      exact nofun
  | case2 position rest ih =>
      obtain ⟨others, hothers, rfl⟩ := map_eq_ok_iff.1 h
      refine List.forall_mem_cons.2 ⟨found_symbol nofun, fun placed hmem => ?_⟩
      exact (ih hothers placed hmem).behind
  | case3 position rest ih =>
      obtain ⟨others, hothers, rfl⟩ := map_eq_ok_iff.1 h
      refine List.forall_mem_cons.2 ⟨found_symbol nofun, fun placed hmem => ?_⟩
      exact (ih hothers placed hmem).behind
  | case4 position c rest _ _ hblank ih => exact fun placed hmem => (ih h placed hmem).behind
  | case5 position c rest _ _ hblank hc ih =>
      obtain ⟨others, hothers, rfl⟩ := map_eq_ok_iff.1 h
      exact fun placed hmem => found_of_mem_consWordChar hc (ih hothers) hmem
  | case6 position c rest _ _ hblank hc symbol hsymbol ih =>
      obtain ⟨others, hothers, rfl⟩ := map_eq_ok_iff.1 h
      refine List.forall_mem_cons.2
        ⟨found_symbol (ofSymbol?_ne_ident hsymbol), fun placed hmem => ?_⟩
      exact (ih hothers placed hmem).behind
  | case7 => cases h

/-- Every identifier the scanner finds has a name. -/
theorem isName_of_mem_scan {text : String} {tokens : List Placed} (h : scan text = .ok tokens)
    {name : String} {position : Nat} (hmem : ⟨ident name, position⟩ ∈ tokens) :
    isName name = true :=
  (found_of_mem_scanFrom h _ hmem).isName name rfl

/-! ### Taking a token

Whether a token is read as it is spelt depends on what follows: an identifier would take in more
word characters, `-` a following `>`, and `<` what makes it `<->`. -/

/-- No longer spelling than that of the token starts where it does, if this is what follows it. -/
def EndsBefore : Token → List Char → Prop
  | ident _, rest => ∀ c ∈ rest.head?, isWordChar c = false
  | not, rest => ¬ ['>'] <+: rest
  | leftAngle, rest => ¬ ['-', '>'] <+: rest
  | _, _ => True

/-- An identifier is taken up to where its word characters end. -/
theorem scanFrom_word {c : Char} {more rest : List Char} (hc : isWordChar c = true)
    (hmore : ∀ d ∈ more, isWordChar d = true) (hrest : ∀ d ∈ rest.head?, isWordChar d = false)
    (position : Nat) :
    scanFrom position (c :: (more ++ rest)) =
      (⟨ident (String.ofList (c :: more)), position⟩ :: ·) <$>
        scanFrom (position + (c :: more).length) rest := by
  induction more generalizing c position with
  | nil =>
      rw [List.nil_append, scanFrom_wordChar hc]
      cases hscan : scanFrom (position + 1) rest with
      | error e => rfl
      | ok tokens =>
          -- no identifier starts right behind the character
          have hnot : ∀ placed ∈ tokens, ∀ name, placed ≠ ⟨ident name, position + 1⟩ := by
            rintro placed hmem name rfl
            obtain ⟨d, hd, hword⟩ := (found_of_mem_scanFrom hscan _ hmem).head name rfl rfl
            rw [hrest d hd] at hword
            cases hword
          have hcons : consWordChar c position tokens =
              ⟨ident (String.ofList [c]), position⟩ :: tokens := by
            unfold consWordChar
            split
            · rename_i name next others
              rw [if_neg]
              · rfl
              · rintro rfl
                exact hnot _ List.mem_cons_self name rfl
            · rfl
          exact congrArg Except.ok hcons
  | cons d more ih =>
      rw [List.forall_mem_cons] at hmore
      have hnext : position + 1 + (d :: more).length = position + (c :: d :: more).length := by
        simp only [List.length_cons]
        omega
      rw [List.cons_append, scanFrom_wordChar hc, ih hmore.1 hmore.2, hnext]
      cases scanFrom (position + (c :: d :: more).length) rest with
      | error e => rfl
      | ok tokens =>
          refine congrArg Except.ok ?_
          simp [consWordChar, String.ofList_cons]

/-- The scanner takes a token that ends before what follows it. -/
theorem scanFrom_spelling {token : Token} {rest : List Char}
    (hname : ∀ name, token = ident name → isName name = true) (h : token.EndsBefore rest)
    (position : Nat) :
    scanFrom position (token.spelling ++ rest) =
      (⟨token, position⟩ :: ·) <$> scanFrom (position + token.spelling.length) rest := by
  cases token with
  | ident name =>
      obtain ⟨c, more, rfl, hc, hmore⟩ := isName_iff.1 (hname name rfl)
      simp only [spelling, String.toList_ofList]
      exact scanFrom_word hc hmore h position
  | not => exact scanFrom_cons position nofun fun _ => h
  | leftAngle => exact scanFrom_cons position (fun _ => h) nofun
  | imply | iff =>
      rw [spelling]
      simp only [List.cons_append, List.nil_append, List.length_cons, List.length_nil]
      rw [scanFrom]
  | _ => exact scanFrom_cons position nofun nofun

/-! ### Neighbours

In canonical text some tokens are laid out with blanks around them and others without. Only the
latter have to be kept apart by what they are. -/

/-- Whether two tokens that are laid out next to each other could be taken for other tokens
together. -/
def sticksTo : Token → Token → Bool
  | ident _, ident _ => true
  | not, rightAngle => true
  | leftAngle, not => true
  | _, _ => false

/-- The first character of a token that is laid out behind one it does not stick to. -/
theorem endsBefore_of_not_sticksTo {first second : Token} {rest : List Char}
    (h : first.sticksTo second = false)
    (hname : ∀ name, second = ident name → isName name = true) :
    first.EndsBefore (second.layout ++ rest) := by
  have hword : ∀ {name : String}, second = ident name →
      ∃ c more, second.layout ++ rest = c :: more ∧ isWordChar c = true := by
    rintro name rfl
    obtain ⟨c, more, rfl, hc, -⟩ := isName_iff.1 (hname name rfl)
    exact ⟨c, more ++ rest, by simp [layout, isConnective, spelling], hc⟩
  cases first with
  | ident name =>
      cases second with
      | ident name => cases h
      | _ => rintro c ⟨⟩; rfl
  | not =>
      cases second with
      | ident name =>
          obtain ⟨c, more, heq, hc⟩ := hword rfl
          rw [heq]
          intro hpre
          exact ne_of_isWordChar hc rfl (List.cons_prefix_cons.1 hpre).1.symm
      | rightAngle => cases h
      | _ => exact fun hpre => nomatch (List.cons_prefix_cons.1 hpre).1
  | leftAngle =>
      cases second with
      | ident name =>
          obtain ⟨c, more, heq, hc⟩ := hword rfl
          rw [heq]
          intro hpre
          exact ne_of_isWordChar hc rfl (List.cons_prefix_cons.1 hpre).1.symm
      | not => cases h
      | _ => exact fun hpre => nomatch (List.cons_prefix_cons.1 hpre).1
  | _ => trivial

/-- Every token ends where the text does. -/
theorem endsBefore_nil (token : Token) : token.EndsBefore [] := by
  cases token <;> simp [EndsBefore]

/-- The scanner takes a laid-out token together with the blanks around it. -/
theorem scanFrom_layout {token : Token} {rest : List Char}
    (hname : ∀ name, token = ident name → isName name = true) (h : token.EndsBefore rest)
    (position : Nat) :
    ∃ start next, scanFrom position (token.layout ++ rest) =
      (⟨token, start⟩ :: ·) <$> scanFrom next rest := by
  by_cases hconn : token.isConnective = true
  · have hends : token.EndsBefore (' ' :: rest) := by
      cases token with
      | and | or | imply | iff => trivial
      | _ => cases hconn
    refine ⟨position + 1, position + 1 + token.spelling.length + 1, ?_⟩
    rw [layout, if_pos hconn, List.cons_append, List.cons_append, scanFrom_blank, List.append_assoc,
      List.singleton_append, scanFrom_spelling hname hends, scanFrom_blank]
  · refine ⟨position, position + token.spelling.length, ?_⟩
    rw [layout, if_neg hconn, scanFrom_spelling hname h]

/-- Tokens that are laid out are read back, if their identifiers have names and no neighbours stick
to each other. -/
theorem scanFrom_flatMap_layout {tokens : List Token}
    (hname : ∀ name, ident name ∈ tokens → isName name = true)
    (hchain : tokens.IsChain fun first second => first.sticksTo second = false) (position : Nat) :
    ∃ placed, scanFrom position (tokens.flatMap layout) = .ok placed ∧
      placed.map Placed.token = tokens := by
  induction tokens generalizing position with
  | nil => exact ⟨[], rfl, rfl⟩
  | cons token others ih =>
      have hends : token.EndsBefore (others.flatMap layout) := by
        rcases others with _ | ⟨second, others⟩
        · exact endsBefore_nil token
        · refine endsBefore_of_not_sticksTo (List.isChain_cons_cons.1 hchain).1 ?_
          rintro name rfl
          exact hname name (by simp)
      have hfirst : ∀ name, token = ident name → isName name = true := by
        rintro name rfl
        exact hname name List.mem_cons_self
      obtain ⟨start, next, hscan⟩ := scanFrom_layout hfirst hends position
      obtain ⟨placed, hothers, hplaced⟩ :=
        ih (fun name hmem => hname name (List.mem_cons_of_mem token hmem)) hchain.tail next
      refine ⟨⟨token, start⟩ :: placed, ?_, by rw [List.map_cons, hplaced]⟩
      rw [List.flatMap_cons, hscan, hothers]
      rfl

/-- Canonical text is read back as the tokens it was made of. -/
theorem scan_layoutAll {tokens : List Token}
    (hname : ∀ name, ident name ∈ tokens → isName name = true)
    (hchain : tokens.IsChain fun first second => first.sticksTo second = false) :
    ∃ placed, scan (layoutAll tokens) = .ok placed ∧ placed.map Placed.token = tokens := by
  rw [scan, layoutAll, String.toList_ofList]
  exact scanFrom_flatMap_layout hname hchain 0

end TermLogic.Token
