import TermLogic.Proofs.Token.Layout

/-!
# Where tokens stand

The position of a token that the scanner finds is the byte offset of its spelling in the text.

* `Token.StandsIn`: a placed token whose spelling stands at its position.
* `Token.standsIn_of_mem_scan`: so does every token that the scanner finds, by induction along the
  text. All characters of tokens and all blanks take one byte.
-/

namespace TermLogic.Token

/-- The spelling of a token stands in the text, which starts at `start`, where the token is
placed. -/
def StandsIn (start : Nat) (text : List Char) (placed : Placed) : Prop :=
  ∃ before behind, text = before ++ placed.token.spelling ++ behind ∧
    placed.position = start + (String.ofList before).utf8ByteSize

/-- A token at the start of a text. -/
theorem standsIn_start (token : Token) (start : Nat) (behind : List Char) :
    StandsIn start (token.spelling ++ behind) ⟨token, start⟩ :=
  ⟨[], behind, rfl, rfl⟩

/-- A token behind the first characters of a text. -/
theorem StandsIn.behind {start : Nat} {text : List Char} {placed : Placed} (skipped : List Char)
    (h : StandsIn (start + (String.ofList skipped).utf8ByteSize) text placed) :
    StandsIn start (skipped ++ text) placed := by
  obtain ⟨before, behind, rfl, hposition⟩ := h
  refine ⟨skipped ++ before, behind, by simp only [List.append_assoc], ?_⟩
  rw [hposition, String.ofList_append, String.utf8ByteSize_append, Nat.add_assoc]

/-- A character of one byte takes one byte. -/
theorem utf8ByteSize_singleton_of_ascii {c : Char} (h : c.val ≤ 127) :
    (String.ofList [c]).utf8ByteSize = 1 := by
  rw [String.ofList_cons, String.ofList_nil, String.append_empty, String.utf8ByteSize_singleton]
  exact Char.utf8Size_eq_one_iff.2 h

/-- Word characters take one byte. -/
theorem utf8ByteSize_of_isWordChar {c : Char} (h : isWordChar c = true) :
    (String.ofList [c]).utf8ByteSize = 1 := by
  refine utf8ByteSize_singleton_of_ascii ?_
  rw [isWordChar, Bool.or_eq_true, decide_eq_true_eq] at h
  rcases h with h | rfl
  · delta Char.isAlphanum Char.isAlpha Char.isUpper Char.isLower Char.isDigit at h
    simp only [Bool.or_eq_true, Bool.and_eq_true, decide_eq_true_eq, UInt32.le_iff_toNat_le,
      ge_iff_le, UInt32.reduceToNat] at h ⊢
    have hupper : 'Z'.val.toNat = 90 := rfl
    have hlower : 'z'.val.toNat = 122 := rfl
    have hdigit : '9'.val.toNat = 57 := rfl
    omega
  · decide

/-- Blanks take one byte. -/
theorem utf8ByteSize_of_isBlank {c : Char} (h : isBlank c = true) :
    (String.ofList [c]).utf8ByteSize = 1 := by
  simp only [isBlank, Bool.or_eq_true, decide_eq_true_eq] at h
  rcases h with ((rfl | rfl) | rfl) | rfl <;> rfl

/-- A symbol is spelt as it is written. -/
theorem spelling_of_ofSymbol? {c : Char} {token : Token} (h : ofSymbol? c = some token) :
    token.spelling = [c] ∧ (String.ofList [c]).utf8ByteSize = 1 := by
  unfold ofSymbol? at h
  split at h <;> cases h <;> exact ⟨rfl, rfl⟩

/-- What comes of putting a word character in front of tokens stands where the character does, if
the tokens stand behind it. -/
theorem standsIn_of_mem_consWordChar {c : Char} {start : Nat} {rest : List Char}
    {tokens : List Placed} {placed : Placed} (hc : isWordChar c = true)
    (htokens : ∀ placed ∈ tokens, StandsIn (start + 1) rest placed)
    (h : placed ∈ consWordChar c start tokens) : StandsIn start (c :: rest) placed := by
  have hone := utf8ByteSize_of_isWordChar hc
  rcases mem_consWordChar h with hmem | rfl | ⟨name, hmem, rfl⟩
  · have hstands := htokens placed hmem
    rw [← hone] at hstands
    exact hstands.behind [c]
  · have hstands := standsIn_start (ident (String.singleton c)) start rest
    rw [spelling, String.toList_singleton] at hstands
    exact hstands
  · -- the identifier behind the character starts right behind it
    obtain ⟨before, behind, rfl, hposition⟩ := htokens _ hmem
    have hzero : (String.ofList before).utf8ByteSize = 0 := Nat.left_eq_add.1 hposition
    rw [String.utf8ByteSize_eq_zero_iff, String.ofList_eq_empty_iff] at hzero
    subst hzero
    have hstands := standsIn_start (ident (String.singleton c ++ name)) start behind
    rw [spelling, String.toList_append, String.toList_singleton] at hstands
    exact hstands

/-- What the scanner finds stands where it is placed. -/
theorem standsIn_of_mem_scanFrom {start : Nat} {text : List Char} {tokens : List Placed}
    (h : scanFrom start text = .ok tokens) : ∀ placed ∈ tokens, StandsIn start text placed := by
  fun_induction scanFrom start text generalizing tokens with
  | case1 start =>
      cases h
      exact List.forall_mem_nil _
  | case2 start rest ih =>
      obtain ⟨others, hothers, rfl⟩ := map_eq_ok_iff.1 h
      refine List.forall_mem_cons.2 ⟨standsIn_start iff start rest, fun placed hmem => ?_⟩
      exact (ih hothers placed hmem).behind ['<', '-', '>']
  | case3 start rest ih =>
      obtain ⟨others, hothers, rfl⟩ := map_eq_ok_iff.1 h
      refine List.forall_mem_cons.2 ⟨standsIn_start imply start rest, fun placed hmem => ?_⟩
      exact (ih hothers placed hmem).behind ['-', '>']
  | case4 start c rest _ _ hblank ih =>
      intro placed hmem
      have hstands := ih h placed hmem
      rw [← utf8ByteSize_of_isBlank hblank] at hstands
      exact hstands.behind [c]
  | case5 start c rest _ _ hblank hc ih =>
      obtain ⟨others, hothers, rfl⟩ := map_eq_ok_iff.1 h
      exact fun placed hmem => standsIn_of_mem_consWordChar hc (ih hothers) hmem
  | case6 start c rest _ _ hblank hc symbol hsymbol ih =>
      obtain ⟨others, hothers, rfl⟩ := map_eq_ok_iff.1 h
      obtain ⟨hspelling, hone⟩ := spelling_of_ofSymbol? hsymbol
      have hfirst := standsIn_start symbol start rest
      rw [hspelling] at hfirst
      refine List.forall_mem_cons.2 ⟨hfirst, fun placed hmem => ?_⟩
      have hstands := ih hothers placed hmem
      rw [← hone] at hstands
      exact hstands.behind [c]
  | case7 => cases h

/-- The position of a token that the scanner finds is the byte offset of its spelling. -/
theorem standsIn_of_mem_scan {text : String} {tokens : List Placed} (h : scan text = .ok tokens)
    {placed : Placed} (hmem : placed ∈ tokens) : StandsIn 0 text.toList placed :=
  standsIn_of_mem_scanFrom h placed hmem

end TermLogic.Token
