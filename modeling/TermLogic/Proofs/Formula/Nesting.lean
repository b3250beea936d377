import Mathlib.Tactic.Ring
import TermLogic.Proofs.Formula.RoundTrip

/-!
# Nesting and height

Whether a text nests too deep is decided by the levels that are counted while it is read. They are
not the height of its spelling: in a chain of `&`, `|` or `<->` a connective costs a level to all
that follows it, whether it lies above that or not, and none to what stands before it, which it does
lie above. So a spelling may take more levels than it is high, and fewer.

* `Precedence.ceiling`, `Parser.Counted.height_le`: how high a spelling can be that takes a number
  of levels.
* `Precedence.charge`, `Parser.Counted.levels_le`: how many levels a spelling of a height can take.
  Both by induction on the spelling.
* `Formula.parse_of_counted`: the levels decide. A text that is at most 24 high is read, and one
  that is more than 99200 high is not.
* `Formula.parse_height_inexact`: in between, the height does not decide.
-/

namespace TermLogic

open Token (Placed)

/-! ### Bounds

Both bounds grow with the square, as a chain may stand at the end of each link of another chain, and
each place has its own. They are stated for twice the height and for eight times the levels, which
keeps fractions out of them. -/

/-- The square of the next number. -/
theorem succ_mul_succ_self (n : Nat) : (n + 1) * (n + 1) = n * n + 2 * n + 1 := by
  ring

namespace Precedence

variable {place own : Precedence} {n m h k : Nat}

/-- Whether spellings at a place are chains that group to the left. -/
def isChain : Precedence → Bool
  | biconditional | disjunction | conjunction => true
  | conditional | unary | primary => false

/-- Twice the height that a spelling at a place has at most if it takes `n` levels, apart from the
connectives of its own chain. -/
def ceiling (n : Nat) : Precedence → Nat
  | biconditional | conditional => 3 * (n * n) + 5 * n
  | disjunction => 3 * (n * n) + 3 * n - 2
  | conjunction | unary | primary => 3 * (n * n) + n - 2

/-- Eight times the levels that a spelling of height `h` at a place takes at most. -/
def charge (h : Nat) : Precedence → Nat
  | biconditional => 3 * (h * h) + 8 * h
  | conditional | disjunction => 3 * (h * h) + 6 * h + 3
  | conjunction => 3 * (h * h) + 4 * h + 4
  | unary | primary => 3 * (h * h) + 2 * h + 3

/-- With more levels, a spelling can be higher. -/
theorem ceiling_mono (hle : n ≤ m) (place : Precedence) : place.ceiling n ≤ place.ceiling m := by
  have hsquare : n * n ≤ m * m := Nat.mul_le_mul hle hle
  cases place <;> simp only [ceiling] <;> omega

/-- A looser place leaves room for all connectives of a chain at a tighter one. -/
theorem ceiling_loosen (hrank : place.rank < own.rank)
    (hle : k ≤ own.ceiling n + if own.isChain then 2 * n else 0) : k ≤ place.ceiling n := by
  have hsquare : n ≤ n * n := Nat.le_mul_self n
  refine loosen (P := fun place => k ≤ place.ceiling n + if place.isChain then 2 * n else 0)
    (Q := fun place => k ≤ place.ceiling n) (fun _ h => Nat.le_add_right_of_le h)
    ?_ ?_ ?_ ?_ ?_ hrank hle
  all_goals
    intro h
    simp only [ceiling, isChain, if_true, Bool.false_eq_true, if_false] at h ⊢
    omega

/-- With more height, a spelling can take more levels. -/
theorem charge_mono (hle : h ≤ k) (place : Precedence) : place.charge h ≤ place.charge k := by
  have hsquare : h * h ≤ k * k := Nat.mul_le_mul hle hle
  cases place <;> simp only [charge] <;> omega

/-- What is taken at a tighter place may be taken at a looser one. Heights 0 and 1 are apart: there
it matters that levels are whole. -/
theorem charge_loosen (hrank : place.rank < own.rank) (hle : 8 * n ≤ own.charge h) :
    8 * n ≤ place.charge h := by
  rcases h with _ | _ | h
  all_goals
    refine loosen (P := fun place => 8 * n ≤ place.charge _)
      (Q := fun place => 8 * n ≤ place.charge _) (fun _ h => h) ?_ ?_ ?_ ?_ ?_ hrank hle
    all_goals
      intro h
      simp only [charge] at h ⊢
      omega

end Precedence

namespace Formula.Parser.Counted

variable {place inner : Precedence} {h k n m links other : Nat} {ts us : List Token}
  {f g : Formula}

/-- Only chains have connectives. -/
theorem links_eq_zero (hf : Counted place h n links ts f) (hplace : place.isChain = false) :
    links = 0 := by
  cases hf with
  | conjunction => cases hplace
  | disjunction => cases hplace
  | biconditional => cases hplace
  | _ => rfl

/-- The connectives of a chain lie above its first operand, and all are counted for its last. -/
theorem links_le (hf : Counted place h n links ts f) : links ≤ h ∧ links ≤ n := by
  induction hf with
  | conjunction _ _ ihf | disjunction _ _ ihf | biconditional _ _ ihf => omega
  | _ => omega

/-- The height of a spelling, seen from a looser place. -/
theorem height_loosen (hg : Counted inner k m other us g) (hrank : place.rank < inner.rank)
    (hle : 2 * k ≤ inner.ceiling m + 2 * other) : 2 * k ≤ place.ceiling m := by
  refine Precedence.ceiling_loosen hrank (Nat.le_trans hle (Nat.add_le_add_left ?_ _))
  split
  · have hlinks := hg.links_le
    omega
  · rename_i hchain
    rw [hg.links_eq_zero (Bool.eq_false_iff.2 hchain)]

/-- How high a spelling can be that takes a number of levels. -/
theorem height_le (hf : Counted place h n links ts f) : 2 * h ≤ place.ceiling n + 2 * links := by
  -- a chain grows by a connective and an operand from a tighter place
  have hjoin : ∀ {place inner : Precedence} {h k n m links other : Nat} {us : List Token}
      {g : Formula}, Counted inner k m other us g → place.rank < inner.rank →
      2 * h ≤ place.ceiling n + 2 * links → 2 * k ≤ inner.ceiling m + 2 * other →
      2 * (max h k + 1) ≤ place.ceiling (max n (links + (m + 1))) + 2 * (links + 1) := by
    intro place inner h k n m links other us g hg hrank hleft hright
    have hright' := hg.height_loosen hrank hright
    have hn : place.ceiling n ≤ place.ceiling (max n (links + (m + 1))) :=
      Precedence.ceiling_mono (by omega) place
    have hm : place.ceiling m ≤ place.ceiling (max n (links + (m + 1))) :=
      Precedence.ceiling_mono (by omega) place
    omega
  induction hf with
  | name name => exact Nat.zero_le _
  | @universal h k _ _ _ _ _ _ | @particular h k _ _ _ _ _ _ =>
      have hself := Nat.le_mul_self (max h k)
      simp only [Precedence.ceiling]
      omega
  | @parenthesised h n links _ _ hf ih =>
      have hlinks := hf.links_le
      simp only [Precedence.ceiling, succ_mul_succ_self] at ih ⊢
      omega
  | @negation h n links _ _ hf ih =>
      have hlinks := hf.links_eq_zero rfl
      simp only [Precedence.ceiling, succ_mul_succ_self] at ih ⊢
      omega
  | conjunction _ hg ihf ihg => exact hjoin hg (by decide) ihf ihg
  | disjunction _ hg ihf ihg => exact hjoin hg (by decide) ihf ihg
  | @conditional h k n m links other _ _ _ _ hf hg ihf ihg =>
      have hleft := hf.links_le
      have hright := hg.links_eq_zero rfl
      have hn := Precedence.ceiling_mono (Nat.le_max_left n (m + 1)) .conditional
      have hm := Precedence.ceiling_mono (Nat.le_max_right n (m + 1)) .conditional
      simp only [Precedence.ceiling, succ_mul_succ_self] at ihf ihg hn hm ⊢
      omega
  | biconditional _ hg ihf ihg => exact hjoin hg (by decide) ihf ihg
  | loosen hrank hf ih => exact hf.height_loosen hrank ih

/-- How many levels a spelling of a height can take. -/
theorem levels_le (hf : Counted place h n links ts f) : 8 * n ≤ place.charge h := by
  -- the last operand of a chain takes a level more for each connective before it
  have hjoin : ∀ {place inner : Precedence} {h k n m links : Nat}, links ≤ h →
      (∀ top, 8 * (top + 1) + inner.charge top ≤ place.charge (top + 1)) →
      8 * n ≤ place.charge h → 8 * m ≤ inner.charge k →
      8 * max n (links + (m + 1)) ≤ place.charge (max h k + 1) := by
    intro place inner h k n m links hlinks hsucc hleft hright
    have hh : place.charge h ≤ place.charge (max h k + 1) :=
      Precedence.charge_mono (by omega) place
    have hk : inner.charge k ≤ inner.charge (max h k) := Precedence.charge_mono (by omega) inner
    have hstep := hsucc (max h k)
    omega
  induction hf with
  | name name => exact Nat.zero_le _
  | @universal h k _ _ _ _ _ _ | @particular h k _ _ _ _ _ _ =>
      generalize max h k = top
      -- twice a number is at most its square and one
      have hself : 2 * top ≤ top * top + 1 := by
        rcases top with _ | top
        · exact Nat.zero_le _
        · rw [succ_mul_succ_self]
          omega
      simp only [Precedence.charge]
      omega
  | parenthesised _ ih =>
      simp only [Precedence.charge, succ_mul_succ_self] at ih ⊢
      omega
  | @negation h n _ _ _ _ ih =>
      have hloose : 8 * n ≤ Precedence.biconditional.charge h :=
        Precedence.charge_loosen (by decide) ih
      simp only [Precedence.charge, succ_mul_succ_self] at hloose ⊢
      omega
  | conjunction hf _ ihf ihg | disjunction hf _ ihf ihg | biconditional hf _ ihf ihg =>
      refine hjoin hf.links_le.1 (fun top => ?_) ihf ihg
      simp only [Precedence.charge, succ_mul_succ_self]
      omega
  | @conditional h k n m _ _ _ _ _ _ _ _ ihf ihg =>
      have hh := Precedence.charge_mono (Nat.le_max_left h k) .conditional
      have hk := Precedence.charge_mono (Nat.le_max_right h k) .conditional
      simp only [Precedence.charge, succ_mul_succ_self] at ihf ihg hh hk ⊢
      omega
  | loosen hrank _ ih => exact Precedence.charge_loosen hrank ih

end Formula.Parser.Counted

/-! ### Texts

For 256 levels the two bounds come to the heights 24 and 99200. -/

namespace Formula

open TermLogic.Formula.Parser

/-- Whether there are enough levels for a part can be told from the result. -/
theorem Parser.Takes.iff {α : Type} {need levels : Nat} {result : Except SyntaxError α} {part : α}
    (h : Takes need levels result (.ok part)) :
    (result = .ok part ↔ need ≤ levels) ∧ (IsTooDeep result ↔ levels < need) := by
  have hnot : ¬ (result = .ok part ∧ IsTooDeep result) := by
    rintro ⟨rfl, e, he, -⟩
    cases he
  refine ⟨⟨fun hok => Nat.not_lt.1 fun hlt => hnot ⟨hok, h.2 hlt⟩, h.1⟩, ⟨fun hdeep => ?_, h.2⟩⟩
  exact Nat.not_le.1 fun hle => hnot ⟨h.1 hle, hdeep⟩

/-- Tokens are read as the formula they spell if this takes no more levels than there are, and nest
too deep otherwise. -/
theorem takes_ofTokens (stop : Nat) {height levels links : Nat} {tokens : List Placed} {f : Formula}
    (h : Counted .biconditional height levels links (tokens.map Placed.token) f) :
    Takes levels maxNesting (ofTokens stop tokens) (.ok f) := by
  obtain ⟨henough, hfew⟩ := takes_biconditional (h.accepts stop) maxNesting
  exact ⟨fun hle => ofTokens_eq_ok_iff.2 (henough hle),
    fun hlt => isTooDeep_ofTokens_iff.2 (hfew hlt)⟩

/-- A name may stand in every place. -/
theorem spelt_name (place : Precedence) (name : String) :
    Spelt place 0 [.ident name] (atom (.atom name)) := by
  cases place with
  | primary => exact .name name
  | _ => exact .loosen (by decide) (.name name)

/-- **Levels decide.** A text whose tokens spell a formula is read as this formula exactly if at
most 256 levels are counted for the spelling, and nests too deep otherwise. At most 24 operators and
parentheses on the way to each leaf never take more than 256 levels, and more than 99200 on the way
to some leaf always do. -/
theorem parse_of_counted {text : String} {tokens : List Placed} {height : Nat} {f : Formula}
    (hscan : Token.scan text = .ok tokens)
    (hspelt : Spelt .biconditional height (tokens.map Placed.token) f) :
    (∃ levels links, Counted .biconditional height levels links (tokens.map Placed.token) f) ∧
    ∀ levels links, Counted .biconditional height levels links (tokens.map Placed.token) f →
      (parse text = .ok f ↔ levels ≤ 256) ∧
      ((∃ e, parse text = .error e ∧ e.kind = .tooDeep) ↔ 256 < levels) ∧
      (height ≤ 24 → levels ≤ 256) ∧ (99200 < height → 256 < levels) := by
  refine ⟨exists_counted hspelt, fun levels links hcounted => ?_⟩
  have htakes := takes_ofTokens text.utf8ByteSize hcounted
  rw [← parse_of_scan hscan] at htakes
  obtain ⟨hread, hdeep⟩ := htakes.iff
  refine ⟨hread, hdeep, fun hlow => ?_, fun hhigh => ?_⟩
  · have hle := Nat.le_trans hcounted.levels_le (Precedence.charge_mono hlow .biconditional)
    simp only [Precedence.charge] at hle
    omega
  · rw [← Nat.not_le]
    intro hfew
    have hle := hcounted.height_le
    have hlinks := hcounted.links_le
    have hceiling := Precedence.ceiling_mono hfew .biconditional
    simp only [Precedence.ceiling] at hle hceiling
    omega

/-- The text `A & B & -C` is two high, for which there are always levels enough. -/
theorem parse_of_counted_chain :
    ∃ tokens f, Token.scan "A & B & -C" = .ok tokens ∧
      Spelt .biconditional 2 (tokens.map Placed.token) f ∧ parse "A & B & -C" = .ok f := by
  have hscan : Token.scan "A & B & -C" = .ok [⟨.ident "A", 0⟩, ⟨.and, 2⟩, ⟨.ident "B", 4⟩,
      ⟨.and, 6⟩, ⟨.not, 8⟩, ⟨.ident "C", 9⟩] := rfl
  have hspelt : Spelt .biconditional 2
      [.ident "A", .and, .ident "B", .and, .not, .ident "C"] _ :=
    .loosen (by decide) (.conjunction (.conjunction (spelt_name _ "A") (spelt_name _ "B"))
      (.negation (spelt_name _ "C")))
  obtain ⟨⟨levels, links, hcounted⟩, hdecide⟩ := parse_of_counted hscan hspelt
  obtain ⟨hread, -, hlow, -⟩ := hdecide levels links hcounted
  exact ⟨_, _, hscan, hspelt, hread.2 (hlow (by decide))⟩

/-- Negations in front of an operand. -/
theorem spelt_negations {height : Nat} {ts : List Token} {f : Formula} (n : Nat)
    (h : Spelt .unary height ts f) :
    Spelt .unary (height + n) (List.replicate n .not ++ ts) (negation^[n] f) := by
  induction n with
  | zero => exact h
  | succ n ih =>
      rw [Function.iterate_succ_apply']
      exact ih.negation

/-- Height does not decide. The text `A & B & -…-A` with 255 negations is 256 high, but nests too
deep, because the first `&` costs the negations a level. The text `-…-A & B` with 256 negations is
257 high, but is read, because the `&` costs them none. -/
theorem parse_height_inexact :
    (∃ text tokens f, text = "A & B & " ++ String.ofList (List.replicate 255 '-') ++ "A" ∧
      Token.scan text = .ok tokens ∧ Spelt .biconditional 256 (tokens.map Placed.token) f ∧
      ∃ e, parse text = .error e ∧ e.kind = .tooDeep) ∧
    ∃ text tokens f, text = String.ofList (List.replicate 256 '-') ++ "A & B" ∧
      Token.scan text = .ok tokens ∧ Spelt .biconditional 257 (tokens.map Placed.token) f ∧
      parse text = .ok f := by
  have hnegations := fun n => spelt_negations n (spelt_name .unary "A")
  constructor
  · let f := conjunction (conjunction (atom (.atom "A")) (atom (.atom "B")))
      (negation^[255] (atom (.atom "A")))
    have hwritable : f.isWritable = true := by decide +kernel
    have htext : f.render = "A & B & " ++ String.ofList (List.replicate 255 '-') ++ "A" := by
      decide +kernel
    have htokens : f.tokens = [.ident "A"] ++ .and :: [.ident "B"] ++
        .and :: (List.replicate 255 .not ++ [.ident "A"]) := by
      decide +kernel
    obtain ⟨tokens, hscan, hsame⟩ := scan_render hwritable
    refine ⟨f.render, tokens, f, htext, hscan, ?_, ?_⟩
    · rw [hsame, htokens]
      exact .loosen (by decide) (.conjunction
        (.conjunction (spelt_name _ "A") (spelt_name _ "B")) (hnegations 255))
    · exact (takes_parse_render hwritable).2 (by decide +kernel)
  · let f := conjunction (negation^[256] (atom (.atom "A"))) (atom (.atom "B"))
    have hwritable : f.isWritable = true := by decide +kernel
    have htext : f.render = String.ofList (List.replicate 256 '-') ++ "A & B" := by
      decide +kernel
    have htokens : f.tokens = List.replicate 256 .not ++ [.ident "A"] ++ .and :: [.ident "B"] := by
      decide +kernel
    have hplain : f.plain = f := by decide +kernel
    obtain ⟨tokens, hscan, hsame⟩ := scan_render hwritable
    refine ⟨f.render, tokens, f, htext, hscan, ?_, ?_⟩
    · rw [hsame, htokens]
      exact .loosen (by decide) (.conjunction
        (.loosen (by decide) (hnegations 256)) (spelt_name _ "B"))
    · have hread := (takes_parse_render hwritable).1 (by decide +kernel)
      rwa [hplain] at hread

end Formula

end TermLogic
