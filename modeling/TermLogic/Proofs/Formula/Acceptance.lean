import TermLogic.Proofs.Formula.Readers

/-!
# What is spelt is read

Every spelling of a formula is read as that formula, unless levels run out, whatever follows it that
does not take the formula further. Together with the contracts of the readers this says which texts
are formulas, and that no text is two of them.

* `Parser.Gives`: a result, or a fault of nesting in its place. `Parser.Takes` also says how many
  levels decide between the two.
* `Parser.reader`, `Parser.continuation`: the reader for a binding strength, and what it goes on
  with once it has read a formula.
* `Precedence.Stops`: what follows does not take a formula at a place further.
* `Parser.Accepts`: tokens are read as a formula with a known number of levels, of which a chain of
  `&`, `|` or `<->` keeps one for each of its connectives while it goes on.
* `Parser.Counted`, `Parser.Counted.accepts`: spellings with the levels they take, and that they are
  accepted with these, by induction on the spelling.
* `Formula.Denotes.unique`: no tokens spell two formulas.
* `Formula.parse_follows_grammar`: reading a text against the grammar.
-/

namespace TermLogic

open Token (Placed)

namespace Formula.Parser

/-! ### Results up to nesting

A reader may run out of levels on tokens that spell a formula. What can be said in any case is that
it finds the formula or says so, and with the levels counted, which of the two. -/

section

variable {α β : Type}

/-- A fault of nesting. -/
def IsTooDeep (result : Except SyntaxError α) : Prop :=
  ∃ e, result = .error e ∧ e.kind = .tooDeep

/-- The result is the expected one or a fault of nesting. -/
def Gives (result expected : Except SyntaxError α) : Prop :=
  result = expected ∨ IsTooDeep result

/-- The result is the expected one if at least `need` levels are left, and a fault of nesting if
fewer are. -/
def Takes (need levels : Nat) (result expected : Except SyntaxError α) : Prop :=
  (need ≤ levels → result = expected) ∧ (levels < need → IsTooDeep result)

variable {need more levels : Nat}

/-- A reader that takes its expected result if there are enough levels has, in any case, this result
or too few levels. -/
theorem Takes.gives {result expected : Except SyntaxError α}
    (h : Takes need levels result expected) : Gives result expected :=
  (Nat.lt_or_ge levels need).elim (fun hlt => .inr (h.2 hlt)) fun hle => .inl (h.1 hle)

/-- A reader with the expected result needs no further levels. -/
theorem takes_of_eq {result expected : Except SyntaxError α} (h : result = expected) :
    Takes 0 levels result expected :=
  ⟨fun _ => h, fun hlt => absurd hlt (Nat.not_lt_zero _)⟩

/-- With no level left, an operator or parenthesis cannot be taken. -/
theorem takes_tooDeep (position : Nat) (expected : Except SyntaxError α) :
    Takes (need + 1) 0 (tooDeep position) expected :=
  ⟨fun hle => absurd hle (Nat.not_succ_le_zero _), fun _ => ⟨⟨.tooDeep, position⟩, rfl, rfl⟩⟩

/-- An operator or parenthesis costs one level. -/
theorem Takes.succ {result expected : Except SyntaxError α}
    (h : Takes need levels result expected) : Takes (need + 1) (levels + 1) result expected :=
  ⟨fun hle => h.1 (Nat.le_of_succ_le_succ hle), fun hlt => h.2 (Nat.lt_of_succ_lt_succ hlt)⟩

/-- What is taken may be rewritten. -/
theorem Takes.trans_eq {first second third : Except SyntaxError α}
    (h : Takes need levels first second) (h' : second = third) : Takes need levels first third :=
  h' ▸ h

/-- One reader may be taken for another and this for a third, with levels enough for both. -/
theorem Takes.trans {first second third : Except SyntaxError α} (h : Takes need levels first second)
    (h' : Takes more levels second third) : Takes (max need more) levels first third := by
  refine ⟨fun hle => ?_, fun hlt => ?_⟩
  · exact (h.1 (Nat.le_trans (Nat.le_max_left _ _) hle)).trans
      (h'.1 (Nat.le_trans (Nat.le_max_right _ _) hle))
  · rcases Nat.lt_or_ge levels need with hneed | hneed
    · exact h.2 hneed
    · rw [h.1 hneed]
      exact h'.2 (by omega)

/-- A reader that takes levels for a part goes on behind it. -/
theorem Takes.bind {reader : Parser α} {next : α → Parser β} {ahead rest : List Placed} {part : α}
    (h : Takes need levels (reader ahead) (.ok (part, rest))) :
    Takes need levels ((reader >>= next) ahead) (next part rest) := by
  have hbind : (reader >>= next) ahead =
      (reader ahead >>= fun (part, rest) => next part rest) := rfl
  refine ⟨fun hle => ?_, fun hlt => ?_⟩
  · rw [hbind, h.1 hle]
    rfl
  · obtain ⟨e, heq, hkind⟩ := h.2 hlt
    refine ⟨e, ?_, hkind⟩
    rw [hbind, heq]
    rfl

/-- A reader that takes levels for a part takes as many for what is made of it. -/
theorem Takes.map {reader : Parser α} (change : α → β) {ahead rest : List Placed} {part : α}
    (h : Takes need levels (reader ahead) (.ok (part, rest))) :
    Takes need levels ((change <$> reader) ahead) (.ok (change part, rest)) := by
  have hbind : Takes need levels ((reader >>= fun part => pure (change part)) ahead)
      (.ok (change part, rest)) := h.bind
  exact hbind

end

/-! ### Terms and categorical sentences -/

/-- A spelling of a term is read as that term, and takes as many levels as it is high. -/
theorem takes_term {h : Nat} {ts : List Token} {t : Term} (ht : Term.Spelt h ts t) (stop : Nat)
    {levels : Nat} {taken rest : List Placed} (htaken : taken.map Placed.token = ts) :
    Takes h levels (term stop levels (taken ++ rest)) (.ok (t, rest)) := by
  induction ht generalizing levels taken with
  | atom name =>
      obtain ⟨⟨token, position⟩, rfl, rfl⟩ := List.map_eq_singleton_iff.1 htaken
      exact takes_of_eq (by rw [List.singleton_append, term])
  | complement ht ih =>
      obtain ⟨⟨token, position⟩, others, rfl, rfl, hothers⟩ := List.map_eq_cons_iff.1 htaken
      rcases levels with _ | levels
      · exact takes_tooDeep position _
      · exact ((ih hothers).map Term.complement).succ
  | privation ht ih =>
      obtain ⟨⟨token, position⟩, others, rfl, rfl, hothers⟩ := List.map_eq_cons_iff.1 htaken
      rcases levels with _ | levels
      · exact takes_tooDeep position _
      · exact ((ih hothers).map Term.privation).succ

/-- Two terms with the closing delimiter between them are read as a categorical sentence. -/
theorem takes_categorical {h k : Nat} {ts us : List Token} {s p : Term} (hs : Term.Spelt h ts s)
    (hp : Term.Spelt k us p) (stop levels : Nat) (form : Term → Term → Formula) (closer : Token)
    (opener : Placed) {taken rest : List Placed}
    (htaken : taken.map Placed.token = ts ++ closer :: us) :
    Takes (max h k) levels (categorical stop levels form closer opener (taken ++ rest))
      (.ok (form s p, rest)) := by
  obtain ⟨first, others, rfl, hfirst, hothers⟩ := List.map_eq_append_iff.1 htaken
  obtain ⟨found, second, rfl, hfound, hsecond⟩ := List.map_eq_cons_iff.1 hothers
  rw [List.append_assoc]
  refine (takes_term hs stop hfirst).bind.trans ?_
  have hclose : close closer opener (found :: second ++ rest) = .ok ((), second ++ rest) := by
    simp [close, hfound]
  rw [← Nat.zero_max k]
  exact (takes_of_eq hclose).bind.trans (takes_term hp stop hsecond).bind

end Formula.Parser

/-! ### Places

A place stands for the binding strength that is needed there. What the reader for a place takes
depends on what follows, so every statement says what may follow; and a formula that binds tighter
than is needed is passed on from place to place. -/

namespace Precedence

/-- Whether a token takes a formula that has been read at a place further, other than by joining it
to what follows at the same place. -/
def takes (place : Precedence) : Token → Bool
  | .and => place.rank < conjunction.rank
  | .or => place.rank < disjunction.rank
  | .imply => place.rank ≤ conditional.rank
  | _ => false

/-- What follows does not take a formula at a place further. -/
def Stops (place : Precedence) (rest : List Placed) : Prop :=
  ∀ found ∈ rest.head?, place.takes found.token = false

/-- Nothing follows. -/
theorem stops_nil (place : Precedence) : place.Stops [] := by
  intro found hfound
  cases hfound

/-- A token that takes formulas at the place further does not follow. -/
theorem Stops.ne {place : Precedence} {rest : List Placed} {token : Token} (h : place.Stops rest)
    (htoken : place.takes token = true) : ∀ found ∈ rest.head?, found.token ≠ token := by
  rintro found hfound rfl
  rw [h found hfound] at htoken
  cases htoken

/-- A token that takes formulas further where more strength is needed does so where less is. -/
theorem takes_of_rank_le {place own : Precedence} {token : Token} (hrank : place.rank ≤ own.rank)
    (h : own.takes token = true) : place.takes token = true := by
  cases token with
  | and | or | imply =>
      simp only [takes, decide_eq_true_eq] at h ⊢
      omega
  | _ => cases h

/-- What stops a formula at a place stops it where more strength is needed. -/
theorem Stops.mono {place own : Precedence} {rest : List Placed} (h : place.Stops rest)
    (hrank : place.rank ≤ own.rank) : own.Stops rest := by
  intro found hfound
  rw [← Bool.not_eq_true]
  intro htakes
  exact h.ne (takes_of_rank_le hrank htakes) found hfound rfl

/-- What holds at a place and is handed on from each place to the next looser one, possibly in a
stronger form `Q`, holds in that form at every looser place. -/
theorem loosen {P Q : Precedence → Prop} (hweaken : ∀ place, Q place → P place)
    (hunary : P .primary → Q .unary) (hconjunction : P .unary → Q .conjunction)
    (hdisjunction : P .conjunction → Q .disjunction)
    (hconditional : P .disjunction → Q .conditional)
    (hbiconditional : P .conditional → Q .biconditional) {place own : Precedence}
    (hrank : place.rank < own.rank) (h : P own) : Q place := by
  cases own <;> cases place <;> simp_all [rank]

end Precedence

namespace Formula.Parser

/-- The reader for a place. -/
def reader (stop levels : Nat) : Precedence → Parser Formula
  | .biconditional => biconditional stop levels
  | .conditional => conditional stop levels
  | .disjunction => disjunction stop levels
  | .conjunction => conjunction stop levels
  | .unary | .primary => operand stop levels

/-- What the reader for a place goes on with once it has read a formula. -/
def continuation (stop levels : Nat) : Precedence → Formula → Parser Formula
  | .biconditional => biconditionalTail stop levels
  | .disjunction => disjunctionTail stop levels
  | .conjunction => conjunctionTail stop levels
  | .conditional | .unary | .primary => pure

/-- A tail ends where its token does not follow. -/
theorem tailOn_of_ne {token : Token} (levels : Nat) (left : Formula) (step : Nat → Parser Formula)
    {rest : List Placed} (h : ∀ found ∈ rest.head?, found.token ≠ token) :
    tailOn token levels left step rest = .ok (left, rest) := by
  rcases rest with _ | ⟨found, rest⟩
  · rfl
  · simp [tailOn, h found rfl]

/-- A tail takes its step behind its token, at the cost of a level. -/
theorem takes_tailOn {need : Nat} {token : Token} (levels : Nat) (left : Formula)
    {step : Nat → Parser Formula} {found : Placed} {rest : List Placed}
    (expected : Nat → Except SyntaxError (Formula × List Placed)) (hfound : found.token = token)
    (h : ∀ n, Takes need n (step n rest) (expected n)) :
    Takes (need + 1) levels (tailOn token levels left step (found :: rest))
      (expected (levels - 1)) := by
  rcases levels with _ | levels
  · simp only [tailOn, if_pos hfound]
    exact takes_tooDeep found.position _
  · simp only [tailOn, if_pos hfound]
    exact (h levels).succ

/-- The tokens are read as the formula by the reader for the place, whatever follows that does not
take it further. This takes `need` levels, and the reader goes on with what follows with all but
`kept` of them. -/
def Accepts (stop : Nat) (place : Precedence) (need kept : Nat) (ts : List Token) (f : Formula) :
    Prop :=
  ∀ (levels : Nat) (taken rest : List Placed), taken.map Placed.token = ts → place.Stops rest →
    Takes need levels (reader stop levels place (taken ++ rest))
      (continuation stop (levels - kept) place f rest)

namespace Accepts

variable {stop n m kept : Nat} {ts us : List Token} {f g : Formula}

/-- An operand is a conjunction to which no `&` has been joined yet. -/
theorem conjunction_of_unary (h : Accepts stop .unary n kept ts f) :
    Accepts stop .conjunction n 0 ts f := by
  intro levels taken rest htaken hstops
  exact (h levels taken rest htaken (hstops.mono (by decide))).bind

/-- A conjunction that is not followed by `&` is a disjunction to which no `|` has been joined. -/
theorem disjunction_of_conjunction (h : Accepts stop .conjunction n kept ts f) :
    Accepts stop .disjunction n 0 ts f := by
  intro levels taken rest htaken hstops
  have hread := h levels taken rest htaken (hstops.mono (by decide))
  have hend : conjunctionTail stop (levels - kept) f rest = .ok (f, rest) := by
    rw [conjunctionTail_eq]
    exact tailOn_of_ne _ f _ (hstops.ne rfl)
  exact (hread.trans_eq hend).bind

/-- A disjunction that is followed by neither `|` nor `->` is a conditional. -/
theorem conditional_of_disjunction (h : Accepts stop .disjunction n kept ts f) :
    Accepts stop .conditional n 0 ts f := by
  intro levels taken rest htaken hstops
  have hread := h levels taken rest htaken (hstops.mono (by decide))
  have hend : disjunctionTail stop (levels - kept) f rest = .ok (f, rest) := by
    rw [disjunctionTail_eq]
    exact tailOn_of_ne _ f _ (hstops.ne rfl)
  have hend' : conditionalTail stop levels f rest = .ok (f, rest) := by
    rw [conditionalTail_eq]
    exact tailOn_of_ne levels f _ (hstops.ne rfl)
  exact (hread.trans_eq hend).bind.trans_eq hend'

/-- A conditional is a biconditional to which no `<->` has been joined yet. -/
theorem biconditional_of_conditional (h : Accepts stop .conditional n kept ts f) :
    Accepts stop .biconditional n 0 ts f := by
  intro levels taken rest htaken hstops
  exact (h levels taken rest htaken (hstops.mono (by decide))).bind

/-- What is accepted where more strength is needed is accepted where less is, as the start of a
chain that keeps no level yet. -/
theorem loosen {place own : Precedence} (hrank : place.rank < own.rank)
    (h : Accepts stop own n kept ts f) : Accepts stop place n 0 ts f :=
  Precedence.loosen (P := fun place => ∃ kept, Accepts stop place n kept ts f)
    (Q := fun place => Accepts stop place n 0 ts f) (fun _ h => ⟨0, h⟩)
    (fun ⟨_, h⟩ levels taken rest htaken hstops =>
      h levels taken rest htaken (hstops.mono (by decide)))
    (fun ⟨_, h⟩ => h.conjunction_of_unary) (fun ⟨_, h⟩ => h.disjunction_of_conjunction)
    (fun ⟨_, h⟩ => h.conditional_of_disjunction) (fun ⟨_, h⟩ => h.biconditional_of_conditional)
    hrank ⟨kept, h⟩

/-- A formula that is joined to another one at a place which groups to the left. The right one is
read at a tighter place `inner`, where nothing that stops the whole takes it further, with one level
less for each connective of the chain so far. -/
theorem join {place inner : Precedence} {other : Nat} {token : Token}
    (hf : Accepts stop place n kept ts f) (hg : Accepts stop inner m other us g)
    (combine : Formula → Formula → Formula) (htoken : place.takes token = false)
    (hinner : place.rank ≤ inner.rank)
    (htail : ∀ levels f, continuation stop levels place f = tailOn token levels f fun levels =>
      reader stop levels inner >>= fun g => continuation stop levels place (combine f g))
    (hend : ∀ levels g rest, place.Stops rest →
      continuation stop levels inner g rest = .ok (g, rest)) :
    Accepts stop place (max n (kept + (m + 1))) (kept + 1) (ts ++ token :: us) (combine f g) := by
  intro levels taken rest htaken hstops
  obtain ⟨first, others, rfl, hfirst, hothers⟩ := List.map_eq_append_iff.1 htaken
  obtain ⟨found, second, rfl, hfound, hsecond⟩ := List.map_eq_cons_iff.1 hothers
  have hgo : place.Stops (found :: (second ++ rest)) := by
    rintro _ ⟨⟩
    rw [hfound]
    exact htoken
  have hleft := hf levels first (found :: (second ++ rest)) hfirst hgo
  rw [htail] at hleft
  have hright : ∀ left, Takes m left
      ((reader stop left inner >>= fun g => continuation stop left place (combine f g))
        (second ++ rest)) (continuation stop left place (combine f g) rest) := by
    intro left
    have hread := hg left second rest hsecond (hstops.mono hinner)
    exact (hread.trans_eq (hend _ g rest hstops)).bind
  obtain ⟨henough, hfew⟩ := takes_tailOn (levels - kept) f _ hfound hright
  rw [List.append_assoc, ← Nat.sub_sub]
  refine hleft.trans ⟨fun hle => henough ?_, fun hlt => hfew ?_⟩ <;> omega

/-- A conjunction is accepted if its operands are: the right one is read one level below those that
the left one has kept. -/
theorem conjunction {other : Nat} (hf : Accepts stop .conjunction n kept ts f)
    (hg : Accepts stop .unary m other us g) :
    Accepts stop .conjunction (max n (kept + (m + 1))) (kept + 1) (ts ++ .and :: us)
      (f.conjunction g) :=
  hf.join hg Formula.conjunction rfl (by decide) (conjunctionTail_eq stop) fun _ _ _ _ => rfl

/-- A disjunction is accepted if its operands are, with levels counted as for a conjunction. -/
theorem disjunction {other : Nat} (hf : Accepts stop .disjunction n kept ts f)
    (hg : Accepts stop .conjunction m other us g) :
    Accepts stop .disjunction (max n (kept + (m + 1))) (kept + 1) (ts ++ .or :: us)
      (f.disjunction g) := by
  refine hf.join hg Formula.disjunction rfl (by decide) (disjunctionTail_eq stop) ?_
  intro levels g rest hstops
  show conjunctionTail stop levels g rest = .ok (g, rest)
  rw [conjunctionTail_eq]
  exact tailOn_of_ne levels g _ (hstops.ne rfl)

/-- A biconditional is accepted if its operands are, with levels counted as for a conjunction. -/
theorem biconditional {other : Nat} (hf : Accepts stop .biconditional n kept ts f)
    (hg : Accepts stop .conditional m other us g) :
    Accepts stop .biconditional (max n (kept + (m + 1))) (kept + 1) (ts ++ .iff :: us)
      (f.biconditional g) :=
  hf.join hg Formula.biconditional rfl (by decide) (biconditionalTail_eq stop) fun _ _ _ _ => rfl

/-- `->` groups to the right: the consequent takes all that follows. -/
theorem conditional {other : Nat} (hf : Accepts stop .disjunction n kept ts f)
    (hg : Accepts stop .conditional m other us g) :
    Accepts stop .conditional (max n (m + 1)) 0 (ts ++ .imply :: us) (f.conditional g) := by
  intro levels taken rest htaken hstops
  obtain ⟨first, others, rfl, hfirst, hothers⟩ := List.map_eq_append_iff.1 htaken
  obtain ⟨found, second, rfl, hfound, hsecond⟩ := List.map_eq_cons_iff.1 hothers
  have hgo : Precedence.disjunction.Stops (found :: (second ++ rest)) := by
    rintro _ ⟨⟩
    rw [hfound]
    rfl
  have hleft := hf levels first (found :: (second ++ rest)) hfirst hgo
  have hend : disjunctionTail stop (levels - kept) f (found :: (second ++ rest)) =
      .ok (f, found :: (second ++ rest)) := by
    rw [disjunctionTail_eq]
    refine tailOn_of_ne _ f _ ?_
    rintro _ ⟨⟩
    rw [hfound]
    exact nofun
  rw [List.append_assoc]
  refine (hleft.trans_eq hend).bind.trans ?_
  rw [conditionalTail_eq]
  refine takes_tailOn levels f (fun _ => .ok (f.conditional g, rest)) hfound ?_
  intro left
  exact (hg left second rest hsecond hstops).bind

/-- A formula in parentheses, which nothing takes further before they are closed. -/
theorem parenthesised (hf : Accepts stop .biconditional n kept ts f) :
    Accepts stop .primary (n + 1) 0 (.leftParen :: ts ++ [.rightParen]) f := by
  intro levels taken rest htaken hstops
  obtain ⟨opener, others, rfl, hopener, hothers⟩ := List.map_eq_cons_iff.1 htaken
  obtain ⟨inner, last, rfl, hinner, hlast⟩ := List.map_eq_append_iff.1 hothers
  obtain ⟨closer, rfl, hcloser⟩ := List.map_eq_singleton_iff.1 hlast
  obtain ⟨token, position⟩ := opener
  obtain rfl : token = .leftParen := hopener
  rw [List.cons_append, List.append_assoc]
  rcases levels with _ | levels
  · exact takes_tooDeep position _
  · have hgo : Precedence.biconditional.Stops ([closer] ++ rest) := by
      rintro _ ⟨⟩
      rw [hcloser]
      rfl
    have hleft := hf levels inner ([closer] ++ rest) hinner hgo
    have hend : biconditionalTail stop (levels - kept) f ([closer] ++ rest) =
        .ok (f, [closer] ++ rest) := by
      rw [biconditionalTail_eq]
      refine tailOn_of_ne _ f _ ?_
      rintro _ ⟨⟩
      rw [hcloser]
      exact nofun
    have hclose : close .rightParen ⟨.leftParen, position⟩ ([closer] ++ rest) =
        .ok ((), rest) := by
      simp [close, hcloser]
    rw [← Nat.max_zero n]
    refine ((hleft.trans_eq hend).bind.trans ?_).succ
    exact (takes_of_eq hclose).bind

/-- A negated operand. -/
theorem negation (hf : Accepts stop .unary n kept ts f) :
    Accepts stop .unary (n + 1) 0 (.not :: ts) f.negation := by
  intro levels taken rest htaken hstops
  obtain ⟨⟨token, position⟩, others, rfl, rfl, hothers⟩ := List.map_eq_cons_iff.1 htaken
  rcases levels with _ | levels
  · exact takes_tooDeep position _
  · exact ((hf levels others rest hothers hstops).map Formula.negation).succ

/-- A name used as a proposition. -/
theorem name (stop : Nat) (name : String) :
    Accepts stop .primary 0 0 [.ident name] (.atom (.atom name)) := by
  intro levels taken rest htaken _
  obtain ⟨⟨token, position⟩, rfl, rfl⟩ := List.map_eq_singleton_iff.1 htaken
  refine takes_of_eq ?_
  show operand stop levels _ = _
  rw [List.singleton_append, operand]
  rfl

/-- A universal is accepted if its terms are spelt: brackets take no level, and term operators take
one each. -/
theorem universal {h k : Nat} {s p : Term} (stop : Nat) (hs : Term.Spelt h ts s)
    (hp : Term.Spelt k us p) :
    Accepts stop .primary (max h k) 0 (.leftBracket :: ts ++ .rightBracket :: us)
      (.universal s p) := by
  intro levels taken rest htaken _
  obtain ⟨⟨token, position⟩, others, rfl, rfl, hothers⟩ := List.map_eq_cons_iff.1 htaken
  show Takes _ _ (operand stop levels _) _
  rw [List.cons_append, operand]
  exact takes_categorical hs hp stop levels _ _ _ hothers

/-- A particular is accepted if its terms are spelt, with levels counted as for a universal. -/
theorem particular {h k : Nat} {s p : Term} (stop : Nat) (hs : Term.Spelt h ts s)
    (hp : Term.Spelt k us p) :
    Accepts stop .primary (max h k) 0 (.leftAngle :: ts ++ .rightAngle :: us)
      (.particular s p) := by
  intro levels taken rest htaken _
  obtain ⟨⟨token, position⟩, others, rfl, rfl, hothers⟩ := List.map_eq_cons_iff.1 htaken
  show Takes _ _ (operand stop levels _) _
  rw [List.cons_append, operand]
  exact takes_categorical hs hp stop levels _ _ _ hothers

end Accepts

/-! ### Spellings

The levels that a chain keeps while it goes on are not those that its last operand needs. So they
are counted next to each other, and the induction on spellings carries both. -/

/-- Spellings with the levels that reading them takes, next to their height. A connective that
groups to the left costs all that follows in its chain a level, and what stands before it none:
`links` is the number of connectives of the chain so far. -/
inductive Counted : (place : Precedence) → (height levels links : Nat) → List Token → Formula →
    Prop where
  | name (name : String) : Counted .primary 0 0 0 [.ident name] (.atom (.atom name))
  | universal {h k : Nat} {ts us : List Token} {s p : Term} :
      Term.Spelt h ts s → Term.Spelt k us p →
      Counted .primary (max h k) (max h k) 0 (.leftBracket :: ts ++ .rightBracket :: us)
        (.universal s p)
  | particular {h k : Nat} {ts us : List Token} {s p : Term} :
      Term.Spelt h ts s → Term.Spelt k us p →
      Counted .primary (max h k) (max h k) 0 (.leftAngle :: ts ++ .rightAngle :: us)
        (.particular s p)
  | parenthesised {h n links : Nat} {ts : List Token} {f : Formula} :
      Counted .biconditional h n links ts f →
      Counted .primary (h + 1) (n + 1) 0 (.leftParen :: ts ++ [.rightParen]) f
  | negation {h n links : Nat} {ts : List Token} {f : Formula} :
      Counted .unary h n links ts f → Counted .unary (h + 1) (n + 1) 0 (.not :: ts) f.negation
  | conjunction {h k n m links other : Nat} {ts us : List Token} {f g : Formula} :
      Counted .conjunction h n links ts f → Counted .unary k m other us g →
      Counted .conjunction (max h k + 1) (max n (links + (m + 1))) (links + 1) (ts ++ .and :: us)
        (f.conjunction g)
  | disjunction {h k n m links other : Nat} {ts us : List Token} {f g : Formula} :
      Counted .disjunction h n links ts f → Counted .conjunction k m other us g →
      Counted .disjunction (max h k + 1) (max n (links + (m + 1))) (links + 1) (ts ++ .or :: us)
        (f.disjunction g)
  | conditional {h k n m links other : Nat} {ts us : List Token} {f g : Formula} :
      Counted .disjunction h n links ts f → Counted .conditional k m other us g →
      Counted .conditional (max h k + 1) (max n (m + 1)) 0 (ts ++ .imply :: us) (f.conditional g)
  | biconditional {h k n m links other : Nat} {ts us : List Token} {f g : Formula} :
      Counted .biconditional h n links ts f → Counted .conditional k m other us g →
      Counted .biconditional (max h k + 1) (max n (links + (m + 1))) (links + 1) (ts ++ .iff :: us)
        (f.biconditional g)
  | loosen {place own : Precedence} {h n links : Nat} {ts : List Token} {f : Formula} :
      place.rank < own.rank → Counted own h n links ts f → Counted place h n 0 ts f

/-- The levels of every spelling can be counted. -/
theorem exists_counted {place : Precedence} {h : Nat} {ts : List Token} {f : Formula}
    (hf : Spelt place h ts f) : ∃ levels links, Counted place h levels links ts f := by
  induction hf with
  | name name => exact ⟨_, _, .name name⟩
  | universal hs hp => exact ⟨_, _, .universal hs hp⟩
  | particular hs hp => exact ⟨_, _, .particular hs hp⟩
  | parenthesised _ ih =>
      obtain ⟨n, links, hf⟩ := ih
      exact ⟨_, _, hf.parenthesised⟩
  | negation _ ih =>
      obtain ⟨n, links, hf⟩ := ih
      exact ⟨_, _, hf.negation⟩
  | conjunction _ _ ihf ihg =>
      obtain ⟨n, links, hf⟩ := ihf
      obtain ⟨m, other, hg⟩ := ihg
      exact ⟨_, _, hf.conjunction hg⟩
  | disjunction _ _ ihf ihg =>
      obtain ⟨n, links, hf⟩ := ihf
      obtain ⟨m, other, hg⟩ := ihg
      exact ⟨_, _, hf.disjunction hg⟩
  | conditional _ _ ihf ihg =>
      obtain ⟨n, links, hf⟩ := ihf
      obtain ⟨m, other, hg⟩ := ihg
      exact ⟨_, _, hf.conditional hg⟩
  | biconditional _ _ ihf ihg =>
      obtain ⟨n, links, hf⟩ := ihf
      obtain ⟨m, other, hg⟩ := ihg
      exact ⟨_, _, hf.biconditional hg⟩
  | loosen hrank _ ih =>
      obtain ⟨n, links, hf⟩ := ih
      exact ⟨_, _, hf.loosen hrank⟩

/-- A spelling is accepted where its binding strength is needed, with the levels that are counted
for it. -/
theorem Counted.accepts (stop : Nat) {place : Precedence} {h levels links : Nat} {ts : List Token}
    {f : Formula} (hf : Counted place h levels links ts f) :
    Accepts stop place levels links ts f := by
  induction hf with
  | name name => exact .name stop name
  | universal hs hp => exact .universal stop hs hp
  | particular hs hp => exact .particular stop hs hp
  | parenthesised _ ih => exact ih.parenthesised
  | negation _ ih => exact ih.negation
  | conjunction _ _ ihf ihg => exact ihf.conjunction ihg
  | disjunction _ _ ihf ihg => exact ihf.disjunction ihg
  | conditional _ _ ihf ihg => exact ihf.conditional ihg
  | biconditional _ _ ihf ihg => exact ihf.biconditional ihg
  | loosen hrank _ ih => exact ih.loosen hrank

/-- Tokens that are accepted in the loosest place are read with nothing left over. -/
theorem takes_biconditional {stop need kept : Nat} {tokens : List Placed} {f : Formula}
    (h : Accepts stop .biconditional need kept (tokens.map Placed.token) f) (levels : Nat) :
    Takes need levels (biconditional stop levels tokens) (.ok (f, [])) := by
  have hread := h levels tokens [] rfl (Precedence.stops_nil _)
  rw [List.append_nil] at hread
  refine hread.trans_eq ?_
  show biconditionalTail stop _ f [] = .ok (f, [])
  rw [biconditionalTail_eq]
  rfl

/-- Tokens that spell a formula are read as that formula with nothing left over. -/
theorem gives_biconditional (stop levels : Nat) {tokens : List Placed} {f : Formula}
    (h : Denotes (tokens.map Placed.token) f) :
    Gives (biconditional stop levels tokens) (.ok (f, [])) := by
  obtain ⟨height, hf⟩ := h
  obtain ⟨need, links, hcounted⟩ := exists_counted hf
  exact (takes_biconditional (hcounted.accepts stop) levels).gives

/-- With enough levels for all tokens, no fault of nesting comes up. -/
theorem not_isTooDeep_biconditional (stop : Nat) {levels : Nat} {tokens : List Placed}
    (h : nesting tokens ≤ levels) : ¬ IsTooDeep (biconditional stop levels tokens) := by
  rintro ⟨e, he, hkind⟩
  have hmeets := (contracts stop levels).biconditional tokens
  rw [he] at hmeets
  exact absurd (hmeets hkind) (Nat.not_lt.2 h)

end Formula.Parser

/-! ### Texts

A text is read by scanning it and reading its tokens; what is left over behind a formula is a fault.
Two readings of the same tokens are the same because the reader is a function. -/

namespace Formula

open TermLogic.Formula.Parser

/-- No tokens spell two formulas. -/
theorem Denotes.unique {ts : List Token} {f g : Formula} (hf : Denotes ts f) (hg : Denotes ts g) :
    f = g := by
  obtain ⟨tokens, rfl⟩ : ∃ tokens : List Placed, tokens.map Placed.token = ts :=
    ⟨ts.map fun token => ⟨token, 0⟩, by simp [Function.comp_def]⟩
  -- a reader that does not run out of levels reads only one of them
  have hread : ∀ {f : Formula}, Denotes (tokens.map Placed.token) f →
      Parser.biconditional 0 (nesting tokens) tokens = .ok (f, []) := by
    intro f hf
    exact (gives_biconditional 0 _ hf).resolve_right
      (not_isTooDeep_biconditional 0 (Nat.le_refl _))
  have hsame := (hread hf).symm.trans (hread hg)
  cases hsame
  rfl

/-- How reading tokens ends, by what the reader of formulas does with them: it leaves none of them
over, it finds a fault, which is of the same class as to nesting, or it leaves some over. -/
theorem ofTokens_cases (stop : Nat) (tokens : List Placed) :
    (∃ f, Parser.biconditional stop maxNesting tokens = .ok (f, []) ∧
      ofTokens stop tokens = .ok f) ∨
    (∃ e e', Parser.biconditional stop maxNesting tokens = .error e ∧
      ofTokens stop tokens = .error e' ∧ (e'.kind = .tooDeep ↔ e.kind = .tooDeep)) ∨
    (∃ f found rest e, Parser.biconditional stop maxNesting tokens = .ok (f, found :: rest) ∧
      ofTokens stop tokens = .error e ∧ e.kind ≠ .tooDeep) := by
  rcases tokens with _ | ⟨first, others⟩
  · right; left
    exact ⟨⟨.ended .formula, stop⟩, ⟨.empty, 0⟩, rfl, rfl, iff_of_false nofun nofun⟩
  · cases hresult : Parser.biconditional stop maxNesting (first :: others) with
    | error e =>
        right; left
        refine ⟨e, e, rfl, ?_, Iff.rfl⟩
        simp only [ofTokens, hresult]
        rfl
    | ok result =>
        obtain ⟨f, rest⟩ := result
        rcases rest with _ | ⟨⟨token, position⟩, rest⟩
        · left
          refine ⟨f, rfl, ?_⟩
          simp only [ofTokens, hresult]
          rfl
        · right; right
          have hrest : ∃ e, ofTokens stop (first :: others) = .error e ∧ e.kind ≠ .tooDeep := by
            simp only [ofTokens, hresult]
            cases token <;> exact ⟨_, rfl, nofun⟩
          obtain ⟨e, he, hkind⟩ := hrest
          exact ⟨f, ⟨token, position⟩, rest, e, rfl, he, hkind⟩

/-- Tokens are read as a formula if the reader of formulas leaves none of them over. -/
theorem ofTokens_eq_ok_iff {stop : Nat} {tokens : List Placed} {f : Formula} :
    ofTokens stop tokens = .ok f ↔
      Parser.biconditional stop maxNesting tokens = .ok (f, []) := by
  rcases ofTokens_cases stop tokens with
    ⟨g, hg, hread⟩ | ⟨e, e', he, hread, -⟩ | ⟨g, found, rest, e, hg, hread, -⟩
  · simp [hg, hread]
  · simp [he, hread]
  · simp [hg, hread]

/-- Tokens nest too deep if the reader of formulas runs out of levels. -/
theorem isTooDeep_ofTokens_iff {stop : Nat} {tokens : List Placed} :
    IsTooDeep (ofTokens stop tokens) ↔
      IsTooDeep (Parser.biconditional stop maxNesting tokens) := by
  rcases ofTokens_cases stop tokens with
    ⟨g, hg, hread⟩ | ⟨e, e', he, hread, hkind⟩ | ⟨g, found, rest, e, hg, hread, hkind⟩
  · simp [IsTooDeep, hg, hread]
  · simp [IsTooDeep, he, hread, hkind]
  · simp [IsTooDeep, hg, hread, hkind]

/-- What tokens are read as with nothing left over, they spell. -/
theorem denotes_of_biconditional {stop levels : Nat} {tokens : List Placed} {f : Formula}
    (h : Parser.biconditional stop levels tokens = .ok (f, [])) :
    Denotes (tokens.map Placed.token) f := by
  have hmeets := (contracts stop levels).biconditional tokens
  rw [h] at hmeets
  obtain ⟨taken, htaken, hspells⟩ := hmeets
  rw [htaken, List.append_nil]
  exact hspells

/-- What tokens are read as, they spell. -/
theorem denotes_of_ofTokens {stop : Nat} {tokens : List Placed} {f : Formula}
    (h : ofTokens stop tokens = .ok f) : Denotes (tokens.map Placed.token) f :=
  denotes_of_biconditional (ofTokens_eq_ok_iff.1 h)

/-- What tokens spell, they are read as, unless they nest too deep. -/
theorem gives_ofTokens (stop : Nat) {tokens : List Placed} {f : Formula}
    (h : Denotes (tokens.map Placed.token) f) : Gives (ofTokens stop tokens) (.ok f) := by
  rcases gives_biconditional stop maxNesting h with hok | hdeep
  · exact .inl (ofTokens_eq_ok_iff.2 hok)
  · exact .inr (isTooDeep_ofTokens_iff.2 hdeep)

/-- Tokens nest too deep only if more of them cost a level than there are levels. -/
theorem lt_nesting_of_isTooDeep {stop : Nat} {tokens : List Placed}
    (h : IsTooDeep (ofTokens stop tokens)) : maxNesting < nesting tokens := by
  rw [← Nat.not_le]
  intro hle
  exact not_isTooDeep_biconditional stop hle (isTooDeep_ofTokens_iff.1 h)

/-- **Reading follows the grammar.** Take a text with no unknown character. What it is read as, its
tokens spell. If they spell a formula, they spell no other one, and the text is read as it unless it
nests too deep. It nests too deep only if more than 256 of its tokens are operators of formulas or
terms or opening parentheses. If its tokens spell nothing, it is not read. -/
theorem parse_follows_grammar {text : String} {tokens : List Placed}
    (hscan : Token.scan text = .ok tokens) :
    (∀ f, parse text = .ok f → Denotes (tokens.map Placed.token) f) ∧
    (∀ f, Denotes (tokens.map Placed.token) f →
      (∀ g, Denotes (tokens.map Placed.token) g → g = f) ∧
      (parse text = .ok f ∨ ∃ e, parse text = .error e ∧ e.kind = .tooDeep)) ∧
    (∀ e, parse text = .error e → e.kind = .tooDeep →
      256 < tokens.countP fun placed => placed.token.isNesting) ∧
    ((¬ ∃ f, Denotes (tokens.map Placed.token) f) → ∃ e, parse text = .error e) := by
  have hparse : parse text = ofTokens text.utf8ByteSize tokens := by
    rw [parse, hscan]
    rfl
  rw [hparse]
  refine ⟨fun f hf => denotes_of_ofTokens hf, ?_, ?_, ?_⟩
  · intro f hf
    exact ⟨fun g hg => hg.unique hf, gives_ofTokens _ hf⟩
  · intro e he hkind
    exact lt_nesting_of_isTooDeep ⟨e, he, hkind⟩
  · intro hnone
    cases hresult : ofTokens text.utf8ByteSize tokens with
    | error e => exact ⟨e, rfl⟩
    | ok f => exact absurd ⟨f, denotes_of_ofTokens hresult⟩ hnone

/-- The text `-A & B -> [S]^P` is read as a conditional between a conjunction and a categorical
sentence, which its tokens spell. -/
theorem parse_follows_grammar_mixed :
    ∃ tokens f, f = conditional (conjunction (negation (atom (.atom "A"))) (atom (.atom "B")))
        (universal (.atom "S") (.privation (.atom "P"))) ∧
      Token.scan "-A & B -> [S]^P" = .ok tokens ∧ parse "-A & B -> [S]^P" = .ok f ∧
      Denotes (tokens.map Placed.token) f ∧
      ∀ g, Denotes (tokens.map Placed.token) g → g = f := by
  have hscan : Token.scan "-A & B -> [S]^P" = .ok [⟨.not, 0⟩, ⟨.ident "A", 1⟩, ⟨.and, 3⟩,
      ⟨.ident "B", 5⟩, ⟨.imply, 7⟩, ⟨.leftBracket, 10⟩, ⟨.ident "S", 11⟩, ⟨.rightBracket, 12⟩,
      ⟨.privation, 13⟩, ⟨.ident "P", 14⟩] := rfl
  obtain ⟨hspelt, hread, -, -⟩ := parse_follows_grammar hscan
  exact ⟨_, _, rfl, hscan, rfl, hspelt _ rfl, (hread _ (hspelt _ rfl)).1⟩

end Formula

end TermLogic
