import TermLogic.Proofs.Formula.Faults
import TermLogic.Proofs.Formula.Walk

/-!
# Place and depth of a walk

What a walk does with its place and its depth. Every call of a reader comes to an end. If it has a
result, it has taken at least one token and none that is not there, and the depth is what it was;
and the result depends on nothing but the depth, the tokens taken and the next one. Depths are never
counted down below 0.

* `Parser.Alike`: two readers that take the same tokens to be the same part, whatever the positions
  of the tokens and whatever follows, but for the next token. `Parser.alike_term`, `Parser.alikes`:
  a reader and the same reader for another text, by induction on the levels that are left.
* `Term.Spelt.ne_nil`, `Formula.Spelt.ne_nil`: nothing is spelt by no tokens.
* `Parser.ofProduction`, `Walk.follows_perform`, `Walk.perform_cases`: the reader that a call
  follows, and how a call ends that is made at a valid cursor.
* `Walk.Succeeds`: what a call that succeeds has done.
* `Walk.disciplined`: all calls of a run.
-/

namespace TermLogic

open Token (Placed)

/-! ### What a reader looks at

Two readers are run next to each other, on tokens that agree up to the first one behind the part.
Nothing further ahead is looked at, and positions matter for faults alone. -/

namespace Formula.Parser

variable {α β : Type}

/-- The next token is the same if the tokens in front are, and the first one behind them. -/
theorem head?_map_append_congr {front front' behind behind' : List Placed}
    (hfront : front'.map Placed.token = front.map Placed.token)
    (hbehind : (behind'.map Placed.token).head? = (behind.map Placed.token).head?) :
    ((front' ++ behind').map Placed.token).head? =
      ((front ++ behind).map Placed.token).head? := by
  rw [List.map_append, List.map_append, hfront]
  exact head?_append_congr _ hbehind

/-- A token is not the next one if it is not where the next one is the same. -/
theorem ne_of_head?_eq {token : Token} {ahead ahead' : List Placed}
    (h : (ahead'.map Placed.token).head? = (ahead.map Placed.token).head?)
    (hne : ∀ found ∈ ahead.head?, found.token ≠ token) :
    ∀ found ∈ ahead'.head?, found.token ≠ token := by
  intro found hfound
  rw [List.head?_map, List.head?_map, hfound] at h
  obtain ⟨same, hsame, htoken⟩ := Option.map_eq_some_iff.1 h.symm
  rw [← htoken]
  exact hne same hsame

/-- What one reader reads of the tokens ahead, the other one reads of any tokens that are the same
up to the first one behind the part. -/
def AlikeOn (ahead : List Placed) (reader other : Parser α) : Prop :=
  ∀ part rest, reader ahead = .ok (part, rest) → ∃ taken, ahead = taken ++ rest ∧
    ∀ taken' rest' : List Placed, taken'.map Placed.token = taken.map Placed.token →
      (rest'.map Placed.token).head? = (rest.map Placed.token).head? →
      other (taken' ++ rest') = .ok (part, rest')

/-- What one reader reads, the other one reads of the same tokens. -/
def Alike (reader other : Parser α) : Prop :=
  ∀ ahead, AlikeOn ahead reader other

/-- A reader that reads nothing reads the same everywhere. -/
theorem alike_pure (part : α) : Alike (pure part : Parser α) (pure part) := by
  rintro ahead _ _ ⟨⟩
  refine ⟨[], rfl, fun taken' rest' htaken _ => ?_⟩
  rw [List.map_eq_nil_iff.1 htaken]
  rfl

/-- One reader after the other. -/
theorem Alike.bind {reader other : Parser α} {next next' : α → Parser β} (h : Alike reader other)
    (hnext : ∀ part, Alike (next part) (next' part)) :
    Alike (reader >>= next) (other >>= next') := by
  intro ahead result rest hok
  have hbind : ∀ (reader : Parser α) (next : α → Parser β) (ahead : List Placed),
      (reader >>= next) ahead = (reader ahead >>= fun (part, rest) => next part rest) :=
    fun _ _ _ => rfl
  rw [hbind] at hok
  rcases hfirst : reader ahead with e | ⟨part, middle⟩
  · rw [hfirst] at hok
    cases hok
  · rw [hfirst] at hok
    obtain ⟨taken, rfl, hother⟩ := h ahead part middle hfirst
    obtain ⟨more, rfl, hother'⟩ := hnext part middle result rest hok
    refine ⟨taken ++ more, (List.append_assoc _ _ _).symm, fun both rest' hboth hrest' => ?_⟩
    rw [List.map_append] at hboth
    obtain ⟨taken', more', rfl, htaken', hmore'⟩ := List.map_eq_append_iff.1 hboth
    rw [hbind, List.append_assoc,
      hother taken' (more' ++ rest') htaken' (head?_map_append_congr hmore' hrest')]
    exact hother' more' rest' hmore' hrest'

/-- Readers stay alike if the same is made of what both have read. -/
theorem Alike.map {reader other : Parser α} (h : Alike reader other) (change : α → β) :
    Alike (change <$> reader) (change <$> other) :=
  h.bind fun part => alike_pure (change part)

/-- A token in front. -/
theorem AlikeOn.front {token : Token} {position : Nat} {rest : List Placed}
    {reader other inner : Parser α} {inner' : Nat → Parser α}
    (heq : reader (⟨token, position⟩ :: rest) = inner rest)
    (heq' : ∀ position' rest', other (⟨token, position'⟩ :: rest') = inner' position' rest')
    (h : ∀ position', Alike inner (inner' position')) :
    AlikeOn (⟨token, position⟩ :: rest) reader other := by
  intro part behind hok
  rw [heq] at hok
  obtain ⟨taken, rfl, -⟩ := h 0 rest part behind hok
  refine ⟨⟨token, position⟩ :: taken, rfl, fun taken' rest' htaken hrest => ?_⟩
  obtain ⟨⟨token', position'⟩, more, rfl, rfl, hmore⟩ := List.map_eq_cons_iff.1 htaken
  obtain ⟨same, hsame, hother⟩ := h position' _ part behind hok
  obtain rfl := List.append_cancel_right hsame
  rw [List.cons_append, heq']
  exact hother more rest' hmore hrest

/-- A reader that fails has nothing to compare. -/
theorem alikeOn_of_error {ahead : List Placed} {reader other : Parser α} {e : SyntaxError}
    (h : reader ahead = .error e) : AlikeOn ahead reader other := by
  intro part rest hok
  rw [h] at hok
  cases hok

/-- Closing a group, wherever it was opened. -/
theorem alike_close (closer : Token) {opener opener' : Placed} :
    Alike (close closer opener) (close closer opener') := by
  rintro (_ | ⟨⟨token, position⟩, rest⟩)
  · exact alikeOn_of_error rfl
  · by_cases htoken : token = closer
    · subst htoken
      refine AlikeOn.front ?_ (fun position' rest' => ?_) fun _ => alike_pure ()
      · simp only [close, if_true]
        rfl
      · simp only [close, if_true]
        rfl
    · exact alikeOn_of_error (if_neg htoken)

/-- Terms of two texts. -/
theorem alike_term (stop stop' levels : Nat) : Alike (term stop levels) (term stop' levels) := by
  induction levels using Nat.strongRecOn with
  | ind levels ih =>
      rintro (_ | ⟨⟨token, position⟩, rest⟩)
      · exact alikeOn_of_error (by rw [term])
      · cases token with
        | ident name =>
            refine AlikeOn.front ?_ (fun _ _ => ?_) fun _ => alike_pure (Term.atom name)
            · rw [term]
              rfl
            · rw [term]
              rfl
        | complement =>
            rcases levels with _ | levels
            · exact alikeOn_of_error (by rw [term]; rfl)
            · have hinner := (ih levels levels.lt_succ_self).map Term.complement
              exact AlikeOn.front rfl (fun _ _ => rfl) fun _ => hinner
        | privation =>
            rcases levels with _ | levels
            · exact alikeOn_of_error (by rw [term]; rfl)
            · have hinner := (ih levels levels.lt_succ_self).map Term.privation
              exact AlikeOn.front rfl (fun _ _ => rfl) fun _ => hinner
        | _ => exact alikeOn_of_error (by simp only [term]; rfl)

/-- Categorical sentences of two texts. -/
theorem alike_categorical (stop stop' levels : Nat) (form : Term → Term → Formula) (closer : Token)
    {opener opener' : Placed} :
    Alike (categorical stop levels form closer opener)
      (categorical stop' levels form closer opener') := by
  refine (alike_term stop stop' levels).bind fun subject => ?_
  refine (alike_close closer).bind fun _ => ?_
  exact (alike_term stop stop' levels).map (form subject)

/-- Tails are alike if their steps are. -/
theorem alike_tailOn {token : Token} {levels : Nat} {left : Formula}
    {step step' : Nat → Parser Formula} (hstep : ∀ n, n < levels → Alike (step n) (step' n)) :
    Alike (tailOn token levels left step) (tailOn token levels left step') := by
  -- a tail that ends looks at the next token only
  have hends : ∀ ahead : List Placed, (∀ found ∈ ahead.head?, found.token ≠ token) →
      AlikeOn ahead (tailOn token levels left step) (tailOn token levels left step') := by
    intro ahead hne part rest hok
    rw [tailOn_of_ne levels left step hne] at hok
    cases hok
    refine ⟨[], rfl, fun taken' rest' htaken hrest => ?_⟩
    rw [List.map_eq_nil_iff.1 htaken, List.nil_append]
    exact tailOn_of_ne levels left step' (ne_of_head?_eq hrest hne)
  rintro (_ | ⟨⟨found, position⟩, rest⟩)
  · exact hends [] nofun
  · by_cases hfound : found = token
    · subst hfound
      rcases levels with _ | levels
      · exact alikeOn_of_error (if_pos rfl)
      · exact AlikeOn.front (if_pos rfl) (fun _ _ => if_pos rfl)
          fun _ => hstep levels levels.lt_succ_self
    · exact hends _ fun _ hmem => (Option.mem_some.1 hmem) ▸ hfound

/-- The readers of formulas of two texts, with a number of levels left. -/
structure Alikes (stop stop' levels : Nat) : Prop where
  operand : Alike (operand stop levels) (operand stop' levels)
  conjunctionTail : ∀ f, Alike (conjunctionTail stop levels f) (conjunctionTail stop' levels f)
  disjunctionTail : ∀ f, Alike (disjunctionTail stop levels f) (disjunctionTail stop' levels f)
  conditionalTail : ∀ f, Alike (conditionalTail stop levels f) (conditionalTail stop' levels f)
  biconditionalTail : ∀ f,
    Alike (biconditionalTail stop levels f) (biconditionalTail stop' levels f)

namespace Alikes

variable {stop stop' levels : Nat}

/-- The readers of conjunctions are alike in texts of different lengths. -/
theorem conjunction (h : Alikes stop stop' levels) :
    Alike (conjunction stop levels) (conjunction stop' levels) :=
  h.operand.bind h.conjunctionTail

/-- The readers of disjunctions are alike in texts of different lengths. -/
theorem disjunction (h : Alikes stop stop' levels) :
    Alike (disjunction stop levels) (disjunction stop' levels) :=
  h.conjunction.bind h.disjunctionTail

/-- The readers of conditionals are alike in texts of different lengths. -/
theorem conditional (h : Alikes stop stop' levels) :
    Alike (conditional stop levels) (conditional stop' levels) :=
  h.disjunction.bind h.conditionalTail

/-- The readers of biconditionals are alike in texts of different lengths. -/
theorem biconditional (h : Alikes stop stop' levels) :
    Alike (biconditional stop levels) (biconditional stop' levels) :=
  h.conditional.bind h.biconditionalTail

end Alikes

/-- All readers of formulas read alike in two texts. -/
theorem alikes (stop stop' levels : Nat) : Alikes stop stop' levels := by
  induction levels using Nat.strongRecOn with
  | ind levels ih =>
      constructor
      case operand =>
        rintro (_ | ⟨⟨token, position⟩, rest⟩)
        · exact alikeOn_of_error (by rw [operand])
        · cases token with
          | ident name =>
              refine AlikeOn.front ?_ (fun _ _ => ?_) fun _ =>
                alike_pure (Formula.atom (.atom name))
              · rw [operand]
                rfl
              · rw [operand]
                rfl
          | leftBracket =>
              exact AlikeOn.front (by rw [operand]) (fun _ _ => by rw [operand]) fun _ =>
                alike_categorical stop stop' levels _ _
          | leftAngle =>
              exact AlikeOn.front (by rw [operand]) (fun _ _ => by rw [operand]) fun _ =>
                alike_categorical stop stop' levels _ _
          | not =>
              rcases levels with _ | levels
              · exact alikeOn_of_error (by rw [operand]; rfl)
              · have hinner := (ih levels levels.lt_succ_self).operand.map Formula.negation
                exact AlikeOn.front rfl (fun _ _ => rfl) fun _ => hinner
          | leftParen =>
              rcases levels with _ | levels
              · exact alikeOn_of_error (by rw [operand]; rfl)
              · refine AlikeOn.front rfl (fun _ _ => rfl) fun _ => ?_
                refine (ih levels levels.lt_succ_self).biconditional.bind fun inner => ?_
                exact (alike_close .rightParen).bind fun _ => alike_pure inner
          | _ => exact alikeOn_of_error (by simp only [operand]; rfl)
      case conjunctionTail =>
        intro f
        rw [conjunctionTail_eq, conjunctionTail_eq]
        exact alike_tailOn fun n hn => (ih n hn).operand.bind fun _ => (ih n hn).conjunctionTail _
      case disjunctionTail =>
        intro f
        rw [disjunctionTail_eq, disjunctionTail_eq]
        exact alike_tailOn fun n hn =>
          (ih n hn).conjunction.bind fun _ => (ih n hn).disjunctionTail _
      case conditionalTail =>
        intro f
        rw [conditionalTail_eq, conditionalTail_eq]
        exact alike_tailOn fun n hn => (ih n hn).conditional.bind fun _ => alike_pure _
      case biconditionalTail =>
        intro f
        rw [biconditionalTail_eq, biconditionalTail_eq]
        exact alike_tailOn fun n hn =>
          (ih n hn).conditional.bind fun _ => (ih n hn).biconditionalTail _

/-- Operands that begin with no `-` are read alike in two texts. -/
theorem alike_primary (stop stop' levels : Nat) :
    Alike (primary stop levels) (primary stop' levels) := by
  intro ahead part rest hok
  have hne : ∀ found ∈ ahead.head?, found.token ≠ .not := by
    rintro ⟨token, position⟩ hfound rfl
    obtain ⟨others, rfl⟩ := List.head?_eq_some_iff.1 hfound
    cases hok
  rw [primary_of_ne stop levels hne] at hok
  obtain ⟨taken, rfl, hother⟩ := (alikes stop stop' levels).operand ahead part rest hok
  refine ⟨taken, rfl, fun taken' rest' htaken hrest => ?_⟩
  have hne' := ne_of_head?_eq (head?_map_append_congr htaken hrest) hne
  rw [primary_of_ne stop' levels hne', hother taken' rest' htaken hrest]

/-- At every place of the grammar, the readers are alike in texts of different lengths. -/
theorem alike_ofLevel (stop stop' levels : Nat) (place : Precedence) :
    Alike (ofLevel stop levels place) (ofLevel stop' levels place) := by
  have h := alikes stop stop' levels
  cases place with
  | biconditional => exact h.biconditional
  | conditional => exact h.conditional
  | disjunction => exact h.disjunction
  | conjunction => exact h.conjunction
  | unary => exact h.operand
  | primary => exact alike_primary stop stop' levels

/-- The reader for a part. -/
def ofProduction (stop levels : Nat) : Production → Parser (Term ⊕ Formula)
  | .formula => .inr <$> biconditional stop levels
  | .level place => .inr <$> ofLevel stop levels place
  | .term => .inl <$> term stop levels

/-- What is read of a part depends on the tokens taken and the next one. -/
theorem alike_ofProduction (stop stop' levels : Nat) (production : Production) :
    Alike (ofProduction stop levels production) (ofProduction stop' levels production) := by
  cases production with
  | formula => exact (alikes stop stop' levels).biconditional.map _
  | level place => exact (alike_ofLevel stop stop' levels place).map _
  | term => exact (alike_term stop stop' levels).map _

end Formula.Parser

/-! ### Every part takes a token

A reader with a result has taken a spelling of what it has read, and nothing is spelt by no
tokens. -/

/-- A term is spelt by some token. -/
theorem Term.Spelt.ne_nil {h : Nat} {ts : List Token} {t : Term} (ht : Term.Spelt h ts t) :
    ts ≠ [] := by
  cases ht <;> exact List.cons_ne_nil _ _

/-- A formula is spelt by some token. -/
theorem Formula.Spelt.ne_nil {place : Precedence} {h : Nat} {ts : List Token} {f : Formula}
    (hf : Spelt place h ts f) : ts ≠ [] := by
  induction hf with
  | loosen _ _ ih => exact ih
  | _ => simp

namespace Formula.Parser

variable {stop levels : Nat}

/-- What a primary is read from spells it at the place of operands. -/
theorem reads_primary : Reads levels (Spells .unary) (primary stop levels) := by
  intro ahead
  unfold primary
  split
  · exact meets_error nofun
  · exact (contracts stop levels).operand ahead

/-- What is read at a place is spelt at some place. -/
theorem reads_ofLevel (stop levels : Nat) (place : Precedence) :
    ∃ own, Reads levels (Spells own) (ofLevel stop levels place) := by
  have h := contracts stop levels
  cases place with
  | biconditional => exact ⟨_, h.biconditional⟩
  | conditional => exact ⟨_, h.conditional⟩
  | disjunction => exact ⟨_, h.disjunction⟩
  | conjunction => exact ⟨_, h.conjunction⟩
  | unary => exact ⟨_, h.operand⟩
  | primary => exact ⟨_, reads_primary⟩

/-- A part that is read takes at least one token. -/
theorem reads_ofProduction (stop levels : Nat) (production : Production) :
    Reads levels (fun ts _ => ts ≠ []) (ofProduction stop levels production) := by
  have hformula : ∀ {place : Precedence} (ts : List Token) (f : Formula), Spells place ts f →
      ts ≠ [] := fun _ _ ⟨_, hf⟩ => hf.ne_nil
  cases production with
  | formula => exact (contracts stop levels).biconditional.map hformula
  | level place =>
      obtain ⟨own, hreads⟩ := reads_ofLevel stop levels place
      exact hreads.map hformula
  | term => exact (reads_term stop levels).map fun _ _ ⟨_, ht⟩ => ht.ne_nil

end Formula.Parser

/-! ### Calls

A call is followed from the cursor at which it is made. What it would do elsewhere is known from the
reader, which takes the same tokens there. -/

namespace Formula.Walk

variable {tokens : List Placed} {stop : Nat} {s later : State}

/-- A walk goes on following a reader if the same is made of what both have read. -/
theorem Follows.map {α β : Type} {levels : Nat} {walk : Walk α} {reader : Parser α}
    (h : Follows tokens levels walk reader) (change : α → β) :
    Follows tokens levels (change <$> walk) (change <$> reader) := by
  intro s hvalid hlevels
  rw [map_eq_pure_bind, map_eq_pure_bind]
  exact (h s hvalid hlevels).bind fun part later hlater hdepth => tracks_pure hlater hdepth _

/-- Every call does what the reader for its part does. -/
theorem follows_perform (stop : Nat) {levels : Nat} (h : levels ≤ maxNesting)
    (production : Production) :
    Follows tokens levels (perform tokens stop enough production)
      (Parser.ofProduction stop levels production) := by
  have hfuel : ∀ place, need levels place < enough := by
    intro place
    cases place <;> simp only [need, reach, enough] <;> omega
  cases production with
  | formula =>
      exact (follows_formula (followsAt_level stop levels .biconditional) (hfuel _)).map _
  | level place => exact (followsAt_level stop levels place _ (Nat.le_of_lt (hfuel place))).map _
  | term => exact (follows_term stop (by simp only [enough]; omega)).map _

/-- One more unit of fuel leaves a production that has ended as it was. -/
theorem extends_perform (production : Production) (fuel : Nat) :
    Extends (perform tokens stop fuel production) (perform tokens stop (fuel + 1) production) := by
  have h := extended tokens stop fuel
  cases production with
  | formula => exact h.formula.bind fun _ => .refl _
  | level place => exact (h.level place).bind fun _ => .refl _
  | term => exact (extends_term fuel).bind fun _ => .refl _

/-- One more unit of fuel leaves a parse that has ended as it was. -/
theorem extends_parse (fuel : Nat) :
    Extends (parse tokens stop fuel) (parse tokens stop (fuel + 1)) := by
  unfold parse
  split
  · exact .refl _
  · exact (extended tokens stop fuel).formula.bind fun _ => .refl _

/-- A valid cursor has moved over the tokens that are no longer ahead. -/
theorem pos_eq_of_drop {pos pos' : Nat} {taken : List Placed} (hpos : pos ≤ tokens.length)
    (hpos' : pos' ≤ tokens.length) (h : tokens.drop pos = taken ++ tokens.drop pos') :
    pos' = pos + taken.length := by
  have hlength := congrArg List.length h
  rw [List.length_append, List.length_drop, List.length_drop] at hlength
  omega

/-- A call at a valid cursor stops with a fault of the tokens, or it comes to a valid cursor of the
same depth. -/
theorem perform_cases (stop : Nat) (production : Production) (hvalid : s.Valid tokens) :
    (∃ e later, Ends (perform tokens stop · production) s (.error (.fault e)) later ∧
      Parser.ofProduction stop (maxNesting - s.depth) production (tokens.drop s.pos) = .error e) ∨
    ∃ part taken later, Ends (perform tokens stop · production) s (.ok part) later ∧
      later.Valid tokens ∧ later.depth = s.depth ∧
      tokens.drop s.pos = taken ++ tokens.drop later.pos ∧
      Parser.ofProduction stop (maxNesting - s.depth) production (tokens.drop s.pos) =
        .ok (part, tokens.drop later.pos) := by
  obtain ⟨result, later, hrun, -, hresult⟩ :=
    follows_perform stop (Nat.sub_le _ _) production s hvalid rfl
  have hends : Ends (perform tokens stop · production) s result later :=
    ends_of_extends (extends_perform production) hrun
  rcases hreader : Parser.ofProduction stop (maxNesting - s.depth) production (tokens.drop s.pos)
    with e | ⟨part, rest⟩
  · rw [hreader] at hresult
    obtain rfl := hresult
    exact .inl ⟨e, later, hends, rfl⟩
  · rw [hreader] at hresult
    obtain ⟨rfl, hlater, hdepth, rfl⟩ := hresult
    obtain ⟨taken, htaken, -⟩ := Parser.alike_ofProduction stop stop _ production _ _ _ hreader
    exact .inr ⟨part, taken, later, hends, hlater, hdepth, htaken, rfl⟩

/-- What a call that succeeds has done. -/
structure Succeeds (tokens : List Placed) (production : Production) (s : State)
    (part : Term ⊕ Formula) (later : State) : Prop where
  /-- It has taken a token. -/
  advances : s.pos < later.pos
  /-- It has taken none that is not there. -/
  within : later.pos ≤ tokens.length
  /-- It has left the depth as it was. -/
  depth_eq : later.depth = s.depth
  /-- The depth is allowed. -/
  depth_le : later.depth ≤ maxNesting
  /-- It succeeds in the same way at any other place, of this text or another, at which the depth is
  the same and the same tokens are ahead, up to the first one behind those that it has taken. -/
  elsewhere : ∀ (tokens' : List Placed) (stop' : Nat) (s' : State), s'.depth = s.depth →
    ((tokens'.drop s'.pos).map Placed.token).take (later.pos - s.pos + 1) =
      ((tokens.drop s.pos).map Placed.token).take (later.pos - s.pos + 1) →
    ∃ later', Ends (perform tokens' stop' · production) s' (.ok part) later' ∧
      later'.pos - s'.pos = later.pos - s.pos ∧ later'.depth = s.depth

/-- Lists that start alike up to one place have the same before the place and at it. -/
theorem take_eq_and_head?_eq {α : Type} {xs ys : List α} {n : Nat}
    (h : xs.take (n + 1) = ys.take (n + 1)) :
    xs.take n = ys.take n ∧ (xs.drop n).head? = (ys.drop n).head? := by
  constructor
  · have htake := congrArg (List.take n) h
    simpa [List.take_take] using htake
  · rw [List.head?_drop, List.head?_drop, ← List.getElem?_take_of_lt n.lt_succ_self, h,
      List.getElem?_take_of_lt n.lt_succ_self]

/-- A call that succeeds, succeeds elsewhere. -/
theorem exists_perform {tokens' : List Placed} {stop' : Nat} {s' : State} {production : Production}
    {part : Term ⊕ Formula} {taken rest : List Placed} (hvalid : s.Valid tokens)
    (hahead : tokens.drop s.pos = taken ++ rest) (hne : taken ≠ [])
    (hreader : Parser.ofProduction stop (maxNesting - s.depth) production (tokens.drop s.pos) =
      .ok (part, rest)) (hdepth : s'.depth = s.depth)
    (hsame : ((tokens'.drop s'.pos).map Placed.token).take (taken.length + 1) =
      ((tokens.drop s.pos).map Placed.token).take (taken.length + 1)) :
    ∃ later', Ends (perform tokens' stop' · production) s' (.ok part) later' ∧
      later'.pos - s'.pos = taken.length ∧ later'.depth = s.depth := by
  obtain ⟨htake, hhead⟩ := take_eq_and_head?_eq hsame
  rw [hahead, List.map_append, List.take_left' (List.length_map _), ← List.map_take] at htake
  rw [hahead, List.map_append, List.drop_left' (List.length_map _), ← List.map_drop] at hhead
  -- at least one of the tokens is there, so that the other cursor is within its text
  have hpos : s'.pos ≤ tokens'.length := by
    by_contra hlt
    rw [List.drop_eq_nil_of_le (Nat.le_of_not_le hlt), List.take_nil, List.map_nil] at htake
    exact hne (List.map_eq_nil_iff.1 htake.symm)
  have hvalid' : s'.Valid tokens' := ⟨hpos, by rw [hdepth]; exact hvalid.depth⟩
  obtain ⟨same, hsplit, hother⟩ := Parser.alike_ofProduction stop stop' _ production _ _ _ hreader
  rw [hahead] at hsplit
  obtain rfl := List.append_cancel_right hsplit
  have hread := hother _ _ htake hhead
  rw [List.take_append_drop, ← hdepth] at hread
  rcases perform_cases stop' production hvalid' with
    ⟨e, _, -, herror⟩ | ⟨part', -, later', hends, hlater, hdepth', -, hreader'⟩
  · rw [hread] at herror
    cases herror
  · rw [hread] at hreader'
    obtain ⟨rfl, hrest⟩ := Prod.mk.inj (Except.ok.inj hreader')
    refine ⟨later', hends, ?_, hdepth'.trans hdepth⟩
    have hmoved := pos_eq_of_drop hpos hlater.pos
      ((List.take_append_drop taken.length _).symm.trans (by rw [hrest]))
    have hlength := congrArg List.length htake
    rw [List.length_map, List.length_map] at hlength
    omega

/-- A call at a valid cursor that succeeds. -/
theorem succeeds_of_reader {production : Production} {part : Term ⊕ Formula} {taken : List Placed}
    (hvalid : s.Valid tokens) (hlater : later.Valid tokens) (hdepth : later.depth = s.depth)
    (hahead : tokens.drop s.pos = taken ++ tokens.drop later.pos)
    (hreader : Parser.ofProduction stop (maxNesting - s.depth) production (tokens.drop s.pos) =
      .ok (part, tokens.drop later.pos)) :
    Succeeds tokens production s part later := by
  have hne : taken ≠ [] := by
    have hreads := Parser.reads_ofProduction stop (maxNesting - s.depth) production
    rw [hahead] at hreader
    simpa using hreads.of_eq_ok hreader
  have hmoved := pos_eq_of_drop hvalid.pos hlater.pos hahead
  have hpos : 0 < taken.length := List.length_pos_iff.2 hne
  have htaken : later.pos - s.pos = taken.length := by omega
  refine ⟨by omega, hlater.pos, hdepth, hlater.depth, fun tokens' stop' s' hdepth' hsame => ?_⟩
  rw [htaken] at hsame ⊢
  exact exists_perform hvalid hahead hne hreader hdepth' hsame

/-- Reading all tokens. -/
theorem exists_parse (tokens : List Placed) (stop : Nat) :
    ∃ later, Ends (parse tokens stop) .start ((ofTokens stop tokens).mapError .fault) later ∧
      ∀ call ∈ later.calls, call.2.Valid tokens := by
  have hstart : State.start.Valid tokens := ⟨Nat.zero_le _, Nat.zero_le _⟩
  have hfuel : need maxNesting .biconditional < enough := Nat.lt_succ_self _
  obtain ⟨result, later, hrun, ⟨made, hcalls, hmade⟩, hresult⟩ :=
    follows_formula (followsAt_level stop maxNesting .biconditional) hfuel State.start hstart rfl
  rcases tokens with _ | ⟨first, others⟩
  · exact ⟨.start, fun _ _ => rfl, nofun⟩
  have hvalid : ∀ call ∈ later.calls, call.2.Valid (first :: others) := by
    rw [hcalls]
    exact hmade
  refine ⟨later, ends_of_extends extends_parse ?_, hvalid⟩
  -- there is a token, so reading starts with the formula
  show (formula (first :: others) stop enough >>= _ : Walk Formula) .start = _
  rw [show (first :: others).drop State.start.pos = first :: others from rfl] at hresult
  rcases hreader : Parser.biconditional stop maxNesting (first :: others) with e | ⟨f, rest⟩
  · rw [hreader] at hresult
    obtain rfl := hresult
    rw [bind_of_error hrun, ofTokens_of_error (List.cons_ne_nil _ _) hreader]
    rfl
  · rw [hreader] at hresult
    obtain ⟨rfl, -, -, hdrop⟩ := hresult
    rw [bind_of_ok hrun, bind_of_ok (peek_eq later), hdrop]
    rcases rest with _ | ⟨⟨token, position⟩, rest⟩
    · rw [ofTokens_eq_ok_iff.2 hreader]
      rfl
    · rw [ofTokens_of_leftover hreader]
      cases token <;> rfl

/-- **Place and depth.** Reading tokens with a cursor comes to an end, with the formula or the fault
that they have, and every call of a reader on the way is made at a place within the tokens or right
behind them and at an allowed depth. Every such call comes to an end, with what the reader for its
part gives, and never because a depth of 0 is counted down. If it succeeds, it has taken at least
one token and none that is not there, the depth is what it was when the call began, and the result
depends on nothing but that depth, the tokens taken and the next one. Coming to an end is meant
without a bound on the tokens: calls never lie in each other deeper than a fixed number. -/
theorem disciplined (tokens : List Placed) (stop : Nat) :
    (∃ later, Ends (parse tokens stop) .start ((ofTokens stop tokens).mapError .fault) later ∧
      ∀ call ∈ later.calls, call.2.Valid tokens) ∧
    ∀ (production : Production) (s : State), s.Valid tokens →
      ∃ result later, Ends (perform tokens stop · production) s result later ∧
        result = ((Parser.ofProduction stop (maxNesting - s.depth) production
          (tokens.drop s.pos)).map Prod.fst).mapError .fault ∧
        result ≠ .error .underflow ∧
        ∀ part, result = .ok part → Succeeds tokens production s part later := by
  refine ⟨exists_parse tokens stop, fun production s hvalid => ?_⟩
  rcases perform_cases stop production hvalid with
    ⟨e, later, hends, hreader⟩ | ⟨part, taken, later, hends, hlater, hdepth, hahead, hreader⟩
  · exact ⟨_, later, hends, by rw [hreader]; rfl, nofun, nofun⟩
  · refine ⟨_, later, hends, by rw [hreader]; rfl, nofun, ?_⟩
    rintro _ ⟨⟩
    exact succeeds_of_reader hvalid hlater hdepth hahead hreader

/-- The chain `A & B & C`, and the call that reads its second operand, which lies one level deep. -/
theorem disciplined_chain :
    ∃ tokens, tokens = [⟨.ident "A", 0⟩, ⟨.and, 2⟩, ⟨.ident "B", 4⟩, ⟨.and, 6⟩, ⟨.ident "C", 8⟩] ∧
      (∃ later, Ends (parse tokens 9) .start (.ok (.conjunction (.conjunction
          (.atom (.atom "A")) (.atom (.atom "B"))) (.atom (.atom "C")))) later ∧
        ∀ call ∈ later.calls, call.2.Valid tokens) ∧
      Cursor.Valid tokens ⟨2, 1⟩ ∧
      ∃ later, Ends (perform tokens 9 · (.level .unary)) ⟨⟨2, 1⟩, []⟩
          (.ok (.inr (.atom (.atom "B")))) later ∧
        Succeeds tokens (.level .unary) ⟨⟨2, 1⟩, []⟩ (.inr (.atom (.atom "B"))) later := by
  refine ⟨_, rfl, (disciplined _ 9).1, ⟨by decide, by decide⟩, ?_⟩
  obtain ⟨result, later, hends, hresult, -, hsucceeds⟩ :=
    (disciplined [⟨.ident "A", 0⟩, ⟨.and, 2⟩, ⟨.ident "B", 4⟩, ⟨.and, 6⟩, ⟨.ident "C", 8⟩] 9).2
      (.level .unary) ⟨⟨2, 1⟩, []⟩ ⟨by decide, by decide⟩
  obtain rfl : result = .ok (.inr (.atom (.atom "B"))) := hresult
  exact ⟨later, hends, hsucceeds _ rfl⟩

end Formula.Walk

end TermLogic
