import TermLogic.Formula.Walk
import TermLogic.Proofs.Formula.Acceptance

/-!
# Walks do what readers do

A walk from a place in the tokens ends as the reader for the same part ends on the tokens behind
that place, with as many levels as the depth leaves. It leaves the depth as it was, and it never
counts it down below 0. How deep its calls lie in each other is bounded by the levels that are left,
so that there is an amount of fuel with which every walk comes to an end, and more changes nothing.

* `Cursor.Valid`: a cursor that is within the tokens and not too deep.
* `Walk.Tracks`: a walk comes to an end, which is the expected one, and all calls on the way were
  made at valid cursors. `Walk.Tracks.step` and `Walk.Tracks.bind` put walks together.
* `Walk.Follows`: a walk does what a reader does, with a given number of levels.
* `Walk.follows_term`: terms, by induction on the fuel.
* `Walk.need`, `Walk.FollowsAt`: the fuel for formulas at a place.
* `Walk.tracks_links`, `Walk.follows_chain`: chains, where the depth is not put back before all
  links are read.
* `Walk.followsAt_level`: formulas at all places, by induction on the levels that are left.
* `Walk.Extends`, `Walk.extended`: what comes to an end, comes to the same end with more fuel.
* `Walk.Ends`: the end of a walk with enough fuel.
-/

namespace TermLogic.Formula

open Token (Placed)

/-- Reads an operand that begins with no `-`. -/
def Parser.primary (stop levels : Nat) : Parser Formula
  | ⟨.not, position⟩ :: _ => .error ⟨.unexpected .formula .not, position⟩
  | ahead => operand stop levels ahead

/-- If the next token is no `-`, a primary is read as an operand. -/
theorem Parser.primary_of_ne (stop levels : Nat) {ahead : List Placed}
    (h : ∀ found ∈ ahead.head?, found.token ≠ .not) :
    primary stop levels ahead = operand stop levels ahead := by
  unfold primary
  split
  · next position rest => exact absurd rfl (h ⟨.not, position⟩ rfl)
  · rfl

/-- The reader for a place, where the tightest place has no `-`. -/
def Parser.ofLevel (stop levels : Nat) : Precedence → Parser Formula
  | .primary => primary stop levels
  | place => reader stop levels place

variable {tokens : List Placed} {stop : Nat}

/-- The cursor is within the tokens and not deeper than allowed. -/
structure Cursor.Valid (tokens : List Placed) (c : Cursor) : Prop where
  /-- It is within the tokens or right behind them. -/
  pos : c.pos ≤ tokens.length
  /-- It is not too deep. -/
  depth : c.depth ≤ maxNesting

namespace Walk

variable {α β : Type} {s later : State}

/-! ### Single steps

What the smallest walks do at a known cursor. Longer walks are put together from these without being
unfolded. -/

/-- A cursor in front of a token may move behind it. -/
theorem of_drop_eq_cons {pos : Nat} {found : Placed} {rest : List Placed}
    (h : tokens.drop pos = found :: rest) :
    tokens.drop (pos + 1) = rest ∧ pos + 1 ≤ tokens.length := by
  refine ⟨?_, ?_⟩
  · rw [← List.tail_drop, h, List.tail_cons]
  · have hlength := congrArg List.length h
    rw [List.length_drop, List.length_cons] at hlength
    omega

/-- Two walks one after the other: the second one starts where the first has ended, unless this has
failed or has no end. -/
theorem bind_apply (walk : Walk α) (next : α → Walk β) (s : State) :
    (walk >>= next) s =
      (walk s).bind fun (result, later) => ExceptT.bindCont next result later :=
  rfl

/-- A walk that goes on behind a part. -/
theorem bind_of_ok {walk : Walk α} {part : α} (h : walk s = some (.ok part, later))
    (next : α → Walk β) : (walk >>= next) s = next part later := by
  rw [bind_apply, h]
  rfl

/-- A walk that stops within its first part. -/
theorem bind_of_error {walk : Walk α} {halt : Halt} (h : walk s = some (.error halt, later))
    (next : α → Walk β) : (walk >>= next) s = some (.error halt, later) := by
  rw [bind_apply, h]
  rfl

/-- Going one level deeper where one is left. -/
theorem enter_eq (h : s.depth < maxNesting) (position : Nat) :
    enter position s = some (.ok (), { s with depth := s.depth + 1 }) := by
  have hle : ¬ maxNesting < s.depth + 1 := Nat.not_lt.2 h
  show (ite (maxNesting < s.depth + 1) (fail .tooDeep position) (pure ()) : Walk Unit) _ = _
  rw [if_neg hle]
  rfl

/-- Going one level deeper where none is left. -/
theorem enter_eq_error (h : maxNesting ≤ s.depth) (position : Nat) :
    enter position s =
      some (.error (.fault ⟨.tooDeep, position⟩), { s with depth := s.depth + 1 }) := by
  show (ite (maxNesting < s.depth + 1) (fail .tooDeep position) (pure ()) : Walk Unit) _ = _
  rw [if_pos (Nat.lt_succ_of_le h)]
  rfl

/-- Leaving a level that has been entered takes the depth back. -/
theorem leave_eq {depth : Nat} (h : s.depth = depth + 1) :
    leave s = some (.ok (), { s with depth := depth }) := by
  have hget : (get : Walk State) s = some (.ok s, s) := rfl
  refine (bind_of_ok hget _).trans ?_
  rw [h]
  rfl

/-- Looking at the next token changes nothing. -/
theorem peek_eq (s : State) : peek tokens s = some (.ok (tokens.drop s.pos).head?, s) := by
  rw [List.head?_drop]
  rfl

/-- At the end there is no token to take. -/
theorem bump_of_nil (h : tokens.drop s.pos = []) : bump tokens s = some (.ok none, s) := by
  refine (bind_of_ok (peek_eq s) _).trans ?_
  rw [h]
  rfl

/-- Taking the next token moves the cursor past it. -/
theorem bump_of_cons {found : Placed} {rest : List Placed} (h : tokens.drop s.pos = found :: rest) :
    bump tokens s = some (.ok (some found), { s with pos := s.pos + 1 }) := by
  refine (bind_of_ok (peek_eq s) _).trans ?_
  rw [h]
  rfl

/-- Taking the expected token. -/
theorem eatAt_of_cons {found : Placed} {rest : List Placed} {token : Token}
    (h : tokens.drop s.pos = found :: rest) (htoken : found.token = token) :
    eatAt tokens token s = some (.ok (some found.position), { s with pos := s.pos + 1 }) := by
  refine (bind_of_ok (peek_eq s) _).trans ?_
  rw [h, List.head?_cons]
  simp only [if_pos htoken]
  rfl

/-- Leaving another token where it is. -/
theorem eatAt_of_ne {token : Token}
    (h : ∀ found ∈ (tokens.drop s.pos).head?, found.token ≠ token) :
    eatAt tokens token s = some (.ok none, s) := by
  refine (bind_of_ok (peek_eq s) _).trans ?_
  rcases hnext : (tokens.drop s.pos).head? with _ | found
  · rfl
  · simp only [if_neg (h found hnext)]
    rfl

/-! ### Tracking

A walk is described by what it comes to, by how deep it may be behind the part, and by the calls on
the way. The depth behind a part is bounded and not fixed, because inside a chain it has not been
put back yet. -/

/-- The calls behind a state, each made at a valid cursor. -/
def Logs (tokens : List Placed) (s later : State) : Prop :=
  ∃ made, later.calls = s.calls ++ made ∧ ∀ call ∈ made, Cursor.Valid tokens call.2

/-- Nothing has been called. -/
theorem Logs.of_eq (h : later.calls = s.calls) : Logs tokens s later :=
  ⟨[], by rw [h, List.append_nil], nofun⟩

/-- The calls of two walks one after the other. -/
theorem Logs.trans {last : State} (h : Logs tokens s later) (h' : Logs tokens later last) :
    Logs tokens s last := by
  obtain ⟨made, heq, hvalid⟩ := h
  obtain ⟨more, heq', hvalid'⟩ := h'
  refine ⟨made ++ more, ?_, List.forall_mem_append.2 ⟨hvalid, hvalid'⟩⟩
  rw [heq', heq, List.append_assoc]

/-- A walk comes to an end, which is the expected one: it stops with the fault, or it has the part,
has only the tokens behind the part ahead, and is at a depth that is one of `depths`. All calls on
the way were made at valid cursors. -/
def Tracks (tokens : List Placed) (s : State) (walk : Walk α)
    (expected : Except SyntaxError (α × List Placed)) (depths : Nat → Prop) : Prop :=
  ∃ result later, walk s = some (result, later) ∧ Logs tokens s later ∧
    match expected with
    | .error e => result = .error (.fault e)
    | .ok (part, rest) => result = .ok part ∧ later.Valid tokens ∧ depths later.depth ∧
        tokens.drop later.pos = rest

section

variable {walk : Walk α} {next : α → Walk β} {depths during : Nat → Prop} {part : α}
  {expected : Except SyntaxError (α × List Placed)}
  {last : Except SyntaxError (β × List Placed)}

/-- A walk that has its part without a step. -/
theorem tracks_pure {depth : Nat} (hvalid : s.Valid tokens) (hdepth : s.depth = depth) (part : α) :
    Tracks tokens s (pure part) (.ok (part, tokens.drop s.pos)) (· = depth) :=
  ⟨.ok part, s, rfl, .of_eq rfl, rfl, hvalid, hdepth, rfl⟩

/-- A walk that stops at a fault. -/
theorem tracks_fail (cause : SyntaxError.Cause) (position : Nat) :
    Tracks tokens s (fail cause position : Walk α) (.error ⟨cause, position⟩) depths :=
  ⟨_, s, rfl, .of_eq rfl, rfl⟩

/-- The depths behind a part may be said less precisely. -/
theorem Tracks.mono (h : Tracks tokens s walk expected during)
    (hdepths : ∀ depth, during depth → depths depth) : Tracks tokens s walk expected depths := by
  obtain ⟨result, later, hrun, hlogs, hresult⟩ := h
  refine ⟨result, later, hrun, hlogs, ?_⟩
  rcases expected with e | ⟨part, rest⟩
  · exact hresult
  · obtain ⟨hok, hvalid, hdepth, hrest⟩ := hresult
    exact ⟨hok, hvalid, hdepths _ hdepth, hrest⟩

/-- A single step that calls no reader. -/
theorem Tracks.step (h : walk s = some (.ok part, later)) (hcalls : later.calls = s.calls)
    (hnext : Tracks tokens later (next part) last depths) :
    Tracks tokens s (walk >>= next) last depths := by
  obtain ⟨result, final, hrun, hlogs, hresult⟩ := hnext
  refine ⟨result, final, ?_, (Logs.of_eq hcalls).trans hlogs, hresult⟩
  rw [bind_of_ok h, hrun]

/-- A single step that calls no reader and stops at a fault. -/
theorem Tracks.halt {e : SyntaxError} (h : walk s = some (.error (.fault e), later))
    (hcalls : later.calls = s.calls) :
    Tracks tokens s (walk >>= next) (.error e) depths :=
  ⟨_, later, bind_of_error h next, .of_eq hcalls, rfl⟩

/-- The call of a reader is noted. -/
theorem Tracks.noted {production : Production} {walk : Walk α} (hvalid : s.Valid tokens)
    (h : Tracks tokens { s with calls := s.calls ++ [(production, s.toCursor)] } walk expected
      depths) :
    Tracks tokens s (note production >>= fun _ => walk) expected depths := by
  obtain ⟨result, final, hrun, hlogs, hresult⟩ := h
  have hnoted : Logs tokens s { s with calls := s.calls ++ [(production, s.toCursor)] } :=
    ⟨[(production, s.toCursor)], rfl, List.forall_mem_singleton.2 hvalid⟩
  refine ⟨result, final, ?_, hnoted.trans hlogs, hresult⟩
  rw [← hrun]
  exact bind_of_ok rfl _

/-- One walk after the other. -/
theorem Tracks.bind {reader : Parser α} {behind : α → Parser β} {ahead : List Placed}
    (h : Tracks tokens s walk (reader ahead) during)
    (hnext : ∀ part later, later.Valid tokens → during later.depth →
      Tracks tokens later (next part) (behind part (tokens.drop later.pos)) depths) :
    Tracks tokens s (walk >>= next) ((reader >>= behind) ahead) depths := by
  have hbind : (reader >>= behind) ahead =
      (reader ahead >>= fun (part, rest) => behind part rest) := rfl
  rw [hbind]
  generalize reader ahead = first at h
  obtain ⟨result, later, hrun, hlogs, hresult⟩ := h
  rcases first with e | ⟨part, rest⟩
  · obtain rfl := hresult
    exact ⟨_, later, bind_of_error hrun next, hlogs, rfl⟩
  · obtain ⟨rfl, hvalid, hdepth, rfl⟩ := hresult
    obtain ⟨result, final, hrun', hlogs', hresult'⟩ := hnext part later hvalid hdepth
    refine ⟨result, final, ?_, hlogs.trans hlogs', hresult'⟩
    rw [bind_of_ok hrun, hrun']

/-- Taking the next token. -/
theorem Tracks.bumped {next : Option Placed → Walk β} {found : Placed} {rest : List Placed}
    (hvalid : s.Valid tokens) (hahead : tokens.drop s.pos = found :: rest)
    (h : ∀ later : State, later.Valid tokens → later.depth = s.depth →
      tokens.drop later.pos = rest → Tracks tokens later (next (some found)) last depths) :
    Tracks tokens s (bump tokens >>= next) last depths := by
  obtain ⟨hrest, hle⟩ := of_drop_eq_cons hahead
  exact .step (bump_of_cons hahead) rfl (h _ ⟨hle, hvalid.depth⟩ rfl hrest)

/-- Taking the next token, which is the expected one. -/
theorem Tracks.eaten {next : Option Nat → Walk β} {found : Placed} {rest : List Placed}
    {token : Token} (hvalid : s.Valid tokens) (hahead : tokens.drop s.pos = found :: rest)
    (htoken : found.token = token)
    (h : ∀ later : State, later.Valid tokens → later.depth = s.depth →
      tokens.drop later.pos = rest → Tracks tokens later (next (some found.position)) last depths) :
    Tracks tokens s (eatAt tokens token >>= next) last depths := by
  obtain ⟨hrest, hle⟩ := of_drop_eq_cons hahead
  exact .step (eatAt_of_cons hahead htoken) rfl (h _ ⟨hle, hvalid.depth⟩ rfl hrest)

end

/-- Closing a group. -/
theorem tracks_close (hvalid : s.Valid tokens) (closer : Token) (opener : Placed) :
    Tracks tokens s (close tokens closer opener)
      (Parser.close closer opener (tokens.drop s.pos)) (· = s.depth) := by
  refine .step (peek_eq s) rfl ?_
  rcases hahead : tokens.drop s.pos with _ | ⟨found, rest⟩
  · exact tracks_fail _ _
  · obtain ⟨hrest, hle⟩ := of_drop_eq_cons hahead
    simp only [List.head?_cons, Parser.close]
    split
    · exact ⟨.ok (), { s with pos := s.pos + 1 }, rfl, .of_eq rfl, rfl, ⟨hle, hvalid.depth⟩, rfl,
        hrest⟩
    · exact tracks_fail _ _

/-! ### Nested parts

A level that is left for a reader is a depth that has not been used up by the walk. Going one level
deeper takes one from either. -/

/-- A walk does what a reader does on the tokens ahead, wherever a number of levels is left. -/
def Follows (tokens : List Placed) (levels : Nat) (walk : Walk α) (reader : Parser α) : Prop :=
  ∀ s : State, s.Valid tokens → maxNesting - s.depth = levels →
    Tracks tokens s walk (reader (tokens.drop s.pos)) (· = s.depth)

section

variable {levels : Nat} {walk : Walk α} {reader : Parser α}

/-- Noting the call of a reader makes no difference to what it reads. -/
theorem Follows.noted (h : Follows tokens levels walk reader) (production : Production) :
    Follows tokens levels (note production >>= fun _ => walk) reader :=
  fun _ hvalid hlevels => Tracks.noted hvalid (h _ hvalid hlevels)

/-- An operator or parenthesis for which no level is left. -/
theorem tracks_tooDeep {next : Unit → Walk β} {depths : Nat → Prop}
    (hlevels : maxNesting - s.depth = 0) (position : Nat) :
    Tracks tokens s (enter position >>= next) (Parser.tooDeep position) depths :=
  .halt (enter_eq_error (Nat.le_of_sub_eq_zero hlevels) position) rfl

/-- A part that lies one level deeper. -/
theorem Tracks.deeper {next : Unit → Walk β} {last : Except SyntaxError (β × List Placed)}
    {depths : Nat → Prop} (hvalid : s.Valid tokens) (hlevels : maxNesting - s.depth = levels + 1)
    (position : Nat)
    (h : ∀ deeper : State, deeper.Valid tokens → deeper.pos = s.pos →
      deeper.depth = s.depth + 1 → maxNesting - deeper.depth = levels →
      Tracks tokens deeper (next ()) last depths) :
    Tracks tokens s (enter position >>= next) last depths := by
  have hlt : s.depth < maxNesting := by omega
  refine .step (enter_eq hlt position) rfl (h _ ⟨hvalid.pos, hlt⟩ rfl rfl ?_)
  show maxNesting - (s.depth + 1) = levels
  omega

/-- Coming back from a part that lay one level deeper. -/
theorem Tracks.back {next : Unit → Walk β} {last : Except SyntaxError (β × List Placed)}
    {depths : Nat → Prop} {depth : Nat} (hvalid : s.Valid tokens) (hdepth : s.depth = depth + 1)
    (h : ∀ outer : State, outer.Valid tokens → outer.pos = s.pos → outer.depth = depth →
      Tracks tokens outer (next ()) last depths) :
    Tracks tokens s (leave >>= next) last depths := by
  have hle : depth ≤ maxNesting := by
    have := hvalid.depth
    omega
  exact .step (leave_eq hdepth) rfl (h _ ⟨hvalid.pos, hle⟩ rfl rfl)

/-- A part that lies one level deeper, of which something is made. -/
theorem Follows.nested (h : Follows tokens levels walk reader) (change : α → β)
    (hvalid : s.Valid tokens) (hlevels : maxNesting - s.depth = levels + 1) (position : Nat) :
    Tracks tokens s
      (enter position >>= fun _ => walk >>= fun part => leave >>= fun _ => pure (change part))
      ((change <$> reader) (tokens.drop s.pos)) (· = s.depth) := by
  have hmap : change <$> reader = reader >>= fun part => pure (change part) := rfl
  rw [hmap]
  refine .deeper hvalid hlevels position fun deeper hdeeper hpos hdepth hleft => ?_
  rw [← hpos]
  refine (h deeper hdeeper hleft).bind fun part later hlater hsame => ?_
  refine .back hlater (hsame.trans hdepth) fun outer houter hback hdepth' => ?_
  rw [← hback]
  exact tracks_pure houter hdepth' (change part)

end

/-! ### Terms and categorical sentences

A term calls itself once for each of its operators, one level deeper each time. -/

/-- Terms are read alike, if there is fuel for each level and one for the atom. -/
theorem follows_term (stop : Nat) {levels fuel : Nat} (h : levels < fuel) :
    Follows tokens levels (term tokens stop fuel) (Parser.term stop levels) := by
  induction fuel generalizing levels with
  | zero => exact absurd h (Nat.not_lt_zero levels)
  | succ fuel ih =>
      rw [term]
      refine Follows.noted (fun s hvalid hlevels => ?_) .term
      rcases hahead : tokens.drop s.pos with _ | ⟨⟨token, position⟩, rest⟩
      · rw [Parser.term]
        exact .step (bump_of_nil hahead) rfl (tracks_fail _ _)
      · refine .bumped hvalid hahead fun later hlater hdepth hrest => ?_
        subst hrest
        rw [← hdepth] at hlevels ⊢
        cases token with
        | ident name =>
            rw [Parser.term]
            exact tracks_pure hlater rfl _
        | complement =>
            rcases levels with _ | levels
            · exact tracks_tooDeep hlevels position
            · have hinner := ih (Nat.lt_of_succ_lt_succ h)
              exact hinner.nested Term.complement hlater hlevels position
        | privation =>
            rcases levels with _ | levels
            · exact tracks_tooDeep hlevels position
            · have hinner := ih (Nat.lt_of_succ_lt_succ h)
              exact hinner.nested Term.privation hlater hlevels position
        | _ =>
            simp only [Parser.term]
            exact tracks_fail _ _

/-- Categorical sentences are read alike. -/
theorem follows_categorical (stop : Nat) {levels fuel : Nat} (h : levels < fuel)
    (form : Term → Term → Formula) (closer : Token) (opener : Placed) :
    Follows tokens levels (categorical tokens stop fuel form closer opener)
      (Parser.categorical stop levels form closer opener) := by
  unfold categorical Parser.categorical
  intro s hvalid hlevels
  have hterm : Follows tokens levels (term tokens stop fuel) (Parser.term stop levels) :=
    follows_term stop h
  refine (hterm s hvalid hlevels).bind fun subject later hlater hdepth => ?_
  refine (tracks_close hlater closer opener).bind fun _ behind hbehind hdepth' => ?_
  have hlevels' : maxNesting - behind.depth = levels := by rw [hdepth', hdepth, hlevels]
  refine (hterm behind hbehind hlevels').bind fun predicate final hfinal hlast => ?_
  exact tracks_pure hfinal (hlast.trans (hdepth'.trans hdepth)) _

/-! ### Fuel

Fuel counts how deep calls lie in each other, which is more than levels count: within one level
there is a call for each place down to the tightest. -/

/-- How deep calls lie in each other at a place where nothing is nested. -/
def reach : Precedence → Nat
  | .primary => 2
  | .unary => 3
  | .conjunction => 5
  | .disjunction => 7
  | .conditional => 8
  | .biconditional => 10

/-- How deep calls lie in each other at a place, at most. From one level to the next it is through
all places and back to the tightest. -/
def need (levels : Nat) (place : Precedence) : Nat :=
  10 * levels + reach place

/-- How deep calls lie in each other in any walk, at most. -/
def enough : Nat :=
  10 * maxNesting + 11

/-- Every reader needs some fuel. -/
theorem need_pos (levels : Nat) (place : Precedence) : 0 < need levels place := by
  cases place <;> exact Nat.succ_pos _

/-- What is read at a place is read alike, if there is fuel for it. -/
def FollowsAt (tokens : List Placed) (stop levels : Nat) (place : Precedence)
    (reader : Parser Formula) : Prop :=
  ∀ fuel, need levels place ≤ fuel → Follows tokens levels (level tokens stop fuel place) reader

/-- The call at a place takes one unit of fuel, the rest is for what it calls. -/
theorem FollowsAt.of_succ {levels : Nat} {place : Precedence} {reader : Parser Formula}
    (h : ∀ fuel, need levels place ≤ fuel + 1 →
      Follows tokens levels (level tokens stop (fuel + 1) place) reader) :
    FollowsAt tokens stop levels place reader := by
  intro fuel hfuel
  rcases fuel with _ | fuel
  · exact absurd hfuel (Nat.not_le.2 (need_pos levels place))
  · exact h fuel hfuel

/-! ### Chains

Each link lies one level deeper than the one before it, and none of them comes back. It is the call
for the chain that puts the depth back, when all links are read; halfway through, the depth is only
known to be one of several. -/

/-- A walk that goes on behind a token, one level deeper, and ends before any other. -/
theorem Tracks.tailOn {levels : Nat} {token : Token} {left : Formula}
    {step : Nat → Parser Formula} {next : Option Nat → Walk Formula} {depths : Nat → Prop}
    (hvalid : s.Valid tokens) (hlevels : maxNesting - s.depth = levels)
    (hdepths : depths s.depth) (goOn : Walk Formula) (hend : next none = pure left)
    (hgo : ∀ position, next (some position) = enter position >>= fun _ => goOn)
    (hstep : ∀ (n : Nat) (deeper : State), levels = n + 1 → deeper.Valid tokens →
      deeper.depth = s.depth + 1 → maxNesting - deeper.depth = n →
      Tracks tokens deeper goOn (step n (tokens.drop deeper.pos)) depths) :
    Tracks tokens s (eatAt tokens token >>= next)
      (Parser.tailOn token levels left step (tokens.drop s.pos)) depths := by
  have hstays : (∀ found ∈ (tokens.drop s.pos).head?, found.token ≠ token) →
      Tracks tokens s (eatAt tokens token >>= next)
        (Parser.tailOn token levels left step (tokens.drop s.pos)) depths := by
    intro hne
    rw [Parser.tailOn_of_ne levels left step hne]
    refine .step (eatAt_of_ne hne) rfl ?_
    rw [hend]
    refine (tracks_pure hvalid rfl left).mono ?_
    rintro depth rfl
    exact hdepths
  rcases hahead : tokens.drop s.pos with _ | ⟨found, rest⟩
  · rw [hahead] at hstays
    exact hstays nofun
  · by_cases hfound : found.token = token
    · refine .eaten hvalid hahead hfound fun later hlater hdepth hrest => ?_
      rw [hgo]
      simp only [Parser.tailOn, if_pos hfound]
      rw [← hdepth] at hlevels hstep
      rcases levels with _ | levels
      · exact tracks_tooDeep hlevels found.position
      · refine .deeper hlater hlevels found.position fun deeper hdeeper hpos hdeep hleft => ?_
        rw [← hrest, ← hpos]
        exact hstep levels deeper rfl hdeeper hdeep hleft
    · rw [hahead] at hstays
      exact hstays fun _ hmem => (Option.mem_some.1 hmem) ▸ hfound

section

variable {levels : Nat} {token : Token} {join : Formula → Formula → Formula}
  {operand : Precedence} {reader : Nat → Parser Formula} {tail : Nat → Formula → Parser Formula}

/-- The links of a chain are read like a tail. Each of them leaves the walk one level deeper. -/
theorem tracks_links
    (htail : ∀ levels left, tail levels left = Parser.tailOn token levels left fun n =>
      reader n >>= fun right => tail n (join left right))
    (hoperand : ∀ n, n < levels → FollowsAt tokens stop n operand (reader n)) {fuel : Nat}
    (hfuel : need levels operand ≤ fuel) (hvalid : s.Valid tokens)
    (hlevels : maxNesting - s.depth = levels) (left : Formula) :
    Tracks tokens s (links tokens stop fuel token join operand left)
      (tail levels left (tokens.drop s.pos)) fun _ => True := by
  induction fuel generalizing levels s left with
  | zero => exact absurd hfuel (Nat.not_le.2 (need_pos levels operand))
  | succ fuel ih =>
      rw [links, htail]
      refine .tailOn hvalid hlevels trivial (level tokens stop fuel operand >>= fun right =>
        links tokens stop fuel token join operand (join left right)) rfl (fun _ => rfl) ?_
      rintro n deeper rfl hdeeper - hleft
      have hlt := n.lt_succ_self
      have hfuel' : need n operand ≤ fuel := by
        unfold need at hfuel ⊢
        omega
      refine (hoperand n hlt fuel hfuel' deeper hdeeper hleft).bind
        fun right later hlater hsame => ?_
      refine ih (fun m hm => hoperand m (Nat.lt_trans hm hlt)) hfuel' hlater ?_ (join left right)
      rw [hsame, hleft]

/-- A chain puts the depth back, however many links it has. -/
theorem follows_chain
    (htail : ∀ levels left, tail levels left = Parser.tailOn token levels left fun n =>
      reader n >>= fun right => tail n (join left right))
    (hoperand : ∀ n, n ≤ levels → FollowsAt tokens stop n operand (reader n)) {fuel : Nat}
    (hfuel : need levels operand ≤ fuel) :
    Follows tokens levels (chain tokens stop (fuel + 1) token join operand)
      (reader levels >>= tail levels) := by
  intro s hvalid hlevels
  rw [chain]
  have hget : (get : Walk State) s = some (.ok s, s) := rfl
  refine .step hget rfl ?_
  refine (hoperand levels (Nat.le_refl levels) fuel hfuel s hvalid hlevels).bind
    fun left later hlater hsame => ?_
  have hlinks := tracks_links htail (fun n hn => hoperand n (Nat.le_of_lt hn)) hfuel hlater
    (by rw [hsame, hlevels]) left
  rw [← bind_pure (tail levels left)]
  refine hlinks.bind fun whole last hlast _ => ?_
  have hback : (modify fun s' => { s' with depth := s.depth } : Walk Unit) last =
      some (.ok (), { last with depth := s.depth }) := rfl
  have hvalid' : Cursor.Valid tokens ⟨last.pos, s.depth⟩ := ⟨hlast.pos, hvalid.depth⟩
  refine .step hback rfl ?_
  exact tracks_pure hvalid' rfl whole

/-- A place where formulas are joined in a chain. -/
theorem followsAt_of_chain {place : Precedence}
    (hplace : ∀ fuel, level tokens stop (fuel + 1) place =
      note (.level place) >>= fun _ => chain tokens stop fuel token join operand)
    (hreach : reach place = reach operand + 2)
    (htail : ∀ levels left, tail levels left = Parser.tailOn token levels left fun n =>
      reader n >>= fun right => tail n (join left right))
    (hoperand : ∀ n, n ≤ levels → FollowsAt tokens stop n operand (reader n)) :
    FollowsAt tokens stop levels place (reader levels >>= tail levels) := by
  refine .of_succ fun fuel hfuel => ?_
  unfold need at hfuel
  obtain ⟨fuel, rfl⟩ : ∃ inner, fuel = inner + 1 := ⟨fuel - 1, by omega⟩
  have hfuel' : need levels operand ≤ fuel := by
    unfold need
    omega
  rw [hplace]
  exact (follows_chain htail hoperand hfuel').noted _

end

/-! ### Formulas

One lemma for each place, from the tightest to the loosest, under the hypothesis that all places are
read alike with fewer levels left; then the induction on levels. -/

section

variable {levels : Nat}

/-- Any formula is read as one in the loosest place. -/
theorem follows_formula {fuel : Nat}
    (h : FollowsAt tokens stop levels .biconditional (Parser.biconditional stop levels))
    (hfuel : need levels .biconditional < fuel) :
    Follows tokens levels (formula tokens stop fuel) (Parser.biconditional stop levels) := by
  rcases fuel with _ | fuel
  · exact absurd hfuel (Nat.not_lt_zero _)
  · rw [formula]
    exact (h fuel (Nat.le_of_lt_succ hfuel)).noted .formula

/-- The walk through primaries follows its reader if the one through whole formulas does with fewer
levels left, which is what a parenthesis asks for. -/
theorem followsAt_primary
    (h : ∀ n, n < levels → FollowsAt tokens stop n .biconditional (Parser.biconditional stop n)) :
    FollowsAt tokens stop levels .primary (Parser.primary stop levels) := by
  refine .of_succ fun fuel hfuel => ?_
  simp only [need, reach] at hfuel
  have hterms : levels < fuel := by omega
  rw [level]
  refine Follows.noted (fun s hvalid hlevels => ?_) _
  rcases hahead : tokens.drop s.pos with _ | ⟨⟨token, position⟩, rest⟩
  · simp only [Parser.primary, Parser.operand]
    exact .step (bump_of_nil hahead) rfl (tracks_fail _ _)
  · refine .bumped hvalid hahead fun later hlater hdepth hrest => ?_
    subst hrest
    rw [← hdepth] at hlevels ⊢
    cases token with
    | ident name =>
        simp only [Parser.primary, Parser.operand]
        exact tracks_pure hlater rfl _
    | leftBracket | leftAngle =>
        simp only [Parser.primary, Parser.operand]
        exact follows_categorical stop hterms _ _ _ later hlater hlevels
    | leftParen =>
        rcases levels with _ | levels
        · exact tracks_tooDeep hlevels position
        · have hfuel' : need levels .biconditional < fuel := by
            simp only [need, reach]
            omega
          refine .deeper hlater hlevels position fun deeper hdeeper hpos hdeep hleft => ?_
          have hinner := follows_formula (h levels levels.lt_succ_self) hfuel' deeper hdeeper hleft
          rw [hpos] at hinner
          refine hinner.bind fun inner last hlast hsame => ?_
          refine (tracks_close hlast _ _).bind fun _ behind hbehind hclosed => ?_
          have hback : behind.depth = later.depth + 1 := by rw [hclosed, hsame, hdeep]
          refine .back hbehind hback fun outer houter hpos' hdepth' => ?_
          rw [← hpos']
          exact tracks_pure houter hdepth' inner
    | _ =>
        simp only [Parser.primary, Parser.operand]
        exact tracks_fail _ _

/-- The walk through operands follows its reader if the one through primaries does, and with fewer
levels the one through operands itself, which is what a negation asks for. -/
theorem followsAt_unary
    (hprimary : FollowsAt tokens stop levels .primary (Parser.primary stop levels))
    (hunary : ∀ n, n < levels → FollowsAt tokens stop n .unary (Parser.operand stop n)) :
    FollowsAt tokens stop levels .unary (Parser.operand stop levels) := by
  refine .of_succ fun fuel hfuel => ?_
  simp only [need, reach] at hfuel
  rw [level]
  refine Follows.noted (fun s hvalid hlevels => ?_) _
  by_cases hnot : ∃ position rest, tokens.drop s.pos = ⟨.not, position⟩ :: rest
  · obtain ⟨position, rest, hahead⟩ := hnot
    rw [hahead]
    refine .eaten hvalid hahead rfl fun later hlater hdepth hrest => ?_
    subst hrest
    rw [← hdepth] at hlevels ⊢
    rcases levels with _ | levels
    · exact tracks_tooDeep hlevels position
    · have hinner := hunary levels levels.lt_succ_self fuel (by simp only [need, reach]; omega)
      exact hinner.nested Formula.negation hlater hlevels position
  · have hne : ∀ found ∈ (tokens.drop s.pos).head?, found.token ≠ .not := by
      rintro ⟨token, position⟩ hfound rfl
      obtain ⟨rest, hrest⟩ := List.head?_eq_some_iff.1 hfound
      exact hnot ⟨position, rest, hrest⟩
    rw [← Parser.primary_of_ne stop levels hne]
    have hinner := hprimary fuel (by simp only [need, reach]; omega)
    exact .step (eatAt_of_ne hne) rfl (hinner s hvalid hlevels)

/-- The walk through conditionals follows its reader if the one through disjunctions does, and with
fewer levels the one through conditionals itself, which is the right operand. -/
theorem followsAt_conditional
    (hdisjunction : FollowsAt tokens stop levels .disjunction (Parser.disjunction stop levels))
    (hconditional : ∀ n, n < levels →
      FollowsAt tokens stop n .conditional (Parser.conditional stop n)) :
    FollowsAt tokens stop levels .conditional (Parser.conditional stop levels) := by
  refine .of_succ fun fuel hfuel => ?_
  simp only [need, reach] at hfuel
  rw [level]
  refine Follows.noted (fun s hvalid hlevels => ?_) _
  have hfirst := hdisjunction fuel (by simp only [need, reach]; omega)
  refine (hfirst s hvalid hlevels).bind fun left later hlater hsame => ?_
  rw [Parser.conditionalTail_eq]
  refine .tailOn hlater (by rw [hsame, hlevels]) hsame (level tokens stop fuel .conditional >>=
    fun right => leave >>= fun _ => pure (left.conditional right)) rfl (fun _ => rfl) ?_
  rintro n deeper rfl hdeeper hdeep hleft
  have hsecond := hconditional n n.lt_succ_self fuel (by simp only [need, reach]; omega)
  refine (hsecond deeper hdeeper hleft).bind fun right last hlast hback => ?_
  refine .back hlast (hback.trans hdeep) fun outer houter hpos hdepth => ?_
  rw [← hpos]
  exact tracks_pure houter (hdepth.trans hsame) _

/-- Formulas are read alike at every place. -/
theorem followsAt_level (stop levels : Nat) (place : Precedence) :
    FollowsAt tokens stop levels place (Parser.ofLevel stop levels place) := by
  induction levels using Nat.strongRecOn generalizing place with
  | ind levels ih =>
      -- from the tightest place to the loosest, each one needs the one before, also further inside
      have hupTo : ∀ {place : Precedence} {reader : Nat → Parser Formula},
          (∀ n, Parser.ofLevel stop n place = reader n) →
          FollowsAt tokens stop levels place (reader levels) →
          ∀ n, n ≤ levels → FollowsAt tokens stop n place (reader n) := by
        intro place reader hreader hlast n hn
        rcases Nat.lt_or_eq_of_le hn with hlt | rfl
        · rw [← hreader]
          exact ih n hlt place
        · exact hlast
      have hprimary := followsAt_primary fun n hn => ih n hn .biconditional
      have hunary := followsAt_unary hprimary fun n hn => ih n hn .unary
      have hconjunction : FollowsAt tokens stop levels .conjunction
          (Parser.conjunction stop levels) :=
        followsAt_of_chain (fun _ => by rw [level]) rfl (Parser.conjunctionTail_eq stop)
          (hupTo (fun _ => rfl) hunary)
      have hdisjunction : FollowsAt tokens stop levels .disjunction
          (Parser.disjunction stop levels) :=
        followsAt_of_chain (fun _ => by rw [level]) rfl (Parser.disjunctionTail_eq stop)
          (hupTo (fun _ => rfl) hconjunction)
      have hconditional := followsAt_conditional hdisjunction fun n hn => ih n hn .conditional
      have hbiconditional : FollowsAt tokens stop levels .biconditional
          (Parser.biconditional stop levels) :=
        followsAt_of_chain (fun _ => by rw [level]) rfl (Parser.biconditionalTail_eq stop)
          (hupTo (fun _ => rfl) hconditional)
      cases place with
      | biconditional => exact hbiconditional
      | conditional => exact hconditional
      | disjunction => exact hdisjunction
      | conjunction => exact hconjunction
      | unary => exact hunary
      | primary => exact hprimary

end

/-! ### More fuel

The fuel is no part of what is read. A walk that has come to an end did not use it up, so nothing
changes if there is more. -/

/-- Where a walk comes to an end, another one comes to the same end. -/
def Extends (walk other : Walk α) : Prop :=
  ∀ s final, walk s = some final → other s = some final

/-- A walk extends itself. -/
theorem Extends.refl (walk : Walk α) : Extends walk walk :=
  fun _ _ h => h

/-- A walk without end is extended by all others. -/
theorem extends_endless (other : Walk α) : Extends endless other := by
  intro s final h
  cases h

/-- Walks one after the other are extended if each of them is. -/
theorem Extends.bind {walk other : Walk α} {next next' : α → Walk β} (h : Extends walk other)
    (hnext : ∀ part, Extends (next part) (next' part)) :
    Extends (walk >>= next) (other >>= next') := by
  intro s final hrun
  rcases hfirst : walk s with _ | ⟨halt | part, later⟩
  · rw [bind_apply, hfirst] at hrun
    cases hrun
  · rw [bind_of_error hfirst] at hrun
    rw [bind_of_error (h s _ hfirst), hrun]
  · rw [bind_of_ok hfirst] at hrun
    rw [bind_of_ok (h s _ hfirst)]
    exact hnext part later final hrun

/-- More fuel extends the walk through a term. -/
theorem extends_term (fuel : Nat) :
    Extends (term tokens stop fuel) (term tokens stop (fuel + 1)) := by
  induction fuel with
  | zero => exact extends_endless _
  | succ fuel ih =>
      rw [term, term]
      refine (Extends.refl _).bind fun _ => (Extends.refl _).bind fun found => ?_
      rcases found with _ | ⟨token, position⟩
      · exact .refl _
      · cases token with
        | complement | privation =>
            exact (Extends.refl _).bind fun _ => ih.bind fun _ => .refl _
        | _ => exact .refl _

/-- More fuel extends the walk through a categorical sentence. -/
theorem extends_categorical (fuel : Nat) (form : Term → Term → Formula) (closer : Token)
    (opener : Placed) :
    Extends (categorical tokens stop fuel form closer opener)
      (categorical tokens stop (fuel + 1) form closer opener) := by
  unfold categorical
  exact (extends_term fuel).bind fun _ => (Extends.refl _).bind fun _ =>
    (extends_term fuel).bind fun _ => .refl _

/-- The walks over formulas with one more unit of fuel. -/
structure Extended (tokens : List Placed) (stop fuel : Nat) : Prop where
  formula : Extends (formula tokens stop fuel) (formula tokens stop (fuel + 1))
  level : ∀ place, Extends (level tokens stop fuel place) (level tokens stop (fuel + 1) place)
  chain : ∀ token join operand, Extends (chain tokens stop fuel token join operand)
    (chain tokens stop (fuel + 1) token join operand)
  links : ∀ token join operand left, Extends (links tokens stop fuel token join operand left)
    (links tokens stop (fuel + 1) token join operand left)

/-- One more unit of fuel extends all walks, by induction on the fuel for all of them at once. -/
theorem extended (tokens : List Placed) (stop fuel : Nat) : Extended tokens stop fuel := by
  induction fuel with
  | zero =>
      exact ⟨extends_endless _, fun _ => extends_endless _, fun _ _ _ => extends_endless _,
        fun _ _ _ _ => extends_endless _⟩
  | succ fuel ih =>
      constructor
      case formula =>
        rw [formula, formula]
        exact (Extends.refl _).bind fun _ => ih.level _
      case level =>
        intro place
        cases place with
        | biconditional | disjunction | conjunction =>
            rw [level, level]
            exact (Extends.refl _).bind fun _ => ih.chain _ _ _
        | conditional =>
            rw [level, level]
            refine (Extends.refl _).bind fun _ => (ih.level _).bind fun left =>
              (Extends.refl _).bind fun found => ?_
            rcases found with _ | position
            · exact .refl _
            · exact (Extends.refl _).bind fun _ => (ih.level _).bind fun _ => .refl _
        | unary =>
            rw [level, level]
            refine (Extends.refl _).bind fun _ => (Extends.refl _).bind fun found => ?_
            rcases found with _ | position
            · exact ih.level _
            · exact (Extends.refl _).bind fun _ => (ih.level _).bind fun _ => .refl _
        | primary =>
            rw [level, level]
            refine (Extends.refl _).bind fun _ => (Extends.refl _).bind fun found => ?_
            rcases found with _ | ⟨token, position⟩
            · exact .refl _
            · cases token with
              | leftBracket | leftAngle => exact extends_categorical fuel _ _ _
              | leftParen => exact (Extends.refl _).bind fun _ => ih.formula.bind fun _ => .refl _
              | _ => exact .refl _
      case chain =>
        intro token join operand
        rw [chain, chain]
        exact (Extends.refl _).bind fun _ => (ih.level _).bind fun _ =>
          (ih.links _ _ _ _).bind fun _ => .refl _
      case links =>
        intro token join operand left
        rw [links, links]
        refine (Extends.refl _).bind fun found => ?_
        rcases found with _ | position
        · exact .refl _
        · exact (Extends.refl _).bind fun _ => (ih.level _).bind fun _ => ih.links _ _ _ _

/-- With enough fuel a walk comes to an end, which is the same however much more there is. -/
def Ends (walk : Nat → Walk α) (s : State) (result : Except Halt α) (later : State) : Prop :=
  ∀ fuel, enough ≤ fuel → walk fuel s = some (result, later)

/-- What comes to an end with enough fuel comes to the same end with more. -/
theorem ends_of_extends {walk : Nat → Walk α} {result : Except Halt α}
    (hmore : ∀ fuel, Extends (walk fuel) (walk (fuel + 1)))
    (h : walk enough s = some (result, later)) : Ends walk s result later := by
  intro fuel hfuel
  induction hfuel with
  | refl => exact h
  | step _ ih => exact hmore _ s _ ih

end Walk

end TermLogic.Formula
