import TermLogic.Tableau.Copying

/-!
# How paths grow

A step of a tableau puts one branch or two in the place of a branch. What these branches hold
depends on nothing but the path of the branch that takes the step, the obligation that is expanded
and its rule, so it is said here about paths alone.

* `Path.addAll`: claims put on a path one after the other, until it closes.
* `Rule.alternatives`, `Rule.newcomers`: the claims of each branch that a rule makes, and the
  individuals it introduces.
* `Obligation.rule?_eq_some`, `Rule.either_eq_some`: where the rule of an obligation comes from, and
  which rules look for one of two claims.
* `Path.next`: the branches that come in the place of one. `Path.Follows` says what one of them that
  does not close has in addition, and is all that later modules use of a step.
* `Path.Consistent`: no claim with both signs.
* `Path.mem_obligations_iff`, `Path.of_pending_eq_some`, `Path.of_pending_eq_none`: what a path is
  obliged to, and what it means that an obligation or none is pending.
* `Path.pendingAmong_eq_firstAmong`, `Path.exists_pending_of_openRule?`: forks come last, and of the
  others the oldest comes first.
-/

namespace TermLogic

/-! ### What a rule makes

A rule is turned into the list of what it makes, one list of claims for each branch. So one function
on paths, `Path.next`, does for all rules, and what is shown of it needs no cases. -/

namespace Rule

/-- The claims for each of the branches that a rule makes; `fresh` is the individual that a witness
rule introduces. -/
def alternatives (fresh : Individual) : Rule → List (List Signed)
  | linear produced => [produced]
  | split left right => [left, right]
  | witness terms => [terms.map fun (term, sign) => .predication sign fresh term]

/-- The individuals that a rule introduces. -/
def newcomers (fresh : Individual) : Rule → List Individual
  | linear _ | split _ _ => []
  | witness _ => [fresh]

/-- The next individuals are those behind the `n` introduced so far. -/
theorem mem_newcomers {rule : Rule} {n : Nat} {c : Individual}
    (h : c ∈ rule.newcomers (n + 1)) : n < c ∧ c ≤ n + (rule.newcomers (n + 1)).length := by
  cases rule with
  | linear | split => cases h
  | witness terms =>
      rw [List.mem_singleton.1 h]
      exact ⟨Nat.lt_succ_self n, Nat.le_refl _⟩

/-- The rule that looks for one of two claims adds the other one if one is contradicted, and forks
otherwise. -/
theorem either_eq_some {holds : Signed → Bool} {first second : Signed} {rule : Rule}
    (h : either holds first second = some rule) :
    (holds first.flip = true ∧ rule = linear [second]) ∨
    (holds second.flip = true ∧ rule = linear [first]) ∨ rule = split [first] [second] := by
  unfold either at h
  split at h
  · cases h
  · split at h
    · next hflip => exact .inl ⟨hflip, (Option.some.inj h).symm⟩
    · split at h
      · next hflip => exact .inr (.inl ⟨hflip, (Option.some.inj h).symm⟩)
      · exact .inr (.inr (Option.some.inj h).symm)

end Rule

/-- Where the rule of an obligation comes from: a formula that is expanded once, an asserted
privation, or a formula that is applied to an individual. -/
theorem Obligation.rule?_eq_some {holds : Signed → Bool} {o : Obligation} {rule : Rule}
    (h : o.rule? holds = some rule) :
    (∃ place sign f, o = ⟨⟨place, none⟩, .formula sign f⟩ ∧
      Rule.ofFormula? sign f = some rule) ∨
    (∃ place c t, o = ⟨⟨place, none⟩, ⟨true, .predication c (.privation t)⟩⟩ ∧
      rule = .linear [.predication false c t]) ∨
    (∃ place c sign f, o = ⟨⟨place, some c⟩, .formula sign f⟩ ∧
      Rule.ofInstance? holds c f = some rule) := by
  obtain ⟨⟨place, individual⟩, sign, claim⟩ := o
  rcases individual with _ | c
  · rcases claim with f | ⟨c, t⟩
    · exact .inl ⟨place, sign, f, rfl, h⟩
    · right; left
      rcases t with name | t | t
      · cases h
      · cases h
      · cases sign <;> cases h
        exact ⟨place, c, t, rfl, rfl⟩
  · rcases claim with f | ⟨c', t⟩
    · exact .inr (.inr ⟨place, c, sign, f, rfl, h⟩)
    · cases h

namespace Path

/-- The path with a further claim. -/
def push (path : Path) (s : Signed) : Path :=
  { path with claims := path.claims ++ [s] }

/-- Puts claims on a path, one after the other. A claim that is there already is left out, and one
that is there with the other sign closes the branch, after which nothing more is put on it. -/
def addAll : Path → List Signed → Copying.Branch
  | path, [] => ⟨path, .active⟩
  | path, s :: rest =>
    if path.holds s then path.addAll rest
    else if path.holds s.flip then ⟨path.push s, .closed⟩
    else (path.push s).addAll rest

/-- The path once a slot of it has been expanded, with the individuals that this introduces. -/
def expand (path : Path) (slot : Slot) (newcomers : List Individual) : Path :=
  { path with
    expanded := path.expanded ++ [slot]
    individuals := path.individuals ++ newcomers }

/-- The branches that come in the place of a branch when an obligation is expanded by its rule. -/
def next (path : Path) (fresh : Individual) (o : Obligation) (rule : Rule) : List Copying.Branch :=
  (rule.alternatives fresh).map (path.expand o.toSlot (rule.newcomers fresh)).addAll

/-- No claim is on the path with both signs. -/
def Consistent (path : Path) : Prop :=
  ∀ s ∈ path.claims, s.flip ∉ path.claims

/-- A claim that is written down comes last. -/
@[simp]
theorem claims_push (path : Path) (s : Signed) : (path.push s).claims = path.claims ++ [s] := rfl

/-- Writing down a claim expands nothing. -/
@[simp]
theorem expanded_push (path : Path) (s : Signed) : (path.push s).expanded = path.expanded := rfl

/-- Writing down a claim introduces nobody. -/
@[simp]
theorem individuals_push (path : Path) (s : Signed) :
    (path.push s).individuals = path.individuals := rfl

/-- Noting an expansion writes down no claim: these come afterwards, one by one. -/
@[simp]
theorem claims_expand (path : Path) (slot : Slot) (newcomers : List Individual) :
    (path.expand slot newcomers).claims = path.claims := rfl

/-- An expansion is noted behind the earlier ones. -/
@[simp]
theorem expanded_expand (path : Path) (slot : Slot) (newcomers : List Individual) :
    (path.expand slot newcomers).expanded = path.expanded ++ [slot] := rfl

/-- Whoever is introduced comes behind the earlier individuals. -/
@[simp]
theorem individuals_expand (path : Path) (slot : Slot) (newcomers : List Individual) :
    (path.expand slot newcomers).individuals = path.individuals ++ newcomers := rfl

/-- A claim that is on a path with neither sign keeps the path consistent. -/
theorem Consistent.push {path : Path} {s : Signed} (h : path.Consistent)
    (hs : s.flip ∉ path.claims) : (path.push s).Consistent := by
  intro r hr hflip
  simp only [claims_push, List.mem_append, List.mem_singleton] at hr hflip
  rcases hr with hr | rfl
  · rcases hflip with hflip | hflip
    · exact h r hr hflip
    · rw [← hflip, Signed.flip_flip] at hs
      exact hs hr
  · rcases hflip with hflip | hflip
    · exact hs hflip
    · exact r.flip_ne hflip

/-! ### Adding claims

All by induction along `Path.addAll`, whose cases are that no claim is left, and that the next one
is there already, is there with the other sign, or is new. -/

/-- Adding claims closes a branch or leaves it active. -/
theorem state_addAll (path : Path) (claims : List Signed) :
    (path.addAll claims).state = .active ∨ (path.addAll claims).state = .closed := by
  fun_induction addAll path claims with
  | case1 path => exact .inl rfl
  | case2 path s rest hs ih => exact ih
  | case3 path s rest hs hflip => exact .inr rfl
  | case4 path s rest hs hflip ih => exact ih

/-- Adding claims expands nothing. -/
@[simp]
theorem expanded_addAll (path : Path) (claims : List Signed) :
    (path.addAll claims).path.expanded = path.expanded := by
  fun_induction addAll path claims with
  | case1 path => rfl
  | case2 path s rest hs ih => exact ih
  | case3 path s rest hs hflip => rfl
  | case4 path s rest hs hflip ih => exact ih

/-- Adding claims introduces nobody. -/
@[simp]
theorem individuals_addAll (path : Path) (claims : List Signed) :
    (path.addAll claims).path.individuals = path.individuals := by
  fun_induction addAll path claims with
  | case1 path => rfl
  | case2 path s rest hs ih => exact ih
  | case3 path s rest hs hflip => rfl
  | case4 path s rest hs hflip ih => exact ih

/-- Claims come behind those that are there, and only claims that were to be added. -/
theorem exists_claims_addAll (path : Path) (claims : List Signed) :
    ∃ added, (path.addAll claims).path.claims = path.claims ++ added ∧ added ⊆ claims := by
  fun_induction addAll path claims with
  | case1 path => exact ⟨[], by simp⟩
  | case2 path s rest hs ih =>
      obtain ⟨added, heq, hsub⟩ := ih
      exact ⟨added, heq, List.subset_cons_of_subset s hsub⟩
  | case3 path s rest hs hflip => exact ⟨[s], rfl, by simp⟩
  | case4 path s rest hs hflip ih =>
      obtain ⟨added, heq, hsub⟩ := ih
      refine ⟨s :: added, by simpa using heq, ?_⟩
      exact List.cons_subset_cons s hsub

/-- Adding claims puts none on a path twice. -/
theorem nodup_claims_addAll {path : Path} (claims : List Signed) (h : path.claims.Nodup) :
    (path.addAll claims).path.claims.Nodup := by
  have hpush : ∀ (path : Path) (s : Signed), path.claims.Nodup → ¬ path.holds s = true →
      (path.push s).claims.Nodup := by
    intro path s hnodup hs
    rw [claims_push, List.nodup_append]
    refine ⟨hnodup, by simp, ?_⟩
    rintro r hr r' hr' rfl
    rw [List.mem_singleton] at hr'
    exact hs ((path.holds_iff s).2 (hr' ▸ hr))
  fun_induction addAll path claims with
  | case1 path => exact h
  | case2 path s rest hs ih => exact ih h
  | case3 path s rest hs hflip => exact hpush path s h hs
  | case4 path s rest hs hflip ih => exact ih (hpush path s h hs)

/-- A branch that stays active has taken in all claims. -/
theorem subset_claims_addAll {path : Path} {claims : List Signed}
    (h : (path.addAll claims).state = .active) : claims ⊆ (path.addAll claims).path.claims := by
  have hkeep : ∀ {path : Path} {s : Signed} (rest : List Signed), s ∈ path.claims →
      s ∈ (path.addAll rest).path.claims := by
    intro path s rest hs
    obtain ⟨added, heq, -⟩ := exists_claims_addAll path rest
    rw [heq]
    exact List.mem_append_left added hs
  fun_induction addAll path claims with
  | case1 path => exact List.nil_subset _
  | case2 path s rest hs ih =>
      exact List.cons_subset.2 ⟨hkeep rest ((path.holds_iff s).1 hs), ih h⟩
  | case3 path s rest hs hflip => cases h
  | case4 path s rest hs hflip ih =>
      exact List.cons_subset.2 ⟨hkeep rest (by simp), ih h⟩

/-- On a branch that stays active are the claims that were there and those that were added. -/
theorem mem_claims_addAll {path : Path} {claims : List Signed}
    (h : (path.addAll claims).state = .active) {s : Signed} :
    s ∈ (path.addAll claims).path.claims ↔ s ∈ path.claims ∨ s ∈ claims := by
  obtain ⟨added, heq, hsub⟩ := exists_claims_addAll path claims
  constructor
  · intro hs
    rw [heq, List.mem_append] at hs
    exact hs.imp_right fun hmem => hsub hmem
  · rintro (hold | hnew)
    · rw [heq]
      exact List.mem_append_left added hold
    · exact subset_claims_addAll h hnew

/-- A branch that stays active has come to hold no contradiction. -/
theorem Consistent.addAll {path : Path} {claims : List Signed} (h : path.Consistent)
    (hactive : (path.addAll claims).state = .active) :
    (path.addAll claims).path.Consistent := by
  fun_induction Path.addAll path claims with
  | case1 path => exact h
  | case2 path s rest hs ih => exact ih h hactive
  | case3 path s rest hs hflip => cases hactive
  | case4 path s rest hs hflip ih =>
      refine ih (h.push ?_) hactive
      rwa [holds_iff] at hflip

/-! ### One step

Of a branch that stays active, `Path.Follows` says all that a property of paths may depend on. A
step need not be looked into any further for that. -/

/-- A path that comes from another by the expansion of an obligation, in which it takes in the
claims of one alternative of the rule and does not close. -/
structure Follows (path : Path) (fresh : Individual) (o : Obligation) (rule : Rule)
    (later : Path) : Prop where
  /-- The slot has been expanded and nothing else. -/
  expanded_eq : later.expanded = path.expanded ++ [o.toSlot]
  /-- The individuals that the rule introduces have come in. -/
  individuals_eq : later.individuals = path.individuals ++ rule.newcomers fresh
  /-- All claims of one alternative have come in, and no other. -/
  claims_eq : ∃ alternative ∈ rule.alternatives fresh, ∃ added,
    later.claims = path.claims ++ added ∧ added ⊆ alternative ∧ alternative ⊆ later.claims
  /-- No claim has come in twice. -/
  nodup : path.claims.Nodup → later.claims.Nodup
  /-- No contradiction has come in. -/
  consistent : path.Consistent → later.Consistent

/-- What an active branch that comes in the place of another has in addition. -/
theorem follows_of_mem_next {path : Path} {fresh : Individual} {o : Obligation} {rule : Rule}
    {branch : Copying.Branch} (h : branch ∈ path.next fresh o rule)
    (hactive : branch.state = .active) : path.Follows fresh o rule branch.path := by
  obtain ⟨alternative, hmem, rfl⟩ := List.mem_map.1 h
  obtain ⟨added, heq, hsub⟩ :=
    exists_claims_addAll (path.expand o.toSlot (rule.newcomers fresh)) alternative
  exact
    { expanded_eq := by simp
      individuals_eq := by simp
      claims_eq := ⟨alternative, hmem, added, heq, hsub, subset_claims_addAll hactive⟩
      nodup := fun hnodup => nodup_claims_addAll alternative (by simpa using hnodup)
      consistent := fun hcons => Consistent.addAll (by simpa [Consistent] using hcons) hactive }

/-- What was claimed stays claimed. -/
theorem Follows.mem_claims {path later : Path} {fresh : Individual} {o : Obligation} {rule : Rule}
    (h : path.Follows fresh o rule later) {s : Signed} (hs : s ∈ path.claims) :
    s ∈ later.claims := by
  obtain ⟨-, -, added, heq, -, -⟩ := h.claims_eq
  rw [heq]
  exact List.mem_append_left added hs

/-- A claim keeps its place. -/
theorem Follows.getElem?_claims {path later : Path} {fresh : Individual} {o : Obligation}
    {rule : Rule} (h : path.Follows fresh o rule later) {place : Nat} {s : Signed}
    (hs : path.claims[place]? = some s) : later.claims[place]? = some s := by
  obtain ⟨-, -, added, heq, -, -⟩ := h.claims_eq
  have hlt : place < path.claims.length := (List.getElem?_eq_some_iff.1 hs).1
  rw [heq, List.getElem?_append_left hlt]
  exact hs

/-! ### What is pending

An obligation is a claim at its place, with an individual if the claim speaks of all of them. Places
tell claims apart that are the same, so what is shown here does not ask that no claim be on a path
twice. -/

end Path

/-- Whether a claim asks to be expanded for an individual, or once (`none`), on a path with the
given individuals. -/
def Signed.Calls (individuals : List Individual) (s : Signed) : Option Individual → Prop
  | some c => s.isGeneral = true ∧ c ∈ individuals
  | none => s.isGeneral = false ∧ s.isLiteral = false

/-- The obligations of a claim are what it calls for, at its place. -/
theorem Signed.mem_obligations_iff {individuals : List Individual} {place : Nat} {s : Signed}
    {o : Obligation} :
    o ∈ s.obligations individuals place ↔
      o.place = place ∧ o.claim = s ∧ s.Calls individuals o.individual := by
  obtain ⟨⟨p, individual⟩, claim⟩ := o
  unfold Signed.obligations Signed.Calls
  by_cases hg : s.isGeneral = true
  · simp only [hg, if_true, List.mem_map, Obligation.mk.injEq, Slot.mk.injEq]
    constructor
    · rintro ⟨c, hc, ⟨rfl, rfl⟩, rfl⟩
      exact ⟨rfl, rfl, trivial, hc⟩
    · rintro ⟨rfl, rfl, hcalls⟩
      cases individual with
      | none => simp at hcalls
      | some c => exact ⟨c, hcalls.2, ⟨rfl, rfl⟩, rfl⟩
  · by_cases hl : s.isLiteral = true
    · cases individual <;> simp [hg, hl]
    · cases individual <;> simp [hg, hl, and_comm]

/-- An obligation comes before another one: its claim came onto the path earlier, or the two are of
one claim and its individual was introduced earlier. -/
def Obligation.Precedes (individuals : List Individual) (o o' : Obligation) : Prop :=
  o.place < o'.place ∨ o.place = o'.place ∧
    ∃ c c', o.individual = some c ∧ o'.individual = some c' ∧ [c, c'].Sublist individuals

/-- An obligation that comes before another one is at an earlier place or at the same. -/
theorem Obligation.Precedes.place_le {individuals : List Individual} {o o' : Obligation}
    (h : o.Precedes individuals o') : o.place ≤ o'.place :=
  h.elim Nat.le_of_lt fun hsame => Nat.le_of_eq hsame.1

/-- The obligations of one claim come in the order of the individuals. -/
theorem Signed.pairwise_obligations (individuals : List Individual) (place : Nat) (s : Signed) :
    (s.obligations individuals place).Pairwise (Obligation.Precedes individuals) := by
  unfold Signed.obligations
  split
  · refine List.pairwise_map.2 (List.pairwise_iff_forall_sublist.2 fun {c c'} hsub => ?_)
    exact .inr ⟨rfl, c, c', rfl, rfl, hsub⟩
  · split
    · exact .nil
    · exact List.pairwise_singleton _ _

namespace Path

/-- A path is obliged to what each of its claims calls for. -/
theorem mem_obligations_iff {path : Path} {o : Obligation} :
    o ∈ path.obligations ↔
      path.claims[o.place]? = some o.claim ∧ o.claim.Calls path.individuals o.individual := by
  unfold obligations
  simp only [List.mem_flatMap, Signed.mem_obligations_iff, Prod.exists]
  constructor
  · rintro ⟨s, place, hmem, rfl, rfl, hcalls⟩
    exact ⟨List.mem_zipIdx_iff_getElem?.1 hmem, hcalls⟩
  · rintro ⟨hget, hcalls⟩
    exact ⟨o.claim, o.place, List.mem_zipIdx_iff_getElem?.2 hget, rfl, rfl, hcalls⟩

/-- The choice falls on the fork found before or on one of the obligations. -/
theorem pendingAmong_eq_some {rule? : Obligation → Option Rule} {among : List Obligation}
    {fork : Option (Obligation × Rule)} {o : Obligation} {rule : Rule}
    (h : pendingAmong rule? fork among = some (o, rule)) :
    fork = some (o, rule) ∨ o ∈ among ∧ rule? o = some rule := by
  fun_induction pendingAmong rule? fork among with
  | case1 fork => exact .inl h
  | case2 fork o' rest hnone ih =>
      rcases ih h with hfork | ⟨hmem, hrule⟩
      · exact .inl hfork
      · exact .inr ⟨List.mem_cons_of_mem o' hmem, hrule⟩
  | case3 fork o' rest rule' hsome hsplit ih =>
      rcases ih h with hfork | ⟨hmem, hrule⟩
      · rw [Option.or_eq_some_iff] at hfork
        rcases hfork with hfork | ⟨-, hnew⟩
        · exact .inl hfork
        · cases hnew
          exact .inr ⟨List.mem_cons_self, hsome⟩
      · exact .inr ⟨List.mem_cons_of_mem o' hmem, hrule⟩
  | case4 fork o' rest rule' hsome hsplit =>
      cases h
      exact .inr ⟨List.mem_cons_self, hsome⟩

/-- There is no choice only if no fork was found and no obligation has a rule. -/
theorem pendingAmong_eq_none {rule? : Obligation → Option Rule} {among : List Obligation}
    {fork : Option (Obligation × Rule)} (h : pendingAmong rule? fork among = none) :
    fork = none ∧ ∀ o ∈ among, rule? o = none := by
  fun_induction pendingAmong rule? fork among with
  | case1 fork => exact ⟨h, by simp⟩
  | case2 fork o rest hnone ih =>
      obtain ⟨hfork, hrest⟩ := ih h
      exact ⟨hfork, List.forall_mem_cons.2 ⟨hnone, hrest⟩⟩
  | case3 fork o rest rule hsome hsplit ih =>
      obtain ⟨hfork, -⟩ := ih h
      simp at hfork
  | case4 fork o rest rule hsome hsplit => cases h

/-- The choice among obligations that are changed one by one, where the rules change with them and
fork when they did before. -/
theorem pendingAmong_map {rule? rule?' : Obligation → Option Rule}
    {change : Obligation → Obligation} {changeRule : Rule → Rule}
    (hsplit : ∀ rule, (changeRule rule).isSplit = rule.isSplit)
    (hrule : ∀ o, rule?' (change o) = (rule? o).map changeRule)
    (fork : Option (Obligation × Rule)) (among : List Obligation) :
    pendingAmong rule?' (fork.map (Prod.map change changeRule)) (among.map change) =
      (pendingAmong rule? fork among).map (Prod.map change changeRule) := by
  induction among generalizing fork with
  | nil => rfl
  | cons o rest ih =>
      simp only [List.map_cons, pendingAmong, hrule]
      rcases rule? o with _ | rule
      · exact ih fork
      · simp only [Option.map_some, hsplit]
        split
        · rw [← ih, Option.map_or]
          rfl
        · rfl

/-- A pending obligation is one of the path, has not been expanded, and has the rule it is given
with. -/
theorem of_pending_eq_some {path : Path} {o : Obligation} {rule : Rule}
    (h : path.pending = some (o, rule)) :
    o ∈ path.obligations ∧ o.toSlot ∉ path.expanded ∧ o.rule? path.holds = some rule := by
  rw [pending_eq] at h
  rcases pendingAmong_eq_some h with hfork | ⟨hmem, hrule⟩
  · cases hfork
  · unfold openRule? at hrule
    split at hrule
    · cases hrule
    · next hexp => exact ⟨hmem, fun hin => hexp ((path.isExpanded_iff o.toSlot).2 hin), hrule⟩

/-- The first of several obligations whose rule is of some kind, with its rule. -/
def firstAmong (rule? : Obligation → Option Rule) (kind : Rule → Bool) (among : List Obligation) :
    Option (Obligation × Rule) :=
  among.findSome? fun o => ((rule? o).filter kind).map (o, ·)

/-- The choice falls on the first obligation whose rule does not fork, or else on the first whose
rule does. -/
theorem pendingAmong_eq_firstAmong (rule? : Obligation → Option Rule)
    (fork : Option (Obligation × Rule)) (among : List Obligation) :
    pendingAmong rule? fork among =
      (firstAmong rule? (!·.isSplit) among).or (fork.or (firstAmong rule? Rule.isSplit among)) := by
  fun_induction pendingAmong rule? fork among with
  | case1 fork => simp [firstAmong]
  | case2 fork o rest hnone ih => simpa [firstAmong, hnone] using ih
  | case3 fork o rest rule hsome hsplit ih =>
      simpa [firstAmong, hsome, hsplit, Option.filter, Option.or_assoc] using ih
  | case4 fork o rest rule hsome hsplit => simp [firstAmong, hsome, hsplit, Option.filter]

/-- The obligations of a path come in the order of their claims, and those of one claim in the order
in which the individuals were introduced. -/
theorem pairwise_obligations (path : Path) :
    path.obligations.Pairwise (Obligation.Precedes path.individuals) := by
  have hplaces : path.claims.zipIdx.Pairwise fun entry entry' => entry.2 < entry'.2 := by
    refine List.Pairwise.of_map Prod.snd (fun _ _ => id) ?_
    rw [List.zipIdx_map_snd]
    exact List.pairwise_lt_range'
  unfold obligations
  rw [List.pairwise_flatMap]
  refine ⟨fun entry _ => entry.1.pairwise_obligations path.individuals entry.2,
    hplaces.imp fun hlt o ho o' ho' => .inl ?_⟩
  rwa [place_of_mem_obligations ho, place_of_mem_obligations ho']

/-- An open obligation whose rule does not fork is pending unless another one like it is, at the
same place or an earlier one. -/
theorem exists_pending_of_openRule? {path : Path} {o : Obligation} {rule : Rule}
    (ho : o ∈ path.obligations) (hopen : path.openRule? o = some rule)
    (hsplit : rule.isSplit = false) :
    ∃ o' rule', path.pending = some (o', rule') ∧ rule'.isSplit = false ∧ o'.place ≤ o.place := by
  have hfirst : firstAmong path.openRule? (!·.isSplit) path.obligations ≠ none := by
    intro hnone
    have := List.findSome?_eq_none_iff.1 hnone o ho
    simp [hopen, hsplit, Option.filter] at this
  obtain ⟨⟨o', rule'⟩, hchoice⟩ := Option.ne_none_iff_exists'.1 hfirst
  obtain ⟨before, a, after, hamong, ha, hbefore⟩ := List.findSome?_eq_some_iff.1 hchoice
  obtain ⟨rule'', hfilter, heq⟩ := Option.map_eq_some_iff.1 ha
  cases heq
  refine ⟨o', rule', ?_, ?_, ?_⟩
  · rw [pending_eq, pendingAmong_eq_firstAmong, hchoice, Option.some_or]
  · simpa using (Option.filter_eq_some_iff.1 hfilter).2
  · -- nothing before the choice is open and does not fork, so it stands at the choice or behind it
    have hnot : o ∉ before := by
      intro hmem
      have := hbefore o hmem
      simp [hopen, hsplit, Option.filter] at this
    have hsorted := path.pairwise_obligations
    rw [hamong] at ho hsorted
    rcases List.mem_append.1 ho with hmem | hmem
    · exact absurd hmem hnot
    · rcases List.mem_cons.1 hmem with rfl | hafter
      · exact Nat.le_refl _
      · exact ((List.pairwise_cons.1 (List.pairwise_append.1 hsorted).2.1).1 o hafter).place_le

/-- If nothing is pending, each obligation has been expanded or is satisfied by the path. -/
theorem of_pending_eq_none {path : Path} (h : path.pending = none) {o : Obligation}
    (ho : o ∈ path.obligations) : o.toSlot ∈ path.expanded ∨ o.rule? path.holds = none := by
  rw [pending_eq] at h
  have hrule := (pendingAmong_eq_none h).2 o ho
  unfold openRule? at hrule
  split at hrule
  · next hexp => exact .inl ((path.isExpanded_iff o.toSlot).1 hexp)
  · exact .inr hrule

end Path

end TermLogic
