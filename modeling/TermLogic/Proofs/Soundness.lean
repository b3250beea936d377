import Mathlib.Logic.Basic
import Mathlib.Logic.Function.Basic
import TermLogic.Argument
import TermLogic.Proofs.Path.Rules
import TermLogic.Proofs.Tableau.Sharing
import TermLogic.Semantics

/-!
# Soundness

If the tableau of an argument closes, the conclusion is true wherever all premises are.

An interpretation that makes all claims of a run true goes on making all claims of some active
branch true, however far the run gets; so if there is an interpretation with true premises and a
false conclusion, the tableau cannot close.

* `Signed.HoldsAt`: truth of claims when only some individuals stand for members of the domain. The
  domain may be empty, so there need not be a member for every individual.
* `Signed.Adds.holdsAt`, `Signed.Forks.holdsAt` and so on: each rule makes true claims of true ones,
  or leaves one of its two sides true.
* `Path.TrueAt.next`: of a path that is true, a step makes a true one, once a member of the domain
  is chosen for the individual it introduces. It must stand for none yet.
* `inherited_satisfiable`: every step keeps a path that can be made true.
* `entails_of_outcome_eq_closed`: soundness.
-/

namespace TermLogic

universe u

variable {I : Interpretation.{u}} {member : Individual → Option I.Domain}

/-! ### Truth of claims and paths

A claim about an individual that stands for no member of the domain is true with neither sign. So
truth can be spoken of before all individuals have been introduced, and over an empty domain. -/

/-- Truth of a signed claim. A predication holds with either sign only of an individual that stands
for a member of the domain. -/
def Signed.HoldsAt (I : Interpretation.{u}) (member : Individual → Option I.Domain) (s : Signed) :
    Prop :=
  match s.claim with
  | .formula f => if s.sign then f.Holds I else ¬ f.Holds I
  | .predication c t =>
    ∃ d, member c = some d ∧ if s.sign then I.extension t d else ¬ I.extension t d

/-- An asserted formula holds if it is true. -/
@[simp]
theorem Signed.holdsAt_formula_true {f : Formula} :
    (Signed.formula true f).HoldsAt I member ↔ f.Holds I := Iff.rfl

/-- A denied formula holds if it is not true. -/
@[simp]
theorem Signed.holdsAt_formula_false {f : Formula} :
    (Signed.formula false f).HoldsAt I member ↔ ¬ f.Holds I := Iff.rfl

/-- No claim holds with both signs. -/
theorem Signed.HoldsAt.not_flip {s : Signed} (h : s.HoldsAt I member) :
    ¬ s.flip.HoldsAt I member := by
  obtain ⟨sign, claim⟩ := s
  intro hflip
  cases claim with
  | formula f => cases sign <;> simp_all [HoldsAt, flip]
  | predication c t =>
      obtain ⟨d, hd, hsign⟩ := h
      obtain ⟨d', hd', hsign'⟩ := hflip
      obtain rfl : d = d' := Option.some.inj (hd.symm.trans hd')
      cases sign <;> simp_all [flip]

/-- A claim goes on holding when further individuals are given members. -/
theorem Signed.HoldsAt.mono {s : Signed} {more : Individual → Option I.Domain}
    (hmore : ∀ c d, member c = some d → more c = some d) (h : s.HoldsAt I member) :
    s.HoldsAt I more := by
  obtain ⟨sign, claim⟩ := s
  cases claim with
  | formula f => exact h
  | predication c t =>
      obtain ⟨d, hd, hsign⟩ := h
      exact ⟨d, hmore c d hd, hsign⟩

/-- What a predication says of an individual that stands for `d`, whether or not its term begins
with complements. -/
theorem Signed.holdsAt_predication {sign : Bool} {c : Individual} {t : Term} {d : I.Domain}
    (hd : member c = some d) :
    (Signed.predication sign c t).HoldsAt I member ↔
      if sign then I.extension t d else ¬ I.extension t d := by
  simp only [HoldsAt, predication, hd, Option.some.injEq, exists_eq_left', I.extension_base]
  cases sign <;> cases t.isDenied <;> simp

/-- All claims of a path hold, and all its individuals stand for members of the domain. -/
structure Path.TrueAt (I : Interpretation.{u}) (member : Individual → Option I.Domain)
    (path : Path) : Prop where
  /-- The claims hold. -/
  claims : ∀ s ∈ path.claims, s.HoldsAt I member
  /-- The individuals have members. -/
  named : ∀ c ∈ path.individuals, ∃ d, member c = some d

/-- Adding true claims to a true path keeps it true, and does not close it. -/
theorem Path.TrueAt.addAll {path : Path} {claims : List Signed} (h : path.TrueAt I member)
    (hclaims : ∀ s ∈ claims, s.HoldsAt I member) :
    (path.addAll claims).state = .active ∧ (path.addAll claims).path.TrueAt I member := by
  fun_induction Path.addAll path claims with
  | case1 path => exact ⟨rfl, h⟩
  | case2 path s rest hs ih => exact ih h fun r hr => hclaims r (List.mem_cons_of_mem s hr)
  | case3 path s rest hs hflip =>
      have htrue : s.HoldsAt I member := hclaims s List.mem_cons_self
      exact absurd (h.claims s.flip ((path.holds_iff s.flip).1 hflip)) htrue.not_flip
  | case4 path s rest hs hflip ih =>
      refine ih ⟨?_, h.named⟩ fun r hr => hclaims r (List.mem_cons_of_mem s hr)
      intro r hr
      rw [Path.claims_push, List.mem_append, List.mem_singleton] at hr
      rcases hr with hr | rfl
      · exact h.claims r hr
      · exact hclaims r List.mem_cons_self

/-! ### Rules and truth

One lemma for each relation of rules, each by cases on the rules themselves. -/

namespace Signed

variable {s : Signed} {c : Individual} {d : I.Domain} {produced left right : List Signed}
  {known : Signed → Prop}

/-- What is added for a true claim is true. -/
theorem Adds.holdsAt (h : s.Adds produced) (hs : s.HoldsAt I member) :
    ∀ r ∈ produced, r.HoldsAt I member := by
  cases h with
  | negation sign f => cases sign <;> simpa [Formula.Holds] using hs
  | conjunction f g => simpa [Formula.Holds] using hs
  | disjunction f g => simpa [Formula.Holds] using hs
  | conditional f g => simpa [Formula.Holds] using hs
  | privation c t =>
      obtain ⟨d, hd, hext⟩ := hs
      refine List.forall_mem_singleton.2 ((holdsAt_predication hd).2 ?_)
      exact I.privation_disjoint t d hext

/-- Of a true claim that forks, one side is true. -/
theorem Forks.holdsAt (h : s.Forks left right) (hs : s.HoldsAt I member) :
    (∀ r ∈ left, r.HoldsAt I member) ∨ ∀ r ∈ right, r.HoldsAt I member := by
  cases h with
  | conjunction f g =>
      have hor : ¬ f.Holds I ∨ ¬ g.Holds I := not_and_or.1 hs
      simpa using hor
  | disjunction f g => simpa [Formula.Holds] using hs
  | conditional f g =>
      have hor : ¬ f.Holds I ∨ g.Holds I := imp_iff_not_or.1 hs
      simpa using hor
  | asserted f g => by_cases hf : f.Holds I <;> simp_all [Formula.Holds]
  | denied f g => by_cases hf : f.Holds I <;> simp_all [Formula.Holds]

/-- What a true claim introduces is true of some member of the domain. -/
theorem Introduces.exists_holdsAt (h : s.Introduces c produced) (hs : s.HoldsAt I member) :
    ∃ d, ∀ more : Individual → Option I.Domain, more c = some d →
      ∀ r ∈ produced, r.HoldsAt I more := by
  cases h with
  | universal t p =>
      have hsome : ∃ d, I.extension t d ∧ ¬ I.extension p d := by simpa [Formula.Holds] using hs
      obtain ⟨d, ht, hp⟩ := hsome
      exact ⟨d, fun more hd => by simp [holdsAt_predication hd, ht, hp]⟩
  | particular t p =>
      obtain ⟨d, ht, hp⟩ := hs
      exact ⟨d, fun more hd => by simp [holdsAt_predication hd, ht, hp]⟩
  | existential t =>
      obtain ⟨d, ht⟩ := hs
      exact ⟨d, fun more hd => by simp [holdsAt_predication hd, ht]⟩

/-- What a true claim about every individual says of one that stands for a member of the domain. -/
theorem AddsFor.holdsAt (h : s.AddsFor known c produced) (hs : s.HoldsAt I member)
    (hknown : ∀ r, known r → r.HoldsAt I member) (hd : member c = some d) :
    ∀ r ∈ produced, r.HoldsAt I member := by
  -- a known claim about the individual, as a fact about the member it stands for
  have hfact : ∀ {sign : Bool} {t : Term}, known (.predication sign c t) →
      if sign then I.extension t d else ¬ I.extension t d :=
    fun hr => (holdsAt_predication hd).1 (hknown _ hr)
  refine fun r hr => ?_
  cases h with
  | universal ht =>
      rw [List.mem_singleton.1 hr, holdsAt_predication hd]
      exact hs d (hfact ht)
  | universal_of_not hp =>
      rw [List.mem_singleton.1 hr, holdsAt_predication hd]
      exact fun ht => hfact hp (hs d ht)
  | particular ht =>
      rw [List.mem_singleton.1 hr, holdsAt_predication hd]
      exact fun hp => hs ⟨d, hfact ht, hp⟩
  | particular_of_second hp =>
      rw [List.mem_singleton.1 hr, holdsAt_predication hd]
      exact fun ht => hs ⟨d, ht, hfact hp⟩
  | existential t =>
      rw [List.mem_singleton.1 hr, holdsAt_predication hd]
      exact fun ht => hs ⟨d, ht⟩

/-- A true claim about every individual makes one side of its fork true. What is known already plays
no part in this; it only says when the fork is called for. -/
theorem ForksFor.holdsAt (h : s.ForksFor known c left right) (hs : s.HoldsAt I member)
    (hd : member c = some d) :
    (∀ r ∈ left, r.HoldsAt I member) ∨ ∀ r ∈ right, r.HoldsAt I member := by
  simp only [Signed.HoldsAt] at hs
  cases h with
  | universal ht hp =>
      rename_i t p
      have hor : ¬ I.extension t d ∨ I.extension p d := imp_iff_not_or.1 (hs d)
      simpa [holdsAt_predication hd] using hor
  | particular ht hp =>
      rename_i t p
      have hor : ¬ I.extension t d ∨ ¬ I.extension p d := not_and_or.1 fun hboth => hs ⟨d, hboth⟩
      simpa [holdsAt_predication hd] using hor

end Signed

/-! ### Steps and truth

A step may introduce an individual, for which a member has to be chosen then. The choice is free
because the individual stood for nothing before: individuals are numbered in the order in which they
come. -/

/-- One of the alternatives of a rule is true, once members are chosen for the individuals that it
introduces. The others stand for what they did. -/
def Rule.CanHold (I : Interpretation.{u}) (member : Individual → Option I.Domain)
    (fresh : Individual) (rule : Rule) : Prop :=
  ∃ more : Individual → Option I.Domain, (∀ c, c ∉ rule.newcomers fresh → more c = member c) ∧
    (∀ c ∈ rule.newcomers fresh, ∃ d, more c = some d) ∧
    ∃ alternative ∈ rule.alternatives fresh, ∀ s ∈ alternative, s.HoldsAt I more

/-- A rule that introduces nobody needs no further members. -/
theorem Rule.CanHold.of_mem {fresh : Individual} {rule : Rule} {alternative : List Signed}
    (hnobody : rule.newcomers fresh = []) (hmem : alternative ∈ rule.alternatives fresh)
    (h : ∀ s ∈ alternative, s.HoldsAt I member) : rule.CanHold I member fresh := by
  refine ⟨member, fun _ _ => rfl, fun c hc => ?_, alternative, hmem, h⟩
  rw [hnobody] at hc
  cases hc

/-- A fork can hold if one of its sides is true. -/
theorem Rule.CanHold.of_or {fresh : Individual} {left right : List Signed}
    (h : (∀ s ∈ left, s.HoldsAt I member) ∨ ∀ s ∈ right, s.HoldsAt I member) :
    (Rule.split left right).CanHold I member fresh := by
  rcases h with hleft | hright
  · exact .of_mem rfl List.mem_cons_self hleft
  · exact .of_mem rfl (List.mem_cons_of_mem _ List.mem_cons_self) hright

namespace Path

variable {path : Path} {o : Obligation} {rule : Rule} {fresh : Individual}
  {more : Individual → Option I.Domain}

/-- A true path on which a slot is expanded is true for every choice of members for the newcomers,
if these stood for nothing before. -/
theorem TrueAt.expand (h : path.TrueAt I member) {newcomers : List Individual}
    (hnone : ∀ c ∈ newcomers, member c = none) (hsame : ∀ c, c ∉ newcomers → more c = member c)
    (hnew : ∀ c ∈ newcomers, ∃ d, more c = some d) (slot : Slot) :
    (path.expand slot newcomers).TrueAt I more := by
  have hmore : ∀ c d, member c = some d → more c = some d := by
    intro c d hd
    rw [hsame c fun hc => by rw [hnone c hc] at hd; cases hd]
    exact hd
  refine ⟨fun s hs => (h.claims s hs).mono hmore, fun c hc => ?_⟩
  rcases List.mem_append.1 hc with hold | hc
  · obtain ⟨d, hd⟩ := h.named c hold
    exact ⟨d, hmore c d hd⟩
  · exact hnew c hc

/-- What is pending on a true path can hold, whoever is introduced. -/
theorem TrueAt.canHold (h : path.TrueAt I member) (hpending : path.pending = some (o, rule))
    (fresh : Individual) : rule.CanHold I member fresh := by
  obtain ⟨hclaim, hallowed⟩ := Path.allowed_of_pending hpending
  have htrue := h.claims _ hclaim
  rcases hindividual : o.individual with _ | c <;> rw [hindividual] at hallowed
  · cases rule with
    | linear produced => exact .of_mem rfl List.mem_cons_self (hallowed.holdsAt htrue)
    | split left right => exact .of_or (hallowed.holdsAt htrue)
    | witness terms =>
        obtain ⟨d, hd⟩ := (hallowed fresh).exists_holdsAt htrue
        have hnew : Function.update member fresh (some d) fresh = some d :=
          Function.update_self fresh _ member
        refine ⟨Function.update member fresh (some d), fun c hc => ?_, fun c hc => ?_, _,
          List.mem_cons_self, hd _ hnew⟩
        · exact Function.update_of_ne (fun heq => hc (List.mem_singleton.2 heq)) _ member
        · rw [List.mem_singleton.1 hc]
          exact ⟨d, hnew⟩
  · cases rule with
    | linear produced =>
        obtain ⟨d, hd⟩ := h.named c hallowed.2
        exact .of_mem rfl List.mem_cons_self
          (hallowed.1.holdsAt htrue (fun r hr => h.claims r hr) hd)
    | split left right =>
        obtain ⟨d, hd⟩ := h.named c hallowed.2
        exact .of_or (hallowed.1.holdsAt htrue hd)
    | witness terms => exact hallowed.elim

/-- Of a true path a step makes a true one, which stays active. -/
theorem TrueAt.next (h : path.TrueAt I member) (hpending : path.pending = some (o, rule))
    (hnone : ∀ c ∈ rule.newcomers fresh, member c = none) :
    ∃ more : Individual → Option I.Domain, (∀ c, c ∉ rule.newcomers fresh → more c = member c) ∧
      ∃ branch ∈ path.next fresh o rule, branch.state = .active ∧ branch.path.TrueAt I more := by
  obtain ⟨more, hsame, hnew, alternative, hmem, hholds⟩ := h.canHold hpending fresh
  obtain ⟨hactive, htrue⟩ := (h.expand hnone hsame hnew o.toSlot).addAll hholds
  exact ⟨more, hsame, _, List.mem_map_of_mem hmem, hactive, htrue⟩

end Path

/-! ### Runs

Satisfiability is handed on to some active branch of each step, and not to all: of the two sides of
a fork one may be false. A closed tableau has no active branch to hand it on to. -/

/-- A path that is true for some choice of members for the first `n` individuals. -/
def Path.Satisfiable (I : Interpretation.{u}) (n : Nat) (path : Path) : Prop :=
  ∃ member : Individual → Option I.Domain, path.TrueAt I member ∧ ∀ c, n < c → member c = none

/-- Every step hands satisfiability on to some active branch: one with a true alternative. -/
theorem inherited_satisfiable (I : Interpretation.{u}) : Inherited (Path.Satisfiable I) where
  mono := by
    rintro n m path hnm ⟨member, htrue, hnone⟩
    exact ⟨member, htrue, fun c hc => hnone c (Nat.lt_of_le_of_lt hnm hc)⟩
  step := by
    rintro n path o rule ⟨member, htrue, hnone⟩ hpending
    obtain ⟨more, hsame, branch, hbranch, hactive, hlater⟩ :=
      htrue.next hpending fun c hc => hnone c (Rule.mem_newcomers hc).1
    refine ⟨branch, hbranch, hactive, more, hlater, fun c hc => ?_⟩
    have hold : c ∉ rule.newcomers (n + 1) :=
      fun hmem => Nat.not_le.2 hc (Rule.mem_newcomers hmem).2
    rw [hsame c hold]
    exact hnone c (Nat.lt_of_le_of_lt (Nat.le_add_right _ _) hc)

/-- A run from claims that are true in an interpretation does not close. -/
theorem outcome_ne_closed_of_holds {seed : List Signed} (trace : Option Trace) (bound : Nat)
    (h : ∀ s ∈ seed, s.HoldsAt I fun _ => none) :
    ((Tableau.ofSeed seed trace).run bound).outcome ≠ .closed := by
  intro hclosed
  obtain ⟨saturated, copy, hrounds, houtcome, -⟩ := Tableau.mirrors_run seed trace bound
  obtain ⟨rfl, hnone⟩ := Copying.of_outcome_eq_closed (houtcome.symm.trans hclosed)
  have hempty : (⟨[], [], []⟩ : Path).TrueAt I fun _ => none := ⟨by simp, by simp⟩
  obtain ⟨hactive, htrue⟩ := hempty.addAll h
  have hstart : Inherited.OnSome (Path.Satisfiable I) (Copying.ofSeed seed) := by
    refine ⟨0, (Path.addAll ⟨[], [], []⟩ seed).path, ?_, _, htrue, fun _ _ => rfl⟩
    rw [Copying.branches_ofSeed, ← hactive]
    rfl
  obtain ⟨b, path, hb, -⟩ := (inherited_satisfiable I).onSome_rounds bound hstart hrounds
  exact hnone b path hb

/-- **Soundness.** If the tableau of an argument closes, the conclusion is true in every
interpretation that makes all premises true. -/
theorem entails_of_outcome_eq_closed (config : Config) (argument : Argument) (trace : Option Trace)
    (h : (argument.run config trace).outcome = .closed) :
    Entails.{u} argument.premises argument.conclusion := by
  intro I hpremises
  apply Classical.byContradiction
  intro hconclusion
  have hseed : ∀ s ∈ argument.seed, s.HoldsAt I fun _ => none := by
    intro s hs
    rw [Argument.seed, List.mem_append, List.mem_singleton] at hs
    rcases hs with hs | rfl
    · obtain ⟨f, hf, rfl⟩ := List.mem_map.1 hs
      exact hpremises f hf
    · exact hconclusion
  exact outcome_ne_closed_of_holds trace config.bound hseed h

/-- The argument "all `M` are `P`, all `S` are `M`, so all `S` are `P`" closes, and so is valid. -/
theorem entails_barbara :
    ((Argument.mk [.universal (.atom "M") (.atom "P"), .universal (.atom "S") (.atom "M")]
      (.universal (.atom "S") (.atom "P"))).run .standard none).outcome = .closed ∧
    Entails.{0} [.universal (.atom "M") (.atom "P"), .universal (.atom "S") (.atom "M")]
      (.universal (.atom "S") (.atom "P")) :=
  ⟨by decide +kernel, entails_of_outcome_eq_closed .standard
    ⟨[.universal (.atom "M") (.atom "P"), .universal (.atom "S") (.atom "M")],
      .universal (.atom "S") (.atom "P")⟩ none (by decide +kernel)⟩

end TermLogic
