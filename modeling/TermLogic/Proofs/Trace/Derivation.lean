import Mathlib.Data.List.Induction
import Mathlib.Logic.Function.Basic
import TermLogic.Proofs.Path.Rules
import TermLogic.Trace

/-!
# Derivations

When a list of events is the record of a tableau, said without a tableau: the events are replayed,
and each of them has to be allowed by the rules after those before it.

* `Replay`, `replay`: the branches that events make, and what they record on each of them and on the
  branches above it.
* `Replay.Puts`, `Replay.Grows`: the two things that an event can do to the branches.
* `exists_mem_of_mentions`: whoever is on a branch occurs in an event.
* `Admitted`: an event is allowed after others. `Derivation`: each event is, after those before it.
* `Forked`, `Shut`: branches that events fork and close.
-/

namespace TermLogic

/-! ### Claims that introduce

An event does not say whether its individual is a new one. Its claim does, since rules introduce
individuals for claims of one kind only. -/

namespace Signed

/-- Whether a claim says that there is something of a sort. -/
def isWitnessed (s : Signed) : Bool :=
  match s.claim with
  | .formula (.universal _ _) => !s.sign
  | .formula (.particular _ _) | .formula (.existential _) => s.sign
  | _ => false

variable {known : Signed → Prop} {c : Individual} {s : Signed} {produced : List Signed}

/-- The rules that add claims once are for claims that introduce nobody. -/
theorem Adds.isWitnessed_eq (h : s.Adds produced) : s.isWitnessed = false := by
  cases h <;> rfl

/-- The rules that introduce an individual are for claims that there is something of a sort. By this
an event shows whether its individual is a new one. -/
theorem Introduces.isWitnessed_eq (h : s.Introduces c produced) : s.isWitnessed = true := by
  cases h <;> rfl

/-- Claims about every individual introduce nobody: the individual in their events is an old one. -/
theorem AddsFor.isWitnessed_eq (h : s.AddsFor known c produced) : s.isWitnessed = false := by
  cases h <;> rfl

end Signed

/-! ### Individuals in events

Individuals are followed through events, so that it can be said of a new one that nothing has
mentioned it before. -/

/-- The individuals that a claim speaks of. -/
def Claim.individuals : Claim → List Individual
  | formula _ => []
  | predication c _ => [c]

/-- A predication speaks of its individual. -/
@[simp]
theorem Claim.individuals_predication (c : Individual) (t : Term) :
    (predication c t).individuals = [c] := rfl

/-- The individuals that several signed claims speak of. -/
def Signed.individualsOf (claims : List Signed) : List Individual :=
  claims.flatMap fun s => s.claim.individuals

/-- The individuals that occur in an event. -/
def Event.individuals : Event → List Individual
  | seeded _ s => s.claim.individuals
  | expanded _ _ consumed individual produced =>
    consumed.claim.individuals ++ individual.toList ++ Signed.individualsOf produced
  | split _ _ consumed individual children =>
    consumed.claim.individuals ++ individual.toList ++
      children.flatMap fun child => Signed.individualsOf child.2
  | closed _ claim => claim.individuals
  | saturated _ | exhausted _ | status _ _ => []

/-- The individuals that an event introduces. -/
def Event.newcomers : Event → List Individual
  | expanded _ _ consumed individual _ => if consumed.isWitnessed then individual.toList else []
  | _ => []

/-- Whoever is introduced in an event occurs in it. -/
theorem Event.newcomers_subset (event : Event) : event.newcomers ⊆ event.individuals := by
  cases event with
  | expanded round b consumed individual produced =>
      simp only [newcomers]
      split
      · intro c hc
        exact List.mem_append_left _ (List.mem_append_right _ hc)
      · exact List.nil_subset _
  | _ => exact List.nil_subset _

namespace Signed

variable {known : Signed → Prop} {c : Individual} {s : Signed} {produced left right : List Signed}

/-- A formula speaks of no individual by name. -/
@[simp]
theorem individuals_formula (sign : Bool) (f : Formula) :
    (Signed.formula sign f).claim.individuals = [] := rfl

/-- A predication speaks of its individual, whatever complements have been taken off its term. -/
@[simp]
theorem individuals_predication (sign : Bool) (c : Individual) (t : Term) :
    (Signed.predication sign c t).claim.individuals = [c] := rfl

/-- What is added for a claim that is expanded once speaks of nobody the claim does not speak of. -/
theorem Adds.individuals (h : s.Adds produced) :
    individualsOf produced ⊆ s.claim.individuals := by
  cases h <;> simp [individualsOf]

/-- The claims that fork once are formulas, and so are the claims on both sides. -/
theorem Forks.individuals (h : s.Forks left right) :
    s.claim.individuals = [] ∧ individualsOf left = [] ∧ individualsOf right = [] := by
  cases h <;> simp [individualsOf]

/-- A claim that introduces an individual speaks of none itself, and what is added speaks of the new
one alone. -/
theorem Introduces.individuals (h : s.Introduces c produced) :
    s.claim.individuals = [] ∧ individualsOf produced ⊆ [c] := by
  cases h <;> simp [individualsOf]

/-- A claim about every individual names none, and what it adds speaks of the one it is applied
to. -/
theorem AddsFor.individuals (h : s.AddsFor known c produced) :
    s.claim.individuals = [] ∧ individualsOf produced ⊆ [c] := by
  cases h <;> simp [individualsOf]

/-- A claim about every individual names none, and both sides of its fork speak of the one it is
applied to. -/
theorem ForksFor.individuals (h : s.ForksFor known c left right) :
    s.claim.individuals = [] ∧ individualsOf left ⊆ [c] ∧ individualsOf right ⊆ [c] := by
  cases h <;> simp [individualsOf]

end Signed

/-! ### Replay

A replay knows nothing of tableaux. It reads events one by one and keeps, for each branch that has
come up, the claims and individuals on it, with those of the branches above. -/

/-- What events have made of branches. -/
structure Replay where
  /-- The branches that are there. -/
  branches : List BranchId
  /-- The claims on a branch and the branches above it. -/
  claims : BranchId → List Signed
  /-- The individuals introduced on a branch and the branches above it. -/
  individuals : BranchId → List Individual

namespace Replay

/-- Before any event there is an empty root. -/
def start : Replay :=
  ⟨[0], fun _ => [], fun _ => []⟩

/-- Records claims on a branch. -/
def put (r : Replay) (b : BranchId) (claims : List Signed) : Replay :=
  { r with claims := Function.update r.claims b (r.claims b ++ claims) }

/-- Records individuals on a branch. -/
def name (r : Replay) (b : BranchId) (individuals : List Individual) : Replay :=
  { r with individuals := Function.update r.individuals b (r.individuals b ++ individuals) }

/-- Makes a branch below another one. -/
def grow (r : Replay) (b child : BranchId) (claims : List Signed) : Replay where
  branches := r.branches ++ [child]
  claims := Function.update r.claims child (r.claims b ++ claims)
  individuals := Function.update r.individuals child (r.individuals b)

/-- What an event makes of the branches. -/
def after (r : Replay) : Event → Replay
  | .seeded b s => r.put b [s]
  | .expanded round b consumed individual produced =>
    (r.name b (Event.expanded round b consumed individual produced).newcomers).put b produced
  | .split _ b _ _ children => children.foldl (fun r child => r.grow b child.1 child.2) r
  | .closed _ _ | .saturated _ | .exhausted _ | .status _ _ => r

/-- The branch is there and the claim is on it or on a branch above it. -/
def Records (r : Replay) (b : BranchId) (s : Signed) : Prop :=
  b ∈ r.branches ∧ s ∈ r.claims b

/-- Two branches that are not there yet. -/
def Unused (r : Replay) (first second : BranchId) : Prop :=
  first ∉ r.branches ∧ second ∉ r.branches ∧ first ≠ second

variable {r : Replay} {b b' child first second : BranchId} {claims left right : List Signed}

/-- What is on a branch after claims have been recorded on one. -/
@[simp]
theorem mem_claims_put {s : Signed} :
    s ∈ (r.put b' claims).claims b ↔ s ∈ r.claims b ∨ b = b' ∧ s ∈ claims := by
  simp only [put, Function.update_apply]
  split
  · next heq =>
    subst heq
    simp
  · next hne => simp [hne]

/-- Who is on a branch after individuals have been recorded on one. -/
@[simp]
theorem mem_individuals_name {c : Individual} {individuals : List Individual} :
    c ∈ (r.name b' individuals).individuals b ↔
      c ∈ r.individuals b ∨ b = b' ∧ c ∈ individuals := by
  simp only [name, Function.update_apply]
  split
  · next heq =>
    subst heq
    simp
  · next hne => simp [hne]

/-- Which branches are there after one more has grown. -/
@[simp]
theorem mem_branches_grow :
    b' ∈ (r.grow b child claims).branches ↔ b' ∈ r.branches ∨ b' = child := by
  simp [grow]

/-- A new branch starts with what is on the one it grows from. -/
@[simp]
theorem claims_grow_self : (r.grow b child claims).claims child = r.claims b ++ claims := by
  simp [grow]

/-- A new branch starts with the individuals of the one it grows from. -/
@[simp]
theorem individuals_grow_self : (r.grow b child claims).individuals child = r.individuals b := by
  simp [grow]

/-- A new branch leaves the others as they are. -/
theorem claims_grow_of_ne (h : b' ≠ child) : (r.grow b child claims).claims b' = r.claims b' := by
  simp [grow, h]

/-- A new branch leaves the individuals of the others as they are. -/
theorem individuals_grow_of_ne (h : b' ≠ child) :
    (r.grow b child claims).individuals b' = r.individuals b' := by
  simp [grow, h]

/-- No branch goes away. -/
theorem mem_branches_after (event : Event) (h : b ∈ r.branches) : b ∈ (r.after event).branches := by
  cases event with
  | split round b' consumed individual children =>
      simp only [after]
      induction children generalizing r with
      | nil => exact h
      | cons child rest ih => exact ih (mem_branches_grow.2 (.inl h))
  | _ => exact h

/-- Claims and individuals come onto a branch, and nothing else changes. -/
structure Puts (r later : Replay) (b : BranchId) (claims : List Signed)
    (individuals : List Individual) : Prop where
  /-- The branches are the same. -/
  branches_eq : later.branches = r.branches
  /-- The claims have come onto the branch. -/
  mem_claims : ∀ b' s, s ∈ later.claims b' ↔ s ∈ r.claims b' ∨ b' = b ∧ s ∈ claims
  /-- The individuals have come onto the branch. -/
  mem_individuals : ∀ b' c,
    c ∈ later.individuals b' ↔ c ∈ r.individuals b' ∨ b' = b ∧ c ∈ individuals

/-- A claim that a run starts from comes onto its branch. -/
theorem puts_seeded (r : Replay) (b : BranchId) (s : Signed) :
    r.Puts (r.after (.seeded b s)) b [s] [] where
  branches_eq := rfl
  mem_claims _ _ := mem_claims_put
  mem_individuals _ _ := by simp [after, put]

/-- An expansion puts what it produces onto its branch, and the individual it introduces, if any. -/
theorem puts_expanded (r : Replay) (round : Nat) (b : BranchId) (s : Signed)
    (individual : Option Individual) (produced : List Signed) :
    r.Puts (r.after (.expanded round b s individual produced)) b produced
      (Event.expanded round b s individual produced).newcomers where
  branches_eq := rfl
  mem_claims _ _ := mem_claims_put
  mem_individuals _ _ := mem_individuals_name

/-- A branch grows into two new ones, and nothing else changes. -/
structure Grows (r later : Replay) (b first second : BranchId) (left right : List Signed) :
    Prop where
  /-- The two branches are there. -/
  mem_branches : ∀ b', b' ∈ later.branches ↔ (b' ∈ r.branches ∨ b' = first) ∨ b' = second
  /-- The first one starts with the claims on the branch and those of the left side. -/
  claims_first : later.claims first = r.claims b ++ left
  /-- The second one starts with the claims on the branch and those of the right side. -/
  claims_second : later.claims second = r.claims b ++ right
  /-- The claims on the others are the same. -/
  claims_of_ne : ∀ b', b' ≠ first → b' ≠ second → later.claims b' = r.claims b'
  /-- The first one has the individuals of the branch. -/
  individuals_first : later.individuals first = r.individuals b
  /-- The second one has the individuals of the branch. -/
  individuals_second : later.individuals second = r.individuals b
  /-- The individuals of the others are the same. -/
  individuals_of_ne : ∀ b', b' ≠ first → b' ≠ second → later.individuals b' = r.individuals b'

/-- A fork lets two branches grow, each with the claims for its side, provided both numbers are
unused. -/
theorem grows_split (hb : b ∈ r.branches) (hunused : r.Unused first second) (round : Nat)
    (s : Signed) (individual : Option Individual) (left right : List Signed) :
    r.Grows (r.after (.split round b s individual [(first, left), (second, right)])) b first second
      left right := by
  obtain ⟨hfirst, hsecond, hne⟩ := hunused
  have hb' : b ≠ first := fun heq => hfirst (heq ▸ hb)
  simp only [after, List.foldl_cons, List.foldl_nil]
  refine ⟨fun _ => ?_, ?_, ?_, fun _ h h' => ?_, ?_, ?_, fun _ h h' => ?_⟩
  · rw [mem_branches_grow, mem_branches_grow]
  · rw [claims_grow_of_ne hne, claims_grow_self]
  · rw [claims_grow_self, claims_grow_of_ne hb']
  · rw [claims_grow_of_ne h', claims_grow_of_ne h]
  · rw [individuals_grow_of_ne hne, individuals_grow_self]
  · rw [individuals_grow_self, individuals_grow_of_ne hb']
  · rw [individuals_grow_of_ne h', individuals_grow_of_ne h]

/-- An individual occurs in what is on some branch. -/
def Mentions (r : Replay) (c : Individual) : Prop :=
  ∃ b, (∃ s ∈ r.claims b, c ∈ s.claim.individuals) ∨ c ∈ r.individuals b

variable {c : Individual}

/-- Recording claims brings in nobody but those the claims speak of. -/
theorem Mentions.of_put (h : (r.put b' claims).Mentions c) :
    r.Mentions c ∨ c ∈ Signed.individualsOf claims := by
  obtain ⟨b, ⟨s, hs, hc⟩ | hc⟩ := h
  · rcases mem_claims_put.1 hs with hold | ⟨-, hnew⟩
    · exact .inl ⟨b, .inl ⟨s, hold, hc⟩⟩
    · exact .inr (List.mem_flatMap.2 ⟨s, hnew, hc⟩)
  · exact .inl ⟨b, .inr hc⟩

/-- Recording individuals brings in nobody else. -/
theorem Mentions.of_name {individuals : List Individual} (h : (r.name b' individuals).Mentions c) :
    r.Mentions c ∨ c ∈ individuals := by
  obtain ⟨b, hs | hc⟩ := h
  · exact .inl ⟨b, .inl hs⟩
  · rcases mem_individuals_name.1 hc with hold | ⟨-, hnew⟩
    · exact .inl ⟨b, .inr hold⟩
    · exact .inr hnew

/-- A new branch brings in nobody but those its own claims speak of. -/
theorem Mentions.of_grow (h : (r.grow b' child claims).Mentions c) :
    r.Mentions c ∨ c ∈ Signed.individualsOf claims := by
  obtain ⟨b, h⟩ := h
  by_cases hb : b = child
  · subst hb
    rw [claims_grow_self, individuals_grow_self] at h
    rcases h with ⟨s, hs, hc⟩ | hc
    · rcases List.mem_append.1 hs with hold | hnew
      · exact .inl ⟨b', .inl ⟨s, hold, hc⟩⟩
      · exact .inr (List.mem_flatMap.2 ⟨s, hnew, hc⟩)
    · exact .inl ⟨b', .inr hc⟩
  · rw [claims_grow_of_ne hb, individuals_grow_of_ne hb] at h
    exact .inl ⟨b, h⟩

/-- What an event brings onto branches is in the event. -/
theorem Mentions.of_after {event : Event} (h : (r.after event).Mentions c) :
    r.Mentions c ∨ c ∈ event.individuals := by
  cases event with
  | seeded b' s => simpa [Signed.individualsOf, Event.individuals] using h.of_put
  | expanded round b' consumed individual produced =>
      rcases h.of_put with hold | hnew
      · exact hold.of_name.imp_right fun hnew => Event.newcomers_subset _ hnew
      · exact .inr (List.mem_append_right _ hnew)
  | split round b' consumed individual children =>
      have hchildren : r.Mentions c ∨ ∃ child ∈ children, c ∈ Signed.individualsOf child.2 := by
        simp only [after] at h
        induction children generalizing r with
        | nil => exact .inl h
        | cons child rest ih =>
            rcases ih h with hgrow | ⟨other, hother, hc⟩
            · rcases hgrow.of_grow with hold | hnew
              · exact .inl hold
              · exact .inr ⟨child, List.mem_cons_self, hnew⟩
            · exact .inr ⟨other, List.mem_cons_of_mem _ hother, hc⟩
      rcases hchildren with hold | hnew
      · exact .inl hold
      · exact .inr (List.mem_append_right _ (List.mem_flatMap.2 hnew))
  | _ => exact .inl h

end Replay

/-- What events have made of branches, from the start. -/
def replay (events : List Event) : Replay :=
  events.foldl Replay.after .start

/-- Without events there is the empty root. -/
@[simp]
theorem replay_nil : replay [] = .start := rfl

/-- The last event acts on what the earlier ones have made. -/
@[simp]
theorem replay_concat (events : List Event) (event : Event) :
    replay (events ++ [event]) = (replay events).after event := by
  simp [replay]

/-- Individuals come onto branches only by events. -/
theorem exists_mem_of_mentions {events : List Event} {c : Individual}
    (h : (replay events).Mentions c) : ∃ event ∈ events, c ∈ event.individuals := by
  induction events using List.reverseRecOn with
  | nil => simp [Replay.Mentions, Replay.start] at h
  | append_singleton events event ih =>
      rw [replay_concat] at h
      rcases h.of_after with hold | hnew
      · obtain ⟨earlier, hmem, hc⟩ := ih hold
        exact ⟨earlier, List.mem_append_left _ hmem, hc⟩
      · exact ⟨event, List.mem_append_right _ List.mem_cons_self, hnew⟩

/-! ### Derivations

Whether an event is allowed is judged by the events before it and the rules, and by nothing else:
neither a tableau nor the order in which obligations are taken comes into it. -/

/-- An event is allowed after the events `before`, in a run from the claims `seed`. -/
inductive Admitted (seed : List Signed) (before : List Event) : Event → Prop where
  /-- A claim the run starts from is on the root. -/
  | seeded {s : Signed} : s ∈ seed → Admitted seed before (.seeded 0 s)
  /-- A claim on the branch is expanded. -/
  | expanded {round : Nat} {b : BranchId} {s : Signed} {produced : List Signed} :
      (replay before).Records b s → s.Adds produced →
      Admitted seed before (.expanded round b s none produced)
  /-- A claim on the branch introduces an individual that no event has mentioned. -/
  | introduced {round : Nat} {b : BranchId} {s : Signed} {c : Individual}
      {produced : List Signed} :
      (replay before).Records b s → s.Introduces c produced →
      (∀ event ∈ before, c ∉ event.individuals) →
      Admitted seed before (.expanded round b s (some c) produced)
  /-- A claim on the branch is applied to an individual that was introduced on it or above it. -/
  | applied {round : Nat} {b : BranchId} {s : Signed} {c : Individual} {produced : List Signed} :
      (replay before).Records b s → s.AddsFor ((replay before).Records b) c produced →
      c ∈ (replay before).individuals b →
      Admitted seed before (.expanded round b s (some c) produced)
  /-- A claim on the branch forks it. -/
  | forked {round : Nat} {b first second : BranchId} {s : Signed} {left right : List Signed} :
      (replay before).Records b s → s.Forks left right → (replay before).Unused first second →
      Admitted seed before (.split round b s none [(first, left), (second, right)])
  /-- A claim on the branch forks it for an individual that was introduced on it or above it. -/
  | forkedFor {round : Nat} {b first second : BranchId} {s : Signed} {c : Individual}
      {left right : List Signed} :
      (replay before).Records b s → s.ForksFor ((replay before).Records b) c left right →
      c ∈ (replay before).individuals b → (replay before).Unused first second →
      Admitted seed before (.split round b s (some c) [(first, left), (second, right)])
  /-- The branch has a claim with both signs. -/
  | closed {b : BranchId} {claim : Claim} :
      (replay before).Records b ⟨true, claim⟩ → (replay before).Records b ⟨false, claim⟩ →
      Admitted seed before (.closed b claim)
  /-- Nothing is said of when a branch is saturated. -/
  | saturated (b : BranchId) : Admitted seed before (.saturated b)
  /-- Nothing is said of when the bound is used up. -/
  | exhausted (active : Nat) : Admitted seed before (.exhausted active)
  /-- Nothing is said of the endings. -/
  | status (b : BranchId) (ending : Status) : Admitted seed before (.status b ending)

/-- A branch with a claim and its opposite may close on it. -/
theorem Admitted.closed_of_flip {seed : List Signed} {before : List Event} {b : BranchId}
    {s : Signed} (h : (replay before).Records b s) (hflip : (replay before).Records b s.flip) :
    Admitted seed before (.closed b s.claim) := by
  obtain ⟨sign, claim⟩ := s
  cases sign with
  | true => exact .closed h hflip
  | false => exact .closed hflip h

/-- Each event is allowed after those before it. -/
def Derivation (seed : List Signed) (events : List Event) : Prop :=
  ∀ before event after, events = before ++ event :: after → Admitted seed before event

/-- The events fork the branch. -/
def Forked (events : List Event) (b : BranchId) : Prop :=
  ∃ round consumed individual children,
    .split round b consumed individual children ∈ events

/-- The events close the branch. -/
def Shut (events : List Event) (b : BranchId) : Prop :=
  ∃ claim, .closed b claim ∈ events

variable {seed : List Signed} {events : List Event} {event : Event}

/-- Without events there is nothing that the rules would have to allow. -/
theorem derivation_nil (seed : List Signed) : Derivation seed [] := by
  intro before event after h
  simp at h

/-- An event that is allowed goes on with a derivation. -/
theorem Derivation.concat (h : Derivation seed events) (hevent : Admitted seed events event) :
    Derivation seed (events ++ [event]) := by
  intro before next after heq
  rcases List.eq_nil_or_concat after with rfl | ⟨others, last, rfl⟩
  · obtain ⟨rfl, hlast⟩ := List.append_inj' heq rfl
    cases hlast
    exact hevent
  · have hinit : events ++ [event] = (before ++ next :: others) ++ [last] := by
      rw [heq]
      simp
    exact h before next others (List.append_inj' hinit rfl).1

/-- The beginning of a derivation is one. -/
theorem Derivation.init (h : Derivation seed (events ++ [event])) :
    Derivation seed events ∧ Admitted seed events event := by
  refine ⟨fun before next after heq => ?_, h events event [] rfl⟩
  refine h before next (after ++ [event]) ?_
  rw [heq]
  simp

/-- A branch that has forked has forked, whatever is recorded later. -/
theorem Forked.append {b : BranchId} (h : Forked events b) (more : List Event) :
    Forked (events ++ more) b := by
  obtain ⟨round, consumed, individual, children, hmem⟩ := h
  exact ⟨round, consumed, individual, children, List.mem_append_left more hmem⟩

/-- A branch that has closed has closed, whatever is recorded later. -/
theorem Shut.append {b : BranchId} (h : Shut events b) (more : List Event) :
    Shut (events ++ more) b := by
  obtain ⟨claim, hmem⟩ := h
  exact ⟨claim, List.mem_append_left more hmem⟩

/-- A branch has forked before the last event or in it. -/
theorem forked_concat_iff {b : BranchId} :
    Forked (events ++ [event]) b ↔ Forked events b ∨ Forked [event] b := by
  simp only [Forked, List.mem_append, exists_or]

/-- A branch has closed before the last event or in it. -/
theorem shut_concat_iff {b : BranchId} :
    Shut (events ++ [event]) b ↔ Shut events b ∨ Shut [event] b := by
  simp only [Shut, List.mem_append, exists_or]

/-- Only branches that are there are forked or closed. -/
theorem Derivation.mem_branches {b : BranchId} (h : Derivation seed events)
    (hb : Forked events b ∨ Shut events b) : b ∈ (replay events).branches := by
  induction events using List.reverseRecOn with
  | nil => simp [Forked, Shut] at hb
  | append_singleton events event ih =>
      obtain ⟨hbefore, hevent⟩ := h.init
      rw [replay_concat]
      refine Replay.mem_branches_after event ?_
      rw [forked_concat_iff, shut_concat_iff, or_or_or_comm] at hb
      rcases hb with hold | hnew
      · exact ih hbefore hold
      · simp only [Forked, Shut, List.mem_singleton] at hnew
        rcases hnew with ⟨round, consumed, individual, children, rfl⟩ | ⟨claim, rfl⟩
        · cases hevent with
          | forked hs _ _ => exact hs.1
          | forkedFor hs _ _ _ => exact hs.1
        · cases hevent with
          | closed hs _ => exact hs.1

/-- An individual occurs in an event only if it occurred before, in an earlier event or in a claim
the run starts from, or if the event introduces it. -/
theorem Admitted.individuals {c : Individual} (h : Admitted seed events event)
    (hc : c ∈ event.individuals) :
    (∃ earlier ∈ events, c ∈ earlier.individuals) ∨ (∃ s ∈ seed, c ∈ s.claim.individuals) ∨
      c ∈ event.newcomers := by
  have hclaim : ∀ {b : BranchId} {s : Signed}, (replay events).Records b s →
      c ∈ s.claim.individuals → ∃ earlier ∈ events, c ∈ earlier.individuals :=
    fun hs hc => exists_mem_of_mentions ⟨_, .inl ⟨_, hs.2, hc⟩⟩
  have hnamed : ∀ {b : BranchId} {d : Individual}, d ∈ (replay events).individuals b → c ∈ [d] →
      ∃ earlier ∈ events, c ∈ earlier.individuals := by
    intro b d hd hc
    rw [List.mem_singleton.1 hc]
    exact exists_mem_of_mentions ⟨b, .inr hd⟩
  cases h with
  | seeded hs => exact .inr (.inl ⟨_, hs, hc⟩)
  | expanded hs hadds =>
      left
      simp only [Event.individuals, Option.toList_none, List.append_nil, List.mem_append] at hc
      rcases hc with hc | hc
      · exact hclaim hs hc
      · exact hclaim hs (hadds.individuals hc)
  | introduced hs hintroduces hnew =>
      obtain ⟨hnone, hsub⟩ := hintroduces.individuals
      simp only [Event.individuals, hnone, Option.toList_some, List.nil_append,
        List.mem_append] at hc
      obtain rfl := List.mem_singleton.1 (hc.elim id (hsub ·))
      right; right
      simp [Event.newcomers, hintroduces.isWitnessed_eq]
  | applied hs hadds hd =>
      left
      obtain ⟨hnone, hsub⟩ := hadds.individuals
      simp only [Event.individuals, hnone, Option.toList_some, List.nil_append,
        List.mem_append] at hc
      exact hnamed hd (hc.elim id (hsub ·))
  | forked hs hforks hunused =>
      obtain ⟨hnone, hleft, hright⟩ := hforks.individuals
      simp [Event.individuals, hnone, hleft, hright] at hc
  | forkedFor hs hforks hd hunused =>
      left
      obtain ⟨hnone, hleft, hright⟩ := hforks.individuals
      simp only [Event.individuals, hnone, Option.toList_some, List.nil_append, List.mem_append,
        List.flatMap_cons, List.flatMap_nil, List.append_nil] at hc
      rcases hc with hc | hc | hc
      · exact hnamed hd hc
      · exact hnamed hd (hleft hc)
      · exact hnamed hd (hright hc)
  | closed htrue hfalse => exact .inl (hclaim htrue hc)
  | saturated b => cases hc
  | exhausted active => cases hc
  | status b ending => cases hc

end TermLogic
