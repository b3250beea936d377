import TermLogic.Proofs.Trace.Derivation
import TermLogic.Tableau.Basic

/-!
# Events in order

The events of a run are read here only for which branches there are and how they end. Read one after
the other they give every branch a state, and they are in order if only active branches act and
branches are numbered on as they arise.

* `Event.actor?`, `Event.ending?`, `Event.offspring`: the branch that acts in an event, the state in
  which the event leaves a branch for good, and the branches that it makes.
* `roster`: the states of all branches after some events.
* `Orderly`: events in order.
* `Orderly.length_roster`, `Orderly.offspring_eq`: how many branches there are and their numbers.
* `Orderly.getElem?_roster_iff`: the state in which a branch has ended is recorded, and no other.
* `Orderly.pairwise`: a branch that has ended does not act any more.
* `Orderly.append`: events in which no branch acts may come last, and change no state.
-/

namespace TermLogic

namespace Event

/-- The branch that acts in an event. No branch does when the end of a run is recorded. -/
def actor? : Event → Option BranchId
  | seeded b _ | expanded _ b _ _ _ | split _ b _ _ _ | closed b _ | saturated b => some b
  | exhausted _ | status _ _ => none

/-- The branch that an event ends, and the state it leaves it in. -/
def ending? : Event → Option (BranchId × Branch.State)
  | split _ b _ _ _ => some (b, .split)
  | closed b _ => some (b, .closed)
  | saturated b => some (b, .saturated)
  | seeded _ _ | expanded _ _ _ _ _ | exhausted _ | status _ _ => none

/-- Whether an event is a fork. -/
def isSplit : Event → Bool
  | split _ _ _ _ _ => true
  | seeded _ _ | expanded _ _ _ _ _ | closed _ _ | saturated _ | exhausted _ | status _ _ => false

/-- The branches that an event makes. -/
def offspring : Event → List BranchId
  | split _ _ _ _ children => children.map Prod.fst
  | seeded _ _ | expanded _ _ _ _ _ | closed _ _ | saturated _ | exhausted _ | status _ _ => []

variable {event : Event} {b : BranchId} {state : Branch.State}

/-- A branch is ended by what it does itself. -/
theorem actor?_of_ending? (h : event.ending? = some (b, state)) : event.actor? = some b := by
  rcases event with _ | _ | _ | _ | _ | _ | _ <;> simp_all [ending?, actor?]

/-- A branch that is ended is not active. -/
theorem ne_active_of_ending? (h : event.ending? = some (b, state)) : state ≠ .active := by
  rcases event with _ | _ | _ | _ | _ | _ | _ <;> simp_all [ending?]
  all_goals simp [← h.2]

/-- A branch forks in no other event than a fork of its own. -/
theorem ending?_eq_split_iff : event.ending? = some (b, .split) ↔
    ∃ round consumed individual children, event = .split round b consumed individual children := by
  rcases event with _ | _ | _ | _ | _ | _ | _ <;> simp [ending?]

/-- A branch closes in no other event than the notice that it has closed. -/
theorem ending?_eq_closed_iff :
    event.ending? = some (b, .closed) ↔ ∃ claim, event = .closed b claim := by
  rcases event with _ | _ | _ | _ | _ | _ | _ <;> simp [ending?]

/-- A branch is found to be saturated in no other event than the notice of it. -/
theorem ending?_eq_saturated_iff : event.ending? = some (b, .saturated) ↔ event = .saturated b := by
  rcases event with _ | _ | _ | _ | _ | _ | _ <;> simp [ending?]

/-- Only branches that act fork. -/
theorem isSplit_eq_false (h : event.actor? = none) : event.isSplit = false := by
  rcases event with _ | _ | _ | _ | _ | _ | _ <;> simp_all [actor?, isSplit]

/-- Only branches that act end. -/
theorem ending?_eq_none (h : event.actor? = none) : event.ending? = none := by
  rcases event with _ | _ | _ | _ | _ | _ | _ <;> simp_all [actor?, ending?]

/-- Only forks make branches. -/
theorem offspring_eq_nil (h : event.isSplit = false) : event.offspring = [] := by
  rcases event with _ | _ | _ | _ | _ | _ | _ <;> simp_all [isSplit, offspring]

end Event

/-! ### The states of branches

The roster starts with the root and is read off the events: one that ends a branch changes its
state, and a fork adds two active branches at the end. -/

/-- The states of branches after an event: one branch may end, and new ones are active. -/
def rosterAfter (states : List Branch.State) (event : Event) : List Branch.State :=
  (match event.ending? with
    | some (b, state) => states.set b state
    | none => states) ++ event.offspring.map fun _ => .active

/-- The states of all branches after some events; at first there is one, which is active. -/
def roster (events : List Event) : List Branch.State :=
  events.foldl rosterAfter [.active]

/-- The last event changes the states that the earlier ones have left. -/
@[simp]
theorem roster_concat (events : List Event) (event : Event) :
    roster (events ++ [event]) = rosterAfter (roster events) event := by
  simp [roster]

/-- An event adds the branches that it makes. -/
theorem length_rosterAfter (states : List Branch.State) (event : Event) :
    (rosterAfter states event).length = states.length + event.offspring.length := by
  unfold rosterAfter
  rcases event.ending? with _ | ⟨b, state⟩ <;> simp

variable {events : List Event} {event : Event} {states : List Branch.State} {b : BranchId}
  {state : Branch.State}

/-- Ended branches are those that were, and the one that the event ends. -/
theorem getElem?_rosterAfter_iff (hstate : state ≠ .active)
    (hactor : ∀ b, event.actor? = some b → states[b]? = some .active) :
    (rosterAfter states event)[b]? = some state ↔
      states[b]? = some state ∨ event.ending? = some (b, state) := by
  -- the new branches are active
  have hnew : ∀ {ended : List Branch.State},
      (ended ++ event.offspring.map fun _ => Branch.State.active)[b]? = some state ↔
        ended[b]? = some state := by
    intro ended
    rw [List.getElem?_append]
    split
    · rfl
    · next hge =>
      rw [List.getElem?_eq_none (Nat.not_lt.1 hge), List.getElem?_map, Option.map_eq_some_iff]
      simp [Ne.symm hstate]
  unfold rosterAfter
  rw [hnew]
  rcases hending : event.ending? with _ | ⟨b', state'⟩
  · simp
  · have hactive := hactor b' (Event.actor?_of_ending? hending)
    have hlt : b' < states.length := (List.getElem?_eq_some_iff.1 hactive).1
    simp only [Option.some.injEq, Prod.mk.injEq]
    by_cases heq : b' = b
    · subst heq
      rw [List.getElem?_set_self hlt, hactive]
      simp [Ne.symm hstate]
    · rw [List.getElem?_set_ne heq]
      simp [heq]

/-! ### Events in order

What is known of events in order is shown by induction along `Orderly`, from what one more event
does. -/

/-- An event comes in order after others: the branch that acts is active, and a fork makes two
branches with the next numbers. -/
structure Timely (before : List Event) (event : Event) : Prop where
  /-- The branch that acts is active. -/
  active : ∀ b, event.actor? = some b → (roster before)[b]? = some .active
  /-- A fork makes the next two branches. -/
  offspring_eq : event.isSplit = true →
    event.offspring = [(roster before).length, (roster before).length + 1]

/-- Each event comes in order after those before it. -/
inductive Orderly : List Event → Prop where
  /-- There are no events at first. -/
  | nil : Orderly []
  /-- An event that comes in order comes last. -/
  | concat {events : List Event} {event : Event} :
      Orderly events → Timely events event → Orderly (events ++ [event])

namespace Orderly

/-- Every fork makes two branches, besides the first one. -/
theorem length_roster (h : Orderly events) :
    (roster events).length = 2 * (events.filter Event.isSplit).length + 1 := by
  induction h with
  | nil => rfl
  | @concat events event _ htimely ih =>
      rw [roster_concat, length_rosterAfter, List.filter_append, List.length_append, ih]
      rcases hsplit : event.isSplit with _ | _
      · simp [hsplit, Event.offspring_eq_nil hsplit]
      · rw [htimely.offspring_eq hsplit]
        simp [hsplit]
        omega

/-- The `j`-th fork makes the branches `2 * j + 1` and `2 * j + 2`. -/
theorem offspring_eq (h : Orderly events) {j : Nat}
    (hj : (events.filter Event.isSplit)[j]? = some event) :
    event.offspring = [2 * j + 1, 2 * j + 2] := by
  induction h with
  | nil => simp at hj
  | @concat events last hbefore htimely ih =>
      rw [List.filter_append, List.getElem?_append] at hj
      split at hj
      · exact ih hj
      · next hge =>
        rcases hsplit : last.isSplit with _ | _
        · simp [hsplit] at hj
        · rw [List.filter_cons_of_pos hsplit, List.filter_nil] at hj
          have hlt := (List.getElem?_eq_some_iff.1 hj).1
          rw [List.length_singleton] at hlt
          have hlast : j = (events.filter Event.isSplit).length := by omega
          obtain rfl : last = event := by simpa [hlast] using hj
          rw [htimely.offspring_eq hsplit, hbefore.length_roster, hlast]

/-- A branch has ended in a state if an event says so. -/
theorem getElem?_roster_iff (h : Orderly events) (hstate : state ≠ .active) :
    (roster events)[b]? = some state ↔ ∃ event ∈ events, event.ending? = some (b, state) := by
  induction h with
  | nil =>
      rcases b with _ | b <;> simp [roster, Ne.symm hstate]
  | @concat events event _ htimely ih =>
      rw [roster_concat, getElem?_rosterAfter_iff hstate htimely.active, ih]
      simp only [List.mem_append, List.mem_singleton, or_and_right, exists_or, exists_eq_left]

/-- A branch that has ended does not act any more. -/
theorem pairwise (h : Orderly events) :
    events.Pairwise fun earlier later => ∀ b state, earlier.ending? = some (b, state) →
      later.actor? ≠ some b := by
  induction h with
  | nil => exact .nil
  | @concat events event hbefore htimely ih =>
      refine List.pairwise_append.2 ⟨ih, List.pairwise_singleton _ _, ?_⟩
      intro earlier hearlier last hlast b state hending hactor
      rw [List.mem_singleton.1 hlast] at hactor
      have hstate := Event.ne_active_of_ending? hending
      have hended := (hbefore.getElem?_roster_iff hstate).2 ⟨earlier, hearlier, hending⟩
      rw [htimely.active b hactor] at hended
      exact hstate (Option.some.inj hended).symm

/-- Events in which no branch acts may come last, and change no state. -/
theorem append (h : Orderly events) {closing : List Event}
    (hclosing : ∀ event ∈ closing, event.actor? = none) :
    Orderly (events ++ closing) ∧ roster (events ++ closing) = roster events := by
  induction closing using List.reverseRecOn with
  | nil => simpa using h
  | append_singleton closing event ih =>
      obtain ⟨hbefore, hlast⟩ := List.forall_mem_append.1 hclosing
      obtain ⟨horderly, hsame⟩ := ih hbefore
      have hactor : event.actor? = none := hlast event List.mem_cons_self
      have hsplit := Event.isSplit_eq_false hactor
      rw [← List.append_assoc, roster_concat, rosterAfter, Event.ending?_eq_none hactor,
        Event.offspring_eq_nil hsplit, hsame]
      exact ⟨.concat horderly ⟨by simp [hactor], by simp [hsplit]⟩, List.append_nil _⟩

/-- The branches that have forked are those in that state. -/
theorem forked_iff (h : Orderly events) :
    Forked events b ↔ (roster events)[b]? = some .split := by
  rw [h.getElem?_roster_iff (by simp)]
  constructor
  · rintro ⟨round, consumed, individual, children, hmem⟩
    exact ⟨_, hmem, rfl⟩
  · rintro ⟨event, hmem, hending⟩
    obtain ⟨round, consumed, individual, children, rfl⟩ := Event.ending?_eq_split_iff.1 hending
    exact ⟨round, consumed, individual, children, hmem⟩

/-- The branches that have closed are those in that state. -/
theorem shut_iff (h : Orderly events) : Shut events b ↔ (roster events)[b]? = some .closed := by
  rw [h.getElem?_roster_iff (by simp)]
  constructor
  · rintro ⟨claim, hmem⟩
    exact ⟨_, hmem, rfl⟩
  · rintro ⟨event, hmem, hending⟩
    obtain ⟨claim, rfl⟩ := Event.ending?_eq_closed_iff.1 hending
    exact ⟨claim, hmem⟩

/-- The branches that have turned out to be saturated are those in that state. -/
theorem saturated_mem_iff (h : Orderly events) :
    .saturated b ∈ events ↔ (roster events)[b]? = some .saturated := by
  rw [h.getElem?_roster_iff (by simp)]
  constructor
  · intro hmem
    exact ⟨_, hmem, rfl⟩
  · rintro ⟨event, hmem, hending⟩
    rwa [← Event.ending?_eq_saturated_iff.1 hending]

end Orderly

end TermLogic
