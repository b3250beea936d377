import TermLogic.Proofs.Tableau.Derivation
import TermLogic.Proofs.Trace.Roster

/-!
# Events, endings and outcome agree

The outcome of a run, the events in which branches end and the closing record of the leaves are made
in three different places. They agree, because at every moment the events read one after the other
give each branch the state that it is in.

* `Copying.Enrolled`: the events are in order and give the states of the branches, none of which is
  saturated. Every step keeps it (`Copying.Enrolled.apply`).
* `Copying.Finished`: what is left of it when the rounds are over.
* `leafEndings`, `mem_leafEndings_iff`: how the leaves end, by the states of all branches.
* `Trace.Settled`, `Tableau.settled_run`: how the trace of a run and its outcome hang together.
-/

namespace TermLogic

namespace Copying

variable {u later : Copying} {b : BranchId} {path : Path}

/-! ### The states of branches along a run

The list of states that events leave is compared with the states in the array, entry by entry, after
each operation. -/

/-- The states of all branches. -/
def states (u : Copying) : List Branch.State :=
  u.branches.toList.map Branch.state

/-- The state of a branch, looked up by its number. -/
theorem getElem?_states (u : Copying) (b : BranchId) :
    u.states[b]? = u.branches[b]?.map Branch.state := by
  simp [states]

/-- A change of one branch changes its state alone. -/
theorem states_of_setIfInBounds {branch : Branch}
    (h : later.branches = u.branches.setIfInBounds b branch) :
    later.states = u.states.set b branch.state := by
  simp [states, h, List.map_set]

/-- A branch that is changed but stays active. -/
theorem states_of_active (hb : u.branches[b]? = some ⟨path, .active⟩) {path' : Path}
    (h : later.branches = u.branches.setIfInBounds b ⟨path', .active⟩) :
    later.states = u.states := by
  rw [states_of_setIfInBounds h]
  refine List.ext_getElem? fun i => ?_
  rw [List.getElem?_set]
  split
  · next heq =>
    subst heq
    have hactive : u.states[b]? = some .active := by rw [getElem?_states, hb]; rfl
    rw [hactive, if_pos (List.getElem?_eq_some_iff.1 hactive).1]
  · rfl

/-- The events are in order and give the states of the branches, and no branch is saturated yet. -/
structure Enrolled (u : Copying) : Prop where
  /-- The events are in order. -/
  orderly : Orderly u.events
  /-- They give the states of the branches. -/
  roster_eq : roster u.events = u.states
  /-- In each of them a branch acts. -/
  acts : ∀ event ∈ u.events, ∃ b, event.actor? = some b
  /-- They do not end the run. -/
  going : ∀ event ∈ u.events, ∀ b, event ≠ .saturated b

/-- What touches neither events nor states. -/
theorem Enrolled.of_eq (h : u.Enrolled) (hevents : later.events = u.events)
    (hstates : later.states = u.states) : later.Enrolled := by
  obtain ⟨horderly, hroster, hacts, hgoing⟩ := h
  rw [← hevents] at horderly hroster hacts hgoing
  exact ⟨horderly, hroster.trans hstates.symm, hacts, hgoing⟩

/-- An event in which an active branch acts comes in order. -/
theorem Enrolled.timely (h : u.Enrolled) (hb : u.branches[b]? = some ⟨path, .active⟩)
    {event : Event} (hactor : event.actor? = some b)
    (hoffspring : event.isSplit = true →
      event.offspring = [u.branches.size, u.branches.size + 1]) : Timely u.events event where
  active b' hb' := by
    obtain rfl := Option.some.inj (hactor.symm.trans hb')
    rw [h.roster_eq, getElem?_states, hb]
    rfl
  offspring_eq hsplit := by
    have hlength : (roster u.events).length = u.branches.size := by
      rw [h.roster_eq, states, List.length_map, Array.length_toList]
    rw [hlength]
    exact hoffspring hsplit

/-- Recording an event in which an active branch acts, together with what it does to the states. -/
theorem Enrolled.record (h : u.Enrolled) (hb : u.branches[b]? = some ⟨path, .active⟩)
    (event : Event) (hactor : event.actor? = some b)
    (hoffspring : event.isSplit = true → event.offspring = [u.branches.size, u.branches.size + 1])
    (hgoing : ∀ b, event ≠ .saturated b) (hevents : later.events = u.events ++ [event])
    (hstates : later.states = rosterAfter u.states event) : later.Enrolled := by
  refine ⟨?_, ?_, ?_, ?_⟩ <;> rw [hevents]
  · exact .concat h.orderly (h.timely hb hactor hoffspring)
  · rw [roster_concat, h.roster_eq, hstates]
  · exact List.forall_mem_append.2 ⟨h.acts, List.forall_mem_singleton.2 ⟨b, hactor⟩⟩
  · exact List.forall_mem_append.2 ⟨h.going, List.forall_mem_singleton.2 hgoing⟩

/-- Putting claims on an active branch, which may close it. -/
theorem Enrolled.addAll (h : u.Enrolled) (hb : u.branches[b]? = some ⟨path, .active⟩)
    (claims : List Signed) : (u.addAll b claims).Enrolled := by
  have hbranches := branches_addAll claims hb
  rcases events_addAll claims hb with ⟨hactive, hevents⟩ | ⟨hclosed, s, -, -, hevents⟩
  · rw [show path.addAll claims = ⟨(path.addAll claims).path, .active⟩ by rw [← hactive]]
      at hbranches
    exact h.of_eq hevents (states_of_active hb hbranches)
  · refine h.record hb (.closed b s.claim) rfl nofun (fun _ => nofun) hevents ?_
    rw [states_of_setIfInBounds hbranches, hclosed]
    simp [rosterAfter, Event.ending?, Event.offspring]

/-- A step that does not fork: the branch is changed, the rule is recorded and its claims are put on
the branch. -/
theorem Enrolled.put (h : u.Enrolled) (hb : u.branches[b]? = some ⟨path, .active⟩)
    {path' : Path} (hbranches : later.branches = u.branches.setIfInBounds b ⟨path', .active⟩)
    (hevents : later.events = u.events) {event : Event} (hactor : event.actor? = some b)
    (hending : event.ending? = none) (claims : List Signed) :
    ((later.record event).addAll b claims).Enrolled := by
  have hlt : b < u.branches.size := (Array.getElem?_eq_some_iff.1 hb).1
  have hget : later.branches[b]? = some ⟨path', .active⟩ := by
    rw [hbranches, Array.getElem?_setIfInBounds_self_of_lt hlt]
  have hsplit : event.isSplit = false := by
    rcases event with _ | _ | _ | _ | _ | _ | _ <;> simp_all [Event.ending?, Event.isSplit]
  have hrecorded : (later.record event).Enrolled := by
    refine h.record hb event hactor (by simp [hsplit]) ?_ ?_ ?_
    · rintro b' rfl
      cases hending
    · rw [← hevents]
      rfl
    · show later.states = _
      rw [states_of_active hb hbranches]
      simp [rosterAfter, hending, Event.offspring_eq_nil hsplit]
  exact hrecorded.addAll hget claims

/-- Recording that an active branch has forked. -/
theorem Enrolled.fork (h : u.Enrolled) (hb : u.branches[b]? = some ⟨path, .active⟩) {path' : Path}
    (hbranches : later.branches = ((u.branches.setIfInBounds b ⟨path', .split⟩).push
      ⟨path', .active⟩).push ⟨path', .active⟩)
    (hevents : later.events = u.events) (round : Nat) (consumed : Signed)
    (individual : Option Individual) (left right : List Signed) :
    (later.record (.split round b consumed individual
      [(u.branches.size, left), (u.branches.size + 1, right)])).Enrolled := by
  refine h.record hb (.split round b consumed individual
    [(u.branches.size, left), (u.branches.size + 1, right)]) rfl (fun _ => rfl) (fun _ => nofun)
    ?_ ?_
  · rw [← hevents]
    rfl
  · unfold states
    rw [branches_record, hbranches]
    simp [rosterAfter, Event.ending?, Event.offspring, List.map_set]

/-- Putting claims on two new branches, one after the other. -/
theorem Enrolled.addAll_children (h : u.Enrolled) {older : Array Branch}
    (hbranches : u.branches = (older.push ⟨path, .active⟩).push ⟨path, .active⟩)
    (left right : List Signed) :
    ((u.addAll older.size left).addAll (older.size + 1) right).Enrolled :=
  (h.addAll (getElem?_children hbranches).1 left).addAll
    (getElem?_children (branches_addAll_first left hbranches)).2 right

/-- Every step keeps the events in order with the states of the branches. -/
theorem Enrolled.apply (h : u.Enrolled) (hb : u.branches[b]? = some ⟨path, .active⟩) (round : Nat)
    (o : Obligation) (rule : Rule) : (u.apply round b o rule).Enrolled := by
  have hmark := branches_onPath_expanded hb o.toSlot
  rcases rule with produced | ⟨left, right⟩ | terms
  · exact h.put hb hmark rfl rfl rfl produced
  · have hbranches := branches_fork_expanded hb hmark
    have hfork := h.fork hb hbranches rfl round o.claim o.individual left right
    have hsize : (u.onPath b fun path =>
        { path with expanded := path.expanded ++ [o.toSlot] }).branches.size =
        u.branches.size := by
      simp [onPath]
    rw [← Array.size_setIfInBounds] at hfork
    simp only [Copying.apply]
    rw [hsize, ← Array.size_setIfInBounds]
    exact hfork.addAll_children hbranches left right
  · exact h.put hb (branches_introduce hb hmark _) rfl rfl rfl _

/-- The tableau a run starts from. -/
theorem enrolled_ofSeed (seed : List Signed) : (ofSeed seed).Enrolled := by
  have hroot : Enrolled ⟨#[⟨⟨[], [], []⟩, .active⟩], 0, []⟩ := ⟨.nil, rfl, nofun, nofun⟩
  exact addSeeds_induction (fun _ h hget => h.put hget (branches_addAll [] hget) rfl rfl rfl _)
    hroot rfl

/-! ### The end of the rounds

Rounds end in two ways: no leaf has been found to be saturated, or one has, and this is the last
thing that was recorded. -/

/-- The events are in order and give the states of the branches; one branch is saturated if that is
how the rounds have ended, and none otherwise. -/
structure Finished (u : Copying) (saturated : Option BranchId) : Prop where
  /-- The events are in order. -/
  orderly : Orderly u.events
  /-- They give the states of the branches. -/
  roster_eq : roster u.events = u.states
  /-- In each of them a branch acts. -/
  acts : ∀ event ∈ u.events, ∃ b, event.actor? = some b
  /-- The branch that has ended the rounds is the saturated one. -/
  saturated_iff : ∀ b, u.states[b]? = some .saturated ↔ saturated = some b

/-- When the rounds are over without a saturated branch, the events say so. -/
theorem Enrolled.finished (h : u.Enrolled) : u.Finished none := by
  refine ⟨h.orderly, h.roster_eq, h.acts, fun b => iff_of_false (fun hb => ?_) nofun⟩
  rw [← h.roster_eq, ← h.orderly.saturated_mem_iff] at hb
  exact h.going _ hb b rfl

/-- Ending the rounds with a saturated branch. -/
theorem Enrolled.saturate (h : u.Enrolled) (hb : u.branches[b]? = some ⟨path, .active⟩) :
    ((u.setState b .saturated).record (.saturated b)).Finished (some b) := by
  have hlt : b < u.branches.size := (Array.getElem?_eq_some_iff.1 hb).1
  have hstates : ((u.setState b .saturated).record (.saturated b)).states =
      u.states.set b .saturated := states_of_setIfInBounds (branches_setState hb .saturated)
  have hevents : ((u.setState b .saturated).record (.saturated b)).events =
      u.events ++ [.saturated b] := rfl
  refine ⟨?_, ?_, ?_, fun b' => ?_⟩
  · exact .concat h.orderly (h.timely hb rfl nofun)
  · rw [hevents, roster_concat, h.roster_eq, hstates]
    simp [rosterAfter, Event.ending?, Event.offspring]
  · rw [hevents]
    exact List.forall_mem_append.2 ⟨h.acts, List.forall_mem_singleton.2 ⟨b, rfl⟩⟩
  · rw [hstates, List.getElem?_set]
    split
    · next heq =>
      have hlt' : b < u.states.length := by simpa [states] using hlt
      rw [if_pos hlt', heq]
      simp
    · next hne =>
      rw [h.finished.saturated_iff b']
      simp [hne]

/-- The rounds of a run end with events and states in order. -/
theorem finished_rounds (seed : List Signed) (bound : Nat) :
    ((ofSeed seed).rounds bound 0).1.Finished ((ofSeed seed).rounds bound 0).2 := by
  have hcases : (∃ later, rounds bound 0 (ofSeed seed) = (later, none) ∧ later.Enrolled) ∨ _ :=
    rounds_cases (fun h hb _ => h.apply hb _ _ _) bound (enrolled_ofSeed seed)
  rcases hcases with ⟨later, hrounds, hend⟩ | ⟨before, b, path, hrounds, hend, hb, -⟩
  · rw [hrounds]
    exact hend.finished
  · rw [hrounds]
    exact hend.saturate hb

end Copying

/-! ### Endings

The endings are read off the states of all branches at once, in the order of their numbers, with
those that have forked left out. -/

/-- How a branch in a state ends; one that has forked is no leaf. -/
def Branch.State.status? : Branch.State → Option Status
  | active => some .unfinished
  | saturated => some .saturated
  | closed => some .closed
  | split => none

/-- How the leaves end, by the states of all branches. -/
def leafEndings (states : List Branch.State) : List (BranchId × Status) :=
  states.zipIdx.filterMap fun (state, b) => state.status?.map (b, ·)

variable {states : List Branch.State} {b : BranchId} {ending : Status}

/-- A leaf is listed with the ending for its state. -/
theorem mem_leafEndings_iff :
    (b, ending) ∈ leafEndings states ↔
      ∃ state, states[b]? = some state ∧ state.status? = some ending := by
  unfold leafEndings
  simp only [List.mem_filterMap, Prod.exists, List.mem_zipIdx_iff_getElem?, Option.map_eq_some_iff,
    Prod.mk.injEq]
  constructor
  · rintro ⟨state, b', hget, ending', hstatus, rfl, rfl⟩
    exact ⟨state, hget, hstatus⟩
  · rintro ⟨state, hget, hstatus⟩
    exact ⟨state, b, hget, ending, hstatus, rfl, rfl⟩

/-- A branch has an ending if it is there and has not forked. -/
theorem mem_map_leafEndings_iff :
    b ∈ (leafEndings states).map Prod.fst ↔
      b < states.length ∧ states[b]? ≠ some .split := by
  simp only [List.mem_map, Prod.exists, mem_leafEndings_iff, exists_and_right, exists_eq_right]
  constructor
  · rintro ⟨ending, state, hget, hstatus⟩
    refine ⟨(List.getElem?_eq_some_iff.1 hget).1, ?_⟩
    rw [hget]
    rintro ⟨⟩
    cases hstatus
  · rintro ⟨hlt, hne⟩
    rw [List.getElem?_eq_getElem hlt] at hne ⊢
    rcases hstate : states[b] with _ | _ | _ | _
    · exact ⟨_, _, rfl, rfl⟩
    · exact ⟨_, _, rfl, rfl⟩
    · exact ⟨_, _, rfl, rfl⟩
    · rw [hstate] at hne
      exact absurd rfl hne

/-- The endings are in the order of the branch numbers. -/
theorem pairwise_leafEndings (states : List Branch.State) :
    ((leafEndings states).map Prod.fst).Pairwise (· < ·) := by
  have hplaces : (states.zipIdx.map Prod.snd).Pairwise (· < ·) := by
    rw [List.zipIdx_map_snd]
    exact List.pairwise_lt_range'
  rw [List.pairwise_map] at hplaces ⊢
  refine List.pairwise_filterMap.2 (hplaces.imp ?_)
  rintro ⟨first, i⟩ ⟨second, j⟩ hlt entry hentry other hother
  obtain ⟨_, -, rfl⟩ := Option.map_eq_some_iff.1 hentry
  obtain ⟨_, -, rfl⟩ := Option.map_eq_some_iff.1 hother
  exact hlt

/-- Counting entries of a list that come with their places. -/
theorem countP_zipIdx_fst {α : Type} (p : α → Bool) (xs : List α) :
    (xs.zipIdx.countP fun entry => p entry.1) = xs.countP p := by
  conv => rhs; rw [← List.zipIdx_map_fst 0 xs]
  rw [List.countP_map]
  rfl

/-- The unfinished leaves are the active branches. -/
theorem countP_leafEndings (states : List Branch.State) :
    (leafEndings states).countP (fun entry => entry.2 = .unfinished) =
      states.countP (· = .active) := by
  rw [← countP_zipIdx_fst _ states, leafEndings, List.countP_filterMap]
  refine List.countP_congr ?_
  rintro ⟨state, b⟩ -
  rcases state with _ | _ | _ | _ <;> simp [Branch.State.status?]

namespace Copying

variable {u : Copying} {saturated : Option BranchId}

/-- The leaves that are still active are the unfinished ones. -/
theorem length_activeLeaves (u : Copying) :
    u.activeLeaves.length =
      (leafEndings u.states).countP fun entry => entry.2 = .unfinished := by
  have hlength : u.states.length = u.branches.size := by simp [states]
  rw [countP_leafEndings, activeLeaves, ← List.countP_eq_length_filter,
    ← countP_zipIdx_fst _ u.states, zipIdx_eq_filterMap_range, List.countP_filterMap, hlength]
  refine List.countP_congr fun b _ => ?_
  rw [getElem?_states, isIn]
  rcases u.branches[b]? with _ | branch <;> simp

/-- What is recorded at the end besides the endings of the leaves. -/
def notice : Outcome → List Event
  | .exhausted active => [.exhausted active]
  | .closed | .saturated _ => []

/-- At the end, a run records that its bound is used up, if so, and how each leaf ends. -/
theorem closing_eq (u : Copying) (outcome : Outcome) :
    u.closing outcome =
      notice outcome ++ (leafEndings u.states).map fun (b, ending) => .status b ending := by
  have hendings : (leafEndings u.states).map (fun (b, ending) => Event.status b ending) =
      u.branches.toList.zipIdx.filterMap fun entry =>
        (status? entry.1).map (Event.status entry.2) := by
    rw [leafEndings, states, List.zipIdx_map, List.filterMap_map, List.map_filterMap]
    refine List.filterMap_congr ?_
    rintro ⟨branch, b⟩ -
    rcases hstate : branch.state with _ | _ | _ | _ <;>
      simp [status?, Branch.State.status?, hstate]
  rw [hendings]
  rcases outcome with _ | _ | _ <;> rfl

/-! ### The outcome

The outcome is read off the state of the run after its last round. Each of the three is told by the
endings alone. -/

/-- A leaf is recorded as saturated if it has ended the rounds. -/
theorem Finished.mem_leafEndings_iff (h : u.Finished saturated) {b : BranchId} :
    (b, .saturated) ∈ leafEndings u.states ↔ saturated = some b := by
  rw [TermLogic.mem_leafEndings_iff, ← h.saturated_iff]
  constructor
  · rintro ⟨_ | _ | _ | _, hget, hstatus⟩ <;> simp_all [Branch.State.status?]
  · intro hget
    exact ⟨_, hget, rfl⟩

/-- If no branch has ended the rounds, no leaf is recorded as saturated. -/
theorem Finished.ne_saturated (h : u.Finished none) :
    ∀ entry ∈ leafEndings u.states, entry.2 ≠ .saturated := by
  rintro ⟨b, ending⟩ hmem rfl
  cases h.mem_leafEndings_iff.1 hmem

/-- Without a saturated branch, a run is exhausted if a leaf is unfinished, and closed otherwise. -/
theorem outcome_none (u : Copying) :
    u.outcome none =
      if (leafEndings u.states).countP (fun entry => entry.2 = .unfinished) = 0 then .closed
      else .exhausted ((leafEndings u.states).countP fun entry => entry.2 = .unfinished) := by
  simp only [outcome, ← length_activeLeaves, List.isEmpty_iff_length_eq_zero]

/-- A run is closed if all leaves are. -/
theorem Finished.outcome_eq_closed_iff (h : u.Finished saturated) :
    u.outcome saturated = .closed ↔ ∀ entry ∈ leafEndings u.states, entry.2 = .closed := by
  rcases saturated with _ | b
  · rw [outcome_none]
    simp only [ite_eq_left_iff, reduceCtorEq, imp_false, not_not, List.countP_eq_zero,
      decide_eq_true_eq]
    refine forall₂_congr fun entry hmem => ?_
    have hne := h.ne_saturated entry hmem
    rcases entry with ⟨b, _ | _ | _⟩ <;> simp_all
  · refine iff_of_false nofun fun hall => ?_
    cases hall (b, .saturated) (h.mem_leafEndings_iff.2 rfl)

/-- A run names a saturated branch if this and no other leaf is saturated. -/
theorem Finished.outcome_eq_saturated_iff (h : u.Finished saturated) {b : BranchId} :
    u.outcome saturated = .saturated b ↔
      ∀ b', (b', .saturated) ∈ leafEndings u.states ↔ b' = b := by
  simp only [h.mem_leafEndings_iff]
  rcases saturated with _ | b'
  · refine iff_of_false (fun heq => ?_) fun hall => ?_
    · cases of_outcome_eq_saturated heq
    · cases (hall b).2 rfl
  · simp only [outcome, Outcome.saturated.injEq, Option.some.injEq]
    constructor
    · rintro rfl other
      exact eq_comm
    · intro hall
      exact (hall b').1 rfl

/-- A run is exhausted if no leaf is saturated and some are unfinished, as many as it says. -/
theorem Finished.outcome_eq_exhausted_iff (h : u.Finished saturated) {n : Nat} :
    u.outcome saturated = .exhausted n ↔ (∀ entry ∈ leafEndings u.states, entry.2 ≠ .saturated) ∧
      (leafEndings u.states).countP (fun entry => entry.2 = .unfinished) = n ∧ 1 ≤ n := by
  rcases saturated with _ | b
  · rw [outcome_none, and_iff_right h.ne_saturated]
    split
    · next hzero =>
      rw [hzero]
      refine iff_of_false nofun ?_
      rintro ⟨rfl, hpos⟩
      exact absurd hpos (by decide)
    · next hpos =>
      rw [Outcome.exhausted.injEq]
      refine (and_iff_left_of_imp ?_).symm
      rintro rfl
      exact Nat.one_le_iff_ne_zero.2 hpos
  · refine iff_of_false nofun fun hall => ?_
    exact hall.1 (b, .saturated) (h.mem_leafEndings_iff.2 rfl) rfl

end Copying

/-! ### The trace of a run

What was shown of the rounds is carried over to the trace that the caller gets, behind whatever it
held. -/

/-- How the trace of a run and its outcome hang together. -/
structure Trace.Settled (trace : Trace) (outcome : Outcome) : Prop where
  /-- The forks number the branches on. -/
  forks : ∀ (j : Nat) (event : Event), (trace.toList.filter Event.isSplit)[j]? = some event →
    event.offspring = [2 * j + 1, 2 * j + 2]
  /-- A branch that forks, closes or turns out to be saturated does so once, and does nothing
  after that. -/
  ended : trace.toList.Pairwise fun earlier later =>
    ∀ b state, earlier.ending? = some (b, state) → later.actor? ≠ some b
  /-- The endings of the leaves come last, right behind the notice that the bound is used up if it
  is, and neither is recorded elsewhere. -/
  closing : ∃ steps, trace.toList = steps ++ Copying.notice outcome ++
      (trace.statuses.map fun (b, ending) => .status b ending) ∧
    ∀ event ∈ steps, event.isStep = true
  /-- The endings are in the order of the branch numbers. -/
  increasing : (trace.statuses.map Prod.fst).Pairwise (· < ·)
  /-- There is one for each branch that has not forked. -/
  leaves : ∀ b, b ∈ trace.statuses.map Prod.fst ↔
    b ≤ 2 * (trace.toList.filter Event.isSplit).length ∧ ¬ Forked trace.toList b
  /-- They say what has been recorded of the branch. -/
  status : ∀ b ending, (b, ending) ∈ trace.statuses →
    (ending = .closed ↔ Shut trace.toList b) ∧ (ending = .saturated ↔ .saturated b ∈ trace.toList)
  /-- The run is closed if all leaves are. -/
  closed_iff : outcome = .closed ↔ ∀ entry ∈ trace.statuses, entry.2 = .closed
  /-- It names a saturated branch if this and no other leaf is saturated. -/
  saturated_iff : ∀ b, outcome = .saturated b ↔ ∀ b', (b', .saturated) ∈ trace.statuses ↔ b' = b
  /-- It is exhausted if no leaf is saturated and some are unfinished, as many as it says. -/
  exhausted_iff : ∀ n, outcome = .exhausted n ↔
    (∀ entry ∈ trace.statuses, entry.2 ≠ .saturated) ∧
      trace.statuses.countP (fun entry => entry.2 = .unfinished) = n ∧ 1 ≤ n

/-- The endings that a trace shows are those that were recorded last. -/
theorem Trace.statuses_eq {trace : Trace} {steps : List Event} {outcome : Outcome}
    {endings : List (BranchId × Status)}
    (h : trace.toList = steps ++ Copying.notice outcome ++
      endings.map fun (b, ending) => .status b ending)
    (hsteps : ∀ event ∈ steps, event.isStep = true) : trace.statuses = endings := by
  have hnone : ∀ event ∈ steps ++ Copying.notice outcome, ∀ b ending, event ≠ .status b ending := by
    rintro event hmem b ending rfl
    rcases List.mem_append.1 hmem with hmem | hmem
    · cases hsteps _ hmem
    · rcases outcome with _ | _ | _ <;> simp [Copying.notice] at hmem
  unfold statuses
  rw [h, List.filterMap_append, List.filterMap_map]
  refine (congrArg (· ++ _) (List.filterMap_eq_nil_iff.2 fun event hmem => ?_)).trans
    List.filterMap_some
  have hne := hnone event hmem
  rcases event with _ | _ | _ | _ | _ | _ | ⟨b, ending⟩
  case status => exact absurd rfl (hne b ending)
  all_goals rfl

/-- In an event in which a branch acts, a run goes on. -/
theorem Event.isStep_eq (event : Event) : event.isStep = event.actor?.isSome := by
  cases event <;> rfl

/-- **Events, endings and outcome agree.** In the trace of a run, the forks number the branches on,
and a branch that has ended does nothing any more. The endings of the leaves come last, in order and
one for each branch that has not forked, and say what the events say of it. The outcome is what the
endings say together. -/
theorem Tableau.settled_run (seed : List Signed) (bound : Nat) :
    ∃ trace, ((ofSeed seed (some .empty)).run bound).tableau.trace = some trace ∧
      trace.Settled ((ofSeed seed (some .empty)).run bound).outcome := by
  rw [trace_run, outcome_run]
  refine ⟨_, rfl, ?_⟩
  have hfinished := Copying.finished_rounds seed bound
  unfold Copying.run
  generalize (Copying.ofSeed seed).rounds bound 0 = result at hfinished
  obtain ⟨u, saturated⟩ := result
  show Trace.Settled (Trace.append .empty (u.events ++ u.closing (u.outcome saturated)))
    (u.outcome saturated)
  generalize htrace : Trace.append .empty _ = trace
  have hevents : trace.toList = u.events ++ u.closing (u.outcome saturated) := by
    rw [← htrace, Trace.toList_append, Trace.toList_empty, List.nil_append]
  have hsteps : ∀ event ∈ u.events, event.isStep = true := by
    intro event hmem
    obtain ⟨b, hb⟩ := hfinished.acts event hmem
    rw [Event.isStep_eq, hb]
    rfl
  have hclosing : trace.toList = u.events ++ Copying.notice (u.outcome saturated) ++
      (leafEndings u.states).map fun (b, ending) => .status b ending := by
    rw [hevents, Copying.closing_eq, List.append_assoc]
  have hstatuses := Trace.statuses_eq hclosing hsteps
  obtain ⟨horderly, hroster⟩ : Orderly trace.toList ∧ roster trace.toList = u.states := by
    rw [hevents, ← hfinished.roster_eq]
    refine hfinished.orderly.append fun event hmem => ?_
    have hlast := Copying.isStep_of_mem_closing hmem
    rwa [Event.isStep_eq, Option.isSome_eq_false_iff, Option.isNone_iff_eq_none] at hlast
  refine
    { forks := fun j event hj => horderly.offspring_eq hj
      ended := horderly.pairwise
      closing := ⟨u.events, by rw [hstatuses]; exact hclosing, hsteps⟩
      increasing := by
        rw [hstatuses]
        exact pairwise_leafEndings u.states
      leaves := fun b => ?_
      status := fun b ending hmem => ?_
      closed_iff := by
        rw [hstatuses]
        exact hfinished.outcome_eq_closed_iff
      saturated_iff := fun b => by
        rw [hstatuses]
        exact hfinished.outcome_eq_saturated_iff
      exhausted_iff := fun n => by
        rw [hstatuses]
        exact hfinished.outcome_eq_exhausted_iff }
  · rw [hstatuses, mem_map_leafEndings_iff, horderly.forked_iff, ← hroster, horderly.length_roster,
      Nat.lt_succ_iff]
  · rw [hstatuses, mem_leafEndings_iff] at hmem
    rw [horderly.shut_iff, horderly.saturated_mem_iff, hroster]
    obtain ⟨state, hget, hstatus⟩ := hmem
    rw [hget]
    rcases state with _ | _ | _ | _ <;> cases hstatus <;> simp

end TermLogic
