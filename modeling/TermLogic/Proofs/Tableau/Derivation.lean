import TermLogic.Proofs.Tableau.Recording
import TermLogic.Proofs.Trace.Refutation

/-!
# Runs are derivations

The events that a run records are a derivation from its claims, and if the run closes, they refute
these claims by themselves.

* `Copying.events_addAll`: what is recorded when claims are put on a branch.
* `Copying.Tracks`, `Copying.Replayed`: the events replay to the branches as they are. While a rule
  is carried out, claims may be recorded that are still due to be put on a branch.
* `Copying.Replayed.put`, `Copying.Replayed.fork`, `Copying.Replayed.addAll`: recording an event,
  and putting on branches what has become due by it.
* `Copying.Replayed.apply`: every step keeps that the events replay to the branches.
* `Tableau.derivation_run`: the trace of a run.
-/

namespace TermLogic

/-! ### Events of a branch

Claims that are put on a branch are told of in the event of the rule, all at once and before they
are put there. Only a closure is recorded by itself. -/

namespace Copying

variable {t u : Copying} {b : BranchId} {path : Path}

/-- A claim that is put on an active branch is recorded only if it closes the branch. -/
theorem events_add_of_flip {s : Signed} (h : t.branches[b]? = some ⟨path, .active⟩)
    (hs : ¬ path.holds s = true) (hflip : path.holds s.flip = true) :
    (t.add b s).events = t.events ++ [.closed b s.claim] := by
  simp [add, path_eq_of_getElem? h, hs, hflip, record, setState, onPath]

/-- A claim that is put on an active branch and does not close it is not recorded by itself: the
event of its rule has told of it. -/
theorem events_add_of_not_flip {s : Signed} (h : t.branches[b]? = some ⟨path, .active⟩)
    (hs : ¬ path.holds s = true) (hflip : ¬ path.holds s.flip = true) :
    (t.add b s).events = t.events := by
  simp [add, path_eq_of_getElem? h, hs, hflip, onPath]

/-- What is recorded when claims are put on an active branch: nothing if it stays active, and
otherwise that it has closed on a claim that it has, or is to have, with both signs. -/
theorem events_addAll (claims : List Signed) (h : t.branches[b]? = some ⟨path, .active⟩) :
    ((path.addAll claims).state = .active ∧ (t.addAll b claims).events = t.events) ∨
    ((path.addAll claims).state = .closed ∧ ∃ s ∈ path.claims ++ claims,
      s.flip ∈ path.claims ++ claims ∧
      (t.addAll b claims).events = t.events ++ [.closed b s.claim]) := by
  induction claims generalizing t path with
  | nil => exact .inl ⟨rfl, rfl⟩
  | cons s rest ih =>
      unfold Path.addAll
      by_cases hs : path.holds s = true
      · rw [addAll_cons_of_holds rest h hs, if_pos hs]
        rcases ih h with hactive | ⟨hclosed, r, hr, hflip, hevents⟩
        · exact .inl hactive
        · have hsub : path.claims ++ rest ⊆ path.claims ++ s :: rest :=
            (List.append_subset.2 ⟨List.subset_append_left _ _,
              List.subset_append_of_subset_right _ (List.subset_cons_self s rest)⟩)
          exact .inr ⟨hclosed, r, hsub hr, hsub hflip, hevents⟩
      · rw [if_neg hs]
        by_cases hflip : path.holds s.flip = true
        · right
          rw [addAll_cons_of_flip rest h hs hflip, if_pos hflip]
          refine ⟨rfl, s, by simp, ?_, events_add_of_flip h hs hflip⟩
          exact List.mem_append_left _ ((path.holds_iff s.flip).1 hflip)
        · rw [if_neg hflip]
          obtain ⟨hget, hgo⟩ := addAll_cons_of_not_flip rest h hs hflip
          have hsame := events_add_of_not_flip h hs hflip
          rw [hgo, ← hsame]
          have happend : (path.push s).claims ++ rest = path.claims ++ s :: rest := by simp
          rw [← happend]
          exact ih hget

/-! ### Replay of a run

Between the event of a rule and the last of its claims, the events are ahead of the branches. What
they are ahead by is `due`, and is taken in claim by claim; if the branch closes before, the rest
stays away from it, and no more is asked of its replay. -/

/-- What the events tell of a branch: of an active one, all that is on its path; of one that has
forked or closed, that it has. `due` are claims that have been recorded and are still to be put on
the branch. -/
def Tracks (events : List Event) (due : List Signed) (b : BranchId) (branch : Branch) : Prop :=
  match branch.state with
  | .active =>
    (∀ s, s ∈ (replay events).claims b ↔ s ∈ branch.path.claims ∨ s ∈ due) ∧
      ∀ c, c ∈ (replay events).individuals b ↔ c ∈ branch.path.individuals
  | .split => Forked events b
  | .closed => Shut events b
  | .saturated => False

/-- The events so far are a derivation, and their replay gives the branches as they are. -/
structure Replayed (seed : List Signed) (due : BranchId → List Signed) (u : Copying) : Prop where
  /-- The claims the run starts from are about nobody. -/
  plain : ∀ s ∈ seed, s.claim.individuals = []
  /-- The events are a derivation. -/
  derivation : Derivation seed u.events
  /-- They make the branches that are there. -/
  mem_branches : ∀ b, b ∈ (replay u.events).branches ↔ b < u.branches.size
  /-- They tell what is on each of them. -/
  tracks : ∀ (b : BranchId) (branch : Branch), u.branches[b]? = some branch →
    Tracks u.events (due b) b branch
  /-- Only individuals that have been introduced occur in them. -/
  named : ∀ event ∈ u.events, ∀ c ∈ event.individuals, c ≤ u.introduced

/-- An event that leaves alone what is on a branch tells no less of it. -/
theorem Tracks.concat {events : List Event} {due : List Signed} {branch : Branch} {event : Event}
    (h : Tracks events due b branch)
    (hclaims : ∀ s, s ∈ ((replay events).after event).claims b ↔ s ∈ (replay events).claims b)
    (hindividuals : ∀ c, c ∈ ((replay events).after event).individuals b ↔
      c ∈ (replay events).individuals b) : Tracks (events ++ [event]) due b branch := by
  unfold Tracks at h ⊢
  rw [replay_concat]
  split at h
  · refine ⟨fun s => ?_, fun c => ?_⟩
    · rw [hclaims, h.1]
    · rw [hindividuals, h.2]
  · exact h.append _
  · exact h.append _
  · exact h

section

variable {seed : List Signed} {due : BranchId → List Signed}

/-- A claim is recorded on an active branch if it is on its path or due. -/
theorem Replayed.records_iff (h : Replayed seed due u) (hb : u.branches[b]? = some ⟨path, .active⟩)
    {s : Signed} : (replay u.events).Records b s ↔ s ∈ path.claims ∨ s ∈ due b := by
  have hmem : b ∈ (replay u.events).branches :=
    (h.mem_branches b).2 (Array.getElem?_eq_some_iff.1 hb).1
  rw [← (h.tracks b _ hb).1 s]
  exact and_iff_right hmem

/-- Recording an event that is allowed, in front of what it does to the branches. -/
theorem Replayed.record (h : Replayed seed due u) {event : Event} {later : Copying}
    {due' : BranchId → List Signed}
    (hevents : later.events = u.events ++ [event]) (hevent : Admitted seed u.events event)
    (hle : u.introduced ≤ later.introduced)
    (hnew : ∀ c ∈ event.newcomers, c ≤ later.introduced)
    (hmem : ∀ b, b ∈ ((replay u.events).after event).branches ↔ b < later.branches.size)
    (htracks : ∀ (b : BranchId) (branch : Branch), later.branches[b]? = some branch →
      Tracks (u.events ++ [event]) (due' b) b branch) : Replayed seed due' later where
  plain := h.plain
  derivation := by
    rw [hevents]
    exact h.derivation.concat hevent
  mem_branches := by
    rw [hevents, replay_concat]
    exact hmem
  tracks := by
    rw [hevents]
    exact htracks
  named := by
    have hold : ∀ earlier ∈ u.events, ∀ c ∈ earlier.individuals, c ≤ later.introduced :=
      fun earlier hmem c hc => Nat.le_trans (h.named earlier hmem c hc) hle
    rw [hevents]
    refine List.forall_mem_append.2 ⟨hold, List.forall_mem_singleton.2 fun c hc => ?_⟩
    rcases hevent.individuals hc with ⟨earlier, hmem, hc⟩ | ⟨s, hs, hc⟩ | hc
    · exact hold earlier hmem c hc
    · rw [h.plain s hs] at hc
      cases hc
    · exact hnew c hc

/-- Putting on an active branch what is due there. -/
theorem Replayed.addAll (h : Replayed seed due u) {due' : BranchId → List Signed}
    (hb : u.branches[b]? = some ⟨path, .active⟩) {claims : List Signed} (hdue : due b = claims)
    (hself : due' b = []) (hothers : ∀ b', b' ≠ b → due' b' = due b') :
    Replayed seed due' (u.addAll b claims) := by
  subst hdue
  have hlt : b < u.branches.size := (Array.getElem?_eq_some_iff.1 hb).1
  have hbranches := branches_addAll (due b) hb
  have hsize : (u.addAll b (due b)).branches.size = u.branches.size := by simp [hbranches]
  rcases events_addAll (due b) hb with ⟨hactive, hevents⟩ | ⟨hclosed, s, hs, hflip, hevents⟩
  · refine ⟨h.plain, hevents ▸ h.derivation, ?_, ?_, ?_⟩
    · rw [hevents, hsize]
      exact h.mem_branches
    · rw [hevents, hbranches]
      refine forall_getElem?_setIfInBounds ?_ fun b' branch hne hb' => ?_
      · obtain ⟨hclaims, hindividuals⟩ := h.tracks b _ hb
        unfold Tracks
        rw [hactive, hself]
        refine ⟨fun s => ?_, fun c => ?_⟩
        · rw [hclaims, Path.mem_claims_addAll hactive]
          simp
        · rw [hindividuals, Path.individuals_addAll]
      · rw [hothers b' hne]
        exact h.tracks b' branch hb'
    · rw [hevents, introduced_addAll]
      exact h.named
  · have hevent : Admitted seed u.events (.closed b s.claim) :=
      .closed_of_flip ((h.records_iff hb).2 (List.mem_append.1 hs))
        ((h.records_iff hb).2 (List.mem_append.1 hflip))
    refine h.record hevents hevent (Nat.le_of_eq (introduced_addAll u b (due b)).symm) nofun ?_ ?_
    · rw [hsize]
      exact h.mem_branches
    · rw [hbranches]
      refine forall_getElem?_setIfInBounds ?_ fun b' branch hne hb' => ?_
      · unfold Tracks
        rw [hclosed]
        exact ⟨s.claim, by simp⟩
      · rw [hothers b' hne]
        exact (h.tracks b' branch hb').concat (fun _ => Iff.rfl) fun _ => Iff.rfl

/-- Recording an event that puts claims on an active branch, and putting them there. Nothing else
may come onto the branch than individuals. -/
theorem Replayed.put (h : Replayed seed (fun _ => []) u) {event : Event} {later : Copying}
    {produced : List Signed} {newcomers : List Individual} {path' : Path}
    (hb : u.branches[b]? = some ⟨path, .active⟩) (hevents : later.events = u.events ++ [event])
    (hevent : Admitted seed u.events event) (hnewcomers : event.newcomers = newcomers)
    (hputs : (replay u.events).Puts ((replay u.events).after event) b produced event.newcomers)
    (hbranches : later.branches = u.branches.setIfInBounds b ⟨path', .active⟩)
    (hclaims : path'.claims = path.claims)
    (hindividuals : path'.individuals = path.individuals ++ newcomers)
    (hle : u.introduced ≤ later.introduced) (hnew : ∀ c ∈ newcomers, c ≤ later.introduced) :
    Replayed seed (fun _ => []) (later.addAll b produced) := by
  subst hnewcomers
  have hlt : b < u.branches.size := (Array.getElem?_eq_some_iff.1 hb).1
  have hget : later.branches[b]? = some ⟨path', .active⟩ := by
    rw [hbranches, Array.getElem?_setIfInBounds_self_of_lt hlt]
  have hrecord : Replayed seed (Function.update (fun _ => []) b produced) later := by
    refine h.record hevents hevent hle hnew ?_ ?_
    · rw [hputs.branches_eq, hbranches, Array.size_setIfInBounds]
      exact h.mem_branches
    · rw [hbranches]
      refine forall_getElem?_setIfInBounds ?_ fun b' branch hne hb' => ?_
      · obtain ⟨hold, hknown⟩ := h.tracks b _ hb
        rw [Function.update_self]
        refine ⟨fun s => ?_, fun c => ?_⟩
        · rw [replay_concat, hputs.mem_claims, hold, hclaims]
          simp
        · rw [replay_concat, hputs.mem_individuals, hknown, hindividuals]
          simp
      · rw [Function.update_of_ne hne]
        refine (h.tracks b' branch hb').concat (fun s => ?_) fun c => ?_
        · simp [hputs.mem_claims, hne]
        · simp [hputs.mem_individuals, hne]
  exact hrecord.addAll hget (Function.update_self _ _ _) rfl
    fun b' hne => by rw [Function.update_of_ne hne]

/-- Forking an active branch. What the new branches have in addition is then due on them. -/
theorem Replayed.fork (h : Replayed seed (fun _ => []) u) {event : Event} {later : Copying}
    {left right : List Signed} {path' : Path} (hb : u.branches[b]? = some ⟨path, .active⟩)
    (hbranches : later.branches = ((u.branches.setIfInBounds b ⟨path', .split⟩).push
      ⟨path', .active⟩).push ⟨path', .active⟩)
    (hevents : later.events = u.events) (hevent : Admitted seed u.events event)
    (hfork : Forked [event] b)
    (hgrows : (replay u.events).Grows ((replay u.events).after event) b u.branches.size
      (u.branches.size + 1) left right)
    (hnewcomers : event.newcomers = []) (hclaims : path'.claims = path.claims)
    (hindividuals : path'.individuals = path.individuals)
    (hintroduced : later.introduced = u.introduced) :
    Replayed seed (Function.update (Function.update (fun _ => []) u.branches.size left)
      (u.branches.size + 1) right) (later.record event) := by
  obtain ⟨hold, hknown⟩ := h.tracks b _ hb
  have hrecord : (later.record event).events = u.events ++ [event] := by
    rw [← hevents]
    rfl
  refine h.record hrecord hevent (Nat.le_of_eq hintroduced.symm) ?_ ?_ ?_
  · rw [hnewcomers]
    exact nofun
  · intro b'
    rw [hgrows.mem_branches, h.mem_branches, branches_record, hbranches, Array.size_push,
      Array.size_push, Array.size_setIfInBounds, Nat.lt_succ_iff_lt_or_eq, Nat.lt_succ_iff_lt_or_eq]
  · intro b' branch hb'
    rw [branches_record, hbranches, Array.getElem?_push, Array.getElem?_push, Array.size_push,
      Array.size_setIfInBounds] at hb'
    -- the second child, the first one, or a branch that was there
    split at hb'
    · next heq =>
      subst heq
      cases hb'
      rw [Function.update_self]
      refine ⟨fun s => ?_, fun c => ?_⟩
      · simp [hgrows.claims_second, hold, hclaims]
      · simp [hgrows.individuals_second, hknown, hindividuals]
    · next hsecond =>
      rw [Function.update_of_ne hsecond]
      split at hb'
      · next heq =>
        subst heq
        cases hb'
        rw [Function.update_self]
        refine ⟨fun s => ?_, fun c => ?_⟩
        · simp [hgrows.claims_first, hold, hclaims]
        · simp [hgrows.individuals_first, hknown, hindividuals]
      · next hfirst =>
        rw [Function.update_of_ne hfirst]
        by_cases heq : b' = b
        · subst heq
          have hlt : b' < u.branches.size := (Array.getElem?_eq_some_iff.1 hb).1
          rw [Array.getElem?_setIfInBounds_self_of_lt hlt] at hb'
          cases hb'
          exact forked_concat_iff.2 (.inr hfork)
        · rw [Array.getElem?_setIfInBounds_ne (Ne.symm heq)] at hb'
          refine (h.tracks b' branch hb').concat (fun s => ?_) fun c => ?_
          · rw [hgrows.claims_of_ne b' hfirst hsecond]
          · rw [hgrows.individuals_of_ne b' hfirst hsecond]

/-- Putting on two new branches what is due on them. -/
theorem Replayed.addAll_children {older : Array Branch} {left right : List Signed}
    (h : Replayed seed (Function.update (Function.update (fun _ => []) older.size left)
      (older.size + 1) right) u)
    (hbranches : u.branches = (older.push ⟨path, .active⟩).push ⟨path, .active⟩) :
    Replayed seed (fun _ => []) ((u.addAll older.size left).addAll (older.size + 1) right) := by
  have hne : older.size ≠ older.size + 1 := Nat.ne_of_lt (Nat.lt_succ_self _)
  have hfirst : Replayed seed (Function.update (fun _ => []) (older.size + 1) right)
      (u.addAll older.size left) := by
    refine h.addAll (getElem?_children hbranches).1 ?_ ?_ ?_
    · rw [Function.update_of_ne hne, Function.update_self]
    · rw [Function.update_of_ne hne]
    · intro b' hne'
      by_cases heq : b' = older.size + 1
      · rw [heq, Function.update_self, Function.update_self]
      · rw [Function.update_of_ne heq, Function.update_of_ne heq, Function.update_of_ne hne']
  have hsecond := (getElem?_children (branches_addAll_first left hbranches)).2
  refine hfirst.addAll hsecond (Function.update_self _ _ _) rfl ?_
  intro b' hne'
  rw [Function.update_of_ne hne']

/-- What is pending on an active branch may be recorded. -/
theorem Replayed.allowed (h : Replayed seed (fun _ => []) u)
    (hb : u.branches[b]? = some ⟨path, .active⟩) {o : Obligation} {rule : Rule}
    (hpending : path.pending = some (o, rule)) :
    (replay u.events).Records b o.claim ∧
      rule.Allowed ((replay u.events).Records b) ((replay u.events).individuals b) o.claim
        o.individual := by
  obtain ⟨hmem, hallowed⟩ := Path.allowed_of_pending hpending
  have hknown : (fun s => s ∈ path.claims) = (replay u.events).Records b := by
    funext s
    rw [h.records_iff hb]
    simp
  have hindividuals := (h.tracks b _ hb).2
  rw [hknown] at hallowed
  refine ⟨(h.records_iff hb).2 (.inl hmem), ?_⟩
  cases hindividual : o.individual with
  | none =>
      rw [hindividual] at hallowed
      cases rule <;> exact hallowed
  | some c =>
      rw [hindividual] at hallowed
      cases rule with
      | witness terms => exact hallowed
      | _ => exact ⟨hallowed.1, (hindividuals c).2 hallowed.2⟩

/-- A step that adds claims. -/
theorem Replayed.linear (h : Replayed seed (fun _ => []) u)
    (hb : u.branches[b]? = some ⟨path, .active⟩) {o : Obligation} {produced : List Signed}
    (hpending : path.pending = some (o, .linear produced)) (round : Nat) :
    Replayed seed (fun _ => []) (u.apply round b o (.linear produced)) := by
  obtain ⟨hclaim, hallowed⟩ := h.allowed hb hpending
  have hevent : Admitted seed u.events (.expanded round b o.claim o.individual produced) ∧
      o.claim.isWitnessed = false := by
    cases hindividual : o.individual with
    | none =>
        rw [hindividual] at hallowed
        exact ⟨.expanded hclaim hallowed, hallowed.isWitnessed_eq⟩
    | some c =>
        rw [hindividual] at hallowed
        exact ⟨.applied hclaim hallowed.1 hallowed.2, hallowed.1.isWitnessed_eq⟩
  have hnobody : (Event.expanded round b o.claim o.individual produced).newcomers = [] := by
    simp [Event.newcomers, hevent.2]
  exact h.put hb rfl hevent.1 hnobody (Replay.puts_expanded _ round b _ _ produced)
    (branches_onPath_expanded hb o.toSlot) rfl rfl (Nat.le_refl _) (List.forall_mem_nil _)

/-- A step that introduces an individual. No event has mentioned it, because individuals are counted
up. -/
theorem Replayed.witness (h : Replayed seed (fun _ => []) u)
    (hb : u.branches[b]? = some ⟨path, .active⟩) {o : Obligation} {terms : List (Term × Bool)}
    (hpending : path.pending = some (o, .witness terms)) (round : Nat) :
    Replayed seed (fun _ => []) (u.apply round b o (.witness terms)) := by
  obtain ⟨hclaim, hallowed⟩ := h.allowed hb hpending
  cases hindividual : o.individual with
  | some c =>
      rw [hindividual] at hallowed
      exact hallowed.elim
  | none =>
      rw [hindividual] at hallowed
      have hintroduces := hallowed (u.introduced + 1)
      have hfresh : ∀ event ∈ u.events, u.introduced + 1 ∉ event.individuals :=
        fun event hmem hc => Nat.not_succ_le_self _ (h.named event hmem _ hc)
      have hmark := branches_onPath_expanded hb o.toSlot
      have hnewcomer : ∀ produced, (Event.expanded round b o.claim (some (u.introduced + 1))
          produced).newcomers = [u.introduced + 1] := by
        simp [Event.newcomers, hintroduces.isWitnessed_eq]
      exact h.put hb rfl (.introduced hclaim hintroduces hfresh) (hnewcomer _)
        (Replay.puts_expanded _ round b _ _ _) (branches_introduce hb hmark _) rfl rfl
        (Nat.le_succ _) (List.forall_mem_singleton.2 (Nat.le_refl _))

/-- A step that forks. -/
theorem Replayed.split (h : Replayed seed (fun _ => []) u)
    (hb : u.branches[b]? = some ⟨path, .active⟩) {o : Obligation} {left right : List Signed}
    (hpending : path.pending = some (o, .split left right)) (round : Nat) :
    Replayed seed (fun _ => []) (u.apply round b o (.split left right)) := by
  obtain ⟨hclaim, hallowed⟩ := h.allowed hb hpending
  have hunused : (replay u.events).Unused u.branches.size (u.branches.size + 1) := by
    refine ⟨?_, ?_, Nat.ne_of_lt (Nat.lt_succ_self _)⟩
    · rw [h.mem_branches]
      exact Nat.lt_irrefl _
    · rw [h.mem_branches]
      exact Nat.not_succ_lt_self
  have hevent : Admitted seed u.events (.split round b o.claim o.individual
      [(u.branches.size, left), (u.branches.size + 1, right)]) := by
    cases hindividual : o.individual with
    | none =>
        rw [hindividual] at hallowed
        exact .forked hclaim hallowed hunused
    | some c =>
        rw [hindividual] at hallowed
        exact .forkedFor hclaim hallowed.1 hallowed.2 hunused
  have hbranches := branches_fork_expanded hb (branches_onPath_expanded hb o.toSlot)
  have hgrows := Replay.grows_split hclaim.1 hunused round o.claim o.individual left right
  have hfork := h.fork hb hbranches rfl hevent (by simp [Forked]) hgrows rfl rfl
    (List.append_nil _) rfl
  have hsize : (u.onPath b fun path =>
      { path with expanded := path.expanded ++ [o.toSlot] }).branches.size = u.branches.size := by
    simp [onPath]
  rw [← Array.size_setIfInBounds] at hfork
  simp only [Copying.apply]
  rw [hsize, ← Array.size_setIfInBounds]
  exact hfork.addAll_children hbranches

/-- Every step keeps that the events replay to the branches. -/
theorem Replayed.apply (h : Replayed seed (fun _ => []) u)
    (hb : u.branches[b]? = some ⟨path, .active⟩) {o : Obligation} {rule : Rule}
    (hpending : path.pending = some (o, rule)) (round : Nat) :
    Replayed seed (fun _ => []) (u.apply round b o rule) := by
  cases rule with
  | linear produced => exact h.linear hb hpending round
  | witness terms => exact h.witness hb hpending round
  | split left right => exact h.split hb hpending round

/-- Recording one of the claims a run starts from, and putting it on the root. -/
theorem Replayed.seeded (h : Replayed seed (fun _ => []) u)
    (hroot : u.branches[0]? = some ⟨path, .active⟩) {s : Signed} (hs : s ∈ seed) :
    Replayed seed (fun _ => []) ((u.record (.seeded 0 s)).addAll 0 [s]) := by
  have hbranches : (u.record (.seeded 0 s)).branches =
      u.branches.setIfInBounds 0 ⟨path, .active⟩ := branches_addAll [] hroot
  exact h.put hroot rfl (.seeded hs) rfl (Replay.puts_seeded _ 0 s) hbranches rfl
    (List.append_nil _).symm (Nat.le_refl _) (List.forall_mem_nil _)

/-- The tableau a run starts from. -/
theorem replayed_ofSeed (hseed : ∀ s ∈ seed, s.claim.individuals = []) :
    Replayed seed (fun _ => []) (ofSeed seed) := by
  have hroot : Replayed seed (fun _ => []) ⟨#[⟨⟨[], [], []⟩, .active⟩], 0, []⟩ := by
    refine ⟨hseed, derivation_nil seed, fun b => ?_, fun b branch hb => ?_, nofun⟩
    · simp [Replay.start]
    · cases b with
      | zero =>
          cases hb
          simp [Tracks, Replay.start]
      | succ b => cases hb
  exact addSeeds_induction (fun hs h hget => h.seeded hget hs) hroot rfl

end

/-! ### Whole runs

When the rounds are over nothing is due any more. The closing events put nothing on a branch, so
they go on with any derivation. -/

/-- What is recorded at the end of a run goes on with every derivation, and nothing comes of it. -/
theorem derivation_append {seed : List Signed} {events closing : List Event}
    (h : Derivation seed events) (hclosing : ∀ event ∈ closing, event.isStep = false) :
    Derivation seed (events ++ closing) ∧ replay (events ++ closing) = replay events := by
  induction closing using List.reverseRecOn with
  | nil => simpa using h
  | append_singleton closing event ih =>
      obtain ⟨hbefore, hlast⟩ := List.forall_mem_append.1 hclosing
      obtain ⟨hderivation, hsame⟩ := ih hbefore
      rw [← List.append_assoc, replay_concat, hsame]
      cases event with
      | exhausted active => exact ⟨hderivation.concat (.exhausted active), rfl⟩
      | status b ending => exact ⟨hderivation.concat (.status b ending), rfl⟩
      | _ => cases hlast _ List.mem_cons_self

/-- If no branch is active any more, each of them has forked or closed. -/
theorem Replayed.forked_or_shut {seed : List Signed} (h : Replayed seed (fun _ => []) u)
    (hend : ∀ (b : BranchId) (path : Path), u.branches[b]? ≠ some ⟨path, .active⟩)
    (hb : b ∈ (replay u.events).branches) : Forked u.events b ∨ Shut u.events b := by
  have hlt : b < u.branches.size := (h.mem_branches b).1 hb
  obtain ⟨⟨path, state⟩, hget⟩ : ∃ branch, u.branches[b]? = some branch :=
    ⟨u.branches[b], Array.getElem?_eq_getElem hlt⟩
  have htracks := h.tracks b _ hget
  cases state with
  | active => exact absurd hget (hend b path)
  | split => exact .inl htracks
  | closed => exact .inr htracks
  | saturated => exact htracks.elim

/-- The events of a run are a derivation, and every branch forks or closes if the run does. -/
theorem derivation_of_run {seed : List Signed} (hseed : ∀ s ∈ seed, s.claim.individuals = [])
    (bound : Nat) :
    Derivation seed ((ofSeed seed).run bound).2 ∧
      (((ofSeed seed).run bound).1 = .closed →
        ∀ b ∈ (replay ((ofSeed seed).run bound).2).branches,
          Forked ((ofSeed seed).run bound).2 b ∨ Shut ((ofSeed seed).run bound).2 b) := by
  have hcases : (∃ later, rounds bound 0 (ofSeed seed) = (later, none) ∧
      Replayed seed (fun _ => []) later) ∨ _ :=
    rounds_cases (fun h hb hpending => h.apply hb hpending _) bound (replayed_ofSeed hseed)
  unfold run
  rcases hcases with ⟨later, hrounds, hend⟩ | ⟨before, b, path, hrounds, hend, -⟩
  · simp only [hrounds]
    obtain ⟨hderivation, hsame⟩ := derivation_append hend.derivation
      fun _ hmem => isStep_of_mem_closing hmem
    refine ⟨hderivation, fun hclosed b hb => ?_⟩
    rw [hsame] at hb
    exact (hend.forked_or_shut (of_outcome_eq_closed hclosed).2 hb).imp
      (fun hfork => hfork.append _) fun hshut => hshut.append _
  · simp only [hrounds]
    have hsaturated : Derivation seed
        ((before.setState b .saturated).record (.saturated b)).events :=
      hend.derivation.concat (.saturated b)
    exact ⟨(derivation_append hsaturated fun _ hmem => isStep_of_mem_closing hmem).1, nofun⟩

end Copying

namespace Tableau

universe v

/-- **The trace is a derivation.** For a run from signed formulas that is recorded in an empty
trace, each event is allowed by the rules after those before it: the claim that it consumes is on
its branch or above it, it adds what a rule gives for that claim, the individual is new or has been
introduced on the branch or above it, and a branch closes on a claim that it has with both signs. If
the run closes, every branch that the events make forks or closes in them, and so they show by
themselves that no interpretation makes all the formulas true. -/
theorem derivation_run (formulas : List (Bool × Formula)) (bound : Nat) :
    ∃ trace, ((ofSeed (formulas.map fun (sign, f) => .formula sign f) (some .empty)).run
        bound).tableau.trace = some trace ∧
      Derivation (formulas.map fun (sign, f) => .formula sign f) trace.toList ∧
      (((ofSeed (formulas.map fun (sign, f) => .formula sign f) (some .empty)).run
          bound).outcome = .closed →
        (∀ b ∈ (replay trace.toList).branches, Forked trace.toList b ∨ Shut trace.toList b) ∧
        ∀ I : Interpretation.{v}, ¬ ∀ entry ∈ formulas,
          (Signed.formula entry.1 entry.2).HoldsAt I fun _ => none) := by
  have hseed : ∀ s ∈ formulas.map (fun (sign, f) => Signed.formula sign f),
      s.claim.individuals = [] :=
    List.forall_mem_map.2 fun _ _ => rfl
  rw [trace_run, outcome_run]
  refine ⟨_, rfl, ?_⟩
  rw [Trace.toList_append, Trace.toList_empty, List.nil_append]
  obtain ⟨hderivation, hclosed⟩ := Copying.derivation_of_run hseed bound
  refine ⟨hderivation, fun houtcome => ⟨hclosed houtcome, fun I htrue => ?_⟩⟩
  exact hderivation.refutes (hclosed houtcome) (List.forall_mem_map.2 htrue)

/-- The trace for "some `S` are `M` or some `S` are `P`, all `M` are `P`, no `S` are `P`", which
forks, introduces individuals and closes. -/
theorem derivation_run_disjunction :
    ∃ formulas, formulas =
        [(true, .disjunction (.particular (.atom "S") (.atom "M"))
          (.particular (.atom "S") (.atom "P"))),
        (true, .universal (.atom "M") (.atom "P")),
        (false, .particular (.atom "S") (.atom "P"))] ∧
      ((ofSeed (formulas.map fun (sign, f) => .formula sign f) (some .empty)).run 20).outcome =
        .closed ∧
      ∃ trace, ((ofSeed (formulas.map fun (sign, f) => .formula sign f) (some .empty)).run
          20).tableau.trace = some trace ∧
        Derivation (formulas.map fun (sign, f) => .formula sign f) trace.toList ∧
        ∀ b ∈ (replay trace.toList).branches, Forked trace.toList b ∨ Shut trace.toList b := by
  have hclosed : ((ofSeed
      ([(true, .disjunction (.particular (.atom "S") (.atom "M"))
          (.particular (.atom "S") (.atom "P"))),
        (true, .universal (.atom "M") (.atom "P")),
        (false, .particular (.atom "S") (.atom "P"))].map fun (sign, f) => .formula sign f)
      (some .empty)).run 20).outcome = .closed := by decide +kernel
  obtain ⟨trace, htrace, hderivation, hend⟩ := derivation_run.{0} _ 20
  exact ⟨_, rfl, hclosed, trace, htrace, hderivation, (hend hclosed).1⟩

end Tableau

end TermLogic
