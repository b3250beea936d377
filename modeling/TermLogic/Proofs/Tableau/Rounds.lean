import Mathlib.Data.List.Nodup
import TermLogic.Proofs.Tableau.Verdict
import TermLogic.Proofs.Trace.Lineage

/-!
# One expansion in each round

Every active leaf expands one obligation in each round, and no path expands an obligation twice. So
the expansions that the events of a run record on the way to a branch are numbered by their rounds,
and no two of them are the same.

* `Rule.event`, `Copying.expansionsTo_apply`: the event that records a step, and the only expansion
  that a step records.
* `Path.Logged`: the expansions on the way to a branch are those that its path keeps, the `k`-th of
  them from round `k`.
* `Copying.Paced`: what every step keeps: all branches are logged, and each active leaf has made as
  many expansions as there have been rounds, or one more if it has been visited in this one.
* `Copying.Stopped`, `Copying.stopped_rounds`: what is left of it when the rounds are over.
* `Tableau.disciplined_run`: the expansions in the trace of a run.
-/

namespace TermLogic

/-! ### The expansion of a step

Each step records one event for its rule and then, perhaps, closures. So the expansions that are
recorded can be counted step by step. -/

/-- The event that records the expansion of an obligation; `fresh` is the individual that a witness
rule introduces, and `child` the first branch that a fork makes. -/
def Rule.event (fresh : Individual) (child : BranchId) (round : Nat) (b : BranchId)
    (o : Obligation) : Rule → Event
  | linear produced => .expanded round b o.claim o.individual produced
  | witness terms =>
    .expanded round b o.claim (some fresh)
      (terms.map fun (term, sign) => .predication sign fresh term)
  | split left right => .split round b o.claim o.individual [(child, left), (child + 1, right)]

/-- The branches that grow in the event of a step grow from the branch that takes it. -/
theorem Rule.stem?_event (fresh : Individual) (child : BranchId) (round : Nat) (b : BranchId)
    (o : Obligation) (rule : Rule) (b' : BranchId) :
    (rule.event fresh child round b o).stem? b' =
      if child ≤ b' ∧ b' < child + (rule.event fresh child round b o).offspring.length then some b
      else none := by
  have hchildren : ∀ {n m : Nat}, m = n ∨ m = n + 1 ↔ n ≤ m ∧ m < n + 2 := by omega
  rcases rule with _ | _ | _
  · exact (if_neg fun hnew => absurd hnew.2 (Nat.not_lt.2 hnew.1)).symm
  · simp [event, Event.stem?, Event.offspring, Event.actor?, hchildren]
  · exact (if_neg fun hnew => absurd hnew.2 (Nat.not_lt.2 hnew.1)).symm

/-- What an expansion uses up: its claim, and only for the individual if the claim speaks of every
individual. -/
def Expansion.spends (e : Expansion) : Signed × Option Individual :=
  (e.consumed, if e.consumed.isGeneral then e.individual else none)

/-- A step that is due records the expansion of what is pending. -/
theorem Path.expansion?_event {path : Path} {o : Obligation} {rule : Rule}
    (h : path.pending = some (o, rule)) (fresh : Individual) (child : BranchId) (round : Nat)
    (b : BranchId) :
    ∃ e, (rule.event fresh child round b o).expansion? = some e ∧ e.round = round ∧
      e.branch = b ∧ e.spends = (o.claim, o.individual) := by
  obtain ⟨ho, -, -⟩ := of_pending_eq_some h
  obtain ⟨-, hcalls⟩ := mem_obligations_iff.1 ho
  obtain ⟨-, hallowed⟩ := allowed_of_pending h
  -- a claim that is expanded once has no individual, even if it introduces one
  rcases hindividual : o.individual with _ | c
  · rw [hindividual] at hcalls
    rcases rule with _ | _ | _ <;>
      exact ⟨_, rfl, rfl, rfl, by simp [Expansion.spends, hcalls.1]⟩
  · rw [hindividual] at hcalls hallowed
    rcases rule with _ | _ | _
    · exact ⟨_, rfl, rfl, rfl, by simp [Expansion.spends, hcalls.1, hindividual]⟩
    · exact ⟨_, rfl, rfl, rfl, by simp [Expansion.spends, hcalls.1, hindividual]⟩
    · exact hallowed.elim

namespace Copying

variable {t u : Copying} {b : BranchId} {path : Path}

/-- Recording what is no expansion adds none. -/
theorem expansionsTo_record (t : Copying) {event : Event} (h : event.expansion? = none)
    (b : BranchId) : expansionsTo (t.record event).events b = expansionsTo t.events b :=
  expansionsTo_append (List.forall_mem_singleton.2 h) b

/-- Putting a claim on a branch is no expansion, even if it closes the branch. -/
theorem expansionsTo_add (t : Copying) (b : BranchId) (s : Signed) (b' : BranchId) :
    expansionsTo (t.add b s).events b' = expansionsTo t.events b' := by
  unfold add
  simp only
  split
  · rfl
  · split
    · exact expansionsTo_record _ rfl b'
    · rfl

/-- Putting claims on a branch is no expansion. -/
theorem expansionsTo_addAll (t : Copying) (b : BranchId) (claims : List Signed) (b' : BranchId) :
    expansionsTo (t.addAll b claims).events b' = expansionsTo t.events b' := by
  induction claims generalizing t with
  | nil => rfl
  | cons s rest ih =>
      unfold addAll
      simp only
      split
      · exact expansionsTo_add t b s b'
      · rw [ih, expansionsTo_add]

/-- Nothing has been expanded before the first step. -/
theorem expansionsTo_ofSeed (seed : List Signed) (b : BranchId) :
    expansionsTo (ofSeed seed).events b = [] := by
  have hseeds : ∀ t : Copying, expansionsTo (addSeeds seed t).events b =
      expansionsTo t.events b := by
    induction seed with
    | nil => exact fun _ => rfl
    | cons s rest ih =>
        intro t
        unfold addSeeds
        simp only
        split
        · rw [expansionsTo_add, expansionsTo_record t rfl]
        · rw [ih, expansionsTo_add, expansionsTo_record t rfl]
  exact hseeds _

/-- A step records one expansion. -/
theorem expansionsTo_apply (t : Copying) (round : Nat) (b : BranchId) (o : Obligation) (rule : Rule)
    (b' : BranchId) :
    expansionsTo (t.apply round b o rule).events b' =
      expansionsTo (t.events ++ [rule.event (t.introduced + 1) t.branches.size round b o]) b' := by
  have hsize : (t.onPath b fun path =>
      { path with expanded := path.expanded ++ [o.toSlot] }).branches.size = t.branches.size := by
    simp [onPath]
  rcases rule with produced | ⟨left, right⟩ | terms
  · exact expansionsTo_addAll _ b produced b'
  · simp only [apply, expansionsTo_addAll, hsize]
    rfl
  · exact expansionsTo_addAll _ b _ b'

/-- A step adds as many branches as the fork that it records makes. -/
theorem size_apply (hb : t.branches[b]? = some ⟨path, .active⟩) (round : Nat) (o : Obligation)
    (rule : Rule) :
    (t.apply round b o rule).branches.size = t.branches.size +
      (rule.event (t.introduced + 1) t.branches.size round b o).offspring.length := by
  rcases branches_apply hb round o rule with ⟨branch, hnext, heq⟩ | ⟨first, second, hnext, heq⟩
  · rcases rule with _ | _ | _
    · simp [heq, Rule.event, Event.offspring]
    · cases hnext
    · simp [heq, Rule.event, Event.offspring]
  · rcases rule with _ | _ | _
    · cases hnext
    · simp [heq, Rule.event, Event.offspring]
    · cases hnext

/-- A step on an active branch either leaves another branch alone, or it makes or ends the branch,
which then has one expansion more than the branch that has taken the step. -/
theorem Enrolled.expansionsTo_apply_cases (h : t.Enrolled)
    (hb : t.branches[b]? = some ⟨path, .active⟩) {o : Obligation} {rule : Rule}
    (hpending : path.pending = some (o, rule)) (round : Nat) {b' : BranchId} {branch : Branch}
    (hb' : (t.apply round b o rule).branches[b']? = some branch) :
    (t.branches[b']? = some branch ∧
      expansionsTo (t.apply round b o rule).events b' = expansionsTo t.events b') ∨
    ((branch = ⟨path.expand o.toSlot [], .split⟩ ∨ branch ∈ path.next (t.introduced + 1) o rule) ∧
      ∃ e, expansionsTo (t.apply round b o rule).events b' = expansionsTo t.events b ++ [e] ∧
        e.round = round ∧ e.branch = b ∧ e.spends = (o.claim, o.individual)) := by
  obtain ⟨e, he, hround, hbranch, hspends⟩ :=
    Path.expansion?_event hpending (t.introduced + 1) t.branches.size round b
  have htimely : Timely t.events (rule.event (t.introduced + 1) t.branches.size round b o) := by
    refine h.timely hb ?_ ?_
    · rw [Event.actor?_of_expansion? he, hbranch]
    · rcases rule with _ | _ | _ <;> simp [Rule.event, Event.isSplit, Event.offspring]
  have hlt : b < t.branches.size := (Array.getElem?_eq_some_iff.1 hb).1
  have hlt' := (Array.getElem?_eq_some_iff.1 hb').1
  rw [size_apply hb] at hlt'
  rw [expansionsTo_apply, h.orderly.expansionsTo_concat htimely, Rule.stem?_event, he]
  rcases of_getElem?_apply hb hb' with ⟨hne, hold⟩ | ⟨rfl, hforked⟩ | ⟨rfl | hge, hmem⟩
  · left
    have hold' : b' < t.branches.size := (Array.getElem?_eq_some_iff.1 hold).1
    rw [if_neg (fun hnew => absurd hold' (Nat.not_lt.2 hnew.1))]
    refine ⟨hold, ?_⟩
    simp [Option.filter, hbranch, Ne.symm hne]
  · right
    rw [if_neg (fun hnew => absurd hlt (Nat.not_lt.2 hnew.1))]
    exact ⟨.inl hforked, e, by simp [Option.filter, hbranch], hround, hbranch, hspends⟩
  · right
    rw [if_neg (fun hnew => absurd hlt (Nat.not_lt.2 hnew.1))]
    exact ⟨.inr hmem, e, by simp [Option.filter, hbranch], hround, hbranch, hspends⟩
  · right
    rw [if_pos ⟨hge, hlt'⟩]
    exact ⟨.inr hmem, e, rfl, hround, hbranch, hspends⟩

end Copying

/-! ### What a path has expanded

A path keeps its expanded slots in order. The events tell the same by claims, and both are lined up
here, the `k`-th slot with the `k`-th expansion on the way to the branch. -/

namespace Path

variable {path later : Path} {o : Obligation} {rule : Rule} {log : List Expansion}

/-- The expansions are those that the path keeps, the `k`-th of them from round `k`. -/
structure Logged (path : Path) (log : List Expansion) : Prop where
  /-- There has been one in each round. -/
  rounds : log.map Expansion.round = List.range path.expanded.length
  /-- They have used up what the path has expanded. -/
  spends : log.map Expansion.spends = path.spent

/-- A branch that a step makes or ends has expanded the obligation and has only gained claims. -/
theorem expanded_of_step {fresh : Individual} {branch : Copying.Branch}
    (h : branch = ⟨path.expand o.toSlot [], .split⟩ ∨ branch ∈ path.next fresh o rule) :
    branch.path.expanded = path.expanded ++ [o.toSlot] ∧
      ∃ added, branch.path.claims = path.claims ++ added := by
  rcases h with rfl | hmem
  · exact ⟨rfl, [], (List.append_nil _).symm⟩
  · obtain ⟨alternative, -, rfl⟩ := List.mem_map.1 hmem
    obtain ⟨added, hadded, -⟩ :=
      (path.expand o.toSlot (rule.newcomers fresh)).exists_claims_addAll alternative
    exact ⟨by rw [expanded_addAll, expanded_expand], added, hadded⟩

/-- What is used up by one more expansion. -/
theorem spent_eq_concat {added : List Signed}
    (hplaces : ∀ slot ∈ path.expanded, ∃ o ∈ path.obligations, o.toSlot = slot)
    (ho : o ∈ path.obligations) (hexpanded : later.expanded = path.expanded ++ [o.toSlot])
    (hclaims : later.claims = path.claims ++ added) :
    later.spent = path.spent ++ [(o.claim, o.individual)] := by
  have hget : ∀ o ∈ path.obligations, later.claims[o.place]? = path.claims[o.place]? := by
    intro o ho
    rw [hclaims, List.getElem?_append_left (place_lt_of_mem_obligations ho)]
  unfold spent
  rw [hexpanded, List.filterMap_append]
  congr 1
  · refine List.filterMap_congr fun slot hslot => ?_
    obtain ⟨o', ho', rfl⟩ := hplaces slot hslot
    rw [hget o' ho']
  · simp [hget o ho, (mem_obligations_iff.1 ho).1]

/-- If no claim is on a path twice and no slot is expanded twice, nothing is used up twice. -/
theorem nodup_spent (hclaims : path.claims.Nodup) (hexpanded : path.expanded.Nodup) :
    path.spent.Nodup := by
  refine List.pairwise_filterMap.2 (hexpanded.imp ?_)
  rintro ⟨place, individual⟩ ⟨place', individual'⟩ hne entry hentry entry' hentry' rfl
  obtain ⟨s, hs, rfl⟩ := Option.map_eq_some_iff.1 hentry
  obtain ⟨s', hs', heq⟩ := Option.map_eq_some_iff.1 hentry'
  obtain ⟨rfl, rfl⟩ := Prod.mk.inj heq
  have hplace : place = place' :=
    (List.getElem?_inj (List.getElem?_eq_some_iff.1 hs).1 hclaims).1 (hs.trans hs'.symm)
  exact hne (by rw [hplace])

/-- One more expansion, in the next round. -/
theorem Logged.concat (h : path.Logged log) {e : Expansion}
    (hround : e.round = path.expanded.length) (hspends : e.spends = (o.claim, o.individual))
    (hexpanded : later.expanded = path.expanded ++ [o.toSlot])
    (hspent : later.spent = path.spent ++ [(o.claim, o.individual)]) :
    later.Logged (log ++ [e]) where
  rounds := by
    rw [List.map_append, h.rounds, hexpanded, List.length_append, List.length_singleton,
      List.range_succ, List.map_singleton, hround]
  spends := by
    rw [List.map_append, h.spends, hspent, List.map_singleton, hspends]

/-- The `k`-th expansion was made in round `k`. -/
theorem Logged.round_eq (h : path.Logged log) {k : Nat} {e : Expansion} (hk : log[k]? = some e) :
    e.round = k := by
  have hround : (log.map Expansion.round)[k]? = some e.round := by
    rw [List.getElem?_map, hk]
    rfl
  rw [h.rounds] at hround
  obtain ⟨hlt, heq⟩ := List.getElem?_eq_some_iff.1 hround
  rw [← heq, List.getElem_range]

/-- There are as many records as there are expansions. -/
theorem Logged.length_eq (h : path.Logged log) : log.length = path.expanded.length := by
  simpa using congrArg List.length h.rounds

/-- A claim is expanded once, or for different individuals. -/
theorem Logged.pairwise (h : path.Logged log) (hnodup : path.spent.Nodup) :
    log.Pairwise fun earlier later => earlier.consumed = later.consumed →
      earlier.consumed.isGeneral = true ∧ earlier.individual ≠ later.individual := by
  rw [← h.spends] at hnodup
  refine (List.pairwise_map.1 hnodup).imp ?_
  intro earlier later hne hconsumed
  unfold Expansion.spends at hne
  rw [← hconsumed] at hne
  by_cases hgeneral : earlier.consumed.isGeneral = true
  · refine ⟨hgeneral, fun hsame => hne ?_⟩
    rw [hsame]
  · rw [if_neg hgeneral, if_neg hgeneral] at hne
    exact absurd rfl hne

end Path

/-! ### What every step keeps

In the middle of a round some active branches have had their turn and some have not, and those that
arise in it have had theirs. The branches still to be visited are carried along, so as to tell
which. -/

/-- No branch expands a slot twice. -/
theorem Copying.Branch.branchInvariant_nodup_expanded :
    BranchInvariant fun branch => branch.path.expanded.Nodup := by
  have hstep : ∀ {path : Path} {o : Obligation} {rule : Rule}, path.expanded.Nodup →
      path.pending = some (o, rule) → (path.expanded ++ [o.toSlot]).Nodup := by
    intro path o rule h hpending
    obtain ⟨-, hnew, -⟩ := Path.of_pending_eq_some hpending
    rw [← List.concat_eq_append]
    exact List.Nodup.concat hnew h
  refine ⟨fun h hpending hmem => ?_, hstep, fun h _ => h⟩
  rw [(Path.expanded_of_step (.inr hmem)).1]
  exact hstep h hpending

/-- A path makes one expansion in each step. -/
theorem Path.pathInvariant_length_expanded :
    PathInvariant fun round _ path => path.expanded.length = round where
  mono _ h := h
  step h _ hfollows := by
    rw [hfollows.expanded_eq, List.length_append, h, List.length_singleton]

namespace Copying

variable {t u : Copying} {b : BranchId} {path : Path} {round : Nat} {rest : List BranchId}

/-- No claim is on a branch twice, and nothing has been expanded twice. -/
def Branch.Frugal (branch : Branch) : Prop :=
  branch.Tidy ∧ branch.path.expanded.Nodup

/-- Every step keeps a branch frugal. -/
theorem Branch.branchInvariant_frugal : BranchInvariant Branch.Frugal :=
  branchInvariant_tidy.and branchInvariant_nodup_expanded

/-- A run starts with a frugal branch. -/
theorem Branch.frugal_seed (seed : List Signed) : Frugal (Path.addAll ⟨[], [], []⟩ seed) := by
  refine ⟨tidy_seed seed, ?_⟩
  rw [Path.expanded_addAll]
  exact List.nodup_nil

/-- The events tell what each branch has expanded. -/
def Logged (u : Copying) : Prop :=
  ∀ (b : BranchId) (branch : Branch), u.branches[b]? = some branch →
    branch.path.Logged (expansionsTo u.events b)

/-- In the current round, of which the branches `rest` are still to be visited, the events tell what
each branch has expanded, and each active leaf has made one expansion in each round so far. -/
structure Paced (round : Nat) (rest : List BranchId) (u : Copying) : Prop where
  /-- The events are in order and give the states of the branches. -/
  enrolled : u.Enrolled
  /-- No branch has expanded anything twice. -/
  frugal : u.Everywhere Branch.Frugal
  /-- The events tell what each branch has expanded. -/
  logged : u.Logged
  /-- Each active leaf has made one expansion in each round. -/
  counted : PathInvariant.OnActive (fun round _ path => path.expanded.length = round) round rest u

/-- A step makes the expansion that it records. -/
theorem Paced.apply (h : u.Paced round (b :: rest)) (hsched : u.Scheduled (b :: rest))
    (hb : u.branches[b]? = some ⟨path, .active⟩) {o : Obligation} {rule : Rule}
    (hpending : path.pending = some (o, rule)) : (u.apply round b o rule).Paced round rest where
  enrolled := h.enrolled.apply hb round o rule
  frugal := Branch.branchInvariant_frugal.apply h.frugal hb hpending round
  counted := Path.pathInvariant_length_expanded.onActive_apply hsched h.counted hb hpending
  logged := by
    intro b' branch hb'
    rcases h.enrolled.expansionsTo_apply_cases hb hpending round hb' with
      ⟨hold, heq⟩ | ⟨hstep, e, heq, hround, -, hspends⟩
    · rw [heq]
      exact h.logged b' branch hold
    · rw [heq]
      obtain ⟨hexpanded, added, hclaims⟩ := Path.expanded_of_step hstep
      have hlength : path.expanded.length = round := (h.counted b path hb).1 List.mem_cons_self
      refine (h.logged b _ hb).concat (hround.trans hlength.symm) hspends hexpanded ?_
      exact Path.spent_eq_concat (h.frugal b _ hb).1.expanded (Path.of_pending_eq_some hpending).1
        hexpanded hclaims

/-- The first round starts with nothing expanded. -/
theorem paced_ofSeed (seed : List Signed) :
    (ofSeed seed).Paced 0 (ofSeed seed).activeLeaves where
  enrolled := enrolled_ofSeed seed
  frugal := BranchInvariant.ofSeed (Branch.frugal_seed seed)
  counted := PathInvariant.onActive_activeLeaves_iff.2 fun b path hb => by
    have hroot := congrArg (·.path.expanded) (addAll_of_getElem?_ofSeed hb)
    simp only [Path.expanded_addAll] at hroot
    rw [← hroot]
    rfl
  logged b branch hb := by
    have hroot := addAll_of_getElem?_ofSeed hb
    rw [expansionsTo_ofSeed, ← hroot]
    refine ⟨?_, ?_⟩ <;> simp [Path.spent]

/-- What is left when the rounds are over. -/
structure Stopped (bound : Nat) (u : Copying) (saturated : Option BranchId) : Prop where
  /-- No branch has expanded anything twice. -/
  frugal : u.Everywhere Branch.Frugal
  /-- The events tell what each branch has expanded. -/
  logged : u.Logged
  /-- If no branch has ended the rounds, each active leaf has gone through all of them. -/
  used_up : saturated = none → ∀ (b : BranchId) (path : Path),
    u.branches[b]? = some ⟨path, .active⟩ → path.expanded.length = bound
  /-- If a branch has ended the rounds, nothing was pending on it, and each active leaf has gone
  through as many rounds as it, or one more. -/
  ended : ∀ a, saturated = some a → ∃ own, u.branches[a]? = some ⟨own, .saturated⟩ ∧
    own.pending = none ∧ ∀ (b : BranchId) (path : Path), u.branches[b]? = some ⟨path, .active⟩ →
      path.expanded.length = own.expanded.length ∨
        path.expanded.length = own.expanded.length + 1

/-- All rounds have been gone through, or no leaf is active. -/
theorem Paced.stopped {bound : Nat} (h : u.Paced round u.activeLeaves)
    (hround : u.activeLeaves = [] ∨ round = bound) : u.Stopped bound none where
  frugal := h.frugal
  logged := h.logged
  ended := nofun
  used_up _ b path hb := by
    have hlength := PathInvariant.onActive_activeLeaves_iff.1 h.counted b path hb
    rcases hround with hnone | rfl
    · exact absurd (mem_activeLeaves_iff.2 ⟨path, hb⟩) (by rw [hnone]; exact List.not_mem_nil)
    · exact hlength

/-- A branch on which nothing is pending ends the rounds. -/
theorem Paced.stopped_of_pending_eq_none (h : u.Paced round (b :: rest))
    (hb : u.branches[b]? = some ⟨path, .active⟩) (hpending : path.pending = none) (bound : Nat) :
    ((u.setState b .saturated).record (.saturated b)).Stopped bound (some b) := by
  have hlt : b < u.branches.size := (Array.getElem?_eq_some_iff.1 hb).1
  have hbranches : ((u.setState b .saturated).record (.saturated b)).branches =
      u.branches.setIfInBounds b ⟨path, .saturated⟩ := branches_setState hb .saturated
  refine
    { frugal := Branch.branchInvariant_frugal.saturate h.frugal hb hpending
      logged := ?_
      used_up := nofun
      ended := ?_ }
  · unfold Logged
    rw [hbranches]
    refine forall_getElem?_setIfInBounds ?_ fun b' branch _ hb' => ?_
    · rw [expansionsTo_record _ rfl]
      exact h.logged b ⟨path, .active⟩ hb
    · rw [expansionsTo_record _ rfl]
      exact h.logged b' branch hb'
  · rintro a ⟨rfl⟩
    have hown : path.expanded.length = round := (h.counted b path hb).1 List.mem_cons_self
    refine ⟨path, ?_, hpending, ?_⟩
    · rw [hbranches, Array.getElem?_setIfInBounds_self_of_lt hlt]
    · rw [hbranches, hown]
      intro b' later hb'
      by_cases hne : b' = b
      · subst hne
        rw [Array.getElem?_setIfInBounds_self_of_lt hlt] at hb'
        cases hb'
      · rw [Array.getElem?_setIfInBounds_ne (Ne.symm hne)] at hb'
        by_cases hmem : b' ∈ b :: rest
        · exact .inl ((h.counted b' later hb').1 hmem)
        · exact .inr ((h.counted b' later hb').2 hmem)

/-- The rounds of a run, from the first to the last. -/
theorem stopped_rounds (seed : List Signed) (bound : Nat) :
    ((ofSeed seed).rounds bound 0).1.Stopped bound ((ofSeed seed).rounds bound 0).2 := by
  have hturn : ∀ {t : Copying} {round : Nat}, t.Paced round [] →
      t.Paced (round + 1) t.activeLeaves := fun h =>
    ⟨h.enrolled, h.frugal, h.logged, PathInvariant.onActive_turn h.counted⟩
  rcases rounds_cases_of_turn (P := fun round rest u => Paced round rest u)
    (fun hsched h hb hpending => h.apply hsched hb hpending) hturn bound (paced_ofSeed seed) with
    ⟨later, reached, hrounds, hend, hreached⟩ |
      ⟨before, reached, b, rest, path, hrounds, hend, hb, hpending⟩
  · rw [hrounds]
    rw [Nat.zero_add] at hreached
    exact hend.stopped hreached
  · rw [hrounds]
    exact hend.stopped_of_pending_eq_none hb hpending bound

end Copying

/-! ### The trace of a run

The closing events are no expansions, so what the rounds have recorded is what the whole trace
tells. -/

/-- An expansion is a step. -/
theorem Event.expansion?_eq_none {event : Event} (h : event.isStep = false) :
    event.expansion? = none := by
  rcases event with _ | _ | _ | _ | _ | _ | _ <;> simp_all [Event.isStep, Event.expansion?]

/-- The unfinished leaves are the active ones. -/
theorem Copying.unfinished_mem_leafEndings_iff {u : Copying} {b : BranchId} :
    (b, .unfinished) ∈ leafEndings u.states ↔ ∃ path, u.branches[b]? = some ⟨path, .active⟩ := by
  rw [mem_leafEndings_iff, getElem?_states]
  rcases u.branches[b]? with _ | ⟨path, _ | _ | _ | _⟩ <;> simp [Branch.State.status?]

/-- The expansions on the way to a branch follow the rounds, and none of them is made twice. -/
structure Trace.Disciplined (trace : Trace) (b : BranchId) : Prop where
  /-- The `k`-th expansion was made in round `k`. -/
  rounds : ∀ (k : Nat) (e : Expansion), (expansionsTo trace.toList b)[k]? = some e → e.round = k
  /-- A claim is expanded once, unless it speaks of every individual, and then once for each. -/
  once : (expansionsTo trace.toList b).Pairwise fun earlier later =>
    earlier.consumed = later.consumed →
      earlier.consumed.isGeneral = true ∧ earlier.individual ≠ later.individual

namespace Tableau

/-- What the trace of a run shows, by the tableau in which every branch owns its path. -/
theorem exists_trace_run (seed : List Signed) (bound : Nat) :
    ∃ trace, ((ofSeed seed (some .empty)).run bound).tableau.trace = some trace ∧
      ((Copying.ofSeed seed).rounds bound 0).1.events <+: trace.toList ∧
      trace.statuses = leafEndings ((Copying.ofSeed seed).rounds bound 0).1.states ∧
      ∀ b, expansionsTo trace.toList b =
        expansionsTo ((Copying.ofSeed seed).rounds bound 0).1.events b := by
  rw [trace_run]
  have hfinished := Copying.finished_rounds seed bound
  unfold Copying.run
  generalize (Copying.ofSeed seed).rounds bound 0 = result at hfinished
  obtain ⟨u, saturated⟩ := result
  refine ⟨Trace.append .empty (u.events ++ u.closing (u.outcome saturated)), rfl, ?_⟩
  generalize htrace : Trace.append .empty _ = trace
  have hevents : trace.toList = u.events ++ u.closing (u.outcome saturated) := by
    rw [← htrace, Trace.toList_append, Trace.toList_empty, List.nil_append]
  have hclosing := hevents
  rw [Copying.closing_eq, ← List.append_assoc] at hclosing
  refine ⟨⟨_, hevents.symm⟩, Trace.statuses_eq hclosing fun event hmem => ?_, fun b => ?_⟩
  · obtain ⟨b, hb⟩ := hfinished.acts event hmem
    rw [Event.isStep_eq, hb]
    rfl
  · rw [hevents]
    refine expansionsTo_append (fun event hmem => ?_) b
    exact Event.expansion?_eq_none (Copying.isStep_of_mem_closing hmem)

/-- The leaves that a run records as unfinished are those that are still active in the end. -/
theorem unfinished_mem_endings_iff (seed : List Signed) (bound : Nat) {b : BranchId} :
    (b, .unfinished) ∈ leafEndings ((Copying.ofSeed seed).rounds bound 0).1.states ↔
      ((ofSeed seed (some .empty)).run bound).tableau.isIn .active b = true := by
  rw [Copying.unfinished_mem_leafEndings_iff, isIn_run, Copying.isIn_iff]

/-- **One expansion in each round.** On the way to any branch of a run, the `k`-th expansion was
made in round `k`, and no obligation was expanded twice. The unfinished leaves are those that are
still active in the finished tableau. If the run has used up its bound, there has been one expansion
in each round on the way to every one of them. -/
theorem disciplined_run (seed : List Signed) (bound : Nat) :
    ∃ trace, ((ofSeed seed (some .empty)).run bound).tableau.trace = some trace ∧
      (∀ b < ((ofSeed seed (some .empty)).run bound).tableau.branches.size, trace.Disciplined b) ∧
      (∀ b, (b, .unfinished) ∈ trace.statuses ↔
        ((ofSeed seed (some .empty)).run bound).tableau.isIn .active b = true) ∧
      ∀ active, ((ofSeed seed (some .empty)).run bound).outcome = .exhausted active →
        ∀ b, (b, .unfinished) ∈ trace.statuses →
          (expansionsTo trace.toList b).length = bound := by
  obtain ⟨trace, htrace, -, hstatuses, hexpansions⟩ := exists_trace_run seed bound
  have hstopped := Copying.stopped_rounds seed bound
  refine ⟨trace, htrace, fun b hb => ?_, fun b => ?_, fun active houtcome b hmem => ?_⟩
  · have hsize : b < ((Copying.ofSeed seed).rounds bound 0).1.branches.size := by
      rw [((mirrors_ofSeed seed (some .empty)).rounds bound 0).1.size_eq]
      rwa [branches_run] at hb
    have hlogged := hstopped.logged b _ (Array.getElem?_eq_getElem hsize)
    obtain ⟨htidy, hnodup⟩ := hstopped.frugal b _ (Array.getElem?_eq_getElem hsize)
    refine ⟨?_, ?_⟩ <;> rw [hexpansions]
    · exact fun k e hk => hlogged.round_eq hk
    · exact hlogged.pairwise (Path.nodup_spent htidy.nodup hnodup)
  · rw [hstatuses]
    exact unfinished_mem_endings_iff seed bound
  · rw [outcome_run] at houtcome
    obtain ⟨hnone, -⟩ := Copying.of_outcome_eq_exhausted houtcome
    rw [hstatuses, Copying.unfinished_mem_leafEndings_iff] at hmem
    obtain ⟨path, hb⟩ := hmem
    rw [hexpansions, (hstopped.logged b _ hb).length_eq]
    exact hstopped.used_up hnone b path hb

/-- Two rounds on "`A` or `B`" and "`C` or `D`": the last leaf has grown from branch 2 and this from
the root, and each of them has made an expansion. -/
theorem disciplined_run_forks :
    ∃ seed report trace,
      seed = [.formula true (.disjunction (.atom (.atom "A")) (.atom (.atom "B"))),
        .formula true (.disjunction (.atom (.atom "C")) (.atom (.atom "D")))] ∧
      report = (ofSeed seed (some .empty)).run 2 ∧ report.tableau.trace = some trace ∧
      report.outcome = .exhausted 4 ∧ (6, .unfinished) ∈ trace.statuses ∧
      report.tableau.isIn .active 6 = true ∧ trace.Disciplined 6 ∧
      (expansionsTo trace.toList 6).length = 2 ∧
      (expansionsTo trace.toList 6).map Expansion.branch = [0, 2] := by
  obtain ⟨trace, htrace, hdisciplined, hactive, hlength⟩ := disciplined_run
    [.formula true (.disjunction (.atom (.atom "A")) (.atom (.atom "B"))),
      .formula true (.disjunction (.atom (.atom "C")) (.atom (.atom "D")))] 2
  have hlast := (hactive 6).2 (by decide +kernel)
  have hbranches : (((ofSeed
      [.formula true (.disjunction (.atom (.atom "A")) (.atom (.atom "B"))),
        .formula true (.disjunction (.atom (.atom "C")) (.atom (.atom "D")))]
      (some .empty)).run 2).tableau.trace.map fun trace =>
        (expansionsTo trace.toList 6).map Expansion.branch) = some [0, 2] := by decide +kernel
  rw [htrace, Option.map_some, Option.some.injEq] at hbranches
  exact ⟨_, _, trace, rfl, rfl, htrace, by decide +kernel, hlast, (hactive 6).1 hlast,
    hdisciplined 6 (by decide +kernel), hlength 4 (by decide +kernel) 6 hlast, hbranches⟩

end Tableau

end TermLogic
