import TermLogic.Proofs.Tableau.Steps

/-!
# What every branch keeps

A branch that has forked, closed or turned out to be saturated stays in the tableau as it is. So a
property that a step hands on to the branches it makes, and leaves to the branch it ends, holds of
all branches at any time, and not only of the active ones.

* `BranchInvariant`: such a property. `BranchInvariant.apply`, `BranchInvariant.saturate` and
  `BranchInvariant.rounds` give it for all branches after a step, at the end of a saturated branch,
  and after any number of rounds.
* `Path.Clashes`: the last claim of a path, and no other, contradicts an earlier one.
* `Copying.Branch.Tidy`: no claim twice, no contradiction before the claim that closes the branch,
  and nothing expanded that is no obligation. `Copying.Branch.branchInvariant_tidy` says that every
  step hands it on.
* `Path.isExpanded_iff_mem_spent`: on a tidy branch it makes no difference whether expanded
  obligations are kept by place or by claim.
-/

namespace TermLogic

/-! ### Properties of all branches

A property of active branches can be carried along by `PathInvariant`. Here branches that are not
active any more are spoken of too, so three things have to be shown of a property: for the branches
a step makes, for the one that forks, and for the one that is saturated. -/

/-- A property of branches that every step hands on. -/
structure BranchInvariant (I : Copying.Branch → Prop) : Prop where
  /-- The branches that a rule makes have it. -/
  next : ∀ {path : Path} {fresh : Individual} {o : Obligation} {rule : Rule}
    {branch : Copying.Branch}, I ⟨path, .active⟩ → path.pending = some (o, rule) →
    branch ∈ path.next fresh o rule → I branch
  /-- A branch keeps it when it forks. -/
  forked : ∀ {path : Path} {o : Obligation} {rule : Rule}, I ⟨path, .active⟩ →
    path.pending = some (o, rule) → I ⟨path.expand o.toSlot [], .split⟩
  /-- A branch keeps it when it turns out to be saturated. -/
  saturated : ∀ {path : Path}, I ⟨path, .active⟩ → path.pending = none → I ⟨path, .saturated⟩

/-- All branches of a tableau have a property. -/
def Copying.Everywhere (I : Copying.Branch → Prop) (u : Copying) : Prop :=
  ∀ (b : BranchId) (branch : Copying.Branch), u.branches[b]? = some branch → I branch

namespace BranchInvariant

open Copying

variable {I J : Copying.Branch → Prop} {u : Copying} {b : BranchId} {path : Path}

/-- Two properties that every step hands on, taken together. -/
theorem and (hI : BranchInvariant I) (hJ : BranchInvariant J) :
    BranchInvariant fun branch => I branch ∧ J branch where
  next h hpending hmem := ⟨hI.next h.1 hpending hmem, hJ.next h.2 hpending hmem⟩
  forked h hpending := ⟨hI.forked h.1 hpending, hJ.forked h.2 hpending⟩
  saturated h hpending := ⟨hI.saturated h.1 hpending, hJ.saturated h.2 hpending⟩

/-- The branch that a run starts from. -/
theorem ofSeed {seed : List Signed} (h : I (Path.addAll ⟨[], [], []⟩ seed)) :
    (Copying.ofSeed seed).Everywhere I := by
  intro b branch hb
  rw [← addAll_of_getElem?_ofSeed hb]
  exact h

/-- All branches have the property after a step. -/
theorem apply (hI : BranchInvariant I) (h : u.Everywhere I)
    (hb : u.branches[b]? = some ⟨path, .active⟩) {o : Obligation} {rule : Rule}
    (hpending : path.pending = some (o, rule)) (round : Nat) :
    (u.apply round b o rule).Everywhere I := by
  intro b' branch hb'
  rcases of_getElem?_apply hb hb' with ⟨-, hold⟩ | ⟨-, rfl⟩ | ⟨-, hmem⟩
  · exact h b' branch hold
  · exact hI.forked (h b _ hb) hpending
  · exact hI.next (h b _ hb) hpending hmem

/-- All branches have the property when one of them turns out to be saturated. -/
theorem saturate (hI : BranchInvariant I) (h : u.Everywhere I)
    (hb : u.branches[b]? = some ⟨path, .active⟩) (hpending : path.pending = none) :
    ((u.setState b .saturated).record (.saturated b)).Everywhere I := by
  unfold Everywhere
  rw [branches_record, branches_setState hb]
  refine forall_getElem?_setIfInBounds ?_ fun b' branch _ hb' => h b' branch hb'
  exact hI.saturated (h b _ hb) hpending

/-- All branches have the property after any number of rounds. -/
theorem rounds (hI : BranchInvariant I) (h : u.Everywhere I) (bound round : Nat) :
    (u.rounds bound round).1.Everywhere I := by
  have hcases : (∃ later, u.rounds bound round = (later, none) ∧ later.Everywhere I) ∨ _ :=
    rounds_cases (fun h hb hpending => hI.apply h hb hpending _) bound h
  rcases hcases with
    ⟨later, hrounds, hend⟩ | ⟨before, b, path, hrounds, hend, hb, hpending⟩
  · rw [hrounds]
    exact hend
  · rw [hrounds]
    exact hI.saturate hend hb hpending

end BranchInvariant

/-! ### Contradictions and obligations

A branch closes on the claim that is put on it last, and takes in no claim after that. -/

namespace Path

/-- The last claim of the path is there with the other sign, and no claim before it is. -/
def Clashes (path : Path) (s : Signed) : Prop :=
  ∃ before, path.claims = before ++ [s] ∧ s.flip ∈ before ∧ ∀ r ∈ before, r.flip ∉ before

/-- If adding claims closes a branch, it closes on the last claim that is put on it. -/
theorem Consistent.clashes_addAll {path : Path} {claims : List Signed} (h : path.Consistent)
    (hclosed : (path.addAll claims).state = .closed) :
    ∃ s, (path.addAll claims).path.Clashes s := by
  fun_induction Path.addAll path claims with
  | case1 path => simp at hclosed
  | case2 path s rest hs ih => exact ih h hclosed
  | case3 path s rest hs hflip => exact ⟨s, path.claims, rfl, (path.holds_iff _).1 hflip, h⟩
  | case4 path s rest hs hflip ih =>
      refine ih (h.push ?_) hclosed
      rwa [holds_iff] at hflip

/-- The last claim of a path that it clashes with makes the only contradiction. -/
theorem Clashes.eq_or_eq {path : Path} {s r : Signed} (h : path.Clashes s) (hr : r ∈ path.claims)
    (hflip : r.flip ∈ path.claims) : r = s ∨ r = s.flip := by
  obtain ⟨before, heq, -, hbefore⟩ := h
  simp only [heq, List.mem_append, List.mem_singleton] at hr hflip
  rcases hr with hr | hr
  · rcases hflip with hflip | hflip
    · exact absurd hflip (hbefore r hr)
    · exact .inr (by rw [← hflip, Signed.flip_flip])
  · exact .inl hr

/-- An obligation stays one when claims and individuals come onto the path. -/
theorem mem_obligations_of_append {path later : Path} {added : List Signed}
    (hclaims : later.claims = path.claims ++ added) (hsub : path.individuals ⊆ later.individuals)
    {o : Obligation} (ho : o ∈ path.obligations) : o ∈ later.obligations := by
  obtain ⟨hget, hcalls⟩ := mem_obligations_iff.1 ho
  have hlt : o.place < path.claims.length := place_lt_of_mem_obligations ho
  refine mem_obligations_iff.2 ⟨?_, ?_⟩
  · rw [hclaims, List.getElem?_append_left hlt]
    exact hget
  · unfold Signed.Calls at hcalls ⊢
    split at hcalls
    · exact ⟨hcalls.1, hsub hcalls.2⟩
    · exact hcalls

/-- The expanded obligations of a path, by claim and individual. -/
def spent (path : Path) : List (Signed × Option Individual) :=
  path.expanded.filterMap fun slot => path.claims[slot.place]?.map fun s => (s, slot.individual)

/-- If no claim is on a path twice, an obligation can be looked up by its place or by its claim. -/
theorem isExpanded_iff_mem_spent {path : Path} (hnodup : path.claims.Nodup) {o : Obligation}
    (ho : o ∈ path.obligations) :
    path.isExpanded o.toSlot = true ↔ (o.claim, o.individual) ∈ path.spent := by
  obtain ⟨hget, -⟩ := mem_obligations_iff.1 ho
  rw [isExpanded_iff]
  unfold spent
  rw [List.mem_filterMap]
  constructor
  · intro hmem
    exact ⟨o.toSlot, hmem, by rw [hget, Option.map_some]⟩
  · rintro ⟨⟨place, individual⟩, hmem, hslot⟩
    obtain ⟨s, hs, heq⟩ := Option.map_eq_some_iff.1 hslot
    obtain ⟨rfl, hindividual⟩ := Prod.mk.inj heq
    -- the claim stands at one place only
    have hlt : place < path.claims.length := (List.getElem?_eq_some_iff.1 hs).1
    have hplace : place = o.place := (List.getElem?_inj hlt hnodup).1 (hs.trans hget.symm)
    have hslot : (⟨place, individual⟩ : Slot) = o.toSlot := by
      rw [show o.toSlot = ⟨o.place, o.individual⟩ from rfl, ← hplace, ← hindividual]
    rw [← hslot]
    exact hmem

end Path

/-! ### Tidy branches

That no claim is on a branch twice is what makes places and claims the same thing. Then expansions
can be spoken of by their claims, as they are in the trace. -/

namespace Copying.Branch

/-- No claim is on the branch twice, claims contradict each other only if the branch is closed, by
its last claim, and only obligations have been expanded. -/
structure Tidy (branch : Branch) : Prop where
  /-- No claim is there twice. -/
  nodup : branch.path.claims.Nodup
  /-- A branch that is not closed has no contradiction. -/
  consistent : branch.state ≠ .closed → branch.path.Consistent
  /-- A closed branch has one, with its last claim. -/
  clashes : branch.state = .closed → ∃ s, branch.path.Clashes s
  /-- What has been expanded is an obligation. -/
  expanded : ∀ slot ∈ branch.path.expanded, ∃ o ∈ branch.path.obligations, o.toSlot = slot

/-- A branch that is not closed stays tidy if it is expanded. -/
theorem Tidy.expand {path : Path} {state : Branch.State} {o : Obligation} (h : Tidy ⟨path, state⟩)
    (hstate : state ≠ .closed) (ho : o ∈ path.obligations) (newcomers : List Individual)
    {later : Branch.State} (hlater : later ≠ .closed) :
    Tidy ⟨path.expand o.toSlot newcomers, later⟩ where
  nodup := h.nodup
  consistent _ := h.consistent hstate
  clashes hclosed := absurd hclosed hlater
  expanded := by
    have hclaims : (path.expand o.toSlot newcomers).claims = path.claims ++ [] := by simp
    have hsub : path.individuals ⊆ (path.expand o.toSlot newcomers).individuals :=
      List.subset_append_left _ _
    have hkeep : path.obligations ⊆ (path.expand o.toSlot newcomers).obligations :=
      fun _ ho' => Path.mem_obligations_of_append hclaims hsub ho'
    refine List.forall_mem_append.2 ⟨fun slot hslot => ?_, List.forall_mem_singleton.2 ?_⟩
    · obtain ⟨o', ho', heq⟩ := h.expanded slot hslot
      exact ⟨o', hkeep ho', heq⟩
    · exact ⟨o, hkeep ho, rfl⟩

/-- A branch stays tidy if claims are put on it until it closes. -/
theorem Tidy.addAll {path : Path} (h : Tidy ⟨path, .active⟩) (claims : List Signed) :
    Tidy (path.addAll claims) where
  nodup := Path.nodup_claims_addAll claims h.nodup
  consistent hopen :=
    (h.consistent (by simp)).addAll ((path.state_addAll claims).resolve_right hopen)
  clashes hclosed := (h.consistent (by simp)).clashes_addAll hclosed
  expanded := by
    obtain ⟨added, hclaims, -⟩ := path.exists_claims_addAll claims
    rw [Path.expanded_addAll]
    intro slot hslot
    obtain ⟨o, ho, heq⟩ := h.expanded slot hslot
    refine ⟨o, Path.mem_obligations_of_append hclaims ?_ ho, heq⟩
    rw [Path.individuals_addAll]
    exact List.Subset.refl _

/-- Every step leaves the branches tidy. -/
theorem branchInvariant_tidy : BranchInvariant Tidy where
  next := by
    intro path fresh o rule branch h hpending hmem
    obtain ⟨alternative, -, rfl⟩ := List.mem_map.1 hmem
    have ho := (Path.of_pending_eq_some hpending).1
    exact (h.expand (by simp) ho (rule.newcomers fresh) (by simp)).addAll alternative
  forked h hpending := h.expand (by simp) (Path.of_pending_eq_some hpending).1 [] (by simp)
  saturated h _ :=
    ⟨h.nodup, fun _ => h.consistent (by simp), nofun, h.expanded⟩

/-- The branch that a run starts from is tidy. -/
theorem tidy_seed (seed : List Signed) : Tidy (Path.addAll ⟨[], [], []⟩ seed) := by
  have hempty : Tidy ⟨⟨[], [], []⟩, .active⟩ :=
    ⟨List.nodup_nil, fun _ => nofun, nofun, nofun⟩
  exact hempty.addAll seed

/-- All branches are tidy after any number of rounds. -/
theorem tidy_rounds (seed : List Signed) (bound round : Nat) :
    ((Copying.ofSeed seed).rounds bound round).1.Everywhere Tidy :=
  branchInvariant_tidy.rounds (BranchInvariant.ofSeed (tidy_seed seed)) bound round

end Copying.Branch

end TermLogic
