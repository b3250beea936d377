import TermLogic.Proofs.Path.Growth

/-!
# Steps and rounds of a copying tableau

What one step changes, and how a property of paths is carried through whole runs.

* `Copying.branches_apply`: a step puts the branches of `Path.next` in the place of one active
  branch and leaves all others as they are. Everything else here rests on it.
* `Copying.sweep_cases`: what one round makes of a property of the branches still to be visited.
* `Copying.rounds_cases_of_turn`, `Copying.rounds_cases`: what all rounds make of a property that
  each step keeps, with or without regard to the round.
* `PathInvariant`: a property of paths, rounds and counts of individuals that every step keeps.
  `PathInvariant.rounds_cases` gives it for every active branch after the rounds of a run, or for
  the saturated branch that ends it.
* `Inherited`: a property that every step hands on to at least one active branch.
  `Inherited.onSome_rounds` gives it for some active branch after any number of rounds.
-/

namespace TermLogic

/-- Changing an entry of an array that is known. -/
theorem modify_eq_setIfInBounds {α : Type} {xs : Array α} {i : Nat} {x : α} (h : xs[i]? = some x)
    (change : α → α) : xs.modify i change = xs.setIfInBounds i (change x) := by
  apply Array.ext_getElem?
  intro j
  rw [Array.getElem?_modify, Array.getElem?_setIfInBounds]
  by_cases hij : i = j
  · subst hij
    have hlt : i < xs.size := (Array.getElem?_eq_some_iff.1 h).1
    rw [if_pos rfl, if_pos rfl, if_pos hlt, h]
    rfl
  · rw [if_neg hij, if_neg hij]

/-- What holds of the new entry of an array and of all others holds of every entry. -/
theorem forall_getElem?_setIfInBounds {α : Type} {xs : Array α} {i : Nat} {x : α}
    {P : Nat → α → Prop} (hnew : P i x) (hothers : ∀ j y, j ≠ i → xs[j]? = some y → P j y) :
    ∀ j y, (xs.setIfInBounds i x)[j]? = some y → P j y := by
  intro j y hj
  by_cases hij : j = i
  · subst hij
    rw [Array.getElem?_setIfInBounds, if_pos rfl] at hj
    split at hj
    · cases hj
      exact hnew
    · cases hj
  · rw [Array.getElem?_setIfInBounds_ne (Ne.symm hij)] at hj
    exact hothers j y hij hj

namespace Copying

variable {t : Copying} {b : BranchId} {path : Path}

/-! ### Adding claims to a branch

Where a branch is known to be active, adding claims to it in the tableau and adding them to its path
are the same. The branches and the events are described apart from each other, as most of what
follows speaks of branches only. -/

/-- The path of a branch that is known. -/
theorem path_eq_of_getElem? {branch : Branch} (h : t.branches[b]? = some branch) :
    t.path b = branch.path := by
  simp [Copying.path, h]

/-- A branch is in a state if it is there with some path and that state. -/
theorem isIn_iff {state : Branch.State} :
    t.isIn state b = true ↔ ∃ path, t.branches[b]? = some ⟨path, state⟩ := by
  unfold isIn
  cases h : t.branches[b]? with
  | none => simp
  | some branch =>
      obtain ⟨path, own⟩ := branch
      simp [eq_comm]

/-- Recording leaves all branches as they are. -/
@[simp]
theorem branches_record (t : Copying) (event : Event) : (t.record event).branches = t.branches :=
  rfl

/-- Changing the path of a branch that is known. -/
theorem branches_onPath {branch : Branch} (h : t.branches[b]? = some branch)
    (change : Path → Path) :
    (t.onPath b change).branches =
      t.branches.setIfInBounds b ⟨change branch.path, branch.state⟩ :=
  modify_eq_setIfInBounds h fun branch => { branch with path := change branch.path }

/-- Changing the state of a branch that is known. -/
theorem branches_setState {branch : Branch} (h : t.branches[b]? = some branch)
    (state : Branch.State) :
    (t.setState b state).branches = t.branches.setIfInBounds b ⟨branch.path, state⟩ :=
  modify_eq_setIfInBounds h fun branch => { branch with state := state }

/-- Adding a claim introduces nobody. -/
@[simp]
theorem introduced_add (t : Copying) (b : BranchId) (s : Signed) :
    (t.add b s).introduced = t.introduced := by
  unfold add
  simp only
  split
  · rfl
  · split <;> rfl

/-- Adding claims introduces nobody. -/
@[simp]
theorem introduced_addAll (t : Copying) (b : BranchId) (claims : List Signed) :
    (t.addAll b claims).introduced = t.introduced := by
  induction claims generalizing t with
  | nil => rfl
  | cons s rest ih =>
      simp only [addAll]
      split
      · exact introduced_add t b s
      · rw [ih, introduced_add]

/-- A claim that is on an active branch already changes nothing. -/
theorem add_of_holds {s : Signed} (h : t.branches[b]? = some ⟨path, .active⟩)
    (hs : path.holds s = true) : t.add b s = t := by
  simp [add, path_eq_of_getElem? h, hs]

/-- A claim that is on an active branch with the other sign closes it. -/
theorem branches_add_of_flip {s : Signed} (h : t.branches[b]? = some ⟨path, .active⟩)
    (hs : ¬ path.holds s = true) (hflip : path.holds s.flip = true) :
    (t.add b s).branches = t.branches.setIfInBounds b ⟨path.push s, .closed⟩ := by
  have hlt : b < t.branches.size := (Array.getElem?_eq_some_iff.1 h).1
  have hpush := branches_onPath h fun path => { path with claims := path.claims ++ [s] }
  have hget : (t.onPath b fun path => { path with claims := path.claims ++ [s] }).branches[b]? =
      some ⟨path.push s, .active⟩ := by
    rw [hpush, Array.getElem?_setIfInBounds_self_of_lt hlt]
    rfl
  have hadd : t.add b s =
      ((t.onPath b fun path => { path with claims := path.claims ++ [s] }).setState
        b .closed).record (.closed b s.claim) := by
    simp [add, path_eq_of_getElem? h, hs, hflip]
  rw [hadd]
  show (Copying.setState _ b .closed).branches = _
  rw [branches_setState hget, hpush, Array.setIfInBounds_setIfInBounds]

/-- A claim that is on an active branch with neither sign comes last on it. -/
theorem branches_add_of_not_flip {s : Signed} (h : t.branches[b]? = some ⟨path, .active⟩)
    (hs : ¬ path.holds s = true) (hflip : ¬ path.holds s.flip = true) :
    (t.add b s).branches = t.branches.setIfInBounds b ⟨path.push s, .active⟩ := by
  have hadd : t.add b s = t.onPath b fun path => { path with claims := path.claims ++ [s] } := by
    simp [add, path_eq_of_getElem? h, hs, hflip]
  rw [hadd]
  exact branches_onPath h _

/-- A claim that is on an active branch already is passed over. -/
theorem addAll_cons_of_holds {s : Signed} (rest : List Signed)
    (h : t.branches[b]? = some ⟨path, .active⟩) (hs : path.holds s = true) :
    t.addAll b (s :: rest) = t.addAll b rest := by
  simp [addAll, add_of_holds h hs, isIn, h]

/-- Nothing is added behind a claim that closes a branch. -/
theorem addAll_cons_of_flip {s : Signed} (rest : List Signed)
    (h : t.branches[b]? = some ⟨path, .active⟩) (hs : ¬ path.holds s = true)
    (hflip : path.holds s.flip = true) : t.addAll b (s :: rest) = t.add b s := by
  have hlt : b < t.branches.size := (Array.getElem?_eq_some_iff.1 h).1
  have hget : (t.add b s).branches[b]? = some ⟨path.push s, .closed⟩ := by
    rw [branches_add_of_flip h hs hflip, Array.getElem?_setIfInBounds_self_of_lt hlt]
  simp [addAll, isIn, hget]

/-- A claim that is on an active branch with neither sign comes before the others. -/
theorem addAll_cons_of_not_flip {s : Signed} (rest : List Signed)
    (h : t.branches[b]? = some ⟨path, .active⟩) (hs : ¬ path.holds s = true)
    (hflip : ¬ path.holds s.flip = true) :
    (t.add b s).branches[b]? = some ⟨path.push s, .active⟩ ∧
      t.addAll b (s :: rest) = (t.add b s).addAll b rest := by
  have hlt : b < t.branches.size := (Array.getElem?_eq_some_iff.1 h).1
  have hget : (t.add b s).branches[b]? = some ⟨path.push s, .active⟩ := by
    rw [branches_add_of_not_flip h hs hflip, Array.getElem?_setIfInBounds_self_of_lt hlt]
  exact ⟨hget, by simp [addAll, isIn, hget]⟩

/-- Adding claims to an active branch does to it what it does to its path. -/
theorem branches_addAll (claims : List Signed) (h : t.branches[b]? = some ⟨path, .active⟩) :
    (t.addAll b claims).branches = t.branches.setIfInBounds b (path.addAll claims) := by
  induction claims generalizing t path with
  | nil =>
      have hlt : b < t.branches.size := (Array.getElem?_eq_some_iff.1 h).1
      apply Array.ext_getElem?
      intro j
      rw [Array.getElem?_setIfInBounds]
      by_cases hbj : b = j
      · subst hbj
        simpa [addAll, Path.addAll, hlt] using h
      · simp [addAll, hbj]
  | cons s rest ih =>
      unfold Path.addAll
      by_cases hs : path.holds s = true
      · rw [addAll_cons_of_holds rest h hs, ih h, if_pos hs]
      · by_cases hflip : path.holds s.flip = true
        · rw [addAll_cons_of_flip rest h hs hflip, branches_add_of_flip h hs hflip, if_neg hs,
            if_pos hflip]
        · obtain ⟨hget, hgo⟩ := addAll_cons_of_not_flip rest h hs hflip
          rw [hgo, ih hget, branches_add_of_not_flip h hs hflip,
            Array.setIfInBounds_setIfInBounds, if_neg hs, if_neg hflip]

/-- What adding a claim does to the branches does not depend on the events so far. -/
theorem branches_add_congr {u : Copying} (h : t.branches = u.branches) (b : BranchId) (s : Signed) :
    (t.add b s).branches = (u.add b s).branches := by
  have hpath : t.path b = u.path b := by simp [Copying.path, h]
  unfold add
  simp only [hpath]
  split
  · exact h
  · split <;> simp [record, setState, onPath, h]

/-- Adding the claims a run starts from does to the root what adding any claims does. -/
theorem branches_addSeeds (seed : List Signed) {u : Copying} (h : t.branches = u.branches) :
    (addSeeds seed t).branches = (u.addAll 0 seed).branches := by
  induction seed generalizing t u with
  | nil => exact h
  | cons s rest ih =>
      have hadd : ((t.record (.seeded 0 s)).add 0 s).branches = (u.add 0 s).branches :=
        branches_add_congr (t := t.record (.seeded 0 s)) h 0 s
      have hclosed : ((t.record (.seeded 0 s)).add 0 s).isIn .closed 0 =
          (u.add 0 s).isIn .closed 0 := by
        simp only [isIn, hadd]
      simp only [addSeeds, addAll, hclosed]
      by_cases hstop : (u.add 0 s).isIn .closed 0 = true
      · rw [if_pos hstop, if_pos hstop]
        exact hadd
      · rw [if_neg hstop, if_neg hstop]
        exact ih hadd

/-- What holds at first and is kept when a claim is recorded and put on the active root holds when
all claims a run starts from are there, or the root has closed. -/
theorem addSeeds_induction {P : Copying → Prop} {seed : List Signed}
    (step : ∀ {u : Copying} {path : Path} {s : Signed}, s ∈ seed → P u →
      u.branches[0]? = some ⟨path, .active⟩ → P ((u.record (.seeded 0 s)).addAll 0 [s]))
    (h : P t) (hroot : t.branches[0]? = some ⟨path, .active⟩) : P (addSeeds seed t) := by
  induction seed generalizing t path with
  | nil => exact h
  | cons s rest ih =>
      have hlt : 0 < t.branches.size := (Array.getElem?_eq_some_iff.1 hroot).1
      have hstep := step List.mem_cons_self h hroot
      have hget :
          ((t.record (.seeded 0 s)).addAll 0 [s]).branches[0]? = some (path.addAll [s]) := by
        rw [branches_addAll (t := t.record _) [s] hroot, branches_record,
          Array.getElem?_setIfInBounds_self_of_lt hlt]
      have hadd : (t.record (.seeded 0 s)).addAll 0 [s] = (t.record (.seeded 0 s)).add 0 s := by
        simp [Copying.addAll]
      rw [hadd] at hstep hget
      simp only [addSeeds]
      rcases path.state_addAll [s] with hactive | hclosed
      · have hopen : ((t.record (.seeded 0 s)).add 0 s).isIn .closed 0 = false := by
          simp [isIn, hget, hactive]
        rw [if_neg (by simp [hopen])]
        exact ih (fun hmem => step (List.mem_cons_of_mem s hmem)) hstep
          (hget.trans (by rw [← hactive]))
      · rw [if_pos (by simp [isIn, hget, hclosed])]
        exact hstep

/-- Adding the claims a run starts from introduces nobody. -/
theorem introduced_addSeeds (seed : List Signed) (t : Copying) :
    (addSeeds seed t).introduced = t.introduced := by
  induction seed generalizing t with
  | nil => rfl
  | cons s rest ih =>
      simp only [addSeeds]
      split
      · exact introduced_add _ 0 s
      · rw [ih, introduced_add]
        rfl

/-- The tableau a run starts from has one branch, with the claims of the run on it. -/
theorem branches_ofSeed (seed : List Signed) :
    (ofSeed seed).branches = #[Path.addAll ⟨[], [], []⟩ seed] := by
  unfold ofSeed
  rw [branches_addSeeds seed rfl, branches_addAll seed rfl]
  rfl

/-- The only branch a run starts from has the claims of the run on it. -/
theorem addAll_of_getElem?_ofSeed {seed : List Signed} {branch : Branch}
    (h : (ofSeed seed).branches[b]? = some branch) :
    Path.addAll ⟨[], [], []⟩ seed = branch := by
  rw [branches_ofSeed] at h
  have hmem : branch ∈ [Path.addAll ⟨[], [], []⟩ seed] :=
    List.mem_of_getElem? (by simpa using h)
  exact (List.mem_singleton.1 hmem).symm

/-- Nobody is introduced before the first step. -/
theorem introduced_ofSeed (seed : List Signed) : (ofSeed seed).introduced = 0 :=
  introduced_addSeeds seed _

/-! ### One step

The three shapes of rules are brought under one equation for the array of branches, which is what
the rest of the theory knows of a step. -/

/-- Noting that a slot has been expanded on a branch. -/
theorem branches_onPath_expanded {branch : Branch} (h : t.branches[b]? = some branch)
    (slot : Slot) :
    (t.onPath b fun path => { path with expanded := path.expanded ++ [slot] }).branches =
      t.branches.setIfInBounds b ⟨branch.path.expand slot [], branch.state⟩ := by
  rw [branches_onPath h]
  simp [Path.expand]

/-- Appending two branches and marking the one they grow from as split. -/
theorem branches_fork (h : t.branches[b]? = some ⟨path, .active⟩) (copy : Branch) :
    ({ t with branches := (t.branches.push copy).push copy }.setState b .split).branches =
      ((t.branches.setIfInBounds b ⟨path, .split⟩).push copy).push copy := by
  have hlt : b < t.branches.size := (Array.getElem?_eq_some_iff.1 h).1
  have hget : ((t.branches.push copy).push copy)[b]? = some ⟨path, .active⟩ := by
    have hne : b ≠ t.branches.size := Nat.ne_of_lt hlt
    have hne' : b ≠ (t.branches.push copy).size := by
      rw [Array.size_push]
      exact Nat.ne_of_lt (Nat.lt_succ_of_lt hlt)
    rw [Array.getElem?_push, if_neg hne', Array.getElem?_push, if_neg hne, h]
  rw [setState, modify_eq_setIfInBounds hget]
  apply Array.ext_getElem?
  intro j
  grind

section

variable {marked : Copying} {slot : Slot}

/-- Introducing an individual on a branch on which a slot has been noted as expanded. -/
theorem branches_introduce (h : t.branches[b]? = some ⟨path, .active⟩)
    (hmark : marked.branches = t.branches.setIfInBounds b ⟨path.expand slot [], .active⟩)
    (c : Individual) :
    ({ marked with introduced := c }.onPath b fun path =>
        { path with individuals := path.individuals ++ [c] }).branches =
      t.branches.setIfInBounds b ⟨path.expand slot [c], .active⟩ := by
  have hlt : b < t.branches.size := (Array.getElem?_eq_some_iff.1 h).1
  have hget : marked.branches[b]? = some ⟨path.expand slot [], .active⟩ := by
    rw [hmark, Array.getElem?_setIfInBounds_self_of_lt hlt]
  rw [onPath, modify_eq_setIfInBounds hget, hmark, Array.setIfInBounds_setIfInBounds]
  simp [Path.expand]

/-- Forking a branch on which a slot has been noted as expanded. -/
theorem branches_fork_expanded (h : t.branches[b]? = some ⟨path, .active⟩)
    (hmark : marked.branches = t.branches.setIfInBounds b ⟨path.expand slot [], .active⟩) :
    ({ marked with
        branches := (marked.branches.push ⟨marked.path b, .active⟩).push
          ⟨marked.path b, .active⟩ }.setState b .split).branches =
      ((t.branches.setIfInBounds b ⟨path.expand slot [], .split⟩).push
        ⟨path.expand slot [], .active⟩).push ⟨path.expand slot [], .active⟩ := by
  have hlt : b < t.branches.size := (Array.getElem?_eq_some_iff.1 h).1
  have hget : marked.branches[b]? = some ⟨path.expand slot [], .active⟩ := by
    rw [hmark, Array.getElem?_setIfInBounds_self_of_lt hlt]
  rw [branches_fork hget, path_eq_of_getElem? hget, hmark, Array.setIfInBounds_setIfInBounds]

end

/-- Two new branches come behind the older ones. -/
theorem getElem?_children {older : Array Branch} {first second : Branch}
    (h : t.branches = (older.push first).push second) :
    t.branches[older.size]? = some first ∧ t.branches[older.size + 1]? = some second := by
  have hne : older.size ≠ (older.push first).size := by
    rw [Array.size_push]
    exact Nat.ne_of_lt (Nat.lt_succ_self _)
  constructor
  · rw [h, Array.getElem?_push, if_neg hne, Array.getElem?_push, if_pos rfl]
  · rw [h, Array.getElem?_push, if_pos (by simp)]

/-- Adding claims to the first of two new branches. -/
theorem branches_addAll_first {older : Array Branch} (left : List Signed)
    (h : t.branches = (older.push ⟨path, .active⟩).push ⟨path, .active⟩) :
    (t.addAll older.size left).branches = (older.push (path.addAll left)).push ⟨path, .active⟩ := by
  rw [branches_addAll left (getElem?_children h).1, h]
  apply Array.ext_getElem?
  intro j
  grind

/-- Adding claims to two new branches, one after the other. -/
theorem branches_addAll_children {older : Array Branch} (left right : List Signed)
    (h : t.branches = (older.push ⟨path, .active⟩).push ⟨path, .active⟩) :
    ((t.addAll older.size left).addAll (older.size + 1) right).branches =
      (older.push (path.addAll left)).push (path.addAll right) := by
  have hleft := branches_addAll_first left h
  rw [branches_addAll right (getElem?_children hleft).2, hleft]
  apply Array.ext_getElem?
  intro j
  grind

/-- What a step does: the branches that the rule makes come in the place of the active branch. A
rule that does not fork leaves the branch in its place; a fork marks it as split and appends the two
new branches. -/
theorem branches_apply (h : t.branches[b]? = some ⟨path, .active⟩) (round : Nat) (o : Obligation)
    (rule : Rule) :
    (∃ branch, path.next (t.introduced + 1) o rule = [branch] ∧
      (t.apply round b o rule).branches = t.branches.setIfInBounds b branch) ∨
    (∃ first second, path.next (t.introduced + 1) o rule = [first, second] ∧
      (t.apply round b o rule).branches =
        ((t.branches.setIfInBounds b ⟨path.expand o.toSlot [], .split⟩).push first).push
          second) := by
  have hlt : b < t.branches.size := (Array.getElem?_eq_some_iff.1 h).1
  have hmark := branches_onPath_expanded h o.toSlot
  have hintroduced : (t.onPath b fun path =>
      { path with expanded := path.expanded ++ [o.toSlot] }).introduced = t.introduced := rfl
  have hget : ∀ {u : Copying} {branch : Branch},
      u.branches = t.branches.setIfInBounds b branch → u.branches[b]? = some branch := by
    intro u branch hu
    rw [hu, Array.getElem?_setIfInBounds_self_of_lt hlt]
  have hadd : ∀ {u : Copying} {path : Path} (claims : List Signed),
      u.branches = t.branches.setIfInBounds b ⟨path, .active⟩ →
      (u.addAll b claims).branches = t.branches.setIfInBounds b (path.addAll claims) := by
    intro u path claims hu
    rw [branches_addAll claims (hget hu), hu, Array.setIfInBounds_setIfInBounds]
  cases rule with
  | linear produced =>
      left
      exact ⟨_, rfl, hadd produced hmark⟩
  | witness terms =>
      left
      refine ⟨_, rfl, ?_⟩
      simp only [apply, hintroduced]
      generalize (t.onPath b fun path =>
        { path with expanded := path.expanded ++ [o.toSlot] }) = marked at hmark
      exact hadd _ (branches_introduce h hmark _)
  | split left right =>
      right
      refine ⟨_, _, rfl, ?_⟩
      simp only [apply]
      generalize (t.onPath b fun path =>
        { path with expanded := path.expanded ++ [o.toSlot] }) = marked at hmark
      have hsize : (t.branches.setIfInBounds b ⟨path.expand o.toSlot [], .split⟩).size =
          marked.branches.size := by
        simp [hmark]
      rw [← hsize]
      exact branches_addAll_children left right (branches_fork_expanded h hmark)

/-- A step introduces the newcomers of its rule. -/
theorem introduced_apply (t : Copying) (round : Nat) (b : BranchId) (o : Obligation) (rule : Rule) :
    (t.apply round b o rule).introduced =
      t.introduced + (rule.newcomers (t.introduced + 1)).length := by
  cases rule with
  | linear produced => exact introduced_addAll _ b produced
  | witness terms => exact introduced_addAll _ b _
  | split left right =>
      simp only [apply, introduced_addAll]
      rfl

/-- A step leaves the other branches as they are. -/
theorem getElem?_apply_of_ne (h : t.branches[b]? = some ⟨path, .active⟩) (round : Nat)
    (o : Obligation) (rule : Rule) {b' : BranchId} (hne : b' ≠ b) (hlt : b' < t.branches.size) :
    (t.apply round b o rule).branches[b']? = t.branches[b']? := by
  rcases branches_apply h round o rule with ⟨branch, -, heq⟩ | ⟨first, second, -, heq⟩
  · rw [heq, Array.getElem?_setIfInBounds_ne hne.symm]
  · rw [heq]
    grind

/-- Every branch after a step was there before, or is the one that has forked, or is one of those
that the rule makes. -/
theorem of_getElem?_apply (h : t.branches[b]? = some ⟨path, .active⟩) {round : Nat} {o : Obligation}
    {rule : Rule} {b' : BranchId} {branch : Branch}
    (h' : (t.apply round b o rule).branches[b']? = some branch) :
    b' ≠ b ∧ t.branches[b']? = some branch ∨
      b' = b ∧ branch = ⟨path.expand o.toSlot [], .split⟩ ∨
      (b' = b ∨ t.branches.size ≤ b') ∧ branch ∈ path.next (t.introduced + 1) o rule := by
  rcases branches_apply h round o rule with ⟨only, hnext, heq⟩ | ⟨first, second, hnext, heq⟩
  · rw [heq] at h'
    by_cases hb : b' = b
    · right; right
      subst hb
      have hlt : b' < t.branches.size := (Array.getElem?_eq_some_iff.1 h).1
      rw [Array.getElem?_setIfInBounds_self_of_lt hlt] at h'
      cases h'
      exact ⟨.inl rfl, by simp [hnext]⟩
    · left
      rw [Array.getElem?_setIfInBounds_ne (Ne.symm hb)] at h'
      exact ⟨hb, h'⟩
  · rw [heq] at h'
    simp only [Array.getElem?_push, Array.size_push, Array.size_setIfInBounds] at h'
    split at h'
    · next hb =>
      cases h'
      right; right
      exact ⟨.inr (by rw [hb]; exact Nat.le_succ _), by simp [hnext]⟩
    · split at h'
      · next hb =>
        cases h'
        right; right
        exact ⟨.inr (Nat.le_of_eq hb.symm), by simp [hnext]⟩
      · by_cases hb : b' = b
        · right; left
          subst hb
          have hlt : b' < t.branches.size := (Array.getElem?_eq_some_iff.1 h).1
          rw [Array.getElem?_setIfInBounds_self_of_lt hlt] at h'
          exact ⟨rfl, (Option.some.inj h').symm⟩
        · left
          rw [Array.getElem?_setIfInBounds_ne (Ne.symm hb)] at h'
          exact ⟨hb, h'⟩

/-- Every branch that the rule makes is there after the step. -/
theorem exists_getElem?_apply (h : t.branches[b]? = some ⟨path, .active⟩) (round : Nat)
    {o : Obligation} {rule : Rule} {branch : Branch}
    (hmem : branch ∈ path.next (t.introduced + 1) o rule) :
    ∃ b' : BranchId, (t.apply round b o rule).branches[b']? = some branch := by
  have hlt : b < t.branches.size := (Array.getElem?_eq_some_iff.1 h).1
  rcases branches_apply h round o rule with ⟨only, hnext, heq⟩ | ⟨first, second, hnext, heq⟩
  · rw [hnext, List.mem_singleton] at hmem
    subst hmem
    exact ⟨b, by rw [heq, Array.getElem?_setIfInBounds_self_of_lt hlt]⟩
  · rw [hnext] at hmem
    simp only [List.mem_cons, List.not_mem_nil, or_false] at hmem
    rcases hmem with rfl | rfl
    · exact ⟨t.branches.size, by rw [heq]; grind⟩
    · exact ⟨t.branches.size + 1, by rw [heq, Array.getElem?_push, if_pos (by simp)]⟩

/-- An active branch after a step was there before, or its path follows the one that took the
step. -/
theorem active_apply (h : t.branches[b]? = some ⟨path, .active⟩) {round : Nat} {o : Obligation}
    {rule : Rule} {b' : BranchId} {later : Path}
    (h' : (t.apply round b o rule).branches[b']? = some ⟨later, .active⟩) :
    b' ≠ b ∧ t.branches[b']? = some ⟨later, .active⟩ ∨
      (b' = b ∨ t.branches.size ≤ b') ∧ path.Follows (t.introduced + 1) o rule later := by
  rcases of_getElem?_apply h h' with hold | ⟨-, hsplit⟩ | ⟨hb, hmem⟩
  · exact .inl hold
  · cases hsplit
  · exact .inr ⟨hb, Path.follows_of_mem_next hmem rfl⟩

/-! ### One round

The branches that are still to be visited have been active since the start of the round, and no step
but their own changes them. With this in hand the recursion over the round is made once, for any
property that a step keeps. -/

/-- The active leaves are the branches that are active. -/
theorem mem_activeLeaves_iff :
    b ∈ t.activeLeaves ↔ ∃ path, t.branches[b]? = some ⟨path, .active⟩ := by
  unfold activeLeaves
  rw [List.mem_filter, isIn_iff, List.mem_range]
  constructor
  · rintro ⟨-, h⟩
    exact h
  · rintro ⟨path, h⟩
    exact ⟨(Array.getElem?_eq_some_iff.1 h).1, path, h⟩

/-- The branches that a round still has to visit: active ones, each once. -/
structure Scheduled (t : Copying) (leaves : List BranchId) : Prop where
  /-- No branch is visited twice. -/
  nodup : leaves.Nodup
  /-- Only active branches are visited. -/
  active : ∀ b ∈ leaves, ∃ path, t.branches[b]? = some ⟨path, .active⟩

/-- A round starts with all active leaves. -/
theorem scheduled_activeLeaves (t : Copying) : t.Scheduled t.activeLeaves where
  nodup := List.nodup_range.filter _
  active _ hb := mem_activeLeaves_iff.1 hb

/-- The step of the first branch leaves those still to be visited as they are. -/
theorem Scheduled.getElem?_apply {rest : List BranchId} (h : t.Scheduled (b :: rest)) (round : Nat)
    (o : Obligation) (rule : Rule) {b' : BranchId} (hb' : b' ∈ rest) :
    (t.apply round b o rule).branches[b']? = t.branches[b']? := by
  obtain ⟨path, hb⟩ := h.active b List.mem_cons_self
  obtain ⟨later, hlater⟩ := h.active b' (List.mem_cons_of_mem b hb')
  have hne : b' ≠ b := by
    rintro rfl
    exact (List.nodup_cons.1 h.nodup).1 hb'
  exact getElem?_apply_of_ne hb round o rule hne (Array.getElem?_eq_some_iff.1 hlater).1

/-- The step of the first branch leaves the others to be visited. -/
theorem Scheduled.apply {rest : List BranchId} (h : t.Scheduled (b :: rest)) (round : Nat)
    (o : Obligation) (rule : Rule) : (t.apply round b o rule).Scheduled rest := by
  refine ⟨(List.nodup_cons.1 h.nodup).2, ?_⟩
  intro b' hb'
  obtain ⟨later, hlater⟩ := h.active b' (List.mem_cons_of_mem b hb')
  exact ⟨later, (h.getElem?_apply round o rule hb').trans hlater⟩

/-- What a round makes of a property `P` of the tableau and the branches still to be visited, if
each step keeps it: it holds with no branch left, or a branch on which nothing is pending ends the
round while it holds. -/
theorem sweep_cases {P : List BranchId → Copying → Prop} {round : Nat}
    (step : ∀ {t : Copying} {b : BranchId} {rest : List BranchId} {path : Path} {o : Obligation}
      {rule : Rule}, t.Scheduled (b :: rest) → P (b :: rest) t →
      t.branches[b]? = some ⟨path, .active⟩ → path.pending = some (o, rule) →
      P rest (t.apply round b o rule))
    {leaves : List BranchId} (hsched : t.Scheduled leaves) (h : P leaves t) :
    (∃ later, sweep round leaves t = (later, none) ∧ P [] later) ∨
    (∃ before b rest path, sweep round leaves t =
        ((before.setState b .saturated).record (.saturated b), some b) ∧
      P (b :: rest) before ∧ before.branches[b]? = some ⟨path, .active⟩ ∧
      path.pending = none) := by
  induction leaves generalizing t with
  | nil => exact .inl ⟨t, rfl, h⟩
  | cons b rest ih =>
      obtain ⟨path, hb⟩ := hsched.active b List.mem_cons_self
      have hpath : t.path b = path := path_eq_of_getElem? hb
      cases hpending : path.pending with
      | none =>
          right
          refine ⟨t, b, rest, path, ?_, h, hb, hpending⟩
          simp only [sweep, hpath, hpending]
      | some choice =>
          obtain ⟨o, rule⟩ := choice
          have hsweep : sweep round (b :: rest) t = sweep round rest (t.apply round b o rule) := by
            simp only [sweep, hpath, hpending]
          rw [hsweep]
          exact ih (hsched.apply round o rule) (step hsched h hb hpending)

/-- What all rounds make of a property `P` of the round, the branches it still has to visit and the
tableau, if each step keeps it and so does the turn to the next round. It holds after the rounds,
all of which have been gone through unless no leaf is active any more, or a branch on which nothing
is pending ends them while it holds. -/
theorem rounds_cases_of_turn {P : Nat → List BranchId → Copying → Prop}
    (step : ∀ {t : Copying} {b : BranchId} {rest : List BranchId} {path : Path} {round : Nat}
      {o : Obligation} {rule : Rule}, t.Scheduled (b :: rest) → P round (b :: rest) t →
      t.branches[b]? = some ⟨path, .active⟩ → path.pending = some (o, rule) →
      P round rest (t.apply round b o rule))
    (turn : ∀ {t : Copying} {round : Nat}, P round [] t → P (round + 1) t.activeLeaves t)
    (bound : Nat) {round : Nat} (h : P round t.activeLeaves t) :
    (∃ later reached, rounds bound round t = (later, none) ∧ P reached later.activeLeaves later ∧
      (later.activeLeaves = [] ∨ reached = round + bound)) ∨
    (∃ before reached b rest path, rounds bound round t =
        ((before.setState b .saturated).record (.saturated b), some b) ∧
      P reached (b :: rest) before ∧ before.branches[b]? = some ⟨path, .active⟩ ∧
      path.pending = none) := by
  induction bound generalizing round t with
  | zero => exact .inl ⟨t, round, rfl, h, .inr rfl⟩
  | succ bound ih =>
      cases hleaves : t.activeLeaves with
      | nil => exact .inl ⟨t, round, by simp only [rounds, hleaves], h, .inl hleaves⟩
      | cons first others =>
          have hround : (∃ later, sweep round t.activeLeaves t = (later, none) ∧ P round [] later) ∨
              _ := sweep_cases (fun hs h hb hp => step hs h hb hp) (scheduled_activeLeaves t) h
          rw [hleaves] at hround
          rcases hround with ⟨later, hsweep, hend⟩ | ⟨before, b, rest, path, hsweep, hend⟩
          · have hrounds : rounds (bound + 1) round t = rounds bound (round + 1) later := by
              simp only [rounds, hleaves, hsweep]
            rw [hrounds, show round + (bound + 1) = round + 1 + bound by omega]
            exact ih (turn hend)
          · right
            exact ⟨before, round, b, rest, path, by simp only [rounds, hleaves, hsweep], hend⟩

/-- What all rounds make of a property `P` of the tableau that each step keeps: it holds after them,
or an active branch on which nothing is pending ends them while it holds. -/
theorem rounds_cases {P : Copying → Prop}
    (step : ∀ {t : Copying} {b : BranchId} {path : Path} {round : Nat} {o : Obligation}
      {rule : Rule}, P t → t.branches[b]? = some ⟨path, .active⟩ →
      path.pending = some (o, rule) → P (t.apply round b o rule))
    (bound : Nat) {round : Nat} (h : P t) :
    (∃ later, rounds bound round t = (later, none) ∧ P later) ∨
    (∃ before b path, rounds bound round t =
        ((before.setState b .saturated).record (.saturated b), some b) ∧ P before ∧
      before.branches[b]? = some ⟨path, .active⟩ ∧ path.pending = none) := by
  rcases rounds_cases_of_turn (P := fun _ _ t => P t) (fun _ h hb hp => step h hb hp) id bound
    h with ⟨later, -, hrounds, hend, -⟩ | ⟨before, -, b, -, path, hend⟩
  · exact .inl ⟨later, hrounds, hend⟩
  · exact .inr ⟨before, b, path, hend⟩

end Copying

/-! ### All rounds

The same for the recursion over rounds. A property may speak of all active branches or of some, of
the number of the round, and of how many individuals there are. -/

/-- A property of the number of rounds, the number of individuals introduced and a path that every
step keeps. -/
structure PathInvariant (Q : Nat → Nat → Path → Prop) : Prop where
  /-- Individuals introduced elsewhere do no harm. -/
  mono : ∀ {round n m : Nat} {path : Path}, n ≤ m → Q round n path → Q round m path
  /-- A step hands it on to each active branch that comes of it. -/
  step : ∀ {round n : Nat} {path later : Path} {o : Obligation} {rule : Rule},
    Q round n path → path.pending = some (o, rule) → path.Follows (n + 1) o rule later →
    Q (round + 1) (n + (rule.newcomers (n + 1)).length) later

namespace PathInvariant

open Copying

variable {Q : Nat → Nat → Path → Prop} {t : Copying}

/-- The property holds of every active branch, which has taken one step more if it is not to be
visited any more in the current round. -/
def OnActive (Q : Nat → Nat → Path → Prop) (round : Nat) (rest : List BranchId) (t : Copying) :
    Prop :=
  ∀ (b : BranchId) (path : Path), t.branches[b]? = some ⟨path, .active⟩ →
    (b ∈ rest → Q round t.introduced path) ∧ (b ∉ rest → Q (round + 1) t.introduced path)

/-- One step of a round keeps the property on the active branches. -/
theorem onActive_apply (hQ : PathInvariant Q) {round : Nat} {b : BranchId} {rest : List BranchId}
    {path : Path} {o : Obligation} {rule : Rule} (hsched : t.Scheduled (b :: rest))
    (h : OnActive Q round (b :: rest) t) (hb : t.branches[b]? = some ⟨path, .active⟩)
    (hpending : path.pending = some (o, rule)) :
    OnActive Q round rest (t.apply round b o rule) := by
  have hnot : b ∉ rest := (List.nodup_cons.1 hsched.nodup).1
  intro b' later hlater
  rw [introduced_apply]
  rcases active_apply hb hlater with ⟨hne, hold⟩ | ⟨hplace, hfollows⟩
  · obtain ⟨hwaiting, hdone⟩ := h b' later hold
    rw [List.mem_cons, or_iff_right hne] at hwaiting hdone
    exact ⟨fun hmem => hQ.mono (Nat.le_add_right _ _) (hwaiting hmem),
      fun hmem => hQ.mono (Nat.le_add_right _ _) (hdone hmem)⟩
  · -- the branch and its children are not visited again in this round
    have hnew : b' ∉ rest := by
      rcases hplace with rfl | hge
      · exact hnot
      · intro hmem
        obtain ⟨old, hold⟩ := hsched.active b' (List.mem_cons_of_mem b hmem)
        exact absurd (Array.getElem?_eq_some_iff.1 hold).1 (Nat.not_lt.2 hge)
    have hstart : Q round t.introduced path := (h b path hb).1 List.mem_cons_self
    exact ⟨fun hmem => absurd hmem hnew, fun _ => hQ.step hstart hpending hfollows⟩

/-- A round starts with the property on all active branches. -/
theorem onActive_activeLeaves_iff {round : Nat} :
    OnActive Q round t.activeLeaves t ↔
      ∀ (b : BranchId) (path : Path), t.branches[b]? = some ⟨path, .active⟩ →
        Q round t.introduced path := by
  constructor
  · intro h b path hb
    exact (h b path hb).1 (mem_activeLeaves_iff.2 ⟨path, hb⟩)
  · intro h b path hb
    exact ⟨fun _ => h b path hb, fun hnot => absurd (mem_activeLeaves_iff.2 ⟨path, hb⟩) hnot⟩

/-- The turn to the next round: all branches have taken their step, and all are to be visited. -/
theorem onActive_turn {round : Nat} (h : OnActive Q round [] t) :
    OnActive Q (round + 1) t.activeLeaves t :=
  onActive_activeLeaves_iff.2 fun b path hb => (h b path hb).2 List.not_mem_nil

/-- The property after any number of rounds: it holds of every active branch if the run has not been
ended by a saturated one, and of the saturated one otherwise. -/
theorem rounds_cases (hQ : PathInvariant Q) (bound : Nat) {round : Nat}
    (h : ∀ (b : BranchId) (path : Path), t.branches[b]? = some ⟨path, .active⟩ →
      Q round t.introduced path) :
    (∃ later, rounds bound round t = (later, none) ∧
      ∀ (b : BranchId) (path : Path), later.branches[b]? = some ⟨path, .active⟩ →
        Q (round + bound) later.introduced path) ∨
    (∃ later b path k n, rounds bound round t = (later, some b) ∧
      later.branches[b]? = some ⟨path, .saturated⟩ ∧ path.pending = none ∧ Q k n path) := by
  rcases rounds_cases_of_turn (fun hs h hb hp => hQ.onActive_apply hs h hb hp) onActive_turn bound
    (onActive_activeLeaves_iff.2 h) with
    ⟨later, reached, hrounds, hend, hreached⟩ | ⟨before, round', b, rest, path, hrounds, hend, hb,
      hpending⟩
  · left
    refine ⟨later, hrounds, fun b path hb => ?_⟩
    rcases hreached with hnone | rfl
    · exact absurd (mem_activeLeaves_iff.2 ⟨path, hb⟩) (by rw [hnone]; exact List.not_mem_nil)
    · exact onActive_activeLeaves_iff.1 hend b path hb
  · right
    refine ⟨_, b, path, round', before.introduced, hrounds, ?_, hpending,
      (hend b path hb).1 List.mem_cons_self⟩
    rw [branches_record, branches_setState hb,
      Array.getElem?_setIfInBounds_self_of_lt (Array.getElem?_eq_some_iff.1 hb).1]

end PathInvariant

/-- A property of the number of individuals introduced and a path that every step hands on to some
active branch that comes of it. -/
structure Inherited (E : Nat → Path → Prop) : Prop where
  /-- Individuals introduced elsewhere do no harm. -/
  mono : ∀ {n m : Nat} {path : Path}, n ≤ m → E n path → E m path
  /-- Some branch that the rule makes is active and has the property. -/
  step : ∀ {n : Nat} {path : Path} {o : Obligation} {rule : Rule}, E n path →
    path.pending = some (o, rule) → ∃ branch ∈ path.next (n + 1) o rule,
      branch.state = .active ∧ E (n + (rule.newcomers (n + 1)).length) branch.path

namespace Inherited

open Copying

variable {E : Nat → Path → Prop} {t : Copying}

/-- Some active branch has the property. -/
def OnSome (E : Nat → Path → Prop) (t : Copying) : Prop :=
  ∃ (b : BranchId) (path : Path), t.branches[b]? = some ⟨path, .active⟩ ∧ E t.introduced path

/-- One step keeps that some active branch has a property, if the branch that takes it hands it on
and the others do not lose it. -/
theorem onSome_apply_of_step {round : Nat} {b : BranchId} {path : Path} {o : Obligation}
    {rule : Rule} (h : OnSome E t) (hb : t.branches[b]? = some ⟨path, .active⟩)
    (hmono : ∀ other, E t.introduced other →
      E (t.introduced + (rule.newcomers (t.introduced + 1)).length) other)
    (hstep : E t.introduced path → ∃ branch ∈ path.next (t.introduced + 1) o rule,
      branch.state = .active ∧
        E (t.introduced + (rule.newcomers (t.introduced + 1)).length) branch.path) :
    OnSome E (t.apply round b o rule) := by
  unfold OnSome
  rw [introduced_apply]
  obtain ⟨b', old, hb', hold⟩ := h
  by_cases hne : b' = b
  · subst hne
    rw [hb] at hb'
    cases hb'
    obtain ⟨⟨later, state⟩, hmem, rfl, hlater⟩ := hstep hold
    obtain ⟨place, hplace⟩ := exists_getElem?_apply hb round hmem
    exact ⟨place, later, hplace, hlater⟩
  · refine ⟨b', old, ?_, hmono old hold⟩
    rw [getElem?_apply_of_ne hb round o rule hne (Array.getElem?_eq_some_iff.1 hb').1]
    exact hb'

/-- One step keeps that some active branch has the property. -/
theorem onSome_apply (hE : Inherited E) {round : Nat} {b : BranchId} {path : Path} {o : Obligation}
    {rule : Rule} (h : OnSome E t) (hb : t.branches[b]? = some ⟨path, .active⟩)
    (hpending : path.pending = some (o, rule)) : OnSome E (t.apply round b o rule) :=
  onSome_apply_of_step h hb (fun _ => hE.mono (Nat.le_add_right _ _))
    fun hold => hE.step hold hpending

/-- Some active branch has the property after all rounds, if none of them ends with a saturated
branch. -/
theorem onSome_rounds (hE : Inherited E) (bound : Nat) {round : Nat} {later : Copying}
    (h : OnSome E t) (hrounds : rounds bound round t = (later, none)) : OnSome E later := by
  rcases rounds_cases (fun h hb hp => hE.onSome_apply h hb hp) bound h with
    ⟨after, hend, hsome⟩ | ⟨before, b, path, hend, -⟩
  · rw [hrounds] at hend
    cases hend
    exact hsome
  · rw [hrounds] at hend
    cases hend

end Inherited

/-! ### How a run ends

What each outcome says of the branches after the last round. -/

namespace Copying

variable {t : Copying} {saturated : Option BranchId}

/-- The outcome of a run is read off where its rounds have ended. -/
theorem fst_run (t : Copying) (bound : Nat) :
    (t.run bound).1 = (t.rounds bound 0).1.outcome (t.rounds bound 0).2 := rfl

/-- A run is closed only if it was not ended by a saturated branch and no branch is active. -/
theorem of_outcome_eq_closed (h : t.outcome saturated = .closed) :
    saturated = none ∧ ∀ (b : BranchId) (path : Path), t.branches[b]? ≠ some ⟨path, .active⟩ := by
  cases saturated with
  | some b => cases h
  | none =>
      refine ⟨rfl, ?_⟩
      intro b path hb
      have hmem : b ∈ t.activeLeaves := mem_activeLeaves_iff.2 ⟨path, hb⟩
      have hne : t.activeLeaves.isEmpty = false := by
        rw [List.isEmpty_eq_false_iff]
        exact List.ne_nil_of_mem hmem
      simp [outcome, hne] at h

/-- A run names the branch that has ended it. -/
theorem of_outcome_eq_saturated {b : BranchId} (h : t.outcome saturated = .saturated b) :
    saturated = some b := by
  cases saturated with
  | some b' =>
      cases h
      rfl
  | none =>
      simp only [outcome] at h
      split at h <;> simp at h

/-- A run is exhausted only if it was not ended by a saturated branch and some branch is active. -/
theorem of_outcome_eq_exhausted {active : Nat} (h : t.outcome saturated = .exhausted active) :
    saturated = none ∧ ∃ (b : BranchId) (path : Path), t.branches[b]? = some ⟨path, .active⟩ := by
  cases saturated with
  | some b => cases h
  | none =>
      refine ⟨rfl, ?_⟩
      cases hleaves : t.activeLeaves with
      | nil => simp [outcome, hleaves] at h
      | cons b rest =>
          have hmem : b ∈ t.activeLeaves := by simp [hleaves]
          exact ⟨b, mem_activeLeaves_iff.1 hmem⟩

end Copying

end TermLogic
