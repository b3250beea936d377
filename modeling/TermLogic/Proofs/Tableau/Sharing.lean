import TermLogic.Proofs.Tableau.Steps

/-!
# Sharing paths changes nothing

A tableau keeps on each branch only what the branch adds to its parent, and yet runs exactly as the
tableau that copies whole paths. The two are tied together by `Tableau.Mirrors`: the same paths,
states and individuals, and the events of the copying tableau behind those that were recorded
before. Every operation keeps this, because only leaves are changed and a leaf is no one's parent.

* `Trace.append`: a trace with further events.
* `Tableau.Shaped`: parents come before their children and have forked.
* `Tableau.path_eq_extend`: the path of a branch is that of its parent with what the branch adds.
* `Tableau.Indexed`, `Tableau.holds_eq`: on every branch, look-ups find exactly the claims.
* `Tableau.Mirrors.apply`, `Tableau.Mirrors.rounds`: the two tableaux stay alike through every step
  and every round.
* `Tableau.mirrors_run`: so they do from the start of a run to its end.
* `PathInvariant.of_outcome_eq_saturated`, `PathInvariant.of_outcome_eq_exhausted`: what every step
  keeps holds of the paths a run ends with.
-/

namespace TermLogic

/-- The trace with further events behind those it holds. -/
def Trace.append (trace : Trace) (events : List Event) : Trace :=
  ⟨trace.events ++ events⟩

/-- The events of a trace that several events have been put behind. -/
@[simp]
theorem Trace.toList_append (trace : Trace) (events : List Event) :
    (trace.append events).toList = trace.toList ++ events := by
  simp [append, toList]

/-- Putting no events behind a trace leaves it as it is. -/
@[simp]
theorem Trace.append_nil (trace : Trace) : trace.append [] = trace := by
  simp [append]

/-- Events behind others. -/
theorem Trace.append_append (trace : Trace) (first second : List Event) :
    (trace.append first).append second = trace.append (first ++ second) := by
  simp [append, ← Array.toList_inj]

/-- Recording an event behind others. -/
theorem Trace.push_append (trace : Trace) (events : List Event) (event : Event) :
    (trace.append events).push event = trace.append (events ++ [event]) := by
  simp [append, push, ← Array.toList_inj]

/-- A path followed by what a branch adds to it. -/
def Path.extend (path : Path) (branch : Branch) : Path :=
  ⟨path.claims ++ branch.claims, path.expanded ++ branch.expanded,
    path.individuals ++ branch.individuals⟩

namespace Tableau

/-! ### Paths along parents

The lineage of a branch is found by following parents as often as the number of the branch allows.
That this is often enough rests on parents having smaller numbers. -/

/-- The branch is there and has not forked. -/
def IsLeaf (t : Tableau) (b : BranchId) : Prop :=
  ∃ branch, t.branches[b]? = some branch ∧ branch.state ≠ .split

/-- Parents come before their children and are no leaves. -/
structure Shaped (t : Tableau) : Prop where
  /-- A parent has a smaller number. -/
  parent_lt : ∀ {b : BranchId} {branch : Branch} {parent : BranchId},
    t.branches[b]? = some branch → branch.parent = some parent → parent < b
  /-- A leaf is no one's parent. -/
  parent_ne : ∀ {b : BranchId} {branch : Branch} {leaf : BranchId},
    t.branches[b]? = some branch → t.IsLeaf leaf → branch.parent ≠ some leaf

/-- What a branch has from its parent. -/
def inherited (t : Tableau) (branch : Branch) : Path :=
  match branch.parent with
  | none => ⟨[], [], []⟩
  | some parent => t.path parent

/-- Looking back over enough links goes back to the root, whatever their number. -/
theorem lineageWithin_eq {t : Tableau} (h : t.Shaped) {b links : Nat} (hlinks : b ≤ links) :
    lineageWithin t.branches links b = lineageWithin t.branches b b := by
  induction b using Nat.strongRecOn generalizing links with
  | ind b ih =>
      cases hb : t.branches[b]? with
      | none =>
          unfold lineageWithin
          simp only [hb]
      | some branch =>
          cases hparent : branch.parent with
          | none =>
              unfold lineageWithin
              simp only [hb, hparent]
          | some parent =>
              have hlt : parent < b := h.parent_lt hb hparent
              obtain ⟨own, rfl⟩ := Nat.exists_eq_add_one_of_ne_zero (Nat.ne_zero_of_lt hlt)
              obtain ⟨more, rfl⟩ := Nat.exists_eq_add_one_of_ne_zero
                (Nat.ne_zero_of_lt (Nat.lt_of_lt_of_le hlt hlinks))
              have hown : parent ≤ own := Nat.le_of_lt_succ hlt
              have hmore : own ≤ more := Nat.le_of_succ_le_succ hlinks
              unfold lineageWithin
              simp only [hb, hparent]
              rw [ih parent hlt hown, ih parent hlt (Nat.le_trans hown hmore)]

/-- The lineage of a branch is the branch itself, followed by the lineage of its parent. -/
theorem lineage_eq {t : Tableau} (h : t.Shaped) {b : BranchId} {branch : Branch}
    (hb : t.branches[b]? = some branch) :
    t.lineage b = branch :: match branch.parent with
      | none => []
      | some parent => t.lineage parent := by
  cases hparent : branch.parent with
  | none =>
      unfold lineage lineageWithin
      simp only [hb, hparent]
  | some parent =>
      have hlt : parent < b := h.parent_lt hb hparent
      obtain ⟨own, rfl⟩ := Nat.exists_eq_add_one_of_ne_zero (Nat.ne_zero_of_lt hlt)
      unfold lineage
      conv => lhs; unfold lineageWithin
      simp only [hb, hparent]
      rw [lineageWithin_eq h (Nat.le_of_lt_succ hlt)]

/-- The path of a branch is what it has from its parent, with what it adds. -/
theorem path_eq_extend {t : Tableau} (h : t.Shaped) {b : BranchId} {branch : Branch}
    (hb : t.branches[b]? = some branch) : t.path b = (t.inherited branch).extend branch := by
  unfold path inherited Path.extend
  rw [lineage_eq h hb]
  cases branch.parent <;> simp [path]

/-- There is nothing on a branch that is not there. -/
theorem path_eq_empty {t : Tableau} {b : BranchId} (hb : t.branches[b]? = none) :
    t.path b = ⟨[], [], []⟩ := by
  unfold path lineage lineageWithin
  simp [hb]

/-! ### Looking claims up

The index of a branch has the claims the branch adds. So a claim is on a path exactly if some branch
of the lineage has it in its index. -/

/-- What can be looked up on a branch are its claims. -/
def Indexed (t : Tableau) : Prop :=
  ∀ (b : BranchId) (branch : Branch), t.branches[b]? = some branch →
    ∀ s, s ∈ branch.index ↔ s ∈ branch.claims

/-- A lineage consists of branches of the tableau. -/
theorem exists_of_mem_lineageWithin {branches : Array Branch} {links : Nat} {b : BranchId}
    {branch : Branch} (h : branch ∈ lineageWithin branches links b) :
    ∃ b' : BranchId, branches[b']? = some branch := by
  induction links generalizing b with
  | zero =>
      unfold lineageWithin at h
      cases hb : branches[b]? with
      | none => simp [hb] at h
      | some own =>
          simp only [hb, List.mem_singleton] at h
          exact ⟨b, by rw [hb, h]⟩
  | succ links ih =>
      unfold lineageWithin at h
      cases hb : branches[b]? with
      | none => simp [hb] at h
      | some own =>
          cases hparent : own.parent with
          | none =>
              simp only [hb, hparent, List.mem_singleton] at h
              exact ⟨b, by rw [hb, h]⟩
          | some parent =>
              simp only [hb, hparent, List.mem_cons] at h
              rcases h with rfl | hmem
              · exact ⟨b, hb⟩
              · exact ih hmem

/-- A look-up along the lineage of a branch finds the claims on its path. -/
theorem holds_eq {t : Tableau} (h : t.Indexed) (b : BranchId) : t.holds b = (t.path b).holds := by
  funext s
  rw [Bool.eq_iff_iff, Path.holds_iff]
  unfold holds path
  simp only [List.any_eq_true, List.contains_iff_mem, List.mem_flatMap, List.mem_reverse]
  refine exists_congr fun branch => and_congr_right fun hmem => ?_
  obtain ⟨b', hb'⟩ := exists_of_mem_lineageWithin hmem
  exact h b' branch hb' s

/-- What is pending on a branch is what is pending on its path. -/
theorem pending_eq {t : Tableau} (h : t.Indexed) (b : BranchId) :
    t.pending b = (t.path b).pending := by
  unfold pending Path.pending
  rw [holds_eq h]

/-! ### Changing a leaf

What a branch adds is part of the path of every branch below it. A leaf has none below it, so that
changing one changes a single path, as it does where paths are copied. -/

section modify

variable {t : Tableau} {b : BranchId} {change : Branch → Branch}

/-- Changing a leaf, but not its parent, keeps the shape. -/
theorem Shaped.modify (h : t.Shaped) (hleaf : t.IsLeaf b)
    (hparent : ∀ branch, (change branch).parent = branch.parent) : (t.modify b change).Shaped := by
  -- each branch is an old one or the changed one, with the old parent
  have hold : ∀ {b' : BranchId} {branch : Branch}, (t.modify b change).branches[b']? = some branch →
      ∃ old, t.branches[b']? = some old ∧ old.parent = branch.parent := by
    intro b' branch hb'
    simp only [Tableau.modify, Array.getElem?_modify] at hb'
    by_cases hbb : b = b'
    · rw [if_pos hbb, Option.map_eq_some_iff] at hb'
      obtain ⟨old, hget, rfl⟩ := hb'
      exact ⟨old, hget, (hparent old).symm⟩
    · rw [if_neg hbb] at hb'
      exact ⟨branch, hb', rfl⟩
  refine ⟨?_, ?_⟩
  · intro b' branch parent hb' hbranch
    obtain ⟨old, hget, heq⟩ := hold hb'
    exact h.parent_lt hget (heq.trans hbranch)
  · rintro b' branch other hb' ⟨changed, hother, hstate⟩ hbranch
    obtain ⟨old, hget, heq⟩ := hold hb'
    by_cases hne : b = other
    · exact h.parent_ne hget (hne ▸ hleaf) (heq.trans hbranch)
    · rw [Tableau.modify, Array.getElem?_modify, if_neg hne] at hother
      exact h.parent_ne hget ⟨changed, hother, hstate⟩ (heq.trans hbranch)

/-- Changing a leaf leaves the paths of all other branches as they are. -/
theorem path_modify_of_ne (h : t.Shaped) (hleaf : t.IsLeaf b)
    (hparent : ∀ branch, (change branch).parent = branch.parent) {b' : BranchId} (hne : b' ≠ b) :
    (t.modify b change).path b' = t.path b' := by
  have hget : ∀ {b' : BranchId}, b' ≠ b → (t.modify b change).branches[b']? = t.branches[b']? := by
    intro b' hne
    rw [Tableau.modify, Array.getElem?_modify, if_neg (Ne.symm hne)]
  induction b' using Nat.strongRecOn with
  | ind b' ih =>
      cases hb' : t.branches[b']? with
      | none => rw [path_eq_empty hb', path_eq_empty ((hget hne).trans hb')]
      | some branch =>
          rw [path_eq_extend h hb', path_eq_extend (h.modify hleaf hparent) ((hget hne).trans hb')]
          unfold inherited
          cases hbranch : branch.parent with
          | none => rfl
          | some parent =>
              have hne' : parent ≠ b := by
                rintro rfl
                exact h.parent_ne hb' hleaf hbranch
              simp only [ih parent (h.parent_lt hb' hbranch) hne']

/-- Changing a leaf changes what its own path ends with. -/
theorem path_modify_self (h : t.Shaped) (hleaf : t.IsLeaf b)
    (hparent : ∀ branch, (change branch).parent = branch.parent) {branch : Branch}
    (hb : t.branches[b]? = some branch) :
    (t.modify b change).path b = (t.inherited branch).extend (change branch) := by
  have hget : (t.modify b change).branches[b]? = some (change branch) := by
    rw [Tableau.modify, Array.getElem?_modify, if_pos rfl, hb]
    rfl
  rw [path_eq_extend (h.modify hleaf hparent) hget]
  unfold inherited
  rw [hparent]
  cases hbranch : branch.parent with
  | none => rfl
  | some parent =>
      have hne : parent ≠ b := by
        rintro rfl
        exact h.parent_ne hb hleaf hbranch
      simp only [path_modify_of_ne h hleaf hparent hne]

/-- A change that puts the same claims on a branch and into its index keeps look-ups right. -/
theorem Indexed.modify (h : t.Indexed)
    (hchange : ∀ branch, (∀ s, s ∈ branch.index ↔ s ∈ branch.claims) →
      ∀ s, s ∈ (change branch).index ↔ s ∈ (change branch).claims) :
    (t.modify b change).Indexed := by
  intro b' branch hb'
  rw [Tableau.modify, Array.getElem?_modify] at hb'
  split at hb'
  · obtain ⟨old, hold, rfl⟩ := Option.map_eq_some_iff.1 hb'
    exact hchange old (h b' old hold)
  · exact h b' branch hb'

/-- A change that makes no fork keeps the leaves. -/
theorem IsLeaf.modify {leaf : BranchId} (h : t.IsLeaf leaf)
    (hchange : ∀ branch, branch.state ≠ .split → (change branch).state ≠ .split) :
    (t.modify b change).IsLeaf leaf := by
  obtain ⟨branch, hleaf, hstate⟩ := h
  unfold IsLeaf
  rw [Tableau.modify, Array.getElem?_modify]
  by_cases hb : b = leaf
  · rw [if_pos hb, hleaf]
    exact ⟨change branch, rfl, hchange branch hstate⟩
  · rw [if_neg hb]
    exact ⟨branch, hleaf, hstate⟩

end modify

/-- Recording keeps the leaves. -/
theorem IsLeaf.record {t : Tableau} {leaf : BranchId} (h : t.IsLeaf leaf) (event : Event) :
    (t.record event).IsLeaf leaf :=
  h

/-- Adding a claim keeps the leaves. -/
theorem IsLeaf.add {t : Tableau} {leaf : BranchId} (h : t.IsLeaf leaf) (b : BranchId) (s : Signed) :
    (t.add b s).IsLeaf leaf := by
  have hpush : (t.pushClaim b s).IsLeaf leaf := h.modify fun branch hstate => hstate
  unfold Tableau.add
  split
  · exact h
  · split
    · exact hpush.modify fun branch hstate => by simp
    · exact hpush

/-- Adding claims keeps the leaves. -/
theorem IsLeaf.addAll {t : Tableau} {leaf : BranchId} (h : t.IsLeaf leaf) (b : BranchId)
    (claims : List Signed) : (t.addAll b claims).IsLeaf leaf := by
  induction claims generalizing t with
  | nil => exact h
  | cons s rest ih =>
      simp only [Tableau.addAll]
      split
      · exact h.add b s
      · exact ih (h.add b s)

/-! ### Appending a branch

A fork is taken apart into three changes: the branch is marked as split, and two new branches are
appended, one at a time. Appending one is a change of its own, with lemmas for either tableau. -/

section sprout

variable {t : Tableau} {b : BranchId}

/-- The tableau with a new branch that grows from `b`. -/
def sprout (t : Tableau) (b : BranchId) : Tableau :=
  { t with branches := t.branches.push (.new (some b)) }

/-- A new branch leaves the others as they are. -/
theorem getElem?_sprout_of_lt {b' : BranchId} (hlt : b' < t.branches.size) :
    (t.sprout b).branches[b']? = t.branches[b']? := by
  rw [sprout, Array.getElem?_push, if_neg (Nat.ne_of_lt hlt)]

/-- A new branch comes last. -/
theorem getElem?_sprout_size : (t.sprout b).branches[t.branches.size]? = some (.new (some b)) := by
  simp [sprout]

/-- A new branch keeps the shape if it grows from one that has forked. -/
theorem Shaped.sprout (h : t.Shaped) (hlt : b < t.branches.size) (hb : ¬ t.IsLeaf b) :
    (t.sprout b).Shaped := by
  have hcases : ∀ {b' : BranchId} {branch : Branch}, (t.sprout b).branches[b']? = some branch →
      b' = t.branches.size ∧ branch = .new (some b) ∨
        b' < t.branches.size ∧ t.branches[b']? = some branch := by
    intro b' branch hb'
    rw [Tableau.sprout, Array.getElem?_push] at hb'
    split at hb'
    · next heq =>
      cases hb'
      exact .inl ⟨heq, rfl⟩
    · exact .inr ⟨(Array.getElem?_eq_some_iff.1 hb').1, hb'⟩
  refine ⟨?_, ?_⟩
  · intro b' branch parent hb' hparent
    rcases hcases hb' with ⟨rfl, rfl⟩ | ⟨-, hold⟩
    · cases hparent
      exact hlt
    · exact h.parent_lt hold hparent
  · rintro b' branch leaf hb' ⟨other, hleaf, hstate⟩ hparent
    rcases hcases hb' with ⟨rfl, rfl⟩ | ⟨hlt', hold⟩
    · cases hparent
      rw [getElem?_sprout_of_lt hlt] at hleaf
      exact hb ⟨other, hleaf, hstate⟩
    · have hbefore : leaf < t.branches.size := Nat.lt_trans (h.parent_lt hold hparent) hlt'
      rw [getElem?_sprout_of_lt hbefore] at hleaf
      exact h.parent_ne hold ⟨other, hleaf, hstate⟩ hparent

/-- There is nothing to look up on a new branch. -/
theorem Indexed.sprout (h : t.Indexed) (b : BranchId) : (t.sprout b).Indexed := by
  intro b' branch hb'
  rw [Tableau.sprout, Array.getElem?_push] at hb'
  split at hb'
  · cases hb'
    exact fun s => Iff.rfl
  · exact h b' branch hb'

/-- A new branch leaves the paths of the others as they are. -/
theorem path_sprout_of_lt (h : t.Shaped) (hlt : b < t.branches.size) (hb : ¬ t.IsLeaf b)
    {b' : BranchId} (hlt' : b' < t.branches.size) : (t.sprout b).path b' = t.path b' := by
  induction b' using Nat.strongRecOn with
  | ind b' ih =>
      have hget : t.branches[b']? = some (t.branches[b']) := Array.getElem?_eq_getElem hlt'
      rw [path_eq_extend h hget,
        path_eq_extend (h.sprout hlt hb) ((getElem?_sprout_of_lt hlt').trans hget)]
      unfold inherited
      cases hparent : t.branches[b'].parent with
      | none => rfl
      | some parent =>
          have hbefore : parent < b' := h.parent_lt hget hparent
          simp only [ih parent hbefore (Nat.lt_trans hbefore hlt')]

/-- A new branch starts with the path of the one it grows from. -/
theorem path_sprout_size (h : t.Shaped) (hlt : b < t.branches.size) (hb : ¬ t.IsLeaf b) :
    (t.sprout b).path t.branches.size = t.path b := by
  rw [path_eq_extend (h.sprout hlt hb) getElem?_sprout_size]
  show ((t.sprout b).path b).extend (.new (some b)) = t.path b
  rw [path_sprout_of_lt h hlt hb hlt]
  simp [Path.extend, Branch.new]

/-- A fork marks a branch as split and lets two branches grow from it. -/
theorem fork_eq (hlt : b < t.branches.size) :
    t.fork b = ((t.setState b .split).sprout b).sprout b := by
  unfold fork setState sprout Tableau.modify
  congr 1
  apply Array.ext_getElem?
  intro j
  grind

end sprout

end Tableau

namespace Copying

variable {u : Copying} {b : BranchId}

/-- The tableau with a new branch that starts with the path of `b`. -/
def sprout (u : Copying) (b : BranchId) : Copying :=
  { u with branches := u.branches.push ⟨u.path b, .active⟩ }

/-- A new branch leaves the paths of the others as they are. -/
theorem path_sprout_of_ne {b' : BranchId} (hne : b' ≠ u.branches.size) :
    (u.sprout b).path b' = u.path b' := by
  unfold Copying.path sprout
  simp only [Array.getElem?_push, if_neg hne]

/-- A new branch starts with the path of the one it grows from. -/
theorem path_sprout_size : (u.sprout b).path u.branches.size = u.path b := by
  have hget : (u.sprout b).branches[u.branches.size]? = some ⟨u.path b, .active⟩ := by
    simp [sprout]
  exact path_eq_of_getElem? hget

/-- Putting a branch in a state changes no path. -/
theorem path_setState (u : Copying) (b : BranchId) (state : Branch.State) (b' : BranchId) :
    (u.setState b state).path b' = u.path b' := by
  unfold Copying.path setState
  rw [Array.getElem?_modify]
  split
  · simp [Function.comp_def]
  · rfl

/-- A fork marks a branch as split and appends two copies of it. -/
theorem fork_eq (hlt : b < u.branches.size) :
    { u with branches := (u.branches.push ⟨u.path b, .active⟩).push ⟨u.path b, .active⟩ }.setState
        b .split = ((u.setState b .split).sprout b).sprout b := by
  have hne : b ≠ (u.setState b .split).branches.size := by
    simpa [setState] using Nat.ne_of_lt hlt
  have hpath : ((u.setState b .split).sprout b).path b = u.path b := by
    rw [path_sprout_of_ne hne, path_setState]
  have hfirst : (u.setState b .split).sprout b = { u with
      branches := (u.setState b .split).branches.push ⟨u.path b, .active⟩ } := by
    rw [sprout, path_setState]
    rfl
  rw [sprout, hpath, hfirst]
  unfold setState
  congr 1
  apply Array.ext_getElem?
  intro j
  grind

end Copying

namespace Tableau

/-! ### The same tableau twice

One lemma for each operation, from single changes to whole steps. Those that change a branch ask for
a leaf. -/

/-- Two tableaux that are alike: one shares paths, the other copies them. `prior` is the trace, if
there is one, as it was before the run. -/
structure Mirrors (prior : Option Trace) (t : Tableau) (u : Copying) : Prop where
  /-- The sharing tableau has its shape. -/
  shaped : t.Shaped
  /-- Its look-ups find the claims. -/
  indexed : t.Indexed
  /-- They have as many branches. -/
  size_eq : u.branches.size = t.branches.size
  /-- They have the same paths. -/
  path_eq : ∀ b, u.path b = t.path b
  /-- Their branches are in the same states. -/
  state_eq : ∀ b : BranchId,
    u.branches[b]?.map Copying.Branch.state = t.branches[b]?.map Branch.state
  /-- They have introduced as many individuals. -/
  introduced_eq : u.introduced = t.introduced
  /-- They have recorded the same events. -/
  events_eq : t.trace = prior.map fun trace => trace.append u.events

namespace Mirrors

variable {prior : Option Trace} {t : Tableau} {u : Copying} {b : BranchId}

/-- A branch is in a state in both tableaux or in neither. -/
theorem isIn_eq (h : Mirrors prior t u) (state : Branch.State) (b : BranchId) :
    u.isIn state b = t.isIn state b := by
  have hstate := h.state_eq b
  unfold Copying.isIn Tableau.isIn
  cases hu : u.branches[b]? <;> cases ht : t.branches[b]? <;> simp_all

/-- A branch of one tableau is there in the other. -/
theorem exists_copy (h : Mirrors prior t u) {branch : Branch} (hb : t.branches[b]? = some branch) :
    ∃ path, u.branches[b]? = some ⟨path, branch.state⟩ := by
  have hstate := h.state_eq b
  rw [hb, Option.map_some, Option.map_eq_some_iff] at hstate
  obtain ⟨⟨path, state⟩, hcopy, rfl⟩ := hstate
  exact ⟨path, hcopy⟩

/-- Both tableaux have the same active leaves. -/
theorem activeLeaves_eq (h : Mirrors prior t u) : u.activeLeaves = t.activeLeaves := by
  unfold Copying.activeLeaves Tableau.activeLeaves
  rw [h.size_eq]
  exact List.filter_congr fun b _ => h.isIn_eq .active b

/-- Both record the same event. -/
theorem record (h : Mirrors prior t u) (event : Event) :
    Mirrors prior (t.record event) (u.record event) := by
  refine ⟨⟨h.shaped.parent_lt, h.shaped.parent_ne⟩, h.indexed, h.size_eq, h.path_eq, h.state_eq,
    h.introduced_eq, ?_⟩
  rw [trace_record, h.events_eq, Option.map_map]
  simp only [Function.comp_def, Trace.push_append, Copying.record]

/-- Both change a leaf in the same way. -/
theorem onPath (h : Mirrors prior t u) (hleaf : t.IsLeaf b)
    {change : Branch → Branch} {changePath : Path → Path}
    (hparent : ∀ branch, (change branch).parent = branch.parent)
    (hstate : ∀ branch, (change branch).state = branch.state)
    (hindex : ∀ branch, (∀ s, s ∈ branch.index ↔ s ∈ branch.claims) →
      ∀ s, s ∈ (change branch).index ↔ s ∈ (change branch).claims)
    (hpath : ∀ (path : Path) (branch : Branch),
      path.extend (change branch) = changePath (path.extend branch)) :
    Mirrors prior (t.modify b change) (u.onPath b changePath) := by
  refine ⟨h.shaped.modify hleaf hparent, h.indexed.modify hindex, ?_, ?_, ?_, h.introduced_eq,
    h.events_eq⟩
  · simpa [Copying.onPath, Tableau.modify] using h.size_eq
  · intro b'
    by_cases hne : b' = b
    · subst hne
      obtain ⟨branch, hb, -⟩ := id hleaf
      obtain ⟨copy, hcopy⟩ := h.exists_copy hb
      rw [path_modify_self h.shaped hleaf hparent hb, hpath, ← path_eq_extend h.shaped hb,
        ← h.path_eq]
      simp [Copying.path, Copying.onPath, Array.getElem?_modify, hcopy]
    · rw [path_modify_of_ne h.shaped hleaf hparent hne, ← h.path_eq]
      simp only [Copying.path, Copying.onPath, Array.getElem?_modify, if_neg (Ne.symm hne)]
  · intro b'
    have hold := h.state_eq b'
    simp only [Copying.onPath, Tableau.modify, Array.getElem?_modify]
    by_cases hbb : b = b'
    · simpa [hbb, Function.comp_def, hstate] using hold
    · simpa [hbb] using hold

/-- Both put a leaf in the same state. -/
theorem setState (h : Mirrors prior t u) (hleaf : t.IsLeaf b) (state : Branch.State) :
    Mirrors prior (t.setState b state) (u.setState b state) := by
  have hparent : ∀ branch : Branch, { branch with state := state }.parent = branch.parent :=
    fun _ => rfl
  refine ⟨h.shaped.modify hleaf hparent, h.indexed.modify fun _ hold => hold, ?_, ?_, ?_,
    h.introduced_eq, h.events_eq⟩
  · simpa [Copying.setState, Tableau.setState, Tableau.modify] using h.size_eq
  · intro b'
    rw [Copying.path_setState, h.path_eq]
    by_cases hne : b' = b
    · subst hne
      obtain ⟨branch, hb, -⟩ := id hleaf
      rw [Tableau.setState, path_modify_self h.shaped hleaf hparent hb, path_eq_extend h.shaped hb]
      rfl
    · exact (path_modify_of_ne h.shaped hleaf hparent hne).symm
  · intro b'
    have hold := h.state_eq b'
    simp only [Copying.setState, Tableau.setState, Tableau.modify, Array.getElem?_modify]
    by_cases hbb : b = b'
    · subst hbb
      obtain ⟨branch, hb, -⟩ := hleaf
      obtain ⟨path, hcopy⟩ := h.exists_copy hb
      simp [hb, hcopy]
    · simpa [hbb] using hold

/-- Both add a claim to a leaf. -/
theorem add (h : Mirrors prior t u) (hleaf : t.IsLeaf b) (s : Signed) :
    Mirrors prior (t.add b s) (u.add b s) := by
  have hpush : Mirrors prior (t.pushClaim b s)
      (u.onPath b fun path => { path with claims := path.claims ++ [s] }) := by
    refine h.onPath hleaf (fun _ => rfl) (fun _ => rfl) ?_ ?_
    · intro branch hold r
      simp [hold r, or_comm]
    · intro path branch
      simp [Path.extend]
  have hleaf' : (t.pushClaim b s).IsLeaf b := hleaf.modify fun branch hstate => hstate
  unfold Tableau.add Copying.add
  simp only [h.path_eq, holds_eq h.indexed]
  split
  · exact h
  · split
    · exact (hpush.setState hleaf' .closed).record _
    · exact hpush

/-- Both add claims to a leaf until it closes. -/
theorem addAll (h : Mirrors prior t u) (hleaf : t.IsLeaf b) (claims : List Signed) :
    Mirrors prior (t.addAll b claims) (u.addAll b claims) := by
  induction claims generalizing t u with
  | nil => exact h
  | cons s rest ih =>
      have hadd := h.add hleaf s
      simp only [Tableau.addAll, Copying.addAll, hadd.isIn_eq]
      split
      · exact hadd
      · exact ih hadd (hleaf.add b s)

/-- Both start from the same claims. -/
theorem addSeeds (h : Mirrors prior t u) (hleaf : t.IsLeaf 0) (seed : List Signed) :
    Mirrors prior (t.addSeeds seed) (u.addSeeds seed) := by
  induction seed generalizing t u with
  | nil => exact h
  | cons s rest ih =>
      have hadd : Mirrors prior ((t.record (.seeded 0 s)).add 0 s)
          ((u.record (.seeded 0 s)).add 0 s) := (h.record (.seeded 0 s)).add hleaf s
      have hleaf' : ((t.record (.seeded 0 s)).add 0 s).IsLeaf 0 :=
        (hleaf.record _).add 0 s
      simp only [Tableau.addSeeds, Copying.addSeeds, hadd.isIn_eq]
      split
      · exact hadd
      · exact ih hadd hleaf'

/-- Both introduce the next individual on a leaf. -/
theorem introduce (h : Mirrors prior t u) (hleaf : t.IsLeaf b) :
    Mirrors prior (t.introduce b) ({ u with introduced := u.introduced + 1 }.onPath b fun path =>
      { path with individuals := path.individuals ++ [u.introduced + 1] }) := by
  have hcount : Mirrors prior { t with introduced := t.introduced + 1 }
      { u with introduced := u.introduced + 1 } := by
    refine ⟨⟨h.shaped.parent_lt, h.shaped.parent_ne⟩, h.indexed, h.size_eq, h.path_eq,
      h.state_eq, ?_, h.events_eq⟩
    rw [h.introduced_eq]
  refine hcount.onPath hleaf (fun _ => rfl) (fun _ => rfl) (fun _ hold => hold) ?_
  intro path branch
  simp [Path.extend, h.introduced_eq]

/-- One lets a branch grow, the other copies the path it grows from. -/
theorem sprout (h : Mirrors prior t u) (hlt : b < t.branches.size) (hb : ¬ t.IsLeaf b) :
    Mirrors prior (t.sprout b) (u.sprout b) := by
  refine ⟨h.shaped.sprout hlt hb, h.indexed.sprout b, ?_, ?_, ?_, h.introduced_eq, h.events_eq⟩
  · simp [Tableau.sprout, Copying.sprout, h.size_eq]
  · intro b'
    rcases Nat.lt_trichotomy b' t.branches.size with hlt' | rfl | hgt
    · rw [Copying.path_sprout_of_ne (h.size_eq ▸ Nat.ne_of_lt hlt'),
        path_sprout_of_lt h.shaped hlt hb hlt', h.path_eq]
    · rw [← h.size_eq, Copying.path_sprout_size, h.size_eq, path_sprout_size h.shaped hlt hb,
        h.path_eq]
    · have hnone : (t.sprout b).branches[b']? = none := by
        rw [Array.getElem?_eq_none_iff, Tableau.sprout, Array.size_push]
        exact hgt
      have hold : t.branches[b']? = none := by
        rw [Array.getElem?_eq_none_iff]
        exact Nat.le_of_lt hgt
      rw [Copying.path_sprout_of_ne (h.size_eq ▸ Nat.ne_of_gt hgt), path_eq_empty hnone, h.path_eq,
        path_eq_empty hold]
  · intro b'
    have hold := h.state_eq b'
    unfold Tableau.sprout Copying.sprout
    rw [Array.getElem?_push, Array.getElem?_push, h.size_eq]
    split
    · rfl
    · exact hold

/-- Both fork a leaf. -/
theorem fork (h : Mirrors prior t u) (hleaf : t.IsLeaf b) :
    Mirrors prior (t.fork b)
      ({ u with
          branches := (u.branches.push ⟨u.path b, .active⟩).push ⟨u.path b, .active⟩ }.setState
        b .split) := by
  obtain ⟨branch, hb, -⟩ := id hleaf
  have hlt : b < t.branches.size := (Array.getElem?_eq_some_iff.1 hb).1
  have hsplit := h.setState hleaf .split
  have hlt' : b < (t.setState b .split).branches.size := by
    simpa [Tableau.setState, Tableau.modify] using hlt
  have hnot : ¬ (t.setState b .split).IsLeaf b := by
    rintro ⟨changed, hchanged, hstate⟩
    rw [Tableau.setState, Tableau.modify, Array.getElem?_modify, if_pos rfl, hb] at hchanged
    cases hchanged
    exact hstate rfl
  have hfirst := hsplit.sprout hlt' hnot
  have hlt'' : b < ((t.setState b .split).sprout b).branches.size := by
    rw [Tableau.sprout, Array.size_push]
    exact Nat.lt_succ_of_lt hlt'
  have hnot' : ¬ ((t.setState b .split).sprout b).IsLeaf b := by
    unfold IsLeaf
    rw [getElem?_sprout_of_lt hlt']
    exact hnot
  have hsecond := hfirst.sprout hlt'' hnot'
  rw [fork_eq hlt, Copying.fork_eq (h.size_eq ▸ hlt)]
  exact hsecond

/-- A leaf stays one when a slot is noted as expanded on it. -/
theorem isLeaf_pushExpanded (hleaf : t.IsLeaf b) (slot : Slot) : (t.pushExpanded b slot).IsLeaf b :=
  hleaf.modify fun _ hstate => hstate

/-- Both note that a slot has been expanded on a leaf. -/
theorem pushExpanded (h : Mirrors prior t u) (hleaf : t.IsLeaf b) (slot : Slot) :
    Mirrors prior (t.pushExpanded b slot)
      (u.onPath b fun path => { path with expanded := path.expanded ++ [slot] }) := by
  refine h.onPath hleaf (fun _ => rfl) (fun _ => rfl) (fun _ hold => hold) ?_
  intro path branch
  simp [Path.extend]

/-- The children of a fork are leaves. -/
theorem isLeaf_fork (hleaf : t.IsLeaf b) :
    (t.fork b).IsLeaf t.branches.size ∧ (t.fork b).IsLeaf (t.branches.size + 1) := by
  obtain ⟨branch, hb, -⟩ := hleaf
  have hlt : b < t.branches.size := (Array.getElem?_eq_some_iff.1 hb).1
  have hsize : (t.setState b .split).branches.size = t.branches.size := by
    simp [Tableau.setState, Tableau.modify]
  rw [fork_eq hlt]
  constructor
  · refine ⟨.new (some b), ?_, by simp [Branch.new]⟩
    rw [getElem?_sprout_of_lt (by simp [Tableau.sprout, hsize]), ← hsize]
    exact getElem?_sprout_size
  · refine ⟨.new (some b), ?_, by simp [Branch.new]⟩
    have hsize' : ((t.setState b .split).sprout b).branches.size = t.branches.size + 1 := by
      simp [Tableau.sprout, hsize]
    rw [← hsize']
    exact getElem?_sprout_size

/-- Both expand an obligation on a leaf. -/
theorem apply (h : Mirrors prior t u) (hleaf : t.IsLeaf b) (round : Nat) (o : Obligation)
    (rule : Rule) : Mirrors prior (t.apply round b o rule) (u.apply round b o rule) := by
  have hmark := h.pushExpanded hleaf o.toSlot
  have hleaf' := isLeaf_pushExpanded hleaf o.toSlot
  cases rule with
  | linear produced => exact (hmark.record _).addAll hleaf' produced
  | witness terms =>
      have hnew := hmark.introduce hleaf'
      have hleaf'' : ((t.pushExpanded b o.toSlot).introduce b).IsLeaf b :=
        IsLeaf.modify (t := { t.pushExpanded b o.toSlot with introduced := _ }) hleaf'
          fun _ hstate => hstate
      simp only [Tableau.apply, Copying.apply, ← hmark.introduced_eq]
      exact (hnew.record _).addAll hleaf'' _
  | split left right =>
      have hfork := hmark.fork hleaf'
      obtain ⟨hfirst, hsecond⟩ := isLeaf_fork hleaf'
      simp only [Tableau.apply, Copying.apply, hmark.size_eq]
      exact ((hfork.record _).addAll (hfirst.record _) left).addAll
        ((hsecond.record _).addAll _ left) right

/-! ### Whole runs

Rounds visit active branches, which are leaves, and stay leaves until they are visited. Both
tableaux thus go through the same steps, and end alike. -/

/-- A branch that is active in the copying tableau is a leaf of the other. -/
theorem isLeaf_of_active (h : Mirrors prior t u) {path : Path}
    (hb : u.branches[b]? = some ⟨path, .active⟩) : t.IsLeaf b := by
  have hstate := h.state_eq b
  rw [hb, Option.map_some, eq_comm, Option.map_eq_some_iff] at hstate
  obtain ⟨branch, hget, hactive⟩ := hstate
  exact ⟨branch, hget, by rw [hactive]; simp⟩

/-- Both go through a round in the same way. -/
theorem sweep (h : Mirrors prior t u) (round : Nat) {leaves : List BranchId}
    (hsched : u.Scheduled leaves) :
    Mirrors prior (t.sweep round leaves).1 (u.sweep round leaves).1 ∧
      (t.sweep round leaves).2 = (u.sweep round leaves).2 := by
  induction leaves generalizing t u with
  | nil => exact ⟨h, rfl⟩
  | cons b rest ih =>
      obtain ⟨path, hb⟩ := hsched.active b List.mem_cons_self
      have hleaf := h.isLeaf_of_active hb
      simp only [Tableau.sweep, Copying.sweep, h.path_eq, pending_eq h.indexed]
      cases hpending : (t.path b).pending with
      | none => exact ⟨(h.setState hleaf .saturated).record _, rfl⟩
      | some choice =>
          exact ih (h.apply hleaf round choice.1 choice.2) (hsched.apply round choice.1 choice.2)

/-- Both go through all rounds in the same way. -/
theorem rounds (h : Mirrors prior t u) (bound round : Nat) :
    Mirrors prior (t.rounds bound round).2.1 (u.rounds bound round).1 ∧
      (t.rounds bound round).2.2 = (u.rounds bound round).2 := by
  induction bound generalizing t u round with
  | zero => exact ⟨h, rfl⟩
  | succ bound ih =>
      simp only [Tableau.rounds, Copying.rounds, h.activeLeaves_eq]
      cases hleaves : t.activeLeaves with
      | nil => exact ⟨h, rfl⟩
      | cons first others =>
          have hsched : u.Scheduled (first :: others) := by
            rw [← hleaves, ← h.activeLeaves_eq]
            exact Copying.scheduled_activeLeaves u
          obtain ⟨hround, hend⟩ := h.sweep round hsched
          rcases ht : t.sweep round (first :: others) with ⟨t', saturated⟩
          rcases hu : u.sweep round (first :: others) with ⟨u', saturated'⟩
          rw [ht, hu] at hround hend
          obtain rfl : saturated = saturated' := hend
          cases saturated with
          | none =>
              simp only [ht, hu]
              exact ih hround (round + 1)
          | some b =>
              simp only [ht, hu, and_true]
              exact hround

/-- Both come to the same outcome. -/
theorem outcome_eq (h : Mirrors prior t u) (saturated : Option BranchId) :
    t.outcome saturated = u.outcome saturated := by
  cases saturated with
  | some b => rfl
  | none =>
      unfold Tableau.outcome Copying.outcome
      simp only [h.activeLeaves_eq]
      cases t.activeLeaves <;> rfl

end Mirrors

/-- Paths depend on nothing but the branches. -/
theorem path_eq_of_branches_eq {t t' : Tableau} (h : t.branches = t'.branches) (b : BranchId) :
    t.path b = t'.path b := by
  unfold path lineage
  rw [h]

/-- Recording an outcome changes no branch. -/
theorem branches_recordOutcome (t : Tableau) (outcome : Outcome) :
    (t.recordOutcome outcome).branches = t.branches := by
  cases outcome <;> rfl

/-- Recording how the leaves end changes no branch. -/
theorem branches_recordEndings (t : Tableau) : t.recordEndings.branches = t.branches := by
  unfold recordEndings
  generalize t.endings = endings
  induction endings generalizing t with
  | nil => rfl
  | cons first rest ih =>
      rw [List.foldl_cons, ih]
      rfl

/-- A finished tableau has the branches it had after the last round. -/
theorem branches_run (t : Tableau) (bound : Nat) :
    (t.run bound).tableau.branches = (t.rounds bound 0).2.1.branches := by
  show (recordEndings (recordOutcome _ _)).branches = _
  rw [branches_recordEndings, branches_recordOutcome]

/-- A tableau and its copying twin start alike. -/
theorem mirrors_ofSeed (seed : List Signed) (trace : Option Trace) :
    Mirrors trace (Tableau.ofSeed seed trace) (Copying.ofSeed seed) := by
  have hroot : Mirrors trace (root trace)
      ⟨#[⟨⟨[], [], []⟩, .active⟩], 0, []⟩ := by
    have honly : ∀ {b : BranchId} {branch : Branch}, (root trace).branches[b]? = some branch →
        branch.parent = none := by
      intro b branch hb
      cases b with
      | zero => cases hb; rfl
      | succ b => cases hb
    refine ⟨⟨?_, ?_⟩, ?_, rfl, ?_, ?_, rfl, ?_⟩
    · intro b branch parent hb hparent
      rw [honly hb] at hparent
      cases hparent
    · intro b branch leaf hb hleaf hparent
      rw [honly hb] at hparent
      cases hparent
    · intro b branch hb s
      cases b with
      | zero => cases hb; rfl
      | succ b => cases hb
    · intro b
      cases b <;> rfl
    · intro b
      cases b <;> rfl
    · simp [root]
  exact hroot.addSeeds ⟨.new none, rfl, by simp [Branch.new]⟩ seed

/-- A run of a tableau has the outcome of the copying twin, and the finished tableau has the paths
the copying twin had after the last round. -/
theorem mirrors_run (seed : List Signed) (trace : Option Trace) (bound : Nat) :
    ∃ saturated copy, (Copying.ofSeed seed).rounds bound 0 = (copy, saturated) ∧
      ((ofSeed seed trace).run bound).outcome = copy.outcome saturated ∧
      ∀ b, ((ofSeed seed trace).run bound).tableau.path b = copy.path b := by
  obtain ⟨hrounds, hend⟩ := (mirrors_ofSeed seed trace).rounds bound 0
  refine ⟨((Copying.ofSeed seed).rounds bound 0).2, ((Copying.ofSeed seed).rounds bound 0).1, rfl,
    ?_, ?_⟩
  · rw [← hend, ← hrounds.outcome_eq]
    rfl
  · intro b
    rw [hrounds.path_eq]
    exact path_eq_of_branches_eq (branches_run _ bound) b

/-- In a finished tableau each branch is in the state that it had in the copying twin after the last
round. -/
theorem isIn_run (seed : List Signed) (trace : Option Trace) (bound : Nat) (state : Branch.State)
    (b : BranchId) :
    ((ofSeed seed trace).run bound).tableau.isIn state b =
      ((Copying.ofSeed seed).rounds bound 0).1.isIn state b := by
  rw [((mirrors_ofSeed seed trace).rounds bound 0).1.isIn_eq]
  unfold Tableau.isIn
  rw [branches_run]

end Tableau

/-! ### What a whole run keeps

Properties of paths are shown on the copying side, where a branch is its path. They are handed to
the runs of `Tableau` here, once for each way in which a run can end. -/

namespace PathInvariant

variable {Q : Nat → Nat → Path → Prop} {seed : List Signed} {trace : Option Trace} {bound : Nat}

/-- Both ways in which the rounds of a run can end: with no saturated branch, and then the property
holds of every active branch, or with one, and then it holds of that one. -/
theorem rounds_ofSeed_cases (hQ : PathInvariant Q)
    (hstart : (Path.addAll ⟨[], [], []⟩ seed).state = .active →
      Q 0 0 (Path.addAll ⟨[], [], []⟩ seed).path) :
    (∃ later, (Copying.ofSeed seed).rounds bound 0 = (later, none) ∧
      ∀ (b : BranchId) (path : Path), later.branches[b]? = some ⟨path, .active⟩ →
        Q bound later.introduced path) ∨
    (∃ later b path k n, (Copying.ofSeed seed).rounds bound 0 = (later, some b) ∧
      later.branches[b]? = some ⟨path, .saturated⟩ ∧ path.pending = none ∧ Q k n path) := by
  have hroot : ∀ (b : BranchId) (path : Path),
      (Copying.ofSeed seed).branches[b]? = some ⟨path, .active⟩ →
      Q 0 (Copying.ofSeed seed).introduced path := by
    intro b path hb
    have hbranch := Copying.addAll_of_getElem?_ofSeed hb
    rw [hbranch] at hstart
    rw [Copying.introduced_ofSeed]
    exact hstart rfl
  have hcases := hQ.rounds_cases bound hroot
  rwa [Nat.zero_add] at hcases

/-- A property that holds at the root and that every step keeps holds of the saturated branch that
ends a run, on which nothing is pending. -/
theorem of_outcome_eq_saturated (hQ : PathInvariant Q)
    (hstart : (Path.addAll ⟨[], [], []⟩ seed).state = .active →
      Q 0 0 (Path.addAll ⟨[], [], []⟩ seed).path) {b : BranchId}
    (h : ((Tableau.ofSeed seed trace).run bound).outcome = .saturated b) :
    (((Tableau.ofSeed seed trace).run bound).tableau.path b).pending = none ∧
      ∃ k n, Q k n (((Tableau.ofSeed seed trace).run bound).tableau.path b) := by
  obtain ⟨saturated, copy, hrounds, houtcome, hpath⟩ := Tableau.mirrors_run seed trace bound
  obtain rfl := Copying.of_outcome_eq_saturated (houtcome.symm.trans h)
  rcases hQ.rounds_ofSeed_cases hstart with
    ⟨later, hlater, -⟩ | ⟨later, b', path, k, n, hlater, hb, hpending, hend⟩
  · rw [hrounds] at hlater
    cases hlater
  · rw [hrounds] at hlater
    cases hlater
    rw [hpath, Copying.path_eq_of_getElem? hb]
    exact ⟨hpending, k, n, hend⟩

/-- A property that holds at the root and that every step keeps holds of some path after all rounds
of a run that uses up its bound. -/
theorem of_outcome_eq_exhausted (hQ : PathInvariant Q)
    (hstart : (Path.addAll ⟨[], [], []⟩ seed).state = .active →
      Q 0 0 (Path.addAll ⟨[], [], []⟩ seed).path) {active : Nat}
    (h : ((Tableau.ofSeed seed trace).run bound).outcome = .exhausted active) :
    ∃ n path, Q bound n path := by
  obtain ⟨saturated, copy, hrounds, houtcome, -⟩ := Tableau.mirrors_run seed trace bound
  obtain ⟨rfl, b, path, hb⟩ := Copying.of_outcome_eq_exhausted (houtcome.symm.trans h)
  rcases hQ.rounds_ofSeed_cases hstart with
    ⟨later, hlater, hend⟩ | ⟨later, b', path, k, n, hlater, -⟩
  · rw [hrounds] at hlater
    cases hlater
    exact ⟨copy.introduced, path, hend b path hb⟩
  · rw [hrounds] at hlater
    cases hlater

end PathInvariant

end TermLogic
