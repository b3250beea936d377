import Mathlib.Data.List.Perm.Basic
import TermLogic.Proofs.Tableau.Derivation

/-!
# The branches in their array

What holds of the array of branches in every state that a tableau can come to by steps of its active
leaves, in whatever order they take them.

* `Signed.Grounded`: a predication is about a known individual, and its term begins with no
  complement. `Rule.Allowed.grounded` says that the rules give only such claims.
* `Tableau.children`, `Tableau.individuals`: the branches that grew from a branch, and all
  individuals that are noted on branches.
* `Tableau.Rooted`: every branch but the first has a parent, exactly those that have forked have
  children, and the individuals are numbered without gaps. It is kept by every operation.
* `Tableau.Reachable`: the states that steps lead to. `Tableau.Reachable.exists_mirror` carries
  properties of branches along, and `Tableau.Reachable.rounds` says that rounds consist of steps.
* `Tableau.WellFormed`, `Tableau.wellFormed_of_reachable`: all that holds of a reachable state.
-/

namespace TermLogic

/-- An entry of a list that is changed so as to give more gives that much more to the whole. -/
theorem flatMap_modify_perm {α β : Type} {f : α → α} {g : α → List β} {more : List β}
    (h : ∀ x, g (f x) = g x ++ more) {xs : List α} {i : Nat} (hi : i < xs.length) :
    ((xs.modify i f).flatMap g).Perm (xs.flatMap g ++ more) := by
  induction xs generalizing i with
  | nil => simp at hi
  | cons x xs ih =>
      rcases i with _ | i
      · simp only [List.modify_zero_cons, List.flatMap_cons, h, List.append_assoc]
        exact List.perm_append_comm.append_left _
      · simp only [List.modify_succ_cons, List.flatMap_cons, List.append_assoc]
        exact (ih (Nat.lt_of_succ_lt_succ hi)).append_left _

/-! ### Predications

Rules take their individuals from the path or introduce them, so in a run from formulas a claim
about an individual is never on a branch without it. -/

namespace Signed

/-- A predication is about one of the individuals, and its term begins with no complement. -/
def Grounded (individuals : List Individual) (s : Signed) : Prop :=
  ∀ c t, s.claim = .predication c t → c ∈ individuals ∧ ∀ inner, t ≠ .complement inner

variable {individuals : List Individual} {known : Signed → Prop} {c : Individual} {s : Signed}
  {produced left right : List Signed}

/-- A formula names nobody, so it is grounded everywhere. -/
@[simp]
theorem grounded_formula (sign : Bool) (f : Formula) :
    (Signed.formula sign f).Grounded individuals :=
  nofun

/-- A predication is grounded where its individual is, whatever complements have been taken off its
term. -/
@[simp]
theorem grounded_predication {sign : Bool} {t : Term} :
    (Signed.predication sign c t).Grounded individuals ↔ c ∈ individuals := by
  constructor
  · intro h
    exact (h c t.base rfl).1
  · intro hc d u heq
    obtain ⟨rfl, rfl⟩ := Claim.predication.inj heq
    exact ⟨hc, t.base_ne_complement⟩

/-- A claim stays grounded among further individuals. -/
theorem Grounded.mono {more : List Individual} (h : s.Grounded individuals)
    (hsub : individuals ⊆ more) : s.Grounded more :=
  fun c t heq => ⟨hsub (h c t heq).1, (h c t heq).2⟩

/-- What is added for a grounded claim is grounded among the same individuals. -/
theorem Adds.grounded (h : s.Adds produced) (hs : s.Grounded individuals) :
    ∀ r ∈ produced, r.Grounded individuals := by
  rcases h with _ | _ | _ | _ | ⟨c, t⟩
  case privation =>
    have hc : c ∈ individuals := (hs c _ rfl).1
    simpa using hc
  all_goals simp

/-- Both sides of a fork that is made once hold formulas alone. -/
theorem Forks.grounded (h : s.Forks left right) :
    ∀ side ∈ [left, right], ∀ r ∈ side, r.Grounded individuals := by
  rcases h <;> simp

/-- What is said of a new individual is grounded once this is there. -/
theorem Introduces.grounded (h : s.Introduces c produced) (hc : c ∈ individuals) :
    ∀ r ∈ produced, r.Grounded individuals := by
  rcases h <;> simp [hc]

/-- What is said of an individual that is there is grounded. -/
theorem AddsFor.grounded (h : s.AddsFor known c produced) (hc : c ∈ individuals) :
    ∀ r ∈ produced, r.Grounded individuals := by
  rcases h <;> simp [hc]

/-- Both sides of a fork for an individual that is there are grounded. -/
theorem ForksFor.grounded (h : s.ForksFor known c left right) (hc : c ∈ individuals) :
    ∀ side ∈ [left, right], ∀ r ∈ side, r.Grounded individuals := by
  rcases h <;> simp [hc]

end Signed

/-- Rules give only predications about the individuals of the path and those they introduce. -/
theorem Rule.Allowed.grounded {known : Signed → Prop} {individuals : List Individual} {s : Signed}
    {individual : Option Individual} {rule : Rule} (h : rule.Allowed known individuals s individual)
    (hs : s.Grounded individuals) (fresh : Individual) :
    ∀ alternative ∈ rule.alternatives fresh, ∀ r ∈ alternative,
      r.Grounded (individuals ++ rule.newcomers fresh) := by
  rcases rule with produced | ⟨left, right⟩ | terms <;> rcases individual with _ | c <;>
    simp only [alternatives, newcomers, List.append_nil, List.forall_mem_singleton]
  · exact Signed.Adds.grounded h hs
  · exact h.1.grounded h.2
  · exact Signed.Forks.grounded h
  · exact h.1.grounded h.2
  · exact Signed.Introduces.grounded (h fresh) (List.mem_append_right _ List.mem_cons_self)
  · exact h.elim

namespace Copying.Branch

/-- Every predication on the branch is about an individual that was introduced on its path. -/
def Grounded (branch : Branch) : Prop :=
  ∀ s ∈ branch.path.claims, s.Grounded branch.path.individuals

/-- A branch stays grounded when grounded claims are put on it. -/
theorem Grounded.addAll {path : Path} (h : Grounded ⟨path, .active⟩) {claims : List Signed}
    (hclaims : ∀ s ∈ claims, s.Grounded path.individuals) : Grounded (path.addAll claims) := by
  unfold Grounded
  obtain ⟨added, heq, hsub⟩ := path.exists_claims_addAll claims
  rw [heq, Path.individuals_addAll]
  exact List.forall_mem_append.2 ⟨h, fun s hs => hclaims s (hsub hs)⟩

/-- Every step puts only grounded predications on branches. -/
theorem branchInvariant_grounded : BranchInvariant Grounded where
  next := by
    intro path fresh o rule branch h hpending hmem
    obtain ⟨alternative, halternative, rfl⟩ := List.mem_map.1 hmem
    obtain ⟨hclaim, hallowed⟩ := Path.allowed_of_pending hpending
    have hold : Grounded ⟨path.expand o.toSlot (rule.newcomers fresh), .active⟩ :=
      fun s hs => (h s hs).mono (List.subset_append_left _ _)
    exact hold.addAll (hallowed.grounded (h _ hclaim) fresh alternative halternative)
  forked h _ := fun s hs => (h s hs).mono (List.subset_append_left _ _)
  saturated h _ := h

/-- A run that starts from formulas starts without predications. -/
theorem grounded_seed (formulas : List (Bool × Formula)) :
    Grounded (Path.addAll ⟨[], [], []⟩ (formulas.map fun (sign, f) => .formula sign f)) := by
  have hempty : Grounded ⟨⟨[], [], []⟩, .active⟩ := nofun
  exact hempty.addAll (List.forall_mem_map.2 fun _ _ => Signed.grounded_formula _ _)

end Copying.Branch

namespace Tableau

variable {t : Tableau} {b : BranchId}

/-! ### Children and individuals

How the children of branches and the individuals on them change with the two operations that all
others are made of: changing one branch, and letting one grow. -/

/-- The branches that have grown from a branch. -/
def children (t : Tableau) (b : BranchId) : List BranchId :=
  (List.range t.branches.size).filter fun child =>
    t.branches[child]?.any fun branch => branch.parent = some b

/-- All individuals that are noted on branches. -/
def individuals (t : Tableau) : List Individual :=
  t.branches.toList.flatMap Branch.individuals

/-- A change of a branch that leaves its parent leaves whose children there are. -/
theorem children_modify {change : Branch → Branch}
    (hparent : ∀ branch, (change branch).parent = branch.parent) (b' : BranchId) :
    (t.modify b change).children b' = t.children b' := by
  unfold children Tableau.modify
  simp only [Array.size_modify]
  refine List.filter_congr fun child _ => ?_
  rw [Array.getElem?_modify]
  split
  · simp [Option.any_map, hparent]
  · rfl

/-- A new branch is the last child of the one it grows from and of no other. -/
theorem children_sprout (t : Tableau) (b b' : BranchId) :
    (t.sprout b).children b' = t.children b' ++ if b = b' then [t.branches.size] else [] := by
  have hsize : (t.sprout b).branches.size = t.branches.size + 1 := by simp [sprout]
  have hold : (List.range t.branches.size).filter (fun child =>
      (t.sprout b).branches[child]?.any fun branch => branch.parent = some b') = t.children b' := by
    refine List.filter_congr fun child hchild => ?_
    rw [getElem?_sprout_of_lt (List.mem_range.1 hchild)]
  have hnew : ((t.sprout b).branches[t.branches.size]?.any fun branch =>
      branch.parent = some b') = decide (b = b') := by
    simp [getElem?_sprout_size, Branch.new]
  unfold children
  rw [hsize, List.range_succ, List.filter_append, hold, List.filter_singleton, hnew]
  by_cases heq : b = b' <;> simp [heq, children]

/-- A change of a branch adds to the individuals of the tableau those it adds to the branch. They
need not come last, as later branches may have individuals too. -/
theorem individuals_modify {change : Branch → Branch} {newcomers : List Individual}
    (h : ∀ branch, (change branch).individuals = branch.individuals ++ newcomers)
    (hlt : b < t.branches.size) :
    (t.modify b change).individuals.Perm (t.individuals ++ newcomers) := by
  unfold individuals Tableau.modify
  rw [Array.toList_modify]
  exact flatMap_modify_perm h (by simpa using hlt)

/-- A new branch has no individuals of its own. -/
theorem individuals_sprout (t : Tableau) (b : BranchId) :
    (t.sprout b).individuals = t.individuals := by
  simp [individuals, sprout, Branch.new]

/-- Children come behind the branch that they grow from. -/
theorem Shaped.children_eq_nil (h : t.Shaped) {b' : BranchId} (hge : t.branches.size ≤ b') :
    t.children b' = [] := by
  refine List.filter_eq_nil_iff.2 fun child hchild hany => ?_
  rcases hget : t.branches[child]? with _ | branch
  · simp [hget] at hany
  · have hparent : branch.parent = some b' := by simpa [hget] using hany
    have hlt : b' < t.branches.size :=
      Nat.lt_trans (h.parent_lt hget hparent) (List.mem_range.1 hchild)
    exact absurd hge (Nat.not_le.2 hlt)

/-! ### Rooted tableaux

Only leaves are changed, and a fork marks its branch as split at once with the two new branches. So
the states of branches and the tree that their parents make do not come apart. -/

/-- Every branch but the first has a parent, the branches that have forked, and no others, have
children, and the individuals on the branches are numbered from 1. -/
structure Rooted (t : Tableau) : Prop where
  /-- There is a first branch. -/
  size_pos : 0 < t.branches.size
  /-- Every other one has grown from some branch. -/
  parent : ∀ {b : BranchId} {branch : Branch}, t.branches[b]? = some branch → b ≠ 0 →
    ∃ parent, branch.parent = some parent
  /-- Two branches have grown from a branch that has forked, and none from others. -/
  children : ∀ {b : BranchId} {branch : Branch}, t.branches[b]? = some branch →
    (t.children b).length = if branch.state = .split then 2 else 0
  /-- The individuals on the branches are those that have been introduced. -/
  individuals : t.individuals.Perm (List.range' 1 t.introduced)

/-- Recording keeps a tableau rooted. -/
theorem Rooted.record (h : t.Rooted) (event : Event) : (t.record event).Rooted :=
  ⟨h.size_pos, h.parent, h.children, h.individuals⟩

/-- Changing a leaf that stays one keeps a tableau rooted, if the next individuals are noted. -/
theorem Rooted.modify (h : t.Rooted) (hleaf : t.IsLeaf b) {change : Branch → Branch}
    {newcomers : List Individual} {n : Nat}
    (hparent : ∀ branch, (change branch).parent = branch.parent)
    (hstate : ∀ branch, branch.state ≠ .split → (change branch).state ≠ .split)
    (hindividuals : ∀ branch, (change branch).individuals = branch.individuals ++ newcomers)
    (hcount : List.range' 1 n = List.range' 1 t.introduced ++ newcomers) :
    ({ t with introduced := n }.modify b change).Rooted := by
  obtain ⟨own, hown, hopen⟩ := hleaf
  have hlt : b < t.branches.size := (Array.getElem?_eq_some_iff.1 hown).1
  -- every branch has the parent it had, and has forked if it had
  have hold : ∀ {b' : BranchId} {branch : Branch},
      ({ t with introduced := n }.modify b change).branches[b']? = some branch →
      ∃ old, t.branches[b']? = some old ∧ branch.parent = old.parent ∧
        (branch.state = .split ↔ old.state = .split) := by
    intro b' branch hb'
    rw [Tableau.modify, Array.getElem?_modify] at hb'
    split at hb'
    · next heq =>
      subst heq
      rw [hown, Option.map_some] at hb'
      obtain rfl := Option.some.inj hb'
      exact ⟨own, hown, hparent own, iff_of_false (hstate own hopen) hopen⟩
    · exact ⟨branch, hb', rfl, Iff.rfl⟩
  refine ⟨?_, ?_, ?_, ?_⟩
  · simpa [Tableau.modify] using h.size_pos
  · intro b' branch hb' hne
    obtain ⟨old, hget, heq, -⟩ := hold hb'
    rw [heq]
    exact h.parent hget hne
  · intro b' branch hb'
    obtain ⟨old, hget, -, hiff⟩ := hold hb'
    rw [children_modify hparent]
    simp only [hiff]
    exact h.children hget
  · show ({ t with introduced := n }.modify b change).individuals.Perm (List.range' 1 n)
    rw [hcount]
    exact (individuals_modify hindividuals hlt).trans (h.individuals.append_right newcomers)

/-- Adding a claim to a leaf keeps a tableau rooted. -/
theorem Rooted.add (h : t.Rooted) (hleaf : t.IsLeaf b) (s : Signed) : (t.add b s).Rooted := by
  have hpush : (t.pushClaim b s).Rooted :=
    h.modify hleaf (fun _ => rfl) (fun _ hopen => hopen) (fun _ => (List.append_nil _).symm)
      (List.append_nil _).symm
  have hleaf' : (t.pushClaim b s).IsLeaf b := hleaf.modify fun _ hopen => hopen
  unfold Tableau.add
  split
  · exact h
  · split
    · refine Rooted.record ?_ _
      exact hpush.modify hleaf' (fun _ => rfl) (fun _ _ => by simp)
        (fun _ => (List.append_nil _).symm) (List.append_nil _).symm
    · exact hpush

/-- Adding claims to a leaf keeps a tableau rooted. -/
theorem Rooted.addAll (h : t.Rooted) (hleaf : t.IsLeaf b) (claims : List Signed) :
    (t.addAll b claims).Rooted := by
  induction claims generalizing t with
  | nil => exact h
  | cons s rest ih =>
      simp only [Tableau.addAll]
      split
      · exact h.add hleaf s
      · exact ih (h.add hleaf s) (hleaf.add b s)

/-- The tableau a run starts from is rooted. -/
theorem rooted_ofSeed (seed : List Signed) (trace : Option Trace) :
    (ofSeed seed trace).Rooted := by
  have hadd : ∀ {t : Tableau}, t.Rooted → t.IsLeaf 0 → (t.addSeeds seed).Rooted := by
    induction seed with
    | nil => exact fun h _ => h
    | cons s rest ih =>
        intro t h hleaf
        have hnext := (h.record (.seeded 0 s)).add (hleaf.record _) s
        simp only [Tableau.addSeeds]
        split
        · exact hnext
        · exact ih hnext ((hleaf.record _).add 0 s)
  have hroot : (root trace).Rooted := by
    refine ⟨by simp [root], ?_, ?_, by simp [root, individuals, Branch.new]⟩
    · rintro (_ | b) branch hb hne
      · exact absurd rfl hne
      · simp [root] at hb
    · rintro (_ | b) branch hb
      · simp only [root] at hb
        obtain rfl := Option.some.inj hb
        rfl
      · simp [root] at hb
  exact hadd hroot ⟨.new none, rfl, by simp [Branch.new]⟩

/-- A branch after a fork is one of the two new ones, or one that was there, which has forked if it
is the one they grow from. -/
theorem of_getElem?_fork (hlt : b < t.branches.size) {b' : BranchId} {branch : Branch}
    (h : (t.fork b).branches[b']? = some branch) :
    t.branches.size ≤ b' ∧ branch = .new (some b) ∨
      ∃ old, t.branches[b']? = some old ∧
        branch = if b = b' then { old with state := .split } else old := by
  rw [fork_eq hlt] at h
  simp only [sprout, setState, Tableau.modify, Array.getElem?_push, Array.size_push,
    Array.size_modify, Array.getElem?_modify] at h
  split at h
  · next heq => exact .inl ⟨by omega, (Option.some.inj h).symm⟩
  · split at h
    · next heq => exact .inl ⟨by omega, (Option.some.inj h).symm⟩
    · right
      split at h
      · next heq =>
        obtain ⟨old, hold, rfl⟩ := Option.map_eq_some_iff.1 h
        exact ⟨old, hold, (if_pos heq).symm⟩
      · next hne => exact ⟨branch, h, (if_neg hne).symm⟩

/-- The children of a branch after a fork. -/
theorem children_fork (hlt : b < t.branches.size) (b' : BranchId) :
    (t.fork b).children b' =
      t.children b' ++ if b = b' then [t.branches.size, t.branches.size + 1] else [] := by
  have hsize : (t.setState b .split).branches.size = t.branches.size := by
    simp [setState, Tableau.modify]
  have hsize' : ((t.setState b .split).sprout b).branches.size = t.branches.size + 1 := by
    simp [sprout, hsize]
  have hsame : (t.setState b .split).children b' = t.children b' := by
    refine children_modify ?_ b'
    exact fun _ => rfl
  rw [fork_eq hlt, children_sprout, children_sprout, hsize, hsize', hsame]
  by_cases heq : b = b' <;> simp [heq]

/-- Forking a leaf keeps a tableau rooted. -/
theorem Rooted.fork (h : t.Rooted) (hshaped : t.Shaped) (hleaf : t.IsLeaf b) :
    (t.fork b).Rooted := by
  obtain ⟨own, hown, hopen⟩ := hleaf
  have hlt : b < t.branches.size := (Array.getElem?_eq_some_iff.1 hown).1
  refine ⟨?_, ?_, ?_, ?_⟩
  · simp [Tableau.fork, setState, Tableau.modify]
  · intro b' branch hb' hne
    rcases of_getElem?_fork hlt hb' with ⟨-, rfl⟩ | ⟨old, hold, rfl⟩
    · exact ⟨b, rfl⟩
    · obtain ⟨parent, hparent⟩ := h.parent hold hne
      exact ⟨parent, by split <;> exact hparent⟩
  · intro b' branch hb'
    rw [children_fork hlt]
    rcases of_getElem?_fork hlt hb' with ⟨hge, rfl⟩ | ⟨old, hold, rfl⟩
    · have hne : b ≠ b' := Nat.ne_of_lt (Nat.lt_of_lt_of_le hlt hge)
      simp [hshaped.children_eq_nil hge, hne, Branch.new]
    · have hchildren := h.children hold
      by_cases heq : b = b'
      · subst heq
        rw [hown] at hold
        obtain rfl := Option.some.inj hold
        rw [if_neg hopen] at hchildren
        simp [List.length_eq_zero_iff.1 hchildren]
      · simp [heq, hchildren]
  · have hsplit : (t.setState b .split).individuals.Perm (t.individuals ++ []) :=
      individuals_modify (fun _ => (List.append_nil _).symm) hlt
    rw [fork_eq hlt, individuals_sprout, individuals_sprout]
    rw [List.append_nil] at hsplit
    exact hsplit.trans h.individuals

/-- A step of a leaf keeps a tableau rooted. -/
theorem Rooted.apply (h : t.Rooted) (hshaped : t.Shaped) (hleaf : t.IsLeaf b) (round : Nat)
    (o : Obligation) (rule : Rule) : (t.apply round b o rule).Rooted := by
  have hmark : (t.pushExpanded b o.toSlot).Rooted :=
    h.modify hleaf (fun _ => rfl) (fun _ hopen => hopen) (fun _ => (List.append_nil _).symm)
      (List.append_nil _).symm
  have hleaf' : (t.pushExpanded b o.toSlot).IsLeaf b := hleaf.modify fun _ hopen => hopen
  rcases rule with produced | ⟨left, right⟩ | terms
  · exact (hmark.record _).addAll (hleaf'.record _) produced
  · have hshaped' : (t.pushExpanded b o.toSlot).Shaped := hshaped.modify hleaf fun _ => rfl
    obtain ⟨hfirst, hsecond⟩ := Mirrors.isLeaf_fork hleaf'
    have hfork := (hmark.fork hshaped' hleaf').record
      (.split round b o.claim o.individual [((t.pushExpanded b o.toSlot).branches.size, left),
        ((t.pushExpanded b o.toSlot).branches.size + 1, right)])
    exact (hfork.addAll (hfirst.record _) left).addAll ((hsecond.record _).addAll _ left) right
  · have hnew : ((t.pushExpanded b o.toSlot).introduce b).Rooted := by
      refine hmark.modify hleaf' (fun _ => rfl) (fun _ hopen => hopen) (fun _ => rfl) ?_
      rw [List.range'_1_concat, Nat.add_comm]
    have hleaf'' : ((t.pushExpanded b o.toSlot).introduce b).IsLeaf b :=
      IsLeaf.modify (t := { t.pushExpanded b o.toSlot with introduced := _ }) hleaf'
        fun _ hopen => hopen
    exact (hnew.record _).addAll (hleaf''.record _) _

/-- Ending a saturated leaf keeps a tableau rooted. -/
theorem Rooted.saturate (h : t.Rooted) (hleaf : t.IsLeaf b) : (t.saturate b).Rooted := by
  refine Rooted.record ?_ _
  exact h.modify hleaf (fun _ => rfl) (fun _ _ => by simp) (fun _ => (List.append_nil _).symm)
    (List.append_nil _).symm

/-! ### Reachable tableaux

Leaves may take their steps in any order here. What a run does is one of the orders, and what is
shown holds for all of them. -/

/-- The tableaux that steps of active leaves lead to, in whatever order they are taken. -/
inductive Reachable (seed : List Signed) (trace : Option Trace) : Tableau → Prop where
  /-- The tableau a run starts from. -/
  | start : Reachable seed trace (ofSeed seed trace)
  /-- An active leaf expands what is pending on it. -/
  | expand {t : Tableau} {b : BranchId} {o : Obligation} {rule : Rule} (round : Nat) :
      Reachable seed trace t → t.isIn .active b = true → t.pending b = some (o, rule) →
      Reachable seed trace (t.apply round b o rule)
  /-- An active leaf on which nothing is pending ends. -/
  | saturate {t : Tableau} {b : BranchId} :
      Reachable seed trace t → t.isIn .active b = true → t.pending b = none →
      Reachable seed trace (t.saturate b)

variable {seed : List Signed} {trace : Option Trace} {u : Copying}

/-- An active branch in both tableaux, with what is pending on it. -/
theorem Mirrors.active_of_isIn (h : Mirrors trace t u) (hb : t.isIn .active b = true) :
    t.IsLeaf b ∧ ∃ path, u.branches[b]? = some ⟨path, .active⟩ ∧ t.pending b = path.pending := by
  rw [← h.isIn_eq, Copying.isIn_iff] at hb
  obtain ⟨path, hpath⟩ := hb
  refine ⟨h.isLeaf_of_active hpath, path, hpath, ?_⟩
  rw [pending_eq h.indexed, ← h.path_eq, Copying.path_eq_of_getElem? hpath]

/-- A reachable tableau is rooted and has a copying twin, on whose branches all properties hold that
every step hands on. -/
theorem Reachable.exists_mirror {I : Copying.Branch → Prop} (hI : BranchInvariant I)
    (hseed : I (Path.addAll ⟨[], [], []⟩ seed)) (h : Reachable seed trace t) :
    ∃ u, Mirrors trace t u ∧ u.Everywhere I ∧ t.Rooted := by
  induction h with
  | start =>
      exact ⟨_, mirrors_ofSeed seed trace, BranchInvariant.ofSeed hseed, rooted_ofSeed seed trace⟩
  | expand round _ hb hpending ih =>
      obtain ⟨u, hmirrors, hall, hrooted⟩ := ih
      obtain ⟨hleaf, path, hpath, heq⟩ := hmirrors.active_of_isIn hb
      rw [heq] at hpending
      exact ⟨_, hmirrors.apply hleaf round _ _, hI.apply hall hpath hpending round,
        hrooted.apply hmirrors.shaped hleaf round _ _⟩
  | saturate _ hb hpending ih =>
      obtain ⟨u, hmirrors, hall, hrooted⟩ := ih
      obtain ⟨hleaf, path, hpath, heq⟩ := hmirrors.active_of_isIn hb
      rw [heq] at hpending
      exact ⟨_, (hmirrors.setState hleaf .saturated).record _, hI.saturate hall hpath hpending,
        hrooted.saturate hleaf⟩

/-- A round consists of steps. -/
theorem Reachable.sweep (h : Reachable seed trace t) (hmirrors : Mirrors trace t u) (round : Nat)
    {leaves : List BranchId} (hsched : u.Scheduled leaves) :
    Reachable seed trace (t.sweep round leaves).1 := by
  induction leaves generalizing t u with
  | nil => exact h
  | cons b rest ih =>
      obtain ⟨path, hpath⟩ := hsched.active b List.mem_cons_self
      have hb : t.isIn .active b = true := by
        rw [← hmirrors.isIn_eq, Copying.isIn_iff]
        exact ⟨path, hpath⟩
      have hleaf := hmirrors.isLeaf_of_active hpath
      simp only [Tableau.sweep]
      rcases hpending : t.pending b with _ | ⟨o, rule⟩
      · exact h.saturate hb hpending
      · exact ih (h.expand round hb hpending) (hmirrors.apply hleaf round o rule)
          (hsched.apply round o rule)

/-- Rounds consist of steps. -/
theorem Reachable.rounds (h : Reachable seed trace t) (bound round : Nat) :
    Reachable seed trace (t.rounds bound round).2.1 := by
  induction bound generalizing t round with
  | zero => exact h
  | succ bound ih =>
      obtain ⟨u, hmirrors, -, -⟩ :=
        h.exists_mirror Copying.Branch.branchInvariant_tidy (Copying.Branch.tidy_seed seed)
      rcases hleaves : t.activeLeaves with _ | ⟨first, others⟩
      · simp only [Tableau.rounds, hleaves]
        exact h
      · have hsched : u.Scheduled (first :: others) := by
          rw [← hleaves, ← hmirrors.activeLeaves_eq]
          exact Copying.scheduled_activeLeaves u
        have hround := h.sweep hmirrors round hsched
        simp only [Tableau.rounds, hleaves]
        rcases hsweep : t.sweep round (first :: others) with ⟨later, _ | b⟩
        · rw [hsweep] at hround
          exact ih hround (round + 1)
        · rw [hsweep] at hround
          exact hround

/-! ### Well-formed tableaux

What has been shown of paths by way of the copying twin, and of the tree of branches directly, is
put together for the array as it is. -/

/-- All that holds of the branches of a tableau in every state of a run from formulas. -/
structure WellFormed (t : Tableau) : Prop where
  /-- The first branch has no parent. -/
  root : ∀ branch, t.branches[0]? = some branch → branch.parent = none
  /-- Every other branch has grown from one with a smaller number. -/
  parent : ∀ (b : BranchId) (branch : Branch), t.branches[b]? = some branch → b ≠ 0 →
    ∃ parent < b, branch.parent = some parent
  /-- So every lineage ends at the first branch. -/
  lineage : ∀ (b : BranchId) (branch : Branch), t.branches[b]? = some branch →
    (t.lineage b).getLast? = t.branches[0]?
  /-- The index of a branch is the set of its claims. -/
  index : ∀ (b : BranchId) (branch : Branch), t.branches[b]? = some branch →
    ∀ s, s ∈ branch.index ↔ s ∈ branch.claims
  /-- No claim is on a lineage twice. -/
  nodup : ∀ (b : BranchId) (branch : Branch), t.branches[b]? = some branch →
    (t.path b).claims.Nodup
  /-- No claim is with both signs on a lineage whose branch is not closed. -/
  consistent : ∀ (b : BranchId) (branch : Branch), t.branches[b]? = some branch →
    branch.state ≠ .closed → ∀ s ∈ (t.path b).claims, s.flip ∉ (t.path b).claims
  /-- Of all claims on the lineage of a closed branch, the last one of the branch, and no other, is
  there with both signs. -/
  clash : ∀ (b : BranchId) (branch : Branch), t.branches[b]? = some branch →
    branch.state = .closed → ∃ s, branch.claims.getLast? = some s ∧ s.flip ∈ (t.path b).claims ∧
      ∀ r ∈ (t.path b).claims, r.flip ∈ (t.path b).claims → r = s ∨ r = s.flip
  /-- Exactly the branches that have forked have children, and they have two. -/
  children : ∀ (b : BranchId) (branch : Branch), t.branches[b]? = some branch →
    (t.children b).length = if branch.state = .split then 2 else 0
  /-- Individuals are numbered from 1 to their count, and each is noted on one branch. -/
  individuals : t.individuals.Perm (List.range' 1 t.introduced)
  /-- A predication on a lineage is about an individual of that lineage, and its term begins with no
  complement. -/
  predications : ∀ (b : BranchId) (branch : Branch), t.branches[b]? = some branch →
    ∀ s ∈ (t.path b).claims, ∀ c term, s.claim = .predication c term →
      c ∈ (t.path b).individuals ∧ ∀ inner, term ≠ .complement inner
  /-- What has been expanded on a lineage is an obligation of a claim on it. -/
  expanded : ∀ (b : BranchId) (branch : Branch), t.branches[b]? = some branch →
    ∀ slot ∈ (t.path b).expanded, ∃ o ∈ (t.path b).obligations, o.toSlot = slot

/-- What holds of all branches of the copying twin holds of every path with its state. -/
theorem Mirrors.of_everywhere {I : Copying.Branch → Prop} (h : Mirrors trace t u)
    (hall : u.Everywhere I) {branch : Branch} (hb : t.branches[b]? = some branch) :
    I ⟨t.path b, branch.state⟩ := by
  obtain ⟨path, hcopy⟩ := h.exists_copy hb
  rw [← h.path_eq, Copying.path_eq_of_getElem? hcopy]
  exact hall b _ hcopy

/-- The first branch has no parent. -/
theorem Shaped.root_parent (h : t.Shaped) {branch : Branch} (hb : t.branches[0]? = some branch) :
    branch.parent = none := by
  rcases hparent : branch.parent with _ | parent
  · rfl
  · exact absurd (h.parent_lt hb hparent) (Nat.not_lt_zero parent)

/-- Only branches that have forked are parents. -/
theorem Shaped.state_parent (h : t.Shaped) {branch own : Branch} {parent : BranchId}
    (hb : t.branches[b]? = some branch) (hparent : branch.parent = some parent)
    (hown : t.branches[parent]? = some own) : own.state = .split := by
  by_contra hstate
  exact h.parent_ne hb ⟨own, hown, hstate⟩ hparent

/-- A parent is there. -/
theorem Shaped.exists_parent (h : t.Shaped) {branch : Branch} {parent : BranchId}
    (hb : t.branches[b]? = some branch) (hparent : branch.parent = some parent) :
    ∃ own, t.branches[parent]? = some own := by
  have hlt : b < t.branches.size := (Array.getElem?_eq_some_iff.1 hb).1
  exact ⟨_, Array.getElem?_eq_getElem (Nat.lt_trans (h.parent_lt hb hparent) hlt)⟩

/-- Every lineage ends at the first branch. -/
theorem Rooted.getLast?_lineage (h : t.Rooted) (hshaped : t.Shaped) {branch : Branch}
    (hb : t.branches[b]? = some branch) : (t.lineage b).getLast? = t.branches[0]? := by
  induction b using Nat.strongRecOn generalizing branch with
  | ind b ih =>
      rw [lineage_eq hshaped hb]
      by_cases hzero : b = 0
      · subst hzero
        simp [hshaped.root_parent hb, hb]
      · obtain ⟨parent, hparent⟩ := h.parent hb hzero
        obtain ⟨own, hown⟩ := hshaped.exists_parent hb hparent
        have hlast := ih parent (hshaped.parent_lt hb hparent) hown
        obtain ⟨root, hroot⟩ : ∃ root, t.branches[0]? = some root :=
          ⟨_, Array.getElem?_eq_getElem h.size_pos⟩
        rw [hroot] at hlast ⊢
        simp [hparent, List.getLast?_cons, hlast]

/-- What a branch has from its parent contains no contradiction. -/
theorem Mirrors.consistent_inherited (h : Mirrors trace t u)
    (htidy : u.Everywhere Copying.Branch.Tidy) {branch : Branch}
    (hb : t.branches[b]? = some branch) : (t.inherited branch).Consistent := by
  unfold inherited
  rcases hparent : branch.parent with _ | parent
  · simp [Path.Consistent]
  · obtain ⟨own, hown⟩ := h.shaped.exists_parent hb hparent
    refine (h.of_everywhere htidy hown).consistent ?_
    simp [h.shaped.state_parent hb hparent hown]

/-- A closed branch clashes with its own last claim. -/
theorem Mirrors.clashes_last (h : Mirrors trace t u) (htidy : u.Everywhere Copying.Branch.Tidy)
    {branch : Branch} (hb : t.branches[b]? = some branch) (hclosed : branch.state = .closed) :
    ∃ s, branch.claims.getLast? = some s ∧ (t.path b).Clashes s := by
  obtain ⟨s, before, heq, hflip, hbefore⟩ := (h.of_everywhere htidy hb).clashes hclosed
  refine ⟨s, ?_, before, heq, hflip, hbefore⟩
  have hpath : (t.inherited branch).claims ++ branch.claims = before ++ [s] := by
    rw [← heq, path_eq_extend h.shaped hb]
    rfl
  -- the contradiction cannot have come from the parent
  have hown : branch.claims ≠ [] := by
    intro hnil
    rw [hnil, List.append_nil] at hpath
    have hcons := h.consistent_inherited htidy hb
    refine hcons s ?_ ?_
    · rw [hpath]
      exact List.mem_append_right _ List.mem_cons_self
    · rw [hpath]
      exact List.mem_append_left _ hflip
  rw [← List.getLast?_append_of_ne_nil _ hown, hpath, List.getLast?_concat]

/-- **The array of branches stays in order.** Every state that a tableau for signed formulas comes
to by steps of its active leaves is well formed. -/
theorem wellFormed_of_reachable (formulas : List (Bool × Formula)) (trace : Option Trace)
    {t : Tableau}
    (h : Reachable (formulas.map fun (sign, f) => .formula sign f) trace t) : t.WellFormed := by
  obtain ⟨u, hmirrors, hall, hrooted⟩ := h.exists_mirror
    (Copying.Branch.branchInvariant_tidy.and Copying.Branch.branchInvariant_grounded)
    ⟨Copying.Branch.tidy_seed _, Copying.Branch.grounded_seed formulas⟩
  have htidy : u.Everywhere Copying.Branch.Tidy := fun b branch hb => (hall b branch hb).1
  exact
    { root := fun branch hb => hmirrors.shaped.root_parent hb
      parent := fun b branch hb hne => by
        obtain ⟨parent, hparent⟩ := hrooted.parent hb hne
        exact ⟨parent, hmirrors.shaped.parent_lt hb hparent, hparent⟩
      lineage := fun b branch hb => hrooted.getLast?_lineage hmirrors.shaped hb
      index := hmirrors.indexed
      nodup := fun b branch hb => (hmirrors.of_everywhere htidy hb).nodup
      consistent := fun b branch hb => (hmirrors.of_everywhere htidy hb).consistent
      clash := fun b branch hb hclosed => by
        obtain ⟨s, hlast, hclash⟩ := hmirrors.clashes_last htidy hb hclosed
        have hflip : s.flip ∈ (t.path b).claims := by
          obtain ⟨before, heq, hmem, -⟩ := hclash
          rw [heq]
          exact List.mem_append_left _ hmem
        exact ⟨s, hlast, hflip, fun r hr hr' => hclash.eq_or_eq hr hr'⟩
      children := fun b branch hb => hrooted.children hb
      individuals := hrooted.individuals
      predications := fun b branch hb => (hmirrors.of_everywhere hall hb).2
      expanded := fun b branch hb => (hmirrors.of_everywhere htidy hb).expanded }

/-- Three rounds for "some `S` are `M` or some `S` are `P`, all `M` are `P`, no `S` are `P`", which
fork, close one side and introduce an individual on the other. -/
theorem wellFormed_after_three_rounds :
    ∃ formulas t, formulas =
        [(true, .disjunction (.particular (.atom "S") (.atom "M"))
          (.particular (.atom "S") (.atom "P"))),
        (true, .universal (.atom "M") (.atom "P")),
        (false, .particular (.atom "S") (.atom "P"))] ∧
      Reachable (formulas.map fun (sign, f) => .formula sign f) none t ∧
      t.branches.toList.map Branch.state = [.split, .active, .closed] ∧ t.introduced = 1 ∧
      t.WellFormed := by
  have hreachable : Reachable
      ([(true, .disjunction (.particular (.atom "S") (.atom "M"))
          (.particular (.atom "S") (.atom "P"))),
        (true, .universal (.atom "M") (.atom "P")),
        (false, .particular (.atom "S") (.atom "P"))].map fun (sign, f) => .formula sign f)
      none _ := Reachable.start.rounds 3 0
  exact ⟨_, _, rfl, hreachable, by decide +kernel, by decide +kernel,
    wellFormed_of_reachable _ _ hreachable⟩

end Tableau

end TermLogic
