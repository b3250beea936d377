import Mathlib.Data.Fintype.EquivFin
import Mathlib.Logic.Equiv.Basic
import TermLogic.Proofs.Session.Isolation

/-!
# Names do not matter

A renaming gives every name another one, and different names different ones. Whatever a tableau does
with claims, it tells them apart and looks at their form, and a renaming changes neither. So the run
on renamed claims is the run on the claims, renamed.

* `Term.rename`, `Formula.rename`, `Signed.rename`, `Event.rename`: names replaced throughout.
* `Signed.rename_injective`: different claims stay different.
* `Obligation.rule?_rename`, `Path.pending_rename`: the same rule for an obligation, and the same
  obligation pending.
* `Copying.apply_rename`, `Copying.sweep_rename`, `Copying.rounds_rename`: steps, rounds and runs on
  renamed paths. Each is one equation, with the renaming pushed outwards.
* `Tableau.exists_mem_seed_of_mem_recorded`: a run makes no names up.
* `Tableau.run_renamed`: the outcome and the events of a run on renamed claims.
-/

namespace TermLogic

/-! ### Renamed claims

The functions that look at claims are gone through one by one: each either gives the same result on
a renamed claim, or the renamed result. -/

/-- The term with every name replaced. -/
def Term.rename (r : String → String) : Term → Term
  | atom name => atom (r name)
  | complement t => complement (t.rename r)
  | privation t => privation (t.rename r)

/-- The formula with every name replaced. -/
def Formula.rename (r : String → String) : Formula → Formula
  | atom t => atom (t.rename r)
  | universal s p => universal (s.rename r) (p.rename r)
  | particular s p => particular (s.rename r) (p.rename r)
  | existential t => existential (t.rename r)
  | negation f => negation (f.rename r)
  | conjunction f g => conjunction (f.rename r) (g.rename r)
  | disjunction f g => disjunction (f.rename r) (g.rename r)
  | conditional f g => conditional (f.rename r) (g.rename r)
  | biconditional f g => biconditional (f.rename r) (g.rename r)

/-- The claim with every name replaced. -/
def Claim.rename (r : String → String) : Claim → Claim
  | formula f => formula (f.rename r)
  | predication c t => predication c (t.rename r)

/-- The signed claim with every name replaced. -/
def Signed.rename (r : String → String) (s : Signed) : Signed :=
  ⟨s.sign, s.claim.rename r⟩

/-- The names in a term. -/
def Term.names : Term → List String
  | atom name => [name]
  | complement t | privation t => t.names

/-- The names in a formula. -/
def Formula.names : Formula → List String
  | atom t | existential t => t.names
  | universal s p | particular s p => s.names ++ p.names
  | negation f => f.names
  | conjunction f g | disjunction f g | conditional f g | biconditional f g => f.names ++ g.names

/-- The names in a claim. -/
def Claim.names : Claim → List String
  | formula f => f.names
  | predication _ t => t.names

variable {r : String → String}

/-- A renaming leaves a term as it is if and only if it leaves each of its names as it is. -/
theorem Term.rename_eq_self_iff {t : Term} :
    t.rename r = t ↔ ∀ name ∈ t.names, r name = name := by
  induction t with
  | atom name => simp [rename, names]
  | complement t ih => simpa [rename, names] using ih
  | privation t ih => simpa [rename, names] using ih

/-- A renaming leaves a formula as it is if and only if it leaves each of its names as it is. -/
theorem Formula.rename_eq_self_iff {f : Formula} :
    f.rename r = f ↔ ∀ name ∈ f.names, r name = name := by
  induction f with
  | negation f ih => simpa [rename, names] using ih
  | _ => simp_all [rename, names, Term.rename_eq_self_iff, or_imp, forall_and]

/-- A renaming leaves a claim as it is if and only if it leaves each of its names as it is.
Individuals are no names. -/
theorem Claim.rename_eq_self_iff {claim : Claim} :
    claim.rename r = claim ↔ ∀ name ∈ claim.names, r name = name := by
  rcases claim with f | ⟨c, t⟩
  · simp [rename, names, Formula.rename_eq_self_iff]
  · simp [rename, names, Term.rename_eq_self_iff]

/-- A renaming leaves a claim as it is if it leaves the names in it. -/
theorem Signed.rename_eq_self_iff {s : Signed} :
    s.rename r = s ↔ ∀ name ∈ s.claim.names, r name = name := by
  rw [← Claim.rename_eq_self_iff]
  exact ⟨congrArg Signed.claim, fun h => congrArg (Signed.mk s.sign) h⟩

/-- Different terms stay different under an injective renaming. -/
theorem Term.rename_injective (hr : Function.Injective r) : Function.Injective (Term.rename r) := by
  intro t u h
  induction t generalizing u with
  | atom name =>
      rcases u with name' | u | u <;> simp only [rename, atom.injEq, reduceCtorEq] at h
      rw [hr h]
  | complement t ih =>
      rcases u with name' | u | u <;> simp only [rename, complement.injEq, reduceCtorEq] at h
      rw [ih h]
  | privation t ih =>
      rcases u with name' | u | u <;> simp only [rename, privation.injEq, reduceCtorEq] at h
      rw [ih h]

/-- Different formulas stay different under an injective renaming. -/
theorem Formula.rename_injective (hr : Function.Injective r) :
    Function.Injective (Formula.rename r) := by
  have hterm := Term.rename_injective hr
  intro f g h
  induction f generalizing g with
  | atom t | existential t =>
      cases g <;> simp only [rename, atom.injEq, existential.injEq, reduceCtorEq] at h
      rw [hterm h]
  | universal s p | particular s p =>
      cases g <;> simp only [rename, universal.injEq, particular.injEq, reduceCtorEq] at h
      rw [hterm h.1, hterm h.2]
  | negation f ih =>
      cases g <;> simp only [rename, negation.injEq, reduceCtorEq] at h
      rw [ih h]
  | conjunction f f' ih ih' | disjunction f f' ih ih' | conditional f f' ih ih'
  | biconditional f f' ih ih' =>
      cases g <;> simp only [rename, conjunction.injEq, disjunction.injEq, conditional.injEq,
        biconditional.injEq, reduceCtorEq] at h
      rw [ih h.1, ih' h.2]

/-- Different claims stay different under an injective renaming. -/
theorem Claim.rename_injective (hr : Function.Injective r) :
    Function.Injective (Claim.rename r) := by
  rintro (f | ⟨c, t⟩) (g | ⟨d, u⟩) h
  · rw [Formula.rename_injective hr (Claim.formula.inj h)]
  · cases h
  · cases h
  · obtain ⟨rfl, hterm⟩ := Claim.predication.inj h
    rw [Term.rename_injective hr hterm]

/-- Different claims stay different. -/
theorem Signed.rename_injective (hr : Function.Injective r) :
    Function.Injective (Signed.rename r) := by
  intro s s' h
  obtain ⟨hsign, hclaim⟩ := Signed.mk.inj h
  rw [Signed.mk.injEq]
  exact ⟨hsign, Claim.rename_injective hr hclaim⟩

/-- Taking off the leading complements and renaming can change places. -/
@[simp]
theorem Term.base_rename (r : String → String) (t : Term) :
    (t.rename r).base = t.base.rename r := by
  induction t with
  | atom => rfl
  | complement t ih => exact ih
  | privation => rfl

/-- Renaming leaves the leading complements, so whether a term is denied does not depend on
names. -/
@[simp]
theorem Term.isDenied_rename (r : String → String) (t : Term) :
    (t.rename r).isDenied = t.isDenied := by
  induction t with
  | atom => rfl
  | complement t ih => rw [rename, isDenied_complement, isDenied_complement, ih]
  | privation => rfl

namespace Signed

/-- A predication of a renamed term is the renamed predication: the complements that are taken off
turn its sign as often. -/
@[simp]
theorem rename_predication (r : String → String) (sign : Bool) (c : Individual) (t : Term) :
    (predication sign c t).rename r = predication sign c (t.rename r) := by
  simp [predication, rename, Claim.rename]

/-- Renaming leaves the sign, so turning it and renaming can change places. -/
@[simp]
theorem rename_flip (r : String → String) (s : Signed) : s.flip.rename r = (s.rename r).flip := rfl

/-- Whether a claim speaks of every individual depends on its form and sign alone. -/
@[simp]
theorem isGeneral_rename (r : String → String) (s : Signed) :
    (s.rename r).isGeneral = s.isGeneral := by
  obtain ⟨sign, f | ⟨c, t⟩⟩ := s
  · cases f <;> rfl
  · rfl

/-- Whether a claim asks for no expansion depends on its form and sign alone. -/
@[simp]
theorem isLiteral_rename (r : String → String) (s : Signed) :
    (s.rename r).isLiteral = s.isLiteral := by
  obtain ⟨sign, f | ⟨c, t⟩⟩ := s
  · cases f <;> rfl
  · cases t <;> rfl

end Signed

/-! ### Renamed rules

A rule is looked up by the form of a claim and by what else is on the path. Only the latter compares
names. -/

/-- The obligation with every name replaced. -/
def Obligation.rename (r : String → String) (o : Obligation) : Obligation :=
  { o with claim := o.claim.rename r }

/-- The rule with every name replaced. -/
def Rule.rename (r : String → String) : Rule → Rule
  | linear produced => linear (produced.map (Signed.rename r))
  | split left right => split (left.map (Signed.rename r)) (right.map (Signed.rename r))
  | witness terms => witness (terms.map (Prod.map (Term.rename r) id))

/-- Whether a rule forks does not depend on names. -/
@[simp]
theorem Rule.isSplit_rename (r : String → String) (rule : Rule) :
    (rule.rename r).isSplit = rule.isSplit := by
  cases rule <;> rfl

/-- A claim obliges to the same, renamed. -/
theorem Signed.obligations_rename (r : String → String) (individuals : List Individual)
    (place : Nat) (s : Signed) :
    (s.rename r).obligations individuals place =
      (s.obligations individuals place).map (Obligation.rename r) := by
  unfold obligations
  rw [isGeneral_rename, isLiteral_rename]
  split
  · rw [List.map_map]
    rfl
  · split <;> rfl

/-- The rule for a renamed formula is the renamed rule. It is read off the form of the formula, so
nothing is asked of the renaming. -/
theorem Rule.ofFormula?_rename (r : String → String) (sign : Bool) (f : Formula) :
    ofFormula? sign (f.rename r) = (ofFormula? sign f).map (Rule.rename r) := by
  cases f <;> cases sign <;> rfl

section

variable {holds holds' : Signed → Bool} (hholds : ∀ s : Signed, holds' (s.rename r) = holds s)
include hholds

/-- The rule that looks for one of two renamed claims is the renamed rule, as the look-ups of
renamed claims have the same results. -/
theorem Rule.either_rename (first second : Signed) :
    either holds' (first.rename r) (second.rename r) =
      (either holds first second).map (Rule.rename r) := by
  unfold either
  rw [← Signed.rename_flip, ← Signed.rename_flip, hholds, hholds, hholds, hholds]
  split
  · rfl
  · split
    · rfl
    · split <;> rfl

/-- The rule that applies a renamed claim to an individual is the renamed rule. -/
theorem Rule.ofInstance?_rename (c : Individual) (f : Formula) :
    ofInstance? holds' c (f.rename r) = (ofInstance? holds c f).map (Rule.rename r) := by
  cases f with
  | universal s p | particular s p =>
      simp only [Formula.rename, ofInstance?, ← Signed.rename_predication]
      exact either_rename hholds _ _
  | existential t =>
      simp only [Formula.rename, ofInstance?, ← Signed.rename_predication, hholds]
      split <;> simp [Rule.rename]
  | _ => rfl

/-- An obligation has the same rule, if the same claims are there. -/
theorem Obligation.rule?_rename (o : Obligation) :
    (o.rename r).rule? holds' = (o.rule? holds).map (Rule.rename r) := by
  obtain ⟨⟨place, _ | d⟩, sign, f | ⟨c, t⟩⟩ := o
  · exact Rule.ofFormula?_rename r sign f
  · rcases t with name | t | t
    · rfl
    · rfl
    · cases sign
      · rfl
      · exact congrArg (fun s => some (Rule.linear [s]))
          (Signed.rename_predication r false c t).symm
  · exact Rule.ofInstance?_rename hholds d f
  · rfl

end

/-! ### Renamed paths

Here the renaming has to be injective: otherwise a claim might be found on the renamed path that
only looks like one that is there. -/

namespace Path

/-- The path with every name replaced. -/
def rename (r : String → String) (path : Path) : Path :=
  { path with claims := path.claims.map (Signed.rename r) }

/-- The same claims are on the path. -/
theorem holds_rename (hr : Function.Injective r) (path : Path) (s : Signed) :
    (path.rename r).holds (s.rename r) = path.holds s := by
  rw [Bool.eq_iff_iff, holds_iff, holds_iff]
  exact List.mem_map_of_injective (Signed.rename_injective hr)

/-- A renamed path has the renamed obligations, at the same places and for the same individuals. -/
theorem obligations_rename (r : String → String) (path : Path) :
    (path.rename r).obligations = path.obligations.map (Obligation.rename r) := by
  unfold obligations rename
  rw [List.zipIdx_map, List.flatMap_map, List.map_flatMap]
  exact List.flatMap_congr fun entry _ => Signed.obligations_rename r _ entry.2 entry.1

/-- The same obligation is pending, with the same rule. -/
theorem pending_rename (hr : Function.Injective r) (path : Path) :
    (path.rename r).pending =
      path.pending.map (Prod.map (Obligation.rename r) (Rule.rename r)) := by
  have hrule : ∀ o : Obligation,
      (path.rename r).openRule? (o.rename r) = (path.openRule? o).map (Rule.rename r) := by
    intro o
    have hexpanded : (path.rename r).isExpanded (o.rename r).toSlot = path.isExpanded o.toSlot :=
      rfl
    unfold openRule?
    rw [hexpanded]
    split
    · rfl
    · exact Obligation.rule?_rename (path.holds_rename hr) o
  rw [pending_eq, pending_eq, obligations_rename]
  exact pendingAmong_map (Rule.isSplit_rename r) hrule none _

end Path

/-! ### Renamed tableaux

Copying tableaux are renamed, as they hold nothing but paths; what is shown of them is carried over
to runs in the end. That a run makes no names up comes for free: names that are not in the seed can
be renamed without changing the run. -/

/-- Changing one entry of an array before or after all entries are replaced. -/
theorem map_modify {α β : Type} {f : α → β} {change : α → α} {change' : β → β}
    (h : ∀ x, change' (f x) = f (change x)) (xs : Array α) (i : Nat) :
    (xs.map f).modify i change' = (xs.modify i change).map f := by
  apply Array.ext_getElem?
  intro j
  rw [Array.getElem?_modify, Array.getElem?_map, Array.getElem?_map, Array.getElem?_modify]
  split
  · cases xs[j]? <;> simp [h]
  · rfl

/-- The event with every name replaced. -/
def Event.rename (r : String → String) : Event → Event
  | seeded b s => seeded b (s.rename r)
  | expanded round b consumed individual produced =>
    expanded round b (consumed.rename r) individual (produced.map (Signed.rename r))
  | split round b consumed individual children =>
    split round b (consumed.rename r) individual
      (children.map (Prod.map id (List.map (Signed.rename r))))
  | closed b claim => closed b (claim.rename r)
  | saturated b => saturated b
  | exhausted active => exhausted active
  | status b ending => status b ending

/-- The claims in an event. -/
def Event.claims : Event → List Claim
  | seeded _ s => [s.claim]
  | expanded _ _ consumed _ produced => consumed.claim :: produced.map Signed.claim
  | split _ _ consumed _ children =>
    consumed.claim :: children.flatMap fun child => child.2.map Signed.claim
  | closed _ claim => [claim]
  | saturated _ | exhausted _ | status _ _ => []

/-- A renaming that leaves an event as it is leaves the claims in it. -/
theorem Event.rename_of_mem_claims {event : Event} (h : event.rename r = event) {claim : Claim}
    (hmem : claim ∈ event.claims) : claim.rename r = claim := by
  -- what is left of a list is left of each entry
  have hlist : ∀ {claims : List Signed}, claims.map (Signed.rename r) = claims →
      ∀ claim ∈ claims.map Signed.claim, claim.rename r = claim := by
    intro claims hsame
    refine List.forall_mem_map.2 fun s hs => ?_
    have hs' : s.rename r = s :=
      List.map_inj_left.1 (hsame.trans (List.map_id claims).symm) s hs
    exact congrArg Signed.claim hs'
  cases event with
  | seeded b s =>
      rw [List.mem_singleton.1 hmem]
      exact congrArg Signed.claim (Event.seeded.inj h).2
  | expanded round b consumed individual produced =>
      obtain ⟨-, -, hconsumed, -, hproduced⟩ := Event.expanded.inj h
      rcases List.mem_cons.1 hmem with rfl | hmem
      · exact congrArg Signed.claim hconsumed
      · exact hlist hproduced claim hmem
  | split round b consumed individual children =>
      obtain ⟨-, -, hconsumed, -, hchildren⟩ := Event.split.inj h
      rcases List.mem_cons.1 hmem with rfl | hmem
      · exact congrArg Signed.claim hconsumed
      · obtain ⟨child, hchild, hmem⟩ := List.mem_flatMap.1 hmem
        have hsame := List.map_inj_left.1 (hchildren.trans (List.map_id children).symm) child hchild
        exact hlist (congrArg Prod.snd hsame) claim hmem
  | closed b claim' =>
      rw [List.mem_singleton.1 hmem]
      exact (Event.closed.inj h).2
  | saturated | exhausted | status => cases hmem

namespace Copying

/-- The branch with every name replaced. -/
def Branch.rename (r : String → String) (branch : Branch) : Branch :=
  ⟨branch.path.rename r, branch.state⟩

/-- The tableau with every name replaced. -/
def rename (r : String → String) (t : Copying) : Copying :=
  ⟨t.branches.map (Branch.rename r), t.introduced, t.events.map (Event.rename r)⟩

/-- The path of a branch of a renamed tableau. -/
theorem path_rename (r : String → String) (t : Copying) (b : BranchId) :
    (t.rename r).path b = (t.path b).rename r := by
  unfold Copying.path rename
  rw [Array.getElem?_map]
  cases t.branches[b]? <;> rfl

/-- Renaming leaves the states of branches. -/
theorem isIn_rename (r : String → String) (t : Copying) (state : Branch.State) (b : BranchId) :
    (t.rename r).isIn state b = t.isIn state b := by
  unfold isIn rename
  rw [Array.getElem?_map, Option.any_map]
  rfl

/-- The same leaves are still to be expanded, in the same order. -/
theorem activeLeaves_rename (r : String → String) (t : Copying) :
    (t.rename r).activeLeaves = t.activeLeaves := by
  unfold activeLeaves
  rw [show (t.rename r).branches.size = t.branches.size from Array.size_map]
  exact List.filter_congr fun b _ => isIn_rename r t .active b

/-- Recording commutes with renaming. -/
theorem record_rename (r : String → String) (t : Copying) (event : Event) :
    (t.rename r).record (event.rename r) = (t.record event).rename r := by
  simp [record, rename]

/-- A change of paths commutes with renaming if it does so on every path. -/
theorem onPath_rename {change change' : Path → Path}
    (h : ∀ path, change' (path.rename r) = (change path).rename r) (t : Copying) (b : BranchId) :
    (t.rename r).onPath b change' = (t.onPath b change).rename r := by
  have hbranch : ∀ branch : Branch,
      ({ branch.rename r with path := change' (branch.rename r).path } : Branch) =
        Branch.rename r { branch with path := change branch.path } := by
    intro branch
    simp only [Branch.rename, h]
  unfold onPath
  rw [rename, rename, map_modify hbranch]

/-- A change of state commutes with renaming. -/
theorem setState_rename (r : String → String) (t : Copying) (b : BranchId) (state : Branch.State) :
    (t.rename r).setState b state = (t.setState b state).rename r := by
  have hbranch : ∀ branch : Branch, ({ branch.rename r with state := state } : Branch) =
      Branch.rename r { branch with state := state } := fun _ => rfl
  unfold setState
  rw [rename, rename, map_modify hbranch]

section

variable (hr : Function.Injective r)
include hr

/-- Putting a claim on a branch commutes with renaming. Here the renaming has to be injective, lest
a claim be found that is not there. -/
theorem add_rename (t : Copying) (b : BranchId) (s : Signed) :
    (t.rename r).add b (s.rename r) = (t.add b s).rename r := by
  have hadded : ((t.rename r).onPath b fun path =>
      { path with claims := path.claims ++ [s.rename r] }) =
      (t.onPath b fun path => { path with claims := path.claims ++ [s] }).rename r :=
    onPath_rename (fun path => by simp [Path.rename]) t b
  unfold add
  simp only [path_rename, ← Signed.rename_flip, Path.holds_rename hr, hadded]
  split
  · rfl
  · split
    · rw [setState_rename]
      exact record_rename r _ (.closed b s.claim)
    · rfl

/-- Putting several claims on a branch commutes with renaming. -/
theorem addAll_rename (t : Copying) (b : BranchId) (claims : List Signed) :
    (t.rename r).addAll b (claims.map (Signed.rename r)) = (t.addAll b claims).rename r := by
  induction claims generalizing t with
  | nil => rfl
  | cons s rest ih =>
      simp only [List.map_cons, addAll, add_rename hr, isIn_rename, ih]
      split <;> rfl

/-- Putting the claims a run starts from on the root commutes with renaming. -/
theorem addSeeds_rename (t : Copying) (seed : List Signed) :
    (t.rename r).addSeeds (seed.map (Signed.rename r)) = (t.addSeeds seed).rename r := by
  induction seed generalizing t with
  | nil => rfl
  | cons s rest ih =>
      have hseeded : (t.rename r).record (.seeded 0 (s.rename r)) =
          (t.record (.seeded 0 s)).rename r := record_rename r t (.seeded 0 s)
      simp only [List.map_cons, addSeeds, hseeded, add_rename hr, isIn_rename, ih]
      split <;> rfl

/-- The tableau for renamed claims is the renamed tableau. -/
theorem ofSeed_rename (seed : List Signed) :
    ofSeed (seed.map (Signed.rename r)) = (ofSeed seed).rename r := by
  unfold ofSeed
  rw [← addSeeds_rename hr]
  simp [rename, Branch.rename, Path.rename]

/-- A step by a renamed rule. -/
theorem apply_rename (t : Copying) (round : Nat) (b : BranchId) (o : Obligation) (rule : Rule) :
    (t.rename r).apply round b (o.rename r) (rule.rename r) =
      (t.apply round b o rule).rename r := by
  have hmark : ((t.rename r).onPath b fun path =>
      { path with expanded := path.expanded ++ [o.toSlot] }) =
      (t.onPath b fun path => { path with expanded := path.expanded ++ [o.toSlot] }).rename r :=
    onPath_rename (fun _ => by rfl) t b
  have hslot : (o.rename r).toSlot = o.toSlot := rfl
  unfold apply
  simp only [hslot, hmark]
  generalize (t.onPath b fun path =>
    { path with expanded := path.expanded ++ [o.toSlot] }) = marked
  cases rule with
  | linear produced =>
      simp only [Rule.rename, ← addAll_rename hr]
      congr 1
      exact record_rename r marked (.expanded round b o.claim o.individual produced)
  | witness terms =>
      have hproduced : ∀ {produce : Term × Bool → Signed},
          (∀ entry, produce (entry.map (Term.rename r) id) = (produce entry).rename r) →
          (terms.map (Prod.map (Term.rename r) id)).map produce =
            (terms.map produce).map (Signed.rename r) := by
        intro produce h
        simp [Function.comp_def, h]
      have hintroduced : ({ marked.rename r with introduced := marked.introduced + 1 }.onPath b
            fun path => { path with individuals := path.individuals ++ [marked.introduced + 1] }) =
          ({ marked with introduced := marked.introduced + 1 }.onPath b fun path =>
            { path with individuals := path.individuals ++ [marked.introduced + 1] }).rename r :=
        onPath_rename (fun _ => by rfl) { marked with introduced := marked.introduced + 1 } b
      have hcount : (marked.rename r).introduced = marked.introduced := rfl
      simp only [Rule.rename, hcount]
      rw [hproduced fun _ => by simp, hintroduced, ← addAll_rename hr]
      congr 1
      exact record_rename r _ (.expanded round b o.claim (some (marked.introduced + 1)) _)
  | split left right =>
      have hsize : (marked.rename r).branches.size = marked.branches.size := Array.size_map
      have hfork : ∀ copy : Branch,
          ({ marked.rename r with
              branches := ((marked.rename r).branches.push (copy.rename r)).push
                (copy.rename r) } : Copying) =
            ({ marked with branches := (marked.branches.push copy).push copy } : Copying).rename
              r := by
        intro copy
        simp [rename, Array.map_push]
      simp only [Rule.rename, hsize, path_rename, ← addAll_rename hr]
      congr 2
      refine Eq.trans ?_ (record_rename r _ (.split round b o.claim o.individual _))
      rw [← setState_rename, ← hfork]
      rfl

/-- One sweep over leaves commutes with renaming and ends at the same branch. -/
theorem sweep_rename (round : Nat) (leaves : List BranchId) (t : Copying) :
    (t.rename r).sweep round leaves =
      ((t.sweep round leaves).1.rename r, (t.sweep round leaves).2) := by
  induction leaves generalizing t with
  | nil => rfl
  | cons b rest ih =>
      simp only [sweep, path_rename, Path.pending_rename hr]
      rcases (t.path b).pending with _ | ⟨o, rule⟩
      · rw [Option.map_none, setState_rename]
        exact congrArg (·, some b) (record_rename r _ (.saturated b))
      · simp only [Option.map_some, Prod.map, apply_rename hr, ih]

/-- Rounds commute with renaming and are ended by the same branch. -/
theorem rounds_rename (bound round : Nat) (t : Copying) :
    (t.rename r).rounds bound round =
      ((t.rounds bound round).1.rename r, (t.rounds bound round).2) := by
  induction bound generalizing round t with
  | zero => rfl
  | succ bound ih =>
      simp only [rounds, activeLeaves_rename]
      rcases t.activeLeaves with _ | ⟨first, others⟩
      · rfl
      · simp only [sweep_rename hr]
        rcases t.sweep round (first :: others) with ⟨later, _ | b⟩
        · exact ih (round + 1) later
        · rfl

end

/-- The outcome speaks of branches alone, so it is the same under every renaming. -/
theorem outcome_rename (r : String → String) (t : Copying) (saturated : Option BranchId) :
    (t.rename r).outcome saturated = t.outcome saturated := by
  cases saturated with
  | some b => rfl
  | none => simp only [outcome, activeLeaves_rename]

/-- The closing events name no claim. -/
theorem closing_rename (r : String → String) (t : Copying) (outcome : Outcome) :
    (t.rename r).closing outcome = (t.closing outcome).map (Event.rename r) := by
  have hendings : (t.rename r).closing .closed = (t.closing .closed).map (Event.rename r) := by
    unfold closing rename
    rw [List.nil_append, List.nil_append, Array.toList_map, List.zipIdx_map, List.filterMap_map,
      List.map_filterMap]
    refine List.filterMap_congr fun entry _ => ?_
    obtain ⟨⟨path, state⟩, b⟩ := entry
    cases state <;> rfl
  cases outcome with
  | closed | saturated => exact hendings
  | exhausted active => exact congrArg (Event.exhausted active :: ·) hendings

/-- A run on renamed claims has the same outcome, and its events are renamed. -/
theorem run_rename (hr : Function.Injective r) (seed : List Signed) (bound : Nat) :
    (ofSeed (seed.map (Signed.rename r))).run bound =
      (((ofSeed seed).run bound).1, ((ofSeed seed).run bound).2.map (Event.rename r)) := by
  unfold run
  rw [ofSeed_rename hr, rounds_rename hr]
  simp only [outcome_rename, closing_rename, List.map_append]
  rfl

end Copying

namespace Tableau

/-- What a run on renamed claims records by itself. -/
theorem recorded_rename (hr : Function.Injective r) (seed : List Signed) (bound : Nat) :
    recorded (seed.map (Signed.rename r)) bound = (recorded seed bound).map (Event.rename r) := by
  rw [recorded_eq, recorded_eq, Copying.run_rename hr]

/-- A renaming that leaves the claims a run starts from leaves all that the run records. -/
theorem rename_of_mem_recorded (hr : Function.Injective r) {seed : List Signed}
    (hseed : ∀ s ∈ seed, s.rename r = s) {bound : Nat} {event : Event}
    (hmem : event ∈ recorded seed bound) : event.rename r = event := by
  have hfixed : seed.map (Signed.rename r) = seed :=
    (List.map_congr_left hseed).trans (List.map_id seed)
  have hmap := recorded_rename hr seed bound
  rw [hfixed] at hmap
  exact List.map_inj_left.1 (hmap.symm.trans (List.map_id _).symm) event hmem

/-- A run makes no names up: what it records has the names of the claims it starts from. -/
theorem exists_mem_seed_of_mem_recorded {seed : List Signed} {bound : Nat} {event : Event}
    (hevent : event ∈ recorded seed bound) {claim : Claim} (hclaim : claim ∈ event.claims)
    {name : String} (hname : name ∈ claim.names) : ∃ s ∈ seed, name ∈ s.claim.names := by
  by_contra hnone
  push Not at hnone
  -- the name could be exchanged with one that occurs nowhere, and the run would not notice
  obtain ⟨other, hother⟩ := Infinite.exists_notMem_finset
    (name :: seed.flatMap fun s => s.claim.names).toFinset
  rw [List.mem_toFinset, List.mem_cons, not_or, List.mem_flatMap] at hother
  have hseed : ∀ s ∈ seed, s.rename (Equiv.swap name other) = s := by
    intro s hs
    refine Signed.rename_eq_self_iff.2 fun known hknown => Equiv.swap_apply_of_ne_of_ne ?_ ?_
    · rintro rfl
      exact hnone s hs hknown
    · rintro rfl
      exact hother.2 ⟨s, hs, hknown⟩
  have hsame := Event.rename_of_mem_claims
    (rename_of_mem_recorded (Equiv.swap name other).injective hseed hevent) hclaim
  have hfixed : Equiv.swap name other name = name :=
    Claim.rename_eq_self_iff.1 hsame name hname
  rw [Equiv.swap_apply_left] at hfixed
  exact hother.1 hfixed

/-- **Names do not matter.** Take any renaming under which different names stay different. A run on
renamed claims ends like the run on the claims: both close, or the same branch is saturated in both,
or as many leaves are left in both. And what it puts behind its trace are the events that the other
run records, with every name replaced. -/
theorem run_renamed (hr : Function.Injective r) (seed : List Signed) (bound : Nat)
    (trace : Option Trace) :
    ((ofSeed (seed.map (Signed.rename r)) trace).run bound).outcome =
      ((ofSeed seed trace).run bound).outcome ∧
    ((ofSeed (seed.map (Signed.rename r)) trace).run bound).tableau.trace =
      trace.map fun prior => prior.append ((recorded seed bound).map (Event.rename r)) := by
  constructor
  · rw [outcome_run, outcome_run, Copying.run_rename hr]
  · rw [trace_run, ← recorded_eq, recorded_rename hr]

/-- Exchanging two names in claims of which the run introduces an individual and forks. -/
theorem run_renamed_swap :
    ∃ seed swapped : List Signed,
      seed = [.formula true (.universal (.atom "A") (.atom "B")),
        .formula false (.universal (.atom "C") (.atom "D"))] ∧
      swapped = [.formula true (.universal (.atom "B") (.atom "A")),
        .formula false (.universal (.atom "C") (.atom "D"))] ∧
      ((ofSeed seed none).run 5).outcome = .saturated 1 ∧
      ((ofSeed swapped none).run 5).outcome = .saturated 1 ∧
      ((ofSeed swapped (some .empty)).run 5).tableau.trace =
        some (Trace.empty.append
          ((recorded seed 5).map (Event.rename (Equiv.swap "A" "B")))) := by
  have hswap : ([.formula true (.universal (.atom "A") (.atom "B")),
      .formula false (.universal (.atom "C") (.atom "D"))] : List Signed).map
        (Signed.rename (Equiv.swap "A" "B")) =
      [.formula true (.universal (.atom "B") (.atom "A")),
        .formula false (.universal (.atom "C") (.atom "D"))] := by decide +kernel
  have hends : ((ofSeed [.formula true (.universal (.atom "A") (.atom "B")),
      .formula false (.universal (.atom "C") (.atom "D"))] none).run 5).outcome = .saturated 1 := by
    decide +kernel
  have hrun := run_renamed (Equiv.swap "A" "B").injective
    [.formula true (.universal (.atom "A") (.atom "B")),
      .formula false (.universal (.atom "C") (.atom "D"))] 5
  exact ⟨_, _, rfl, hswap, hends, (hrun none).1.trans hends, (hrun (some .empty)).2⟩

/-- A name for two does matter: `A -> B` is not valid and `A -> A` is. -/
example :
    ((ofSeed [.formula false (.conditional (.atom (.atom "A")) (.atom (.atom "B")))]
      none).run 2).outcome = .saturated 0 ∧
    ((ofSeed ([.formula false (.conditional (.atom (.atom "A")) (.atom (.atom "B")))].map
      (Signed.rename fun _ => "A")) none).run 2).outcome = .closed := by
  decide +kernel

end Tableau

end TermLogic
