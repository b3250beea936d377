import TermLogic.Proofs.Tableau.Recording
import TermLogic.Proofs.Termination

/-!
# The deduction law

The tableau that denies `p -> c` takes one round to come to the tableau that asserts `p` and denies
`c`. From then on the two go through the same steps: the denied conditional stands at the head of
every path of the first, has been expanded, and cannot come up again, because every later claim is
about a part of `p` or `c`.

* `Path.headed`, `Path.pending_headed`, `Path.next_headed`: a path with the denied conditional at
  its head. It has the same obligation pending, one place further down, and makes the same branches.
* `Copying.Branch.branchInvariant_within`: all claims are about parts of the argument.
* `Copying.Headed`: two tableaux of which one has the denied conditional at the head of every path.
  `Copying.Headed.apply`, `Copying.Headed.sweep` and `Copying.Headed.rounds` carry it through steps,
  rounds and runs.
* `Copying.ofConditional`, `Copying.headed_ofSeed`: where the first round leads.
* `Tableau.outcome_deduction`: the two runs have the same outcome.
-/

namespace TermLogic

/-! ### One more claim at the head

With one more claim at the head of a path all places move by one, and nothing else changes as long
as no other claim is about the same formula. -/

/-- The slot of the same claim when one more comes before all others. -/
def Slot.lower (slot : Slot) : Slot :=
  { slot with place := slot.place + 1 }

/-- The same obligation when one more claim comes before all others. -/
def Obligation.lower (o : Obligation) : Obligation :=
  { o with place := o.place + 1 }

/-- The rules look up nothing but predications. -/
theorem Obligation.rule?_congr {holds holds' : Signed → Bool}
    (h : ∀ sign c t, holds (.predication sign c t) = holds' (.predication sign c t))
    (o : Obligation) : o.rule? holds = o.rule? holds' := by
  obtain ⟨⟨place, _ | d⟩, sign, f | ⟨d', t⟩⟩ := o
  · rfl
  · cases t <;> rfl
  · cases f <;> simp only [rule?, Rule.ofInstance?, Rule.either, Signed.flip_predication, h]
  · rfl

namespace Path

variable {p c : Formula} {path : Path}

/-- The path with the denial of `p -> c` at its head, which has been expanded. -/
def headed (p c : Formula) (path : Path) : Path where
  claims := .formula false (.conditional p c) :: path.claims
  expanded := ⟨0, none⟩ :: path.expanded.map Slot.lower
  individuals := path.individuals

/-- What is not about `p -> c` is looked up among the other claims. -/
theorem holds_headed {s : Signed} (h : s.claim ≠ .formula (.conditional p c)) :
    (path.headed p c).holds s = path.holds s := by
  rw [Bool.eq_iff_iff, holds_iff, holds_iff]
  refine List.mem_cons.trans (or_iff_right ?_)
  rintro rfl
  exact h rfl

/-- A slot is expanded if it was before it came one place further down. -/
theorem isExpanded_headed (slot : Slot) :
    (path.headed p c).isExpanded slot.lower = path.isExpanded slot := by
  have hinj : Function.Injective Slot.lower := by
    rintro ⟨place, individual⟩ ⟨place', individual'⟩ heq
    simpa [Slot.lower] using heq
  have hhead : slot.lower ≠ ⟨0, none⟩ := fun heq => Nat.succ_ne_zero _ (Slot.mk.inj heq).1
  rw [Bool.eq_iff_iff, isExpanded_iff, isExpanded_iff]
  exact List.mem_cons.trans ((or_iff_right hhead).trans (List.mem_map_of_injective hinj))

/-- The obligations come behind that of the denied conditional. -/
theorem obligations_headed (p c : Formula) (path : Path) :
    (path.headed p c).obligations =
      ⟨⟨0, none⟩, .formula false (.conditional p c)⟩ :: path.obligations.map Obligation.lower := by
  have hlower : ∀ (s : Signed) (place : Nat), s.obligations path.individuals (place + 1) =
      (s.obligations path.individuals place).map Obligation.lower := by
    intro s place
    unfold Signed.obligations
    split
    · rw [List.map_map]
      rfl
    · split <;> rfl
  unfold obligations headed
  rw [List.zipIdx_cons, List.zipIdx_succ, List.flatMap_cons, List.flatMap_map, List.map_flatMap]
  exact congrArg (_ :: ·) (List.flatMap_congr fun entry _ => hlower entry.1 entry.2)

/-- The same is pending, one place further down. -/
theorem pending_headed (p c : Formula) (path : Path) :
    (path.headed p c).pending = path.pending.map (Prod.map Obligation.lower id) := by
  have hrule : ∀ o : Obligation, (path.headed p c).openRule? o.lower = path.openRule? o := by
    intro o
    unfold openRule?
    rw [show o.lower.toSlot = o.toSlot.lower from rfl, isExpanded_headed]
    refine if_congr Iff.rfl rfl ?_
    exact Obligation.rule?_congr (fun _ _ _ => holds_headed nofun) o
  have hhead : (path.headed p c).openRule?
      ⟨⟨0, none⟩, .formula false (.conditional p c)⟩ = none := by
    simp [openRule?, headed]
  -- the head has been expanded, so the choice falls on the obligations behind it
  rw [pending_eq, pending_eq, obligations_headed]
  simp only [pendingAmong, hhead]
  exact pendingAmong_map (fun _ => rfl) (fun o => (hrule o).trans Option.map_id_apply.symm) none _

end Path

/-- A branch with the denial of `p -> c` at its head, which has been expanded. -/
def Copying.Branch.headed (p c : Formula) (branch : Copying.Branch) : Copying.Branch :=
  ⟨branch.path.headed p c, branch.state⟩

namespace Path

variable {p c : Formula}

/-- Claims that are not about `p -> c` close a path or leave it open as if it were not there. -/
theorem addAll_headed {path : Path} {claims : List Signed}
    (h : ∀ s ∈ claims, s.claim ≠ .formula (.conditional p c)) :
    (path.headed p c).addAll claims = (path.addAll claims).headed p c := by
  induction claims generalizing path with
  | nil => rfl
  | cons s rest ih =>
      obtain ⟨hs, hrest⟩ := List.forall_mem_cons.1 h
      have hflip : s.flip.claim ≠ .formula (.conditional p c) := hs
      have hpush : (path.headed p c).push s = (path.push s).headed p c := rfl
      unfold addAll
      rw [holds_headed hs, holds_headed hflip, hpush]
      split
      · exact ih hrest
      · split
        · rfl
        · exact ih hrest

/-- The slot is expanded one place further down. -/
theorem expand_headed (path : Path) (o : Obligation) (newcomers : List Individual) :
    (path.headed p c).expand o.lower.toSlot newcomers =
      (path.expand o.toSlot newcomers).headed p c := by
  simp [expand, headed, Obligation.lower, Slot.lower]

/-- A step makes the same branches, with the denied conditional at their heads. -/
theorem next_headed (path : Path) {fresh : Individual} {rule : Rule}
    (h : ∀ alternative ∈ rule.alternatives fresh, ∀ s ∈ alternative,
      s.claim ≠ .formula (.conditional p c)) (o : Obligation) :
    (path.headed p c).next fresh o.lower rule =
      (path.next fresh o rule).map (Copying.Branch.headed p c) := by
  unfold next
  rw [List.map_map, expand_headed]
  exact List.map_congr_left fun alternative hmem => addAll_headed (h alternative hmem)

end Path

/-! ### The claims of an argument

A conditional is longer than its parts, so it is not among what the rules can make of them. -/

/-- No node of a formula has more nodes than the formula. -/
theorem Formula.length_nodes_le {f g : Formula} (h : f ∈ g.nodes) :
    f.nodes.length ≤ g.nodes.length := by
  induction g with
  | atom | universal | particular | existential =>
      obtain rfl := List.mem_singleton.1 h
      exact Nat.le_refl _
  | negation g ih =>
      rcases List.mem_cons.1 h with rfl | hinner
      · exact Nat.le_refl _
      · exact Nat.le_succ_of_le (ih hinner)
  | conjunction g g' ih ih' | disjunction g g' ih ih' | conditional g g' ih ih'
  | biconditional g g' ih ih' =>
      rcases List.mem_cons.1 h with rfl | hinner
      · exact Nat.le_refl _
      · simp only [nodes, List.length_cons, List.length_append]
        rcases List.mem_append.1 hinner with hleft | hright
        · have := ih hleft
          omega
        · have := ih' hright
          omega

/-- A conditional is no node of what it is made of. -/
theorem Argument.conditional_notMem_nodes (p c : Formula) :
    .conditional p c ∉ (Argument.mk [p] c).nodes := by
  intro h
  obtain ⟨f, hf, hmem⟩ := List.mem_flatMap.1 h
  have hle := Formula.length_nodes_le hmem
  simp only [Formula.nodes, List.length_cons, List.length_append] at hle
  simp only [List.cons_append, List.nil_append, List.mem_cons, List.not_mem_nil, or_false] at hf
  rcases hf with rfl | rfl <;> omega

/-- What can come up in the run of `p`, therefore `c` is not about `p -> c`. -/
theorem Signed.Within.ne_conditional {p c : Formula} {individuals : List Individual} {s : Signed}
    (h : s.Within ⟨[p], c⟩ individuals) : s.claim ≠ .formula (.conditional p c) := by
  intro heq
  unfold Signed.Within at h
  rw [heq] at h
  exact Argument.conditional_notMem_nodes p c h

namespace Copying

/-- All claims of a branch are within those of an argument. -/
def Branch.Within (argument : Argument) (branch : Branch) : Prop :=
  ∀ s ∈ branch.path.claims, s.Within argument branch.path.individuals

/-- Every rule stays within the claims of an argument. -/
theorem within_of_pending {argument : Argument} {path : Path} {o : Obligation} {rule : Rule}
    (h : ∀ s ∈ path.claims, s.Within argument path.individuals)
    (hpending : path.pending = some (o, rule)) (fresh : Individual) :
    rule.Within argument path.individuals fresh := by
  obtain ⟨ho, -, hrule⟩ := Path.of_pending_eq_some hpending
  obtain ⟨hget, hcalls⟩ := Path.mem_obligations_iff.1 ho
  exact Obligation.within_of_rule? (h _ (List.mem_of_getElem? hget)) hcalls hrule

/-- Every step keeps the claims of a branch within those of the run. -/
theorem Branch.branchInvariant_within (argument : Argument) :
    BranchInvariant (Within argument) where
  next := by
    intro path fresh o rule branch h hpending hmem
    obtain ⟨alternative, halternative, rfl⟩ := List.mem_map.1 hmem
    obtain ⟨added, hadded, hsub⟩ :=
      (path.expand o.toSlot (rule.newcomers fresh)).exists_claims_addAll alternative
    unfold Within
    rw [hadded, Path.individuals_addAll]
    refine List.forall_mem_append.2 ⟨fun s hs => (h s hs).mono _, fun s hs => ?_⟩
    exact within_of_pending h hpending fresh alternative halternative s (hsub hs)
  forked h _ := fun s hs => (h s hs).mono []
  saturated h _ := h

/-! ### Two runs in step

The relation is between the tableaux before and after each step, and both take the same one. Numbers
of rounds are different in the two runs and play no part in it. -/

variable {p c : Formula} {t u : Copying} {b : BranchId} {path : Path}

/-- The second tableau is the first with the denial of `p -> c`, expanded, at the head of every
path, and all claims of the first are within those of `p`, therefore `c`. -/
structure Headed (p c : Formula) (t u : Copying) : Prop where
  /-- The paths are the same behind the head. -/
  branches_eq : u.branches = t.branches.map (Branch.headed p c)
  /-- Both have introduced as many individuals. -/
  introduced_eq : u.introduced = t.introduced
  /-- The conditional does not come up again. -/
  within : t.Everywhere (Branch.Within ⟨[p], c⟩)

/-- A branch of the headed tableau is that of the other one, with the denial at its head. -/
theorem Headed.getElem?_eq (h : Headed p c t u) (b : BranchId) :
    u.branches[b]? = t.branches[b]?.map (Branch.headed p c) := by
  rw [h.branches_eq, Array.getElem?_map]

/-- Both have the same active leaves. -/
theorem Headed.activeLeaves_eq (h : Headed p c t u) : u.activeLeaves = t.activeLeaves := by
  unfold activeLeaves
  rw [h.branches_eq, Array.size_map]
  refine List.filter_congr fun b _ => ?_
  unfold isIn
  rw [h.getElem?_eq, Option.any_map]
  rfl

/-- An active leaf is there in both. -/
theorem Headed.active (h : Headed p c t u) (hb : t.branches[b]? = some ⟨path, .active⟩) :
    u.branches[b]? = some ⟨path.headed p c, .active⟩ := by
  rw [h.getElem?_eq, hb]
  rfl

/-- The same is pending on the active leaves of both. -/
theorem Headed.pending_eq (h : Headed p c t u) (hb : t.branches[b]? = some ⟨path, .active⟩) :
    (u.path b).pending = path.pending.map (Prod.map Obligation.lower id) := by
  rw [path_eq_of_getElem? (h.active hb), Path.pending_headed]

/-- Both take the same step. -/
theorem Headed.apply (h : Headed p c t u) (hb : t.branches[b]? = some ⟨path, .active⟩)
    {o : Obligation} {rule : Rule} (hpending : path.pending = some (o, rule))
    (round round' : Nat) : Headed p c (t.apply round b o rule) (u.apply round' b o.lower rule) := by
  have hrule := within_of_pending (h.within b _ hb) hpending (t.introduced + 1)
  have hnext := path.next_headed
    (fun alternative hmem s hs => (hrule alternative hmem s hs).ne_conditional) o
  refine ⟨?_, ?_, (Branch.branchInvariant_within _).apply h.within hb hpending round⟩
  · have hstep := branches_apply (h.active hb) round' o.lower rule
    rw [h.introduced_eq, hnext] at hstep
    -- both make as many branches, so either both fork or neither does
    rcases branches_apply hb round o rule with ⟨branch, hone, heq⟩ | ⟨first, second, htwo, heq⟩
    · rw [hone] at hstep
      rcases hstep with ⟨_, hone', heq'⟩ | ⟨_, _, htwo', -⟩
      · cases hone'
        rw [heq', heq, h.branches_eq, Array.map_setIfInBounds]
      · cases htwo'
    · rw [htwo] at hstep
      rcases hstep with ⟨_, hone', -⟩ | ⟨_, _, htwo', heq'⟩
      · cases hone'
      · cases htwo'
        rw [heq', heq, h.branches_eq, Array.map_push, Array.map_push, Array.map_setIfInBounds,
          Path.expand_headed]
        rfl
  · rw [introduced_apply, introduced_apply, h.introduced_eq]

/-- Both end at the same saturated branch. -/
theorem Headed.saturate (h : Headed p c t u) (hb : t.branches[b]? = some ⟨path, .active⟩)
    (hpending : path.pending = none) :
    Headed p c ((t.setState b .saturated).record (.saturated b))
      ((u.setState b .saturated).record (.saturated b)) where
  branches_eq := by
    rw [branches_record, branches_record, branches_setState hb, branches_setState (h.active hb),
      h.branches_eq, Array.map_setIfInBounds]
    rfl
  introduced_eq := h.introduced_eq
  within := (Branch.branchInvariant_within _).saturate h.within hb hpending

/-- Both go through the same round. -/
theorem Headed.sweep {leaves : List BranchId} (h : Headed p c t u) (hsched : t.Scheduled leaves)
    (round round' : Nat) :
    Headed p c (t.sweep round leaves).1 (u.sweep round' leaves).1 ∧
      (u.sweep round' leaves).2 = (t.sweep round leaves).2 := by
  induction leaves generalizing t u with
  | nil => exact ⟨h, rfl⟩
  | cons b rest ih =>
      obtain ⟨path, hb⟩ := hsched.active b List.mem_cons_self
      have hpath : t.path b = path := path_eq_of_getElem? hb
      have hpending' := h.pending_eq hb
      cases hpending : path.pending with
      | none =>
          rw [hpending] at hpending'
          simp only [Copying.sweep, hpath, hpending, hpending', Option.map_none, and_true]
          exact h.saturate hb hpending
      | some choice =>
          obtain ⟨o, rule⟩ := choice
          rw [hpending] at hpending'
          have hfirst : t.sweep round (b :: rest) = (t.apply round b o rule).sweep round rest := by
            simp only [Copying.sweep, hpath, hpending]
          have hsecond : u.sweep round' (b :: rest) =
              (u.apply round' b o.lower rule).sweep round' rest := by
            simp only [Copying.sweep, hpending', Option.map_some, Prod.map, id]
          rw [hfirst, hsecond]
          exact ih (h.apply hb hpending round round') (hsched.apply round o rule)

/-- Both go through the same rounds, whatever their numbers. -/
theorem Headed.rounds (h : Headed p c t u) (bound round round' : Nat) :
    Headed p c (t.rounds bound round).1 (u.rounds bound round').1 ∧
      (u.rounds bound round').2 = (t.rounds bound round).2 := by
  induction bound generalizing round round' t u with
  | zero => exact ⟨h, rfl⟩
  | succ bound ih =>
      have hsweep := h.sweep (scheduled_activeLeaves t) round round'
      have hleaves' := h.activeLeaves_eq
      cases hleaves : t.activeLeaves with
      | nil =>
          rw [hleaves] at hleaves'
          simp only [Copying.rounds, hleaves, hleaves', and_true]
          exact h
      | cons first others =>
          rw [hleaves] at hleaves' hsweep
          simp only [Copying.rounds, hleaves, hleaves']
          generalize t.sweep round (first :: others) = result at hsweep
          generalize u.sweep round' (first :: others) = result' at hsweep
          obtain ⟨later, saturated⟩ := result
          obtain ⟨later', saturated'⟩ := result'
          obtain ⟨hlater, rfl⟩ := hsweep
          rcases saturated' with _ | b
          · exact ih hlater (round + 1) (round' + 1)
          · exact ⟨hlater, rfl⟩

/-- Both have the same outcome. -/
theorem Headed.outcome_eq (h : Headed p c t u) (saturated : Option BranchId) :
    u.outcome saturated = t.outcome saturated := by
  cases saturated with
  | some b => rfl
  | none => simp only [outcome, h.activeLeaves_eq]

/-! ### The first round

At first the denied conditional is alone on the root, so its expansion is the only choice there
is. -/

/-- The tableau that denies `p -> c`, once it has expanded the denial. -/
def ofConditional (p c : Formula) : Copying :=
  (ofSeed [.formula false (.conditional p c)]).apply 0 0
    ⟨⟨0, none⟩, .formula false (.conditional p c)⟩ (.linear [.formula true p, .formula false c])

/-- The denial of `p -> c` is expanded in the first round, whatever `p` and `c` are. -/
theorem rounds_ofSeed_conditional (p c : Formula) (n : Nat) :
    (ofSeed [.formula false (.conditional p c)]).rounds (n + 1) 0 =
      (ofConditional p c).rounds n 1 := by
  have hbranches := branches_ofSeed [.formula false (.conditional p c)]
  have hleaves : (ofSeed [.formula false (.conditional p c)]).activeLeaves = [0] := by
    unfold activeLeaves isIn
    rw [hbranches]
    rfl
  have hpending : ((ofSeed [.formula false (.conditional p c)]).path 0).pending =
      some (⟨⟨0, none⟩, .formula false (.conditional p c)⟩,
        .linear [.formula true p, .formula false c]) := by
    unfold Copying.path
    rw [hbranches]
    rfl
  simp only [Copying.rounds, hleaves, Copying.sweep, hpending, ofConditional]

/-- Below the denial, `p` is then asserted and `c` denied, or the branch closes on the way as it
does at the start of the other run. -/
theorem headed_ofSeed (p c : Formula) :
    Headed p c (ofSeed (Argument.mk [p] c).seed) (ofConditional p c) where
  branches_eq := by
    have hroot : (ofSeed [.formula false (.conditional p c)]).branches[0]? =
        some ⟨⟨[.formula false (.conditional p c)], [], []⟩, .active⟩ := by
      rw [branches_ofSeed]
      rfl
    have hbranch : (Path.headed p c ⟨[], [], []⟩).addAll (Argument.mk [p] c).seed =
        (Path.addAll ⟨[], [], []⟩ (Argument.mk [p] c).seed).headed p c :=
      Path.addAll_headed fun s hs => (Argument.within_of_mem_seed hs []).ne_conditional
    rcases branches_apply hroot 0 ⟨⟨0, none⟩, .formula false (.conditional p c)⟩
      (.linear [.formula true p, .formula false c]) with ⟨branch, hone, heq⟩ | ⟨_, _, htwo, -⟩
    · obtain rfl := List.singleton_inj.1 hone
      have hset : ∀ first second : Branch, #[first].setIfInBounds 0 second = #[second] :=
        fun _ _ => rfl
      rw [ofConditional, heq, branches_ofSeed, branches_ofSeed, hset, List.map_toArray,
        List.map_singleton, ← hbranch]
      rfl
    · cases htwo
  introduced_eq := by
    rw [ofConditional, introduced_apply, introduced_ofSeed, introduced_ofSeed]
    rfl
  within := BranchInvariant.ofSeed (Argument.mk [p] c).ledger_addAll.within

end Copying

namespace Tableau

/-- **The deduction law.** The tableau of `p`, therefore `c` comes to the same end in `n` rounds as
that of `p -> c` in one round more: both close, or the same branch is saturated in both, or as many
leaves are left in both. -/
theorem outcome_deduction (p c : Formula) (n : Nat) (trace trace' : Option Trace) :
    ((ofSeed (Argument.mk [p] c).seed trace).run n).outcome =
      ((ofSeed (Argument.ofFormula (.conditional p c)).seed trace').run (n + 1)).outcome := by
  obtain ⟨hlater, hend⟩ := (Copying.headed_ofSeed p c).rounds n 0 1
  have hseed : (Argument.ofFormula (.conditional p c)).seed =
      [.formula false (.conditional p c)] := rfl
  rw [outcome_run, outcome_run, hseed, Copying.fst_run, Copying.fst_run,
    Copying.rounds_ofSeed_conditional, hend, hlater.outcome_eq]

/-- The second branch is saturated in both runs for "`A` or `B`, so `A`". -/
example :
    ((ofSeed (Argument.mk [.disjunction (.atom (.atom "A")) (.atom (.atom "B"))]
      (.atom (.atom "A"))).seed none).run 2).outcome = .saturated 2 ∧
    ((ofSeed (Argument.ofFormula (.conditional (.disjunction (.atom (.atom "A"))
      (.atom (.atom "B"))) (.atom (.atom "A")))).seed none).run 3).outcome = .saturated 2 := by
  decide +kernel

end Tableau

end TermLogic
