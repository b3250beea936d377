import TermLogic.Proofs.Tableau.Recording

/-!
# More rounds

What a run has come to stays when it may take more rounds: a run that has ended before its bound
does not notice a larger one, and a run that has used up its bound is the beginning of every longer
one.

* `Copying.rounds_add`: rounds one after the other.
* `Copying.Continues`: a tableau that has recorded further steps.
* `Copying.run_add_of_ne_exhausted`, `Copying.run_add_of_exhausted`: longer runs from where a run
  has ended.
* `Tableau.run_stable`: the runs of a tableau with two bounds.
-/

namespace TermLogic

namespace Copying

/-! ### Rounds one after the other

Rounds carry nothing from one to the next but the tableau and their number. -/

/-- A tableau without active leaves goes through no round. -/
theorem rounds_of_activeLeaves_eq_nil {t : Copying} (h : t.activeLeaves = []) (bound round : Nat) :
    rounds bound round t = (t, none) := by
  cases bound with
  | zero => rfl
  | succ bound => simp only [rounds, h]

/-- More rounds go on from where fewer have ended, unless a saturated branch has ended them. -/
theorem rounds_add (n k round : Nat) (t : Copying) :
    rounds (n + k) round t =
      match rounds n round t with
      | (later, none) => rounds k (round + n) later
      | (later, some b) => (later, some b) := by
  induction n generalizing round t with
  | zero => simp only [Nat.zero_add, rounds, Nat.add_zero]
  | succ n ih =>
      rw [Nat.succ_add_eq_add_succ, Nat.add_succ]
      cases hleaves : t.activeLeaves with
      | nil =>
          simp only [rounds_of_activeLeaves_eq_nil hleaves]
      | cons first others =>
          simp only [rounds, hleaves]
          rcases hsweep : sweep round (first :: others) t with ⟨later, _ | b⟩
          · simp only
            rw [ih, Nat.add_right_comm]
            rfl
          · rfl

/-! ### Events of a run

Everything that happens before the end of a run records steps and only ever appends them. -/

/-- A tableau has recorded what another one has, and then steps. -/
def Continues (t later : Copying) : Prop :=
  ∃ steps, later.events = t.events ++ steps ∧ ∀ event ∈ steps, event.isStep = true

variable {t u later : Copying}

/-- Where nothing has been recorded, a tableau continues another one. -/
theorem continues_of_events_eq (h : later.events = t.events) : Continues t later :=
  ⟨[], by rw [h, List.append_nil], fun _ hmem => nomatch hmem⟩

/-- One tableau continues another one and is continued by a third. -/
theorem Continues.trans (h : Continues t u) (h' : Continues u later) : Continues t later := by
  obtain ⟨first, hfirst, hsteps⟩ := h
  obtain ⟨second, hsecond, hsteps'⟩ := h'
  refine ⟨first ++ second, by rw [hsecond, hfirst, List.append_assoc], ?_⟩
  exact List.forall_mem_append.2 ⟨hsteps, hsteps'⟩

/-- Recording a step continues a tableau. -/
theorem continues_record (t : Copying) {event : Event} (h : event.isStep = true) :
    Continues t (t.record event) :=
  ⟨[event], rfl, List.forall_mem_singleton.2 h⟩

/-- Putting a claim on a branch records at most that it has closed. -/
theorem continues_add (t : Copying) (b : BranchId) (s : Signed) : Continues t (t.add b s) := by
  unfold add
  simp only
  split
  · exact continues_of_events_eq rfl
  · split
    · exact ⟨[.closed b s.claim], rfl, List.forall_mem_singleton.2 rfl⟩
    · exact continues_of_events_eq rfl

/-- Putting claims on a branch records at most that it has closed. -/
theorem continues_addAll (t : Copying) (b : BranchId) (claims : List Signed) :
    Continues t (t.addAll b claims) := by
  induction claims generalizing t with
  | nil => exact continues_of_events_eq rfl
  | cons s rest ih =>
      unfold addAll
      simp only
      split
      · exact continues_add t b s
      · exact (continues_add t b s).trans (ih _)

/-- Putting the claims a run starts from on the root records them, and at most that the root has
closed. -/
theorem continues_addSeeds (t : Copying) (seed : List Signed) : Continues t (t.addSeeds seed) := by
  induction seed generalizing t with
  | nil => exact continues_of_events_eq rfl
  | cons s rest ih =>
      have hfirst : Continues t ((t.record (.seeded 0 s)).add 0 s) :=
        (continues_record t rfl).trans (continues_add _ 0 s)
      unfold addSeeds
      simp only
      split
      · exact hfirst
      · exact hfirst.trans (ih _)

/-- A step records the rule, and the branches that it closes. -/
theorem continues_apply (t : Copying) (round : Nat) (b : BranchId) (o : Obligation) (rule : Rule) :
    Continues t (t.apply round b o rule) := by
  -- what a step changes before it records the rule is no event
  have hrule : ∀ {u : Copying} {event : Event}, u.events = t.events → event.isStep = true →
      Continues t (u.record event) := by
    intro u event hu hevent
    exact (continues_of_events_eq hu).trans (continues_record u hevent)
  cases rule with
  | linear produced => exact (hrule rfl rfl).trans (continues_addAll _ b produced)
  | witness terms => exact (hrule rfl rfl).trans (continues_addAll _ b _)
  | split left right =>
      refine Continues.trans ?_ (continues_addAll _ _ right)
      refine Continues.trans ?_ (continues_addAll _ _ left)
      exact hrule rfl rfl

/-- A sweep records steps alone. -/
theorem continues_sweep (t : Copying) (round : Nat) (leaves : List BranchId) :
    Continues t (t.sweep round leaves).1 := by
  induction leaves generalizing t with
  | nil => exact continues_of_events_eq rfl
  | cons b rest ih =>
      unfold sweep
      split
      · exact ⟨[.saturated b], rfl, List.forall_mem_singleton.2 rfl⟩
      · exact (continues_apply t round b _ _).trans (ih _)

/-- Rounds record steps alone. -/
theorem continues_rounds (t : Copying) (bound round : Nat) :
    Continues t (t.rounds bound round).1 := by
  induction bound generalizing round t with
  | zero => exact continues_of_events_eq rfl
  | succ bound ih =>
      cases hleaves : t.activeLeaves with
      | nil =>
          rw [rounds_of_activeLeaves_eq_nil hleaves]
          exact continues_of_events_eq rfl
      | cons first others =>
          have hround := continues_sweep t round (first :: others)
          simp only [rounds, hleaves]
          rcases hsweep : sweep round (first :: others) t with ⟨later, _ | b⟩
          · rw [hsweep] at hround
            exact hround.trans (ih later (round + 1))
          · rw [hsweep] at hround
            exact hround

/-! ### Runs

A run with a larger bound is a run with the smaller one, followed by the rounds it has in addition.
If the shorter run has not used up its bound there is nothing for these to do. -/

/-- A run that has not used up its bound goes no further with a larger one. -/
theorem run_add_of_ne_exhausted {n : Nat} (h : ∀ active, (t.run n).1 ≠ .exhausted active)
    (k : Nat) : t.run (n + k) = t.run n := by
  have hrounds : rounds (n + k) 0 t = rounds n 0 t := by
    rw [rounds_add]
    rcases hn : rounds n 0 t with ⟨later, _ | b⟩
    · have hnone : later.activeLeaves = [] := by
        by_contra hne
        refine h later.activeLeaves.length ?_
        simp [run, hn, outcome, List.isEmpty_iff, hne]
      exact rounds_of_activeLeaves_eq_nil hnone k _
    · rfl
  unfold run
  rw [hrounds]

/-- A longer run goes on from where a run has used up its bound. -/
theorem rounds_add_of_exhausted {n active : Nat} (h : (t.run n).1 = .exhausted active) (k : Nat) :
    rounds (n + k) 0 t = rounds k (0 + n) (rounds n 0 t).1 := by
  obtain ⟨hsaturated, -⟩ := of_outcome_eq_exhausted (t := (rounds n 0 t).1) h
  rw [rounds_add]
  rcases hn : rounds n 0 t with ⟨later, saturated⟩
  rw [hn] at hsaturated
  obtain rfl : saturated = none := hsaturated
  rfl

/-- A run that has used up its bound records this behind its steps, and every longer run begins with
the same steps. -/
theorem run_add_of_exhausted {n active : Nat} (h : (t.run n).1 = .exhausted active) (k : Nat) :
    ∃ endings more, (t.run n).2 = (rounds n 0 t).1.events ++ .exhausted active :: endings ∧
      (t.run (n + k)).2 = (rounds n 0 t).1.events ++ more := by
  have hclosing : (t.run n).2 = (rounds n 0 t).1.events ++
      (rounds n 0 t).1.closing (.exhausted active) := by
    rw [← h]
    rfl
  obtain ⟨steps, hsteps, -⟩ := continues_rounds (rounds n 0 t).1 k (0 + n)
  have hevents : (t.run (n + k)).2 = (rounds (n + k) 0 t).1.events ++
      (rounds (n + k) 0 t).1.closing (t.run (n + k)).1 := rfl
  rw [rounds_add_of_exhausted h k, hsteps, List.append_assoc] at hevents
  exact ⟨_, _, hclosing, hevents⟩

end Copying

namespace Tableau

/-- **More rounds change nothing.** Take two bounds for a run. If the run with the smaller one
closes or ends with a saturated branch, the other one has the same outcome and the same trace. If it
uses up its bound, the other one begins with all that it has recorded before it says so. -/
theorem run_stable (seed : List Signed) (trace : Option Trace) {n m : Nat} (hle : n ≤ m) :
    (((ofSeed seed trace).run n).outcome = .closed ∨
        (∃ b, ((ofSeed seed trace).run n).outcome = .saturated b) →
      ((ofSeed seed trace).run m).outcome = ((ofSeed seed trace).run n).outcome ∧
      ((ofSeed seed trace).run m).tableau.trace = ((ofSeed seed trace).run n).tableau.trace) ∧
    (∀ active, ((ofSeed seed trace).run n).outcome = .exhausted active →
      ∀ prior, trace = some prior → ∃ before endings more,
        ((ofSeed seed trace).run n).tableau.trace =
          some (prior.append (before ++ .exhausted active :: endings)) ∧
        (∀ event ∈ before, ∀ k, event ≠ .exhausted k) ∧
        ((ofSeed seed trace).run m).tableau.trace = some (prior.append (before ++ more))) := by
  obtain ⟨k, rfl⟩ := Nat.exists_eq_add_of_le hle
  simp only [outcome_run, trace_run]
  refine ⟨fun h => ?_, fun active h prior htrace => ?_⟩
  · have hne : ∀ active, ((Copying.ofSeed seed).run n).1 ≠ .exhausted active := by
      rintro active hactive
      rw [hactive] at h
      rcases h with h | ⟨b, h⟩ <;> cases h
    rw [Copying.run_add_of_ne_exhausted hne k]
    exact ⟨rfl, rfl⟩
  · subst htrace
    obtain ⟨endings, more, hn, hm⟩ := Copying.run_add_of_exhausted h k
    refine ⟨_, endings, more, by rw [hn]; rfl, ?_, by rw [hm]; rfl⟩
    -- all that is recorded from the start are steps
    obtain ⟨steps, hevents, hsteps⟩ :=
      (Copying.continues_addSeeds _ seed).trans (Copying.continues_rounds (.ofSeed seed) n 0)
    rintro event hmem k rfl
    rw [hevents, List.nil_append] at hmem
    cases hsteps _ hmem

/-- The denial of `A -> A` uses up a bound of no round and closes in one. -/
theorem run_stable_self_implication :
    ∃ start, start = ofSeed
        [.formula false (.conditional (.atom (.atom "A")) (.atom (.atom "A")))] (some .empty) ∧
      (start.run 0).outcome = .exhausted 1 ∧ (start.run 1).outcome = .closed ∧
      (∃ before endings more,
        (start.run 0).tableau.trace =
          some (Trace.empty.append (before ++ .exhausted 1 :: endings)) ∧
        (start.run 1).tableau.trace = some (Trace.empty.append (before ++ more))) ∧
      (start.run 3).outcome = (start.run 1).outcome ∧
      (start.run 3).tableau.trace = (start.run 1).tableau.trace := by
  have hexhausted : ((ofSeed [.formula false (.conditional (.atom (.atom "A")) (.atom (.atom "A")))]
      (some .empty)).run 0).outcome = .exhausted 1 := by decide +kernel
  have hclosed : ((ofSeed [.formula false (.conditional (.atom (.atom "A")) (.atom (.atom "A")))]
      (some .empty)).run 1).outcome = .closed := by decide +kernel
  obtain ⟨before, endings, more, hfirst, -, hsecond⟩ :=
    (run_stable _ _ (Nat.zero_le 1)).2 1 hexhausted .empty rfl
  obtain ⟨houtcome, htrace⟩ := (run_stable _ _ (show 1 ≤ 3 by decide)).1 (.inl hclosed)
  exact ⟨_, rfl, hexhausted, hclosed, ⟨before, endings, more, hfirst, hsecond⟩, houtcome, htrace⟩

end Tableau

end TermLogic
