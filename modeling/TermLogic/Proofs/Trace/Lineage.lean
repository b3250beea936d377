import TermLogic.Proofs.Trace.Roster

/-!
# Expansions on the way to a branch

Which expansions have led to a branch can be told from the events alone: the forks say which branch
has grown from which, and every expansion is recorded with the branch that it was made on.

* `lineTo`: a branch behind those above it.
* `Expansion`, `Event.expansion?`: what is recorded of an expansion, whether it forks or not.
* `expansionsTo`: the expansions on a branch and those above it.
* `forked_of_mem_lineTo`: whoever is above a branch has forked.
* `Orderly.expansionsTo_concat`: what one event adds. `expansionsTo_append`: events that are no
  expansions add nothing.
-/

namespace TermLogic

/-! ### Lines of branches

A line is followed from the branch back to the root, and so through the events from the last to the
first: the fork that made a branch comes before all that the branch does. -/

/-- The branch from which an event lets another one grow. -/
def Event.stem? (b : BranchId) (event : Event) : Option BranchId :=
  if b ∈ event.offspring then event.actor? else none

/-- A branch behind those above it, by the events from the last one back. The fork that made the
branch tells from which one it has grown. -/
def lineBack : List Event → BranchId → List BranchId
  | [], b => [b]
  | event :: earlier, b =>
    match event.stem? b with
    | some stem => lineBack earlier stem ++ [b]
    | none => lineBack earlier b

/-- A branch behind those above it, from the root down. -/
def lineTo (events : List Event) (b : BranchId) : List BranchId :=
  lineBack events.reverse b

variable {events : List Event} {event : Event} {a b stem : BranchId}

/-- A branch that grows in an event grows from one that forks in it. -/
theorem Event.isSplit_of_stem? (h : event.stem? b = some stem) :
    event.isSplit = true ∧ b ∈ event.offspring ∧ event.actor? = some stem := by
  unfold stem? at h
  split at h
  · next hmem =>
    refine ⟨?_, hmem, h⟩
    rcases hsplit : event.isSplit with _ | _
    · rw [Event.offspring_eq_nil hsplit] at hmem
      cases hmem
    · rfl
  · cases h

/-- No branch grows in an event that is no fork. -/
theorem Event.stem?_eq_none (h : event.isSplit = false) : event.stem? b = none := by
  simp [stem?, Event.offspring_eq_nil h]

/-- A fork is recorded as one. -/
theorem Event.forked_of_isSplit (hsplit : event.isSplit = true) (hactor : event.actor? = some b) :
    Forked [event] b := by
  rcases event with _ | _ | ⟨round, stem, consumed, individual, children⟩ | _ | _ | _ | _ <;>
    cases hsplit
  cases hactor
  exact ⟨round, consumed, individual, children, List.mem_cons_self⟩

/-- The last event is the first that is met on the way back. -/
theorem lineTo_concat (events : List Event) (event : Event) (b : BranchId) :
    lineTo (events ++ [event]) b =
      match event.stem? b with
      | some stem => lineTo events stem ++ [b]
      | none => lineTo events b := by
  simp [lineTo, lineBack]

/-- A branch is on its own line. -/
theorem mem_lineTo_self (events : List Event) (b : BranchId) : b ∈ lineTo events b := by
  induction events using List.reverseRecOn with
  | nil => exact List.mem_cons_self
  | append_singleton events event ih =>
      rw [lineTo_concat]
      split
      · exact List.mem_append_right _ List.mem_cons_self
      · exact ih

/-- Whoever is above a branch has forked. -/
theorem forked_of_mem_lineTo (h : a ∈ lineTo events b) : a = b ∨ Forked events a := by
  induction events using List.reverseRecOn generalizing b with
  | nil => exact .inl (List.mem_singleton.1 h)
  | append_singleton events event ih =>
      rw [lineTo_concat] at h
      rw [forked_concat_iff]
      split at h
      · next stem hstem =>
        rcases List.mem_append.1 h with habove | hself
        · rcases ih habove with rfl | hforked
          · obtain ⟨hsplit, -, hactor⟩ := Event.isSplit_of_stem? hstem
            exact .inr (.inr (Event.forked_of_isSplit hsplit hactor))
          · exact .inr (.inl hforked)
        · exact .inl (List.mem_singleton.1 hself)
      · exact (ih h).imp_right .inl

/-! ### Expansions

Rules that fork and rules that do not are recorded by different events. For what has been expanded
the difference does not matter. -/

/-- What is recorded of an expansion, whether it forks or not. -/
structure Expansion where
  /-- The round in which it was made. -/
  round : Nat
  /-- The branch on which it was made. -/
  branch : BranchId
  /-- The claim that was expanded. -/
  consumed : Signed
  /-- The individual for which it was expanded, or which it has introduced. -/
  individual : Option Individual
deriving DecidableEq

/-- The expansion that an event records. -/
def Event.expansion? : Event → Option Expansion
  | expanded round b consumed individual _ | split round b consumed individual _ =>
    some ⟨round, b, consumed, individual⟩
  | seeded _ _ | closed _ _ | saturated _ | exhausted _ | status _ _ => none

/-- The expansions on a branch and those above it, in the order of their record. -/
def expansionsTo (events : List Event) (b : BranchId) : List Expansion :=
  (events.filterMap Event.expansion?).filter fun e => e.branch ∈ lineTo events b

/-- An expansion is made by the branch on which it is made. -/
theorem Event.actor?_of_expansion? {e : Expansion} (h : event.expansion? = some e) :
    event.actor? = some e.branch := by
  rcases event with _ | _ | _ | _ | _ | _ | _ <;> cases h <;> rfl

/-- A fork is an expansion. -/
theorem Event.isSplit_eq_false_of_expansion? (h : event.expansion? = none) :
    event.isSplit = false := by
  rcases event with _ | _ | _ | _ | _ | _ | _ <;> simp_all [Event.expansion?, Event.isSplit]

/-- Events that record no expansion add none. -/
theorem expansionsTo_append {more : List Event} (h : ∀ event ∈ more, event.expansion? = none)
    (b : BranchId) : expansionsTo (events ++ more) b = expansionsTo events b := by
  have hline : lineTo (events ++ more) b = lineTo events b := by
    induction more using List.reverseRecOn with
    | nil => rw [List.append_nil]
    | append_singleton more event ih =>
        obtain ⟨hmore, hlast⟩ := List.forall_mem_append.1 h
        have hsplit := Event.isSplit_eq_false_of_expansion? (hlast event List.mem_cons_self)
        rw [← List.append_assoc, lineTo_concat, Event.stem?_eq_none hsplit]
        exact ih hmore
  have hnone : more.filterMap Event.expansion? = [] := List.filterMap_eq_nil_iff.2 h
  rw [expansionsTo, hline, List.filterMap_append, hnone, List.append_nil]
  rfl

namespace Orderly

/-- Only branches that are there act. -/
theorem actor_lt (h : Orderly events) (hmem : event ∈ events) (hactor : event.actor? = some a) :
    a < (roster events).length := by
  induction h with
  | nil => cases hmem
  | @concat events last hbefore htimely ih =>
      have hgrows : (roster events).length ≤ (roster (events ++ [last])).length := by
        rw [(hbefore.concat htimely).length_roster, hbefore.length_roster, List.filter_append,
          List.length_append]
        omega
      rcases List.mem_append.1 hmem with hold | hnew
      · exact Nat.lt_of_lt_of_le (ih hold) hgrows
      · obtain rfl := List.mem_singleton.1 hnew
        exact Nat.lt_of_lt_of_le (List.getElem?_eq_some_iff.1 (htimely.active a hactor)).1 hgrows

/-- What one event adds: a branch that grows in it starts with the expansions of the one that forks,
and this is an expansion itself. On the other branches only their own expansions are added, because
a branch that acts is above no other one. -/
theorem expansionsTo_concat (h : Orderly events) (htimely : Timely events event) (b : BranchId) :
    expansionsTo (events ++ [event]) b =
      match event.stem? b with
      | some stem => expansionsTo events stem ++ event.expansion?.toList
      | none => expansionsTo events b ++ (event.expansion?.filter (·.branch = b)).toList := by
  have hlast : [event].filterMap Event.expansion? = event.expansion?.toList := by
    rcases hevent : event.expansion? with _ | e <;> simp [hevent]
  rw [expansionsTo, List.filterMap_append, List.filter_append, hlast, lineTo_concat]
  rcases hstem : event.stem? b with _ | stem
  · -- the branch that acts has not forked, so it is above no other one
    have habove : ∀ e, event.expansion? = some e → (e.branch ∈ lineTo events b ↔ e.branch = b) := by
      intro e he
      refine ⟨fun hmem => ?_, fun heq => heq ▸ mem_lineTo_self events _⟩
      refine (forked_of_mem_lineTo hmem).resolve_right fun hforked => ?_
      have hactive := htimely.active _ (Event.actor?_of_expansion? he)
      rw [h.forked_iff.1 hforked] at hactive
      cases hactive
    refine congrArg (expansionsTo events b ++ ·) ?_
    rcases hevent : event.expansion? with _ | e
    · rfl
    · by_cases heq : e.branch = b
      · simp [Option.filter, heq, mem_lineTo_self]
      · simp [Option.filter, heq, habove e hevent]
  · obtain ⟨hsplit, hmem, hactor⟩ := Event.isSplit_of_stem? hstem
    have hnew : (roster events).length ≤ b := by
      rw [htimely.offspring_eq hsplit] at hmem
      simp only [List.mem_cons, List.not_mem_nil, or_false] at hmem
      rcases hmem with rfl | rfl
      · exact Nat.le_refl _
      · exact Nat.le_succ _
    congr 1
    · refine List.filter_congr fun e he => ?_
      obtain ⟨earlier, hearlier, hexpansion⟩ := List.mem_filterMap.1 he
      have hlt := h.actor_lt hearlier (Event.actor?_of_expansion? hexpansion)
      have hne : e.branch ≠ b := Nat.ne_of_lt (Nat.lt_of_lt_of_le hlt hnew)
      simp [hne]
    · rcases hevent : event.expansion? with _ | e
      · rfl
      · have hbranch : e.branch = stem :=
          Option.some.inj ((Event.actor?_of_expansion? hevent).symm.trans hactor)
        simp [hbranch, mem_lineTo_self]

end Orderly

end TermLogic
