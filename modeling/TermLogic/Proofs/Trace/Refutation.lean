import Mathlib.Data.List.Induction
import TermLogic.Proofs.Soundness
import TermLogic.Proofs.Trace.Derivation

/-!
# Derivations refute

A derivation in which every branch forks or closes shows that the claims it starts from cannot be
true together. Nothing but its events is needed for that, whichever way they have come about.

* `Standing`: a branch that events have neither forked nor closed, and on which all claims are true.
* `Standing.put`, `Standing.split`: an event that puts true claims on a branch, or forks it into one
  with true claims, leaves a branch standing.
* `Derivation.exists_standing`: some branch stands after every derivation from true claims.
* `Derivation.refutes`: so these are not true if every branch forks or closes.
-/

namespace TermLogic

universe u

variable {I : Interpretation.{u}} {member : Individual → Option I.Domain}

/-! ### Standing branches

If claims are true together, some branch of every derivation from them stays both open and true. It
is followed here through the events, from the root on, along one true side of each fork. -/

variable {seed : List Signed} {events : List Event} {event : Event} {b : BranchId}

/-- A branch that the events have neither forked nor closed, and on which all claims are true. -/
structure Standing (I : Interpretation.{u}) (events : List Event)
    (member : Individual → Option I.Domain) (b : BranchId) : Prop where
  /-- The branch is there. -/
  mem : b ∈ (replay events).branches
  /-- It has not forked. -/
  not_forked : ¬ Forked events b
  /-- It has not closed. -/
  not_shut : ¬ Shut events b
  /-- All claims on it and above it are true. -/
  claims : ∀ s ∈ (replay events).claims b, s.HoldsAt I member
  /-- The individuals on it and above it stand for members of the domain. -/
  named : ∀ c ∈ (replay events).individuals b, ∃ d, member c = some d
  /-- Only individuals that occur in the events stand for members of the domain. -/
  occurs : ∀ c d, member c = some d → ∃ event ∈ events, c ∈ event.individuals

/-- An event that neither forks nor closes the branch, and records true claims on it, leaves it
standing. -/
theorem Standing.concat {more : Individual → Option I.Domain} (h : Standing I events member b)
    (hmore : ∀ c d, member c = some d → more c = some d)
    (hclaims : ∀ s ∈ ((replay events).after event).claims b,
      s ∈ (replay events).claims b ∨ s.HoldsAt I more)
    (hnamed : ∀ c ∈ ((replay events).after event).individuals b,
      c ∈ (replay events).individuals b ∨ ∃ d, more c = some d)
    (hoccurs : ∀ c d, more c = some d → member c = some d ∨ c ∈ event.individuals)
    (hfork : ¬ Forked [event] b) (hshut : ¬ Shut [event] b) :
    Standing I (events ++ [event]) more b where
  mem := by
    rw [replay_concat]
    exact Replay.mem_branches_after event h.mem
  not_forked := by
    rw [forked_concat_iff]
    exact not_or.2 ⟨h.not_forked, hfork⟩
  not_shut := by
    rw [shut_concat_iff]
    exact not_or.2 ⟨h.not_shut, hshut⟩
  claims := by
    intro s hs
    rw [replay_concat] at hs
    rcases hclaims s hs with hold | hnew
    · exact (h.claims s hold).mono hmore
    · exact hnew
  named := by
    intro c hc
    rw [replay_concat] at hc
    rcases hnamed c hc with hold | hnew
    · obtain ⟨d, hd⟩ := h.named c hold
      exact ⟨d, hmore c d hd⟩
    · exact hnew
  occurs := by
    intro c d hd
    rcases hoccurs c d hd with hold | hnew
    · obtain ⟨earlier, hmem, hc⟩ := h.occurs c d hold
      exact ⟨earlier, List.mem_append_left _ hmem, hc⟩
    · exact ⟨event, List.mem_append_right _ List.mem_cons_self, hnew⟩

section

variable {round : Nat} {b' first second : BranchId} {s : Signed} {individual : Option Individual}
  {c : Individual} {produced left right : List Signed}

/-- An event that puts claims on a branch leaves another one standing, and the branch itself if the
claims are true. -/
theorem Standing.put {newcomers : List Individual} {more : Individual → Option I.Domain}
    (h : Standing I events member b)
    (hputs : (replay events).Puts ((replay events).after event) b' produced newcomers)
    (hfork : ¬ Forked [event] b) (hshut : ¬ Shut [event] b)
    (hmore : ∀ c d, member c = some d → more c = some d)
    (hoccurs : ∀ c d, more c = some d → member c = some d ∨ c ∈ event.individuals)
    (hproduced : b = b' → ∀ r ∈ produced, r.HoldsAt I more)
    (hnewcomers : b = b' → ∀ c ∈ newcomers, ∃ d, more c = some d) :
    Standing I (events ++ [event]) more b := by
  refine h.concat hmore (fun r hr => ?_) (fun c hc => ?_) hoccurs hfork hshut
  · exact ((hputs.mem_claims b r).1 hr).imp_right fun hnew => hproduced hnew.1 r hnew.2
  · exact ((hputs.mem_individuals b c).1 hc).imp_right fun hnew => hnewcomers hnew.1 c hnew.2

/-- A rule that adds claims, which are true on a standing branch, leaves a branch standing. -/
theorem Standing.expanded (h : Standing I events member b) (hs : s.isWitnessed = false)
    (hproduced : b = b' → ∀ r ∈ produced, r.HoldsAt I member) :
    Standing I (events ++ [.expanded round b' s individual produced]) member b :=
  h.put (Replay.puts_expanded _ round b' s individual produced) (by simp [Forked]) (by simp [Shut])
    (fun _ _ hd => hd) (fun _ _ hd => .inl hd) hproduced (by simp [Event.newcomers, hs])

/-- A rule that introduces an individual leaves the branch standing, once a member of the domain has
been chosen for the individual. -/
theorem Standing.introduced (h : Standing I events member b) (hs : s.Introduces c produced)
    (htrue : s.HoldsAt I member) (hnew : ∀ event ∈ events, c ∉ event.individuals) :
    ∃ more, Standing I (events ++ [.expanded round b s (some c) produced]) more b := by
  obtain ⟨d, hd⟩ := hs.exists_holdsAt htrue
  have hself : Function.update member c (some d) c = some d := Function.update_self _ _ _
  refine ⟨Function.update member c (some d),
    h.put (Replay.puts_expanded _ round b s (some c) produced) (by simp [Forked]) (by simp [Shut])
      ?_ ?_ (fun _ => hd _ hself) (by simp [Event.newcomers, hs.isWitnessed_eq])⟩
  · intro c' d' hc'
    have hne : c' ≠ c := by
      rintro rfl
      obtain ⟨event, hmem, hc⟩ := h.occurs _ _ hc'
      exact hnew event hmem hc
    rw [Function.update_of_ne hne]
    exact hc'
  · intro c' d' hc'
    by_cases heq : c' = c
    · right
      simp [Event.individuals, heq]
    · left
      rwa [Function.update_of_ne heq] at hc'

/-- An event that forks another branch leaves a branch standing. -/
theorem Standing.split_of_ne (h : Standing I events member b) (hne : b ≠ b')
    (hb' : b' ∈ (replay events).branches) (hunused : (replay events).Unused first second) :
    Standing I (events ++ [.split round b' s individual [(first, left), (second, right)]])
      member b := by
  have hgrows := Replay.grows_split hb' hunused round s individual left right
  have hfirst : b ≠ first := fun heq => hunused.1 (heq ▸ h.mem)
  have hsecond : b ≠ second := fun heq => hunused.2.1 (heq ▸ h.mem)
  refine h.concat (fun _ _ hd => hd) (fun r hr => .inl ?_) (fun c hc => .inl ?_)
    (fun _ _ hd => .inl hd) (by simp [Forked, hne]) (by simp [Shut])
  · rwa [hgrows.claims_of_ne b hfirst hsecond] at hr
  · rwa [hgrows.individuals_of_ne b hfirst hsecond] at hc

/-- The branches that a branch forks into, and what is on them. -/
theorem Standing.child {child : BranchId} {side : List Signed} (h : Standing I events member b)
    (hderivation : Derivation seed events) (hunused : child ∉ (replay events).branches)
    (hmem : child ∈ ((replay events).after event).branches)
    (hclaims : ((replay events).after event).claims child = (replay events).claims b ++ side)
    (hindividuals : ((replay events).after event).individuals child = (replay events).individuals b)
    (hfork : ∀ b', Forked [event] b' → b' = b) (hshut : ∀ b', ¬ Shut [event] b')
    (hside : ∀ r ∈ side, r.HoldsAt I member) : Standing I (events ++ [event]) member child where
  mem := by rwa [replay_concat]
  not_forked := by
    rw [forked_concat_iff]
    rintro (hold | hnew)
    · exact hunused (hderivation.mem_branches (.inl hold))
    · rw [hfork child hnew] at hunused
      exact hunused h.mem
  not_shut := by
    rw [shut_concat_iff]
    rintro (hold | hnew)
    · exact hunused (hderivation.mem_branches (.inr hold))
    · exact hshut child hnew
  claims := by
    intro r hr
    rw [replay_concat, hclaims] at hr
    rcases List.mem_append.1 hr with hold | hnew
    · exact h.claims r hold
    · exact hside r hnew
  named := by
    intro c hc
    rw [replay_concat, hindividuals] at hc
    exact h.named c hc
  occurs := by
    intro c d hd
    obtain ⟨earlier, hmem, hc⟩ := h.occurs c d hd
    exact ⟨earlier, List.mem_append_left _ hmem, hc⟩

/-- If a branch forks and one of its sides is true, the branch on that side is left standing. -/
theorem Standing.split (h : Standing I events member b) (hderivation : Derivation seed events)
    (hunused : (replay events).Unused first second)
    (hside : (∀ r ∈ left, r.HoldsAt I member) ∨ ∀ r ∈ right, r.HoldsAt I member) :
    ∃ child, Standing I
      (events ++ [.split round b s individual [(first, left), (second, right)]]) member child := by
  have hgrows := Replay.grows_split h.mem hunused round s individual left right
  rcases hside with hleft | hright
  · exact ⟨first, h.child hderivation hunused.1 ((hgrows.mem_branches first).2 (.inl (.inr rfl)))
      hgrows.claims_first hgrows.individuals_first (by simp [Forked]) (by simp [Shut]) hleft⟩
  · exact ⟨second, h.child hderivation hunused.2.1 ((hgrows.mem_branches second).2 (.inr rfl))
      hgrows.claims_second hgrows.individuals_second (by simp [Forked]) (by simp [Shut]) hright⟩

/-- An event that is allowed leaves some branch standing. -/
theorem Standing.admitted (h : Standing I events member b) (hderivation : Derivation seed events)
    (hseed : ∀ s ∈ seed, s.HoldsAt I fun _ => none) (hevent : Admitted seed events event) :
    ∃ more child, Standing I (events ++ [event]) more child := by
  -- an event after which nothing has changed
  have hsame : ∀ {event : Event}, (replay events).after event = replay events →
      ¬ Forked [event] b → ¬ Shut [event] b →
      ∃ more child, Standing I (events ++ [event]) more child := by
    intro event hafter hfork hshut
    refine ⟨member, b, h.concat (fun _ _ hd => hd) ?_ ?_ (fun _ _ hd => .inl hd) hfork hshut⟩
    · exact fun r hr => .inl (hafter ▸ hr)
    · exact fun c hc => .inl (hafter ▸ hc)
  cases hevent with
  | seeded hs =>
      rename_i s
      refine ⟨member, b, h.put (Replay.puts_seeded _ 0 s) (by simp [Forked]) (by simp [Shut])
        (fun _ _ hd => hd) (fun _ _ hd => .inl hd) (fun _ => ?_) nofun⟩
      exact List.forall_mem_singleton.2 ((hseed s hs).mono (by simp))
  | expanded hs hadds =>
      rename_i round b' s produced
      refine ⟨member, b, h.expanded hadds.isWitnessed_eq ?_⟩
      rintro rfl
      exact hadds.holdsAt (h.claims s hs.2)
  | introduced hs hintroduces hnew =>
      rename_i round b' s c produced
      by_cases hb : b = b'
      · subst hb
        obtain ⟨more, hmore⟩ := h.introduced hintroduces (h.claims s hs.2) hnew
        exact ⟨more, b, hmore⟩
      · exact ⟨member, b, h.put (Replay.puts_expanded _ round b' s (some c) produced)
          (by simp [Forked]) (by simp [Shut]) (fun _ _ hd => hd) (fun _ _ hd => .inl hd)
          (fun heq => absurd heq hb) fun heq => absurd heq hb⟩
  | applied hs hadds hc =>
      rename_i round b' s c produced
      refine ⟨member, b, h.expanded hadds.isWitnessed_eq ?_⟩
      rintro rfl
      obtain ⟨d, hd⟩ := h.named c hc
      exact hadds.holdsAt (h.claims s hs.2) (fun r hr => h.claims r hr.2) hd
  | forked hs hforks hunused =>
      rename_i round b' first second s left right
      by_cases hb : b = b'
      · subst hb
        exact ⟨member, h.split hderivation hunused (hforks.holdsAt (h.claims s hs.2))⟩
      · exact ⟨member, b, h.split_of_ne hb hs.1 hunused⟩
  | forkedFor hs hforks hc hunused =>
      rename_i round b' first second s c left right
      by_cases hb : b = b'
      · subst hb
        obtain ⟨d, hd⟩ := h.named c hc
        exact ⟨member, h.split hderivation hunused (hforks.holdsAt (h.claims s hs.2) hd)⟩
      · exact ⟨member, b, h.split_of_ne hb hs.1 hunused⟩
  | closed htrue hfalse =>
      rename_i b' claim
      refine hsame rfl (by simp [Forked]) ?_
      -- a standing branch cannot close
      rintro ⟨claim', hmem⟩
      cases List.mem_singleton.1 hmem
      exact (h.claims _ htrue.2).not_flip (h.claims _ hfalse.2)
  | saturated b' => exact hsame rfl (by simp [Forked]) (by simp [Shut])
  | exhausted active => exact hsame rfl (by simp [Forked]) (by simp [Shut])
  | status b' ending => exact hsame rfl (by simp [Forked]) (by simp [Shut])

end

/-- Some branch stands after every derivation from true claims. -/
theorem Derivation.exists_standing (h : Derivation seed events)
    (hseed : ∀ s ∈ seed, s.HoldsAt I fun _ => none) : ∃ member b, Standing I events member b := by
  induction events using List.reverseRecOn with
  | nil => exact ⟨fun _ => none, 0, by simp [Replay.start], by simp [Forked], by simp [Shut],
      by simp [Replay.start], by simp [Replay.start], by simp⟩
  | append_singleton events event ih =>
      obtain ⟨hbefore, hevent⟩ := h.init
      obtain ⟨member, b, hb⟩ := ih hbefore
      exact hb.admitted hbefore hseed hevent

/-- A derivation in which every branch forks or closes refutes the claims it starts from. -/
theorem Derivation.refutes (h : Derivation seed events)
    (hclosed : ∀ b ∈ (replay events).branches, Forked events b ∨ Shut events b) :
    ¬ ∀ s ∈ seed, s.HoldsAt I fun _ => none := by
  intro hseed
  obtain ⟨member, b, hb⟩ := h.exists_standing hseed
  rcases hclosed b hb.mem with hfork | hshut
  · exact hb.not_forked hfork
  · exact hb.not_shut hshut

end TermLogic
