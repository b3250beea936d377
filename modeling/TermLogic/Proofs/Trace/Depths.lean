import TermLogic.Proofs.Trace.Lineage

/-!
# Depths of branches

The text of a trace sets each branch off by its depth, and takes the depths from the forks so far.
If every branch but the first is announced by a fork before anything else is said of it, what the
table of depths held before the events does not matter, and each branch keeps its depth.

* `Event.subject?`, `Event.text`, `Event.lineAt`: the branch that a line is about, what it says, and
  the line for given depths.
* `stems`: from which branch each one has grown, as the forks tell.
* `Depths.get_after`: an event puts the branches that it makes one below the one that forks.
* `Announced`: each event is about a branch that is there, and forks make the next branches.
* `Announced.renderLines_eq`: all lines can be written with the depths after the last event.
* `Announced.get_foldl`: a branch is one below the one it has grown from, and the first one stands
  at the margin.
-/

namespace TermLogic

namespace Event

/-- The branch that a line is about. -/
def subject? : Event → Option BranchId
  | seeded b _ | expanded _ b _ _ _ | split _ b _ _ _ | closed b _ | saturated b | status b _ =>
    some b
  | exhausted _ => none

/-- What a line says, behind its branch. -/
def text : Event → String
  | seeded _ claim => "seed " ++ claim.render
  | expanded round _ consumed individual produced =>
    renderStep round consumed individual (renderClaims produced)
  | split round _ consumed individual children =>
    renderStep round consumed individual (renderChildren children)
  | closed _ claim => "closed on " ++ claim.render
  | saturated _ => "saturated"
  | exhausted active =>
    "bound exhausted with " ++ active.repr ++ (if active = 1 then " branch" else " branches") ++
      " open"
  | status _ ending => ending.render

/-- The line for an event: a line about a branch stands behind as many bars as the branch is deep,
and begins with its number. -/
def lineAt (depth : BranchId → Nat) (event : Event) : String :=
  match event.subject? with
  | some b =>
    String.ofList (List.replicate (depth b) '│') ++ "[b" ++ b.repr ++ "] " ++ event.text ++ "\n"
  | none => event.text ++ "\n"

/-- The line for an event is written with the depths of the table. -/
theorem render_eq_lineAt (depths : Depths) (event : Event) :
    event.render depths = event.lineAt depths.get := by
  cases event with
  | exhausted active =>
      have hend : " open" ++ "\n" = " open\n" := by decide +kernel
      show _ ++ " open\n" = _ ++ " open" ++ "\n"
      rw [← hend, ← String.append_assoc]
  | _ => rfl

/-- The line for the ending of branch 5 at depth 2. -/
example : (Event.status 5 .unfinished).lineAt (fun _ => 2) = "││[b5] unfinished\n" := by
  decide +kernel

/-- Only the depth of the branch that a line is about matters. -/
theorem lineAt_congr {event : Event} {depth depth' : BranchId → Nat}
    (h : ∀ b, event.subject? = some b → depth b = depth' b) :
    event.lineAt depth = event.lineAt depth' := by
  unfold lineAt
  rcases hsubject : event.subject? with _ | b
  · rfl
  · simp only [h b hsubject]

/-- Whoever acts is what the line is about. -/
theorem subject?_of_actor? {event : Event} {b : BranchId} (h : event.actor? = some b) :
    event.subject? = some b := by
  rcases event with _ | _ | _ | _ | _ | _ | _ <;> simp_all [actor?, subject?]

/-- A fork is made by a branch. -/
theorem exists_actor?_of_isSplit {event : Event} (h : event.isSplit = true) :
    ∃ b, event.actor? = some b := by
  rcases event with _ | _ | ⟨_, b, _, _, _⟩ | _ | _ | _ | _ <;> cases h
  exact ⟨b, rfl⟩

/-- Lines for events one after the other. -/
theorem renderLines_append (depths : Depths) (first second : List Event) :
    renderLines depths (first ++ second) =
      renderLines depths first ++ renderLines (first.foldl Depths.after depths) second := by
  induction first generalizing depths with
  | nil => rfl
  | cons event rest ih => simp [renderLines, ih]

end Event

/-! ### Tables of depths

A table is a list with the latest entries first, so that an entry hides those behind it. -/

/-- Several branches that are put at one depth. -/
theorem Depths.get_foldl_cons (children : List (BranchId × List Signed)) (depth : Nat)
    (table : Depths) (b : BranchId) :
    Depths.get (children.foldl (fun table child => (child.1, depth) :: table) table) b =
      if b ∈ children.map Prod.fst then depth else table.get b := by
  induction children generalizing table with
  | nil => simp
  | cons child rest ih =>
      rw [List.foldl_cons, ih]
      by_cases hrest : b ∈ rest.map Prod.fst
      · simp only [List.map_cons, List.mem_cons, hrest, or_true, if_true]
      · by_cases hb : b = child.1
        · simp [Depths.get, hb]
        · have hne : (b == child.1) = false := beq_false_of_ne hb
          simp only [List.map_cons, List.mem_cons, hrest, hb, or_false, if_false, Depths.get,
            List.lookup_cons, hne]

/-- An event puts the branches that it makes one below the one that forks. -/
theorem Depths.get_after (depths : Depths) (event : Event) (b : BranchId) :
    (depths.after event).get b =
      match event.stem? b with
      | some stem => depths.get stem + 1
      | none => depths.get b := by
  cases event with
  | split round stem consumed individual children =>
      rw [Depths.after, get_foldl_cons, Event.stem?, Event.offspring, Event.actor?]
      split <;> rfl
  | _ => rfl

/-! ### Where branches have grown from

Forks announce the branches that they make, in the order of their numbers. So the list of stems
grows at its end, and a branch is looked up in it by its number. -/

/-- From which branch each one has grown; the first one from none. -/
def stems (events : List Event) : List (Option BranchId) :=
  events.foldl (fun known event => known ++ event.offspring.map fun _ => event.actor?) [none]

/-- The last event adds the branches that grow in it. -/
theorem stems_concat (events : List Event) (event : Event) :
    stems (events ++ [event]) = stems events ++ event.offspring.map fun _ => event.actor? := by
  simp [stems]

variable {events : List Event} {event : Event} {b stem : BranchId}

/-- Only forks let branches grow. -/
theorem stems_concat_of_isSplit_eq_false (h : event.isSplit = false) :
    stems (events ++ [event]) = stems events := by
  rw [stems_concat, Event.offspring_eq_nil h, List.map_nil, List.append_nil]

/-- The first branch has grown from none. -/
theorem stems_getElem?_zero (events : List Event) : (stems events)[0]? = some none := by
  induction events using List.reverseRecOn with
  | nil => rfl
  | append_singleton events event ih =>
      rw [stems_concat, List.getElem?_append_left (List.getElem?_eq_some_iff.1 ih).1, ih]

/-- There are as many branches as there are states. -/
theorem length_stems (events : List Event) : (stems events).length = (roster events).length := by
  induction events using List.reverseRecOn with
  | nil => rfl
  | append_singleton events event ih =>
      rw [stems_concat, roster_concat, length_rosterAfter, List.length_append, List.length_map, ih]

/-- Each event is about a branch that is there, and a fork makes the next two branches. -/
inductive Announced : List Event → Prop where
  /-- There are no events at first. -/
  | nil : Announced []
  /-- An event about a branch that is there comes last. -/
  | concat {events : List Event} {event : Event} : Announced events →
      (∀ b, event.subject? = some b → b < (stems events).length) →
      (event.isSplit = true →
        event.offspring = [(stems events).length, (stems events).length + 1]) →
      Announced (events ++ [event])

/-- Events in order in which branches act. -/
theorem Orderly.announced (h : Orderly events)
    (hacts : ∀ event ∈ events, ∃ b, event.actor? = some b) : Announced events := by
  induction h with
  | nil => exact .nil
  | @concat events event _ htimely ih =>
      obtain ⟨hbefore, hlast⟩ := List.forall_mem_append.1 hacts
      obtain ⟨actor, hactor⟩ := hlast event List.mem_cons_self
      refine (ih hbefore).concat (fun b hb => ?_) fun hsplit => ?_
      · obtain rfl := Option.some.inj ((Event.subject?_of_actor? hactor).symm.trans hb)
        rw [length_stems]
        exact (List.getElem?_eq_some_iff.1 (htimely.active actor hactor)).1
      · rw [length_stems]
        exact htimely.offspring_eq hsplit

/-- Events that are no forks may come last. -/
theorem Announced.append (h : Announced events) {closing : List Event}
    (hclosing : ∀ event ∈ closing, event.isSplit = false ∧
      ∀ b, event.subject? = some b → b < (stems events).length) :
    Announced (events ++ closing) ∧ stems (events ++ closing) = stems events := by
  induction closing using List.reverseRecOn with
  | nil => simpa using h
  | append_singleton closing event ih =>
      obtain ⟨hbefore, hlast⟩ := List.forall_mem_append.1 hclosing
      obtain ⟨hannounced, hsame⟩ := ih hbefore
      obtain ⟨hsplit, hsubject⟩ := hlast event List.mem_cons_self
      rw [← List.append_assoc, stems_concat_of_isSplit_eq_false hsplit, hsame]
      refine ⟨hannounced.concat ?_ (by simp [hsplit]), rfl⟩
      rwa [hsame]

/-! ### Depths along announced events

A branch is put at its depth once, when it is announced, and is not mentioned before. So the table
after the last event gives every branch the depth that it was shown with. -/

/-- Branches that are there do not grow any more. -/
theorem Event.stem?_eq_none_of_lt {n : Nat}
    (hoffspring : event.isSplit = true → event.offspring = [n, n + 1]) (hlt : b < n) :
    event.stem? b = none := by
  refine Option.eq_none_iff_forall_ne_some.2 fun stem hstem => ?_
  obtain ⟨hsplit, hmem, -⟩ := Event.isSplit_of_stem? hstem
  rw [hoffspring hsplit] at hmem
  simp only [List.mem_cons, List.not_mem_nil, or_false] at hmem
  rcases hmem with rfl | rfl
  · exact Nat.lt_irrefl _ hlt
  · exact Nat.not_succ_lt_self hlt

/-- Branches that are there keep their depths. -/
theorem Depths.get_foldl_concat {n : Nat} (depths : Depths)
    (hoffspring : event.isSplit = true → event.offspring = [n, n + 1]) (hlt : b < n) :
    ((events ++ [event]).foldl Depths.after depths).get b =
      (events.foldl Depths.after depths).get b := by
  rw [List.foldl_append, List.foldl_cons, List.foldl_nil, get_after,
    Event.stem?_eq_none_of_lt hoffspring hlt]

namespace Announced

/-- Every line is about a branch that is there. -/
theorem subject_lt (h : Announced events) (hmem : event ∈ events)
    (hsubject : event.subject? = some b) : b < (stems events).length := by
  induction h with
  | nil => cases hmem
  | @concat events last _ hlast _ ih =>
      rw [stems_concat, List.length_append]
      rcases List.mem_append.1 hmem with hold | hnew
      · exact Nat.lt_of_lt_of_le (ih hold) (Nat.le_add_right _ _)
      · rw [List.mem_singleton.1 hnew] at hsubject
        exact Nat.lt_of_lt_of_le (hlast b hsubject) (Nat.le_add_right _ _)

/-- All lines can be written with the depths after the last event. -/
theorem renderLines_eq (h : Announced events) (depths : Depths) :
    Event.renderLines depths events =
      events.map (Event.lineAt (events.foldl Depths.after depths).get) := by
  induction h with
  | nil => rfl
  | @concat events last hbefore hlast hoffspring ih =>
      rw [Event.renderLines_append, ih, List.map_append]
      congr 1
      · refine List.map_congr_left fun event hmem => Event.lineAt_congr fun b hb => ?_
        exact (Depths.get_foldl_concat depths hoffspring (hbefore.subject_lt hmem hb)).symm
      · refine congrArg ([·]) ((Event.render_eq_lineAt _ last).trans ?_)
        refine Event.lineAt_congr fun b hb => ?_
        exact (Depths.get_foldl_concat depths hoffspring (hlast b hb)).symm

/-- A branch has grown from one that is there. -/
theorem stem_lt (h : Announced events) (hstem : (stems events)[b]? = some (some stem)) :
    stem < (stems events).length := by
  induction h with
  | nil => rcases b with _ | b <;> cases hstem
  | @concat events last _ hlast _ ih =>
      rw [stems_concat] at hstem ⊢
      rw [List.length_append]
      rw [List.getElem?_append] at hstem
      split at hstem
      · exact Nat.lt_of_lt_of_le (ih hstem) (Nat.le_add_right _ _)
      · rw [List.getElem?_map, Option.map_eq_some_iff] at hstem
        obtain ⟨-, -, hactor⟩ := hstem
        exact Nat.lt_of_lt_of_le (hlast stem (Event.subject?_of_actor? hactor))
          (Nat.le_add_right _ _)

/-- A branch is one below the one it has grown from, and the first one stands at the margin. -/
theorem get_foldl (h : Announced events) {depths : Depths} (hroot : depths.get 0 = 0)
    (hb : b < (stems events).length) :
    (events.foldl Depths.after depths).get b =
      match (stems events)[b]? with
      | some (some stem) => (events.foldl Depths.after depths).get stem + 1
      | _ => 0 := by
  induction h generalizing b with
  | nil =>
      obtain rfl : b = 0 := Nat.lt_one_iff.1 hb
      exact hroot
  | @concat events last hbefore hlast hoffspring ih =>
      have hkeep : ∀ b, b < (stems events).length →
          ((events ++ [last]).foldl Depths.after depths).get b =
            (events.foldl Depths.after depths).get b :=
        fun b => Depths.get_foldl_concat depths hoffspring
      by_cases hlt : b < (stems events).length
      · rw [hkeep b hlt, ih hlt, stems_concat, List.getElem?_append_left hlt]
        rcases hstem : (stems events)[b]? with _ | _ | stem
        · rfl
        · rfl
        · simp only [hkeep stem (hbefore.stem_lt hstem)]
      · -- a branch that was not there has grown in the last event
        rcases hsplit : last.isSplit with _ | _
        · rw [stems_concat_of_isSplit_eq_false hsplit] at hb
          exact absurd hb hlt
        · obtain ⟨actor, hactor⟩ := Event.exists_actor?_of_isSplit hsplit
          have hchildren := hoffspring hsplit
          rw [stems_concat, hchildren, hactor] at hb ⊢
          rw [List.length_append, List.length_map] at hb
          have hnext : ∀ {n m : Nat}, ¬ m < n → m < n + 2 → m = n ∨ m = n + 1 := by omega
          have hplace : b = (stems events).length ∨ b = (stems events).length + 1 := hnext hlt hb
          have hstem : last.stem? b = some actor := by
            rw [Event.stem?, if_pos (by simpa [hchildren] using hplace), hactor]
          have hentry : (stems events ++ [(stems events).length, (stems events).length + 1].map
              fun _ => some actor)[b]? = some (some actor) := by
            rcases hplace with rfl | rfl <;> simp
          rw [hentry]
          simp only [hkeep actor (hlast actor (Event.subject?_of_actor? hactor))]
          rw [List.foldl_append, List.foldl_cons, List.foldl_nil, Depths.get_after, hstem]

/-- The first branch stays at the margin. -/
theorem get_foldl_zero (h : Announced events) {depths : Depths} (hroot : depths.get 0 = 0) :
    (events.foldl Depths.after depths).get 0 = 0 := by
  have hzero := stems_getElem?_zero events
  rw [h.get_foldl hroot (List.getElem?_eq_some_iff.1 hzero).1, hzero]

end Announced

end TermLogic
