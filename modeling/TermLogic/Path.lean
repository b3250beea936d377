import TermLogic.Rule

/-!
# Paths

What has come together on the way from the root of a tableau down to one of its branches, and which
obligation is to be expanded next.

* `Path`: the claims, the slots that have been expanded and the individuals, each in the order in
  which they came onto the path.
* `Path.holds`, `Path.isExpanded`: look-ups on a path.
* `Path.obligations`: what all claims oblige to, oldest claim first, and the instances of one claim
  in the order of the individuals.
* `Path.pending`: the first obligation whose rule does not fork, or else the first whose rule does.
  `Path.pendingBy` leaves open how claims are looked up.
* `Path.marks`, `Path.isMarked`: the expanded slots sorted by place, which `Path.pending` looks them
  up in; `pending_eq` says that this makes no difference.
-/

namespace TermLogic

/-- What has come together from the root down to a branch. -/
structure Path where
  /-- The claims. -/
  claims : List Signed
  /-- The slots that have been expanded. -/
  expanded : List Slot
  /-- The individuals that have been introduced. -/
  individuals : List Individual

namespace Path

/-- Whether a signed claim is on the path. -/
def holds (path : Path) (s : Signed) : Bool :=
  path.claims.contains s

/-- Whether a slot has been expanded on the path. -/
def isExpanded (path : Path) (slot : Slot) : Bool :=
  path.expanded.contains slot

/-- All obligations of the claims on the path. -/
def obligations (path : Path) : List Obligation :=
  path.claims.zipIdx.flatMap fun (s, place) => s.obligations path.individuals place

/-- A claim is found on a path if it is there. -/
@[simp]
theorem holds_iff (path : Path) (s : Signed) : path.holds s = true ↔ s ∈ path.claims := by
  simp [holds]

/-- A slot is found to be expanded if it has been noted. -/
@[simp]
theorem isExpanded_iff (path : Path) (slot : Slot) :
    path.isExpanded slot = true ↔ slot ∈ path.expanded := by
  simp [isExpanded]

/-! ### The choice among obligations

The oldest obligation with a rule that does not fork is wanted, and the oldest fork only if there
is none. One pass is enough for both: it stops at the first, and keeps the second until it is
through. -/

/-- Looks for the first obligation whose rule does not fork; `fork` is the first forking one met so
far, which is the answer if there is none. -/
def pendingAmong (rule? : Obligation → Option Rule) (fork : Option (Obligation × Rule)) :
    List Obligation → Option (Obligation × Rule)
  | [] => fork
  | o :: rest =>
    match rule? o with
    | none => pendingAmong rule? fork rest
    | some rule =>
      if rule.isSplit then pendingAmong rule? (fork.or (some (o, rule))) rest
      else some (o, rule)

/-- The choice depends only on the rules of the obligations that are chosen from. -/
theorem pendingAmong_congr {first second : Obligation → Option Rule} {among : List Obligation}
    (h : ∀ o ∈ among, first o = second o) (fork : Option (Obligation × Rule)) :
    pendingAmong first fork among = pendingAmong second fork among := by
  induction among generalizing fork with
  | nil => rfl
  | cons o rest ih =>
    have hrest : ∀ o' ∈ rest, first o' = second o' :=
      fun o' ho' => h o' (List.mem_cons_of_mem o ho')
    simp only [pendingAmong, h o List.mem_cons_self, ih hrest]

/-! ### Marks

Whether an obligation has been expanded is asked of one after the other in every step. With the
expanded slots sorted by place, the answer is found in the list for one place. -/

/-- The expanded slots by place: for each place of the path, what its claim has been expanded
for. -/
def marks (path : Path) : Array (List (Option Individual)) :=
  path.expanded.foldl (fun marks slot => marks.modify slot.place (slot.individual :: ·))
    (Array.replicate path.claims.length [])

/-- Whether a slot is among the marks. -/
def isMarked (marks : Array (List (Option Individual))) (slot : Slot) : Bool :=
  (marks[slot.place]?.getD []).contains slot.individual

/-- The rule an obligation still calls for on the path. -/
def openRule? (path : Path) (o : Obligation) : Option Rule :=
  if path.isExpanded o.toSlot then none else o.rule? path.holds

/-- The obligation to expand next, with its rule; `holds` says which claims are on the path. -/
def pendingBy (path : Path) (holds : Signed → Bool) : Option (Obligation × Rule) :=
  let marks := path.marks
  pendingAmong (fun o => if isMarked marks o.toSlot then none else o.rule? holds) none
    path.obligations

/-- The obligation to expand next, with its rule. -/
def pending (path : Path) : Option (Obligation × Rule) :=
  path.pendingBy path.holds

/-- A mark adds its own slot and no other. -/
theorem isMarked_modify (marks : Array (List (Option Individual))) (new slot : Slot)
    (h : slot.place < marks.size) :
    isMarked (marks.modify new.place (new.individual :: ·)) slot =
      (decide (slot = new) || isMarked marks slot) := by
  obtain ⟨place, individual⟩ := slot
  obtain ⟨newPlace, newIndividual⟩ := new
  simp only [isMarked] at h ⊢
  by_cases hp : newPlace = place
  · subst hp
    rw [Array.getElem?_modify]
    simp [h]
  · rw [Array.getElem?_modify]
    have : place ≠ newPlace := fun heq => hp heq.symm
    simp [hp, this]

/-- Marks made one after the other are the slots they were made for. -/
theorem isMarked_foldl (slots : List Slot) (marks : Array (List (Option Individual))) (slot : Slot)
    (h : slot.place < marks.size) :
    isMarked (slots.foldl (fun marks s => marks.modify s.place (s.individual :: ·)) marks) slot =
      (slots.contains slot || isMarked marks slot) := by
  induction slots generalizing marks with
  | nil => simp
  | cons s rest ih =>
    rw [List.foldl_cons, ih _ (by simpa using h), isMarked_modify marks s slot h]
    by_cases hs : slot = s <;> simp [hs, Bool.or_comm]

/-- On the places of a path, the marks are the expanded slots. -/
theorem isMarked_marks (path : Path) (slot : Slot) (h : slot.place < path.claims.length) :
    isMarked path.marks slot = path.isExpanded slot := by
  unfold marks isExpanded
  rw [isMarked_foldl _ _ _ (by simpa using h)]
  simp [isMarked, h]

/-- Every obligation of a claim is at the place of the claim. -/
theorem place_of_mem_obligations {individuals : List Individual} {place : Nat} {s : Signed}
    {o : Obligation} (h : o ∈ s.obligations individuals place) : o.place = place := by
  unfold Signed.obligations at h
  split at h
  · obtain ⟨c, -, rfl⟩ := List.mem_map.1 h
    rfl
  · split at h
    · simp at h
    · rw [List.mem_singleton.1 h]

/-- Every obligation of a path is at one of its places. -/
theorem place_lt_of_mem_obligations {path : Path} {o : Obligation} (h : o ∈ path.obligations) :
    o.place < path.claims.length := by
  obtain ⟨⟨s, place⟩, hs, ho⟩ := List.mem_flatMap.1 h
  have hlt := List.snd_lt_of_mem_zipIdx hs
  rw [place_of_mem_obligations ho]
  simpa using hlt

/-- What is pending is what the look-up of expanded slots leaves open. -/
theorem pending_eq (path : Path) :
    path.pending = pendingAmong path.openRule? none path.obligations := by
  refine pendingAmong_congr (fun o ho => ?_) none
  rw [openRule?, isMarked_marks path o.toSlot (place_lt_of_mem_obligations ho)]

end Path

end TermLogic
