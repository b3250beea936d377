import TermLogic.Proofs.Formula.Canonical
import TermLogic.Proofs.Tableau.Renaming
import TermLogic.Proofs.Trace.Depths

/-!
# Lines of text

The text for an event is one line, unless a name in one of its claims breaks the line.

* `OneLine`: a text without line breaks. It is kept by all that texts are put together with.
* `Claim.oneLine_render`: the text of a claim is one line, if its names are.
* `Event.exists_oneLine`: so is that for an event, but for the line break at its end.
-/

namespace TermLogic

/-- A text without line breaks. -/
def OneLine (text : String) : Prop :=
  '\n' ∉ text.toList

/-- Whether a text has no line break can be seen by reading it. -/
instance (text : String) : Decidable (OneLine text) :=
  inferInstanceAs (Decidable ('\n' ∉ text.toList))

/-- A text of two parts is without line break if both parts are. -/
@[simp]
theorem oneLine_append {first second : String} :
    OneLine (first ++ second) ↔ OneLine first ∧ OneLine second := by
  simp [OneLine]

/-- Digits break no line. -/
@[simp]
theorem oneLine_repr (n : Nat) : OneLine n.repr := by
  intro hmem
  rw [Nat.toList_repr] at hmem
  cases Nat.isDigit_of_mem_toDigits (by decide) (by decide) hmem

/-- Texts put together with a separator break no line if none of them does and the separator does
not. -/
theorem oneLine_intercalate {separator : String} {texts : List String} (h : OneLine separator)
    (htexts : ∀ text ∈ texts, OneLine text) : OneLine (separator.intercalate texts) := by
  induction texts with
  | nil => simp [OneLine]
  | cons text rest ih =>
      obtain ⟨htext, hrest⟩ := List.forall_mem_cons.1 htexts
      rcases rest with _ | ⟨next, rest⟩
      · simpa using htext
      · rw [String.intercalate_cons_cons, oneLine_append, oneLine_append]
        exact ⟨⟨htext, h⟩, ih hrest⟩

/-! ### Claims

Names may be any texts, and those that cannot be read from a formula may contain line breaks.
Everything else in the text of a claim is on one line. -/

/-- Tokens laid out stand on one line, if the identifiers among them do. -/
theorem Token.oneLine_layoutAll {tokens : List Token}
    (h : ∀ name, .ident name ∈ tokens → OneLine name) : OneLine (layoutAll tokens) := by
  intro hmem
  rw [layoutAll, String.toList_ofList, List.mem_flatMap] at hmem
  obtain ⟨token, htoken, hmem⟩ := hmem
  cases token with
  | ident name => exact h name htoken hmem
  | _ => revert hmem; decide

/-- An identifier in the text of a term is a name in it. -/
theorem Term.mem_names_of_mem_tokens {t : Term} {name : String} (h : .ident name ∈ t.tokens) :
    name ∈ t.names := by
  induction t with
  | atom own => simpa [tokens, names] using h
  | complement t ih | privation t ih => exact ih (by simpa [tokens] using h)

/-- An identifier in the text of a formula is a name in it. -/
theorem Formula.mem_names_of_mem_tokens {f : Formula} {name : String} (h : .ident name ∈ f.tokens) :
    name ∈ f.names := by
  induction f with
  | atom t => exact Term.mem_names_of_mem_tokens h
  | existential t =>
      have hterm : .ident name ∈ t.tokens := by simpa [tokens] using h
      exact Term.mem_names_of_mem_tokens hterm
  | universal s p | particular s p =>
      have hterm : .ident name ∈ s.tokens ∨ .ident name ∈ p.tokens := by simpa [tokens] using h
      exact List.mem_append.2
        (hterm.imp Term.mem_names_of_mem_tokens Term.mem_names_of_mem_tokens)
  | negation f ih =>
      have hpart : .ident name ∈ f.tokens := by simpa [tokens, ident_mem_enclose] using h
      exact ih hpart
  | conjunction f g ihf ihg | disjunction f g ihf ihg | conditional f g ihf ihg
  | biconditional f g ihf ihg =>
      have hpart : .ident name ∈ f.tokens ∨ .ident name ∈ g.tokens := by
        simpa [tokens, ident_mem_enclose] using h
      exact List.mem_append.2 (hpart.imp ihf ihg)

/-- The text of a claim is one line, if its names are. -/
theorem Claim.oneLine_render {claim : Claim} (h : ∀ name ∈ claim.names, OneLine name) :
    OneLine claim.render := by
  rcases claim with f | ⟨c, t⟩
  · exact Token.oneLine_layoutAll fun name hname => h name (Formula.mem_names_of_mem_tokens hname)
  · have hterm : OneLine t.render :=
      Token.oneLine_layoutAll fun name hname => h name (Term.mem_names_of_mem_tokens hname)
    simpa +decide [render] using hterm

/-- A signed claim is shown on one line if the names in it are. -/
theorem Signed.oneLine_render {s : Signed} (h : ∀ name ∈ s.claim.names, OneLine name) :
    OneLine s.render := by
  rw [render, oneLine_append]
  exact ⟨by split <;> decide, Claim.oneLine_render h⟩

/-! ### Events

What surrounds the claims in a line is fixed text, numbers and separators. -/

namespace Event

/-- Several claims are shown on one line if the names in them are. -/
theorem oneLine_renderClaims {claims : List Signed}
    (h : ∀ s ∈ claims, ∀ name ∈ s.claim.names, OneLine name) : OneLine (renderClaims claims) :=
  oneLine_intercalate (by decide)
    (List.forall_mem_map.2 fun s hs => Signed.oneLine_render (h s hs))

/-- The branches that a fork makes are shown on one line if the names in their claims are. -/
theorem oneLine_renderChildren {children : List (BranchId × List Signed)}
    (h : ∀ child ∈ children, ∀ s ∈ child.2, ∀ name ∈ s.claim.names, OneLine name) :
    OneLine (renderChildren children) := by
  refine oneLine_intercalate (by decide) (List.forall_mem_map.2 fun child hchild => ?_)
  simpa +decide using oneLine_renderClaims (h child hchild)

/-- An applied rule is shown on one line if the names in its claim are, and what has come of it. -/
theorem oneLine_renderStep {consumed : Signed} {result : String} (round : Nat)
    (individual : Option Individual) (h : ∀ name ∈ consumed.claim.names, OneLine name)
    (hresult : OneLine result) : OneLine (renderStep round consumed individual result) := by
  have hindividual : OneLine (renderIndividual individual) := by
    cases individual <;> simp +decide [renderIndividual]
  simpa +decide [renderStep, hindividual, hresult] using Signed.oneLine_render h

/-- What a line says is one line, if the names in its claims are. -/
theorem oneLine_text {event : Event}
    (h : ∀ claim ∈ event.claims, ∀ name ∈ claim.names, OneLine name) : OneLine event.text := by
  cases event with
  | seeded b s =>
      show OneLine ("seed " ++ s.render)
      exact oneLine_append.2 ⟨by decide, Signed.oneLine_render (h s.claim List.mem_cons_self)⟩
  | closed b claim =>
      show OneLine ("closed on " ++ claim.render)
      exact oneLine_append.2 ⟨by decide, Claim.oneLine_render (h claim List.mem_cons_self)⟩
  | expanded round b consumed individual produced =>
      obtain ⟨hconsumed, hproduced⟩ := List.forall_mem_cons.1 h
      rw [List.forall_mem_map] at hproduced
      exact oneLine_renderStep round individual hconsumed (oneLine_renderClaims hproduced)
  | split round b consumed individual children =>
      obtain ⟨hconsumed, hchildren⟩ := List.forall_mem_cons.1 h
      refine oneLine_renderStep round individual hconsumed (oneLine_renderChildren ?_)
      intro child hchild s hs
      exact hchildren s.claim (List.mem_flatMap.2 ⟨child, hchild, List.mem_map_of_mem hs⟩)
  | saturated b =>
      show OneLine "saturated"
      decide
  | exhausted active =>
      show OneLine ("bound exhausted with " ++ active.repr ++
        (if active = 1 then " branch" else " branches") ++ " open")
      split <;> simp +decide
  | status b ending =>
      show OneLine ending.render
      cases ending <;> decide

/-- The line for an event ends with its only line break, if the names in its claims have none. -/
theorem exists_oneLine {event : Event}
    (h : ∀ claim ∈ event.claims, ∀ name ∈ claim.names, OneLine name) (depth : BranchId → Nat) :
    ∃ line, OneLine line ∧ event.lineAt depth = line ++ "\n" := by
  have htext := oneLine_text h
  unfold lineAt
  split
  · next b _ =>
    refine ⟨_, ?_, rfl⟩
    have hbars : OneLine (String.ofList (List.replicate (depth b) '│')) := by simp [OneLine]
    simpa +decide [hbars] using htext
  · exact ⟨_, htext, rfl⟩

end Event

end TermLogic
