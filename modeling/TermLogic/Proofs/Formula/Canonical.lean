import TermLogic.Formula.Printer
import TermLogic.Proofs.Token.Layout

/-!
# The tokens of canonical text

The scanner reads canonical text as the tokens it was made of: names are written as they are, and
nothing in canonical text stands so close to its neighbour that both could be taken for something
else.

* `Term.isWritable`, `Formula.isWritable`: terms and formulas that have a text of their own.
* `Token.Apart`: no two neighbours stick to each other.
* `Formula.apart_tokens`, `Formula.isName_of_mem_tokens`: canonical tokens stand apart, and their
  names are names of identifiers.
* `Formula.scan_render`: canonical text has the canonical tokens.
-/

namespace TermLogic

open Token (Placed)

/-! ### Writable terms and formulas -/

/-- Whether all names in a term can be written. -/
def Term.isWritable : Term → Bool
  | atom name => Token.isName name
  | complement inner | privation inner => inner.isWritable

/-- Whether all names in a formula can be written, and only names are used as propositions. -/
def Formula.isWritable : Formula → Bool
  | atom (.atom name) => Token.isName name
  | atom (.complement _) | atom (.privation _) => false
  | universal s p | particular s p => s.isWritable && p.isWritable
  | existential t => t.isWritable
  | negation f => f.isWritable
  | conjunction f g | disjunction f g | conditional f g | biconditional f g =>
    f.isWritable && g.isWritable

/-! ### Terms -/

namespace Term

/-- The tokens of a term are names and term operators. -/
theorem mem_tokens {t : Term} {token : Token} (h : token ∈ t.tokens) :
    (∃ name, token = .ident name) ∨ token = .complement ∨ token = .privation := by
  induction t with
  | atom name => exact .inl ⟨name, List.mem_singleton.1 h⟩
  | complement t ih =>
      rcases List.mem_cons.1 h with rfl | hmem
      · exact .inr (.inl rfl)
      · exact ih hmem
  | privation t ih =>
      rcases List.mem_cons.1 h with rfl | hmem
      · exact .inr (.inr rfl)
      · exact ih hmem

/-- The names of a writable term are names of identifiers. -/
theorem isName_of_mem_tokens {t : Term} {name : String} (h : t.isWritable = true)
    (hmem : .ident name ∈ t.tokens) : Token.isName name = true := by
  induction t with
  | atom own =>
      cases List.mem_singleton.1 hmem
      exact h
  | complement t ih | privation t ih =>
      rcases List.mem_cons.1 hmem with heq | hmem
      · cases heq
      · exact ih h hmem

end Term

/-! ### Neighbours

Terms first, then formulas by induction. A part in its place starts as it does on its own or with a
parenthesis, so what stands in front of it can be compared with either. -/

/-- No two neighbours among the tokens could be taken for other tokens together. -/
def Token.Apart (tokens : List Token) : Prop :=
  tokens.IsChain fun first second => first.sticksTo second = false

/-- A token in front of others, to the first of which it does not stick. -/
theorem Token.Apart.cons {token : Token} {ts : List Token} (h : Apart ts)
    (hhead : ∀ second ∈ ts.head?, token.sticksTo second = false) : Apart (token :: ts) :=
  List.isChain_cons.2 ⟨hhead, h⟩

/-- Tokens on either side of one that sticks to none of them. -/
theorem Token.Apart.join {ts us : List Token} {token : Token} (ht : Apart ts) (hu : Apart us)
    (hbefore : ∀ first ∈ ts, first.sticksTo token = false)
    (hbehind : ∀ second ∈ us.head?, token.sticksTo second = false) :
    Apart (ts ++ token :: us) := by
  refine List.isChain_append.2 ⟨ht, hu.cons hbehind, ?_⟩
  rintro first hfirst second ⟨⟩
  exact hbefore first (List.mem_of_getLast? hfirst)

/-- The tokens of a term stand apart. -/
theorem Term.apart_tokens (t : Term) : Token.Apart t.tokens := by
  induction t with
  | atom name => exact .singleton _
  | complement t ih => exact ih.cons fun _ _ => rfl
  | privation t ih => exact ih.cons fun _ _ => rfl

namespace Formula

variable {f : Formula} {place : Precedence}

/-- A part in its place starts with a parenthesis or as it does on its own. -/
theorem head?_tokensAt {token : Token} (h : token ∈ (f.tokensAt place).head?) :
    token = .leftParen ∨ token ∈ f.tokens.head? := by
  unfold tokensAt enclose at h
  split at h
  · exact .inl (Option.some.inj h).symm
  · exact .inr h

/-- No canonical text starts with `>`. -/
theorem head?_tokens_ne_rightAngle (f : Formula) :
    ∀ token ∈ f.tokens.head?, token ≠ .rightAngle := by
  -- with a connective, canonical text starts with the left operand
  have hjoin : ∀ {f : Formula} {place : Precedence} {connective : Token} {us : List Token},
      (∀ token ∈ f.tokens.head?, token ≠ .rightAngle) → connective ≠ .rightAngle →
      ∀ token ∈ (f.tokensAt place ++ connective :: us).head?, token ≠ .rightAngle := by
    intro f place connective us hf hconn token htoken
    rw [List.head?_append, Option.mem_def, Option.or_eq_some_iff] at htoken
    rcases htoken with hfirst | ⟨-, hconn'⟩
    · rcases head?_tokensAt hfirst with rfl | hmem
      · exact nofun
      · exact hf token hmem
    · cases hconn'
      exact hconn
  induction f with
  | atom t =>
      intro token htoken
      rcases Term.mem_tokens (List.mem_of_head? htoken) with ⟨name, rfl⟩ | rfl | rfl <;> exact nofun
  | universal s p | particular s p | existential t | negation f =>
      rintro token ⟨⟩
      exact nofun
  | conjunction f g ihf ihg => exact hjoin ihf nofun
  | disjunction f g ihf ihg => exact hjoin ihf nofun
  | conditional f g ihf ihg => exact hjoin ihf nofun
  | biconditional f g ihf ihg => exact hjoin ihf nofun

/-- A part in its place stands apart if it does on its own. -/
theorem apart_tokensAt (h : Token.Apart f.tokens) (place : Precedence) :
    Token.Apart (f.tokensAt place) := by
  unfold tokensAt enclose
  split
  · have hclose : Token.Apart (f.tokens ++ [.rightParen]) := by
      refine h.join .nil (fun first _ => ?_) nofun
      cases first <;> rfl
    exact hclose.cons fun _ _ => rfl
  · exact h

/-- Two parts stand apart with a connective between them. -/
theorem apart_join {g : Formula} {inner : Precedence} {connective : Token}
    (hconn : connective.isConnective = true) (hf : Token.Apart f.tokens)
    (hg : Token.Apart g.tokens) :
    Token.Apart (f.tokensAt place ++ connective :: g.tokensAt inner) := by
  have hsticks : ∀ other : Token, other.sticksTo connective = false ∧
      connective.sticksTo other = false := by
    intro other
    cases connective with
    | and | or | imply | iff => cases other <;> exact ⟨rfl, rfl⟩
    | _ => cases hconn
  exact (apart_tokensAt hf place).join (apart_tokensAt hg inner) (fun first _ => (hsticks first).1)
    fun second _ => (hsticks second).2

/-- The canonical tokens of a formula stand apart. -/
theorem apart_tokens (f : Formula) : Token.Apart f.tokens := by
  have hangle : ∀ s p : Term, Token.Apart (.leftAngle :: s.tokens ++ .rightAngle :: p.tokens) := by
    intro s p
    have hopen : Token.Apart (.leftAngle :: s.tokens) := by
      refine s.apart_tokens.cons fun second hsecond => ?_
      rcases Term.mem_tokens (List.mem_of_head? hsecond) with ⟨name, rfl⟩ | rfl | rfl <;> rfl
    refine hopen.join p.apart_tokens (fun first hfirst => ?_) fun _ _ => rfl
    rcases List.mem_cons.1 hfirst with rfl | hmem
    · rfl
    · rcases Term.mem_tokens hmem with ⟨name, rfl⟩ | rfl | rfl <;> rfl
  induction f with
  | atom t => exact t.apart_tokens
  | universal s p =>
      have hopen : Token.Apart (.leftBracket :: s.tokens) := s.apart_tokens.cons fun _ _ => rfl
      refine hopen.join p.apart_tokens (fun first _ => ?_) fun _ _ => rfl
      cases first <;> rfl
  | particular s p => exact hangle s p
  | existential t => exact hangle t t
  | negation f ih =>
      refine (apart_tokensAt ih .unary).cons fun second hsecond => ?_
      have hne : second ≠ .rightAngle := by
        rcases head?_tokensAt hsecond with rfl | hmem
        · exact nofun
        · exact f.head?_tokens_ne_rightAngle second hmem
      cases second with
      | rightAngle => exact absurd rfl hne
      | _ => rfl
  | conjunction f g ihf ihg => exact apart_join rfl ihf ihg
  | disjunction f g ihf ihg => exact apart_join rfl ihf ihg
  | conditional f g ihf ihg => exact apart_join rfl ihf ihg
  | biconditional f g ihf ihg => exact apart_join rfl ihf ihg

/-! ### Names

A writable formula has names of identifiers only, and canonical text adds no names to those of the
formula. -/

/-- Parentheses add no name. -/
theorem ident_mem_enclose {own : Precedence} {tokens : List Token} {name : String} :
    .ident name ∈ enclose place own tokens ↔ .ident name ∈ tokens := by
  unfold enclose
  split <;> simp

/-- A name in a part in its place is a name in the part. -/
theorem ident_mem_tokensAt {name : String} :
    .ident name ∈ f.tokensAt place ↔ .ident name ∈ f.tokens :=
  ident_mem_enclose

/-- The names in a writable formula are names of identifiers. -/
theorem isName_of_mem_tokens {name : String} (h : f.isWritable = true)
    (hmem : .ident name ∈ f.tokens) : Token.isName name = true := by
  have hpair : ∀ {s p : Term} {opener closer : Token}, (s.isWritable && p.isWritable) = true →
      .ident name ∈ opener :: s.tokens ++ closer :: p.tokens → opener ≠ .ident name →
      closer ≠ .ident name → Token.isName name = true := by
    intro s p opener closer h hmem hopener hcloser
    obtain ⟨hs, hp⟩ := Bool.and_eq_true_iff.1 h
    rcases List.mem_append.1 hmem with hmem | hmem
    · rcases List.mem_cons.1 hmem with heq | hmem
      · exact absurd heq.symm hopener
      · exact Term.isName_of_mem_tokens hs hmem
    · rcases List.mem_cons.1 hmem with heq | hmem
      · exact absurd heq.symm hcloser
      · exact Term.isName_of_mem_tokens hp hmem
  induction f with
  | atom t =>
      cases t with
      | atom own => exact Term.isName_of_mem_tokens (t := .atom own) h hmem
      | complement t => cases h
      | privation t => cases h
  | universal s p => exact hpair h hmem nofun nofun
  | particular s p => exact hpair h hmem nofun nofun
  | existential t => exact hpair (Bool.and_eq_true_iff.2 ⟨h, h⟩) hmem nofun nofun
  | negation f ih =>
      rcases List.mem_cons.1 hmem with heq | hmem
      · cases heq
      · exact ih h (ident_mem_tokensAt.1 hmem)
  | conjunction f g ihf ihg | disjunction f g ihf ihg | conditional f g ihf ihg
  | biconditional f g ihf ihg =>
      obtain ⟨hf, hg⟩ := Bool.and_eq_true_iff.1 h
      rcases List.mem_append.1 hmem with hmem | hmem
      · exact ihf hf (ident_mem_tokensAt.1 hmem)
      · rcases List.mem_cons.1 hmem with heq | hmem
        · cases heq
        · exact ihg hg (ident_mem_tokensAt.1 hmem)

/-- The canonical text of a writable formula has the canonical tokens. -/
theorem scan_render (h : f.isWritable = true) :
    ∃ tokens, Token.scan f.render = .ok tokens ∧ tokens.map Placed.token = f.tokens :=
  Token.scan_layoutAll (fun _ hmem => isName_of_mem_tokens h hmem) f.apart_tokens

end Formula

end TermLogic
