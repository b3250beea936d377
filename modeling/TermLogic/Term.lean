import TermLogic.Token

/-!
# Terms

A term names a class of individuals: a plain name, the complement `~t` of a term (what is not `t`),
or its privation `^t` (what lacks `t`, which is less than not being `t`).

* `Term.base`, `Term.isDenied`: a term without its leading complements, and whether their number
  was odd. Two complements cancel in what is said of an individual.
* `Term.tokens`, `Term.render`: the canonical text.
* `Term.le`, `Term.sort`, `Term.repeats`: the order of terms, and lists of terms in that order.
-/

namespace TermLogic

/-- A term: a name, or a complement or privation over another term. -/
inductive Term where
  /-- A class by its name. -/
  | atom (name : String)
  /-- `~t`: all that is not `t`. -/
  | complement (inner : Term)
  /-- `^t`: all that lacks `t`. -/
  | privation (inner : Term)
deriving DecidableEq

namespace Term

/-! ### Leading complements

Two complements cancel in what is said of an individual, so a predication is written down without
the leading complements of its term, and with the sign turned once for each of them. -/

/-- The term that is left when every leading complement is taken off. -/
def base : Term → Term
  | complement inner => inner.base
  | atom name => atom name
  | privation inner => privation inner

/-- Whether the number of leading complements is odd. -/
def isDenied : Term → Bool
  | complement inner => !inner.isDenied
  | _ => false

/-- A name has nothing to take off. -/
@[simp]
theorem base_atom (name : String) : (atom name).base = atom name := rfl

/-- A leading complement is taken off. -/
@[simp]
theorem base_complement (t : Term) : t.complement.base = t.base := rfl

/-- A privation is a term of its own, so nothing is taken off it. -/
@[simp]
theorem base_privation (t : Term) : t.privation.base = t.privation := rfl

/-- A name is not denied. -/
@[simp]
theorem isDenied_atom (name : String) : (atom name).isDenied = false := rfl

/-- Each leading complement turns whether a term is denied. -/
@[simp]
theorem isDenied_complement (t : Term) : t.complement.isDenied = !t.isDenied := rfl

/-- A privation is not denied, whatever stands under it. -/
@[simp]
theorem isDenied_privation (t : Term) : t.privation.isDenied = false := rfl

/-- What is left begins with no complement. -/
theorem base_ne_complement (t u : Term) : t.base ≠ u.complement := by
  induction t with
  | atom => simp
  | complement t ih => simpa using ih
  | privation => simp

/-- Taking the complements off a second time changes nothing. -/
@[simp]
theorem base_base (t : Term) : t.base.base = t.base := by
  induction t with
  | atom => rfl
  | complement t ih => simpa using ih
  | privation => rfl

/-! ### Text -/

/-- The tokens of a term, operators first. -/
def tokens : Term → List Token
  | atom name => [.ident name]
  | complement inner => .complement :: inner.tokens
  | privation inner => .privation :: inner.tokens

/-- The canonical text of a term. -/
def render (t : Term) : String :=
  Token.layoutAll t.tokens

/-! ### Order

Names are compared as texts are, by code point, which puts capital letters before small ones. -/

/-- Names come first, then complements, then privations; names are ordered by code point, and terms
of one kind by what is inside. -/
def le : Term → Term → Bool
  | atom a, atom b => decide (a ≤ b)
  | atom _, _ => true
  | complement _, atom _ => false
  | complement a, complement b => le a b
  | complement _, privation _ => true
  | privation a, privation b => le a b
  | privation _, _ => false

/-- A list of terms in ascending order. -/
def sort (terms : List Term) : List Term :=
  terms.mergeSort le

/-- For each term but the last, whether the next one is the same term. -/
def repeats (terms : List Term) : List Bool :=
  List.zipWith (fun a b => decide (a = b)) terms terms.tail

/-- Every two terms are comparable. -/
theorem le_total (a b : Term) : (le a b || le b a) = true := by
  induction a generalizing b with
  | atom a =>
    cases b with
    | atom b => simpa [le] using String.le_total a b
    | complement => rfl
    | privation => rfl
  | complement a ih => cases b <;> simp [le, ih]
  | privation a ih => cases b <;> simp [le, ih]

/-- The order of terms is transitive. -/
theorem le_trans {a b c : Term} (hab : le a b = true) (hbc : le b c = true) : le a c = true := by
  induction a generalizing b c with
  | atom a =>
    cases b <;> cases c <;> simp_all [le]
    exact String.le_trans hab hbc
  | complement a ih =>
    cases b <;> cases c <;> simp_all [le]
    exact ih hab hbc
  | privation a ih =>
    cases b <;> cases c <;> simp_all [le]
    exact ih hab hbc

/-- Sorting keeps the terms and puts them in order. -/
theorem sort_perm (terms : List Term) : (sort terms).Perm terms :=
  List.mergeSort_perm terms le

/-- No term of a sorted list stands before a smaller one. -/
theorem sort_pairwise (terms : List Term) : (sort terms).Pairwise fun a b => le a b = true :=
  List.pairwise_mergeSort (fun a b c => @le_trans a b c) le_total terms

end Term

end TermLogic
