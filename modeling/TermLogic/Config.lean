/-!
# Configuration

The bound on the rounds of a run. It is positive by type, so that only `Config.ofBound` has to check
it.
-/

namespace TermLogic

/-- Why a configuration is refused. -/
inductive ConfigError where
  /-- The bound is zero. -/
  | zeroBound
deriving DecidableEq

/-- The message shown for a refused configuration. -/
def ConfigError.message : ConfigError → String
  | zeroBound => "max_iterations must be a positive integer"

/-- The configuration of a prover. -/
structure Config where
  /-- How many rounds a run may take at most. -/
  bound : Nat
  /-- A run may take at least one round. -/
  bound_pos : 0 < bound
deriving DecidableEq

namespace Config

/-- The bound that is used when none is given. -/
def defaultBound : Nat := 50

/-- The configuration that is used when none is given. -/
def standard : Config :=
  ⟨defaultBound, by decide⟩

/-- The configuration with a given bound. -/
def ofBound (bound : Nat) : Except ConfigError Config :=
  if h : 0 < bound then .ok ⟨bound, h⟩ else .error .zeroBound

/-- A bound is refused exactly when it is zero. -/
theorem ofBound_eq_error_iff (bound : Nat) :
    ofBound bound = .error .zeroBound ↔ bound = 0 := by
  unfold ofBound
  split <;> simp <;> omega

end Config

end TermLogic
