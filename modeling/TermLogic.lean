import TermLogic.Formula.Grammar
import TermLogic.Formula.Walk
import TermLogic.Main
import TermLogic.Semantics
import TermLogic.Session
import TermLogic.Tableau.Copying
import TermLogic.Proofs.Path.Growth
import TermLogic.Proofs.Path.Rules
import TermLogic.Proofs.Tableau.Steps
import TermLogic.Proofs.Tableau.Branches
import TermLogic.Proofs.Tableau.Sharing
import TermLogic.Proofs.Tableau.Recording
import TermLogic.Proofs.Tableau.Stability
import TermLogic.Proofs.Trace.Derivation
import TermLogic.Proofs.Trace.Refutation
import TermLogic.Proofs.Tableau.Derivation
import TermLogic.Proofs.Tableau.Arena
import TermLogic.Proofs.Session.Isolation
import TermLogic.Proofs.Soundness
import TermLogic.Proofs.Countermodel
import TermLogic.Proofs.Termination
import TermLogic.Proofs.Formula.Acceptance
import TermLogic.Proofs.Formula.RoundTrip
import TermLogic.Proofs.Trace.Roster
import TermLogic.Proofs.Consequence
import TermLogic.Proofs.Formula.Parentheses
import TermLogic.Proofs.Formula.Nesting
import TermLogic.Proofs.Formula.Faults
import TermLogic.Proofs.Tableau.Verdict
import TermLogic.Proofs.Token.Positions
import TermLogic.Proofs.Token.LongestMatch
import TermLogic.Proofs.Trace.Lineage
import TermLogic.Proofs.Tableau.Rounds
import TermLogic.Proofs.Tableau.Deduction
import TermLogic.Proofs.Tableau.Unfinished
import TermLogic.Proofs.NamedIndividuals
import TermLogic.Proofs.Tableau.ExcludedMiddle
import TermLogic.Proofs.Tableau.Renaming
import TermLogic.Proofs.Trace.Depths
import TermLogic.Proofs.Trace.Lines
import TermLogic.Proofs.Session.Transcript
import TermLogic.Proofs.Token.Spacing
import TermLogic.Proofs.Tableau.Choice
import TermLogic.Proofs.Formula.Walk
import TermLogic.Proofs.Formula.Discipline
