import LineGrep.Automaton.Bisection
import LineGrep.Automaton.Builder
import LineGrep.Automaton.Determinizer
import LineGrep.Main
import LineGrep.Pattern.Cached
import LineGrep.Pattern.Grammar
import LineGrep.Pattern.Passes
import LineGrep.Pattern.Written
import LineGrep.Proofs.Automaton.BreadthFirst
import LineGrep.Proofs.Automaton.Canonical
import LineGrep.Proofs.Automaton.Chain
import LineGrep.Proofs.Automaton.Determinizer
import LineGrep.Proofs.Automaton.Frame
import LineGrep.Proofs.Automaton.History
import LineGrep.Proofs.Automaton.LeastClosure
import LineGrep.Proofs.Automaton.Listing
import LineGrep.Proofs.Automaton.Numbering
import LineGrep.Proofs.Automaton.Session
import LineGrep.Proofs.Automaton.Shape
import LineGrep.Proofs.Automaton.Transitions
import LineGrep.Proofs.Automaton.Useful
import LineGrep.Proofs.Command.Modes
import LineGrep.Proofs.Command.Request
import LineGrep.Proofs.Pattern.Cached
import LineGrep.Proofs.Pattern.Derivation
import LineGrep.Proofs.Pattern.Fault
import LineGrep.Proofs.Pattern.Passes
import LineGrep.Proofs.Pattern.Written
import LineGrep.Proofs.Regex.Brackets
import LineGrep.Proofs.Search.Agreement
import LineGrep.Proofs.Search.Appended
import LineGrep.Proofs.Search.CarryOver
import LineGrep.Proofs.Search.Decoding
import LineGrep.Proofs.Search.Endings
import LineGrep.Proofs.Search.Failure
import LineGrep.Proofs.Search.Lines
import LineGrep.Proofs.Search.Progress
import LineGrep.Proofs.Search.Stopping
import LineGrep.Regex.Language
