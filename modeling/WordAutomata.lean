import WordAutomata.Journal
import WordAutomata.Main
import WordAutomata.Nfa.Path
import WordAutomata.Regex.Grammar
import WordAutomata.Regex.Language
import WordAutomata.Regex.Render
import WordAutomata.Proofs.Traversal
import WordAutomata.Proofs.Traversal.Order
import WordAutomata.Proofs.Nfa.Simulation
import WordAutomata.Proofs.Nfa.Thompson
import WordAutomata.Proofs.Dfa.Runs
import WordAutomata.Proofs.Dfa.Subsets
import WordAutomata.Proofs.Dfa.Partition
import WordAutomata.Proofs.Dfa.Minimal
import WordAutomata.Proofs.Dfa.Residuals
import WordAutomata.Proofs.Dfa.Answers
import WordAutomata.Proofs.Dfa.Bisimulation
import WordAutomata.Proofs.Dfa.Canonical
import WordAutomata.Proofs.Dfa.Smallest
import WordAutomata.Proofs.Regex.Symbols
import WordAutomata.Proofs.Regex.Literals
import WordAutomata.Proofs.Regex.Soundness
import WordAutomata.Proofs.Regex.Grammar
import WordAutomata.Proofs.Regex.Rendering
import WordAutomata.Proofs.Segmentation
import WordAutomata.Proofs.Compile
import WordAutomata.Proofs.Dfa.Renaming
import WordAutomata.Proofs.Dfa.Reloading
import WordAutomata.Proofs.Document
import WordAutomata.Proofs.Nfa.Document
import WordAutomata.Proofs.Interchange
import WordAutomata.Proofs.Verbatim
import WordAutomata.Proofs.CommandLine
import WordAutomata.Proofs.Nfa.Guarded
import WordAutomata.Proofs.Nfa.Reading
import WordAutomata.Proofs.Nfa.Erasure
import WordAutomata.Proofs.Regex.Repetitions
import WordAutomata.Proofs.Dfa.Observations
import WordAutomata.Proofs.Dfa.SubsetStates
import WordAutomata.Proofs.Nfa.Trim
import WordAutomata.Proofs.Dfa.DeadState
import WordAutomata.Proofs.Token.Places
import WordAutomata.Proofs.Regex.Viability
import WordAutomata.Proofs.Dfa.Names
import WordAutomata.Proofs.Dfa.Reading
import WordAutomata.Proofs.Nfa.Renaming
import WordAutomata.Proofs.Nfa.Naming
import WordAutomata.Proofs.Nfa.Shape
import WordAutomata.Proofs.Nfa.Assembled
import WordAutomata.Proofs.Nfa.Transcription
import WordAutomata.Proofs.Termination
import WordAutomata.Proofs.Traversal.Worklist
import WordAutomata.Proofs.Dfa.Searches
import WordAutomata.Proofs.Nfa.Closure
import WordAutomata.Proofs.Dfa.Splitting
import WordAutomata.Proofs.Regex.Display
import WordAutomata.Proofs.Register
import WordAutomata.Proofs.Numbering
import WordAutomata.Proofs.Dfa.ClassTable
import WordAutomata.Proofs.Document.Shape
