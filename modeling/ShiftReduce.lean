import ShiftReduce.NamedGrammar.Reader
import ShiftReduce.NamedGrammar.Rendering
import ShiftReduce.Proofs.ConflictFree
import ShiftReduce.Proofs.Halting
import ShiftReduce.Proofs.Unambiguous
import ShiftReduce.Proofs.EarliestError
import ShiftReduce.Proofs.LinearTime
import ShiftReduce.Proofs.TableLookaheads
import ShiftReduce.Proofs.EliminatedFollow
import ShiftReduce.Proofs.TokenStreams
import ShiftReduce.Proofs.RoundTrip
import ShiftReduce.Proofs.ReorderedTables
import ShiftReduce.Proofs.RemainingRecursion
import ShiftReduce.Proofs.CanonicalCollection
import ShiftReduce.Proofs.CellContents
import ShiftReduce.Proofs.FinishedRuns
import ShiftReduce.Proofs.ClosureOperator
import ShiftReduce.Proofs.RuleLines
import ShiftReduce.Proofs.AcceptedTexts
import ShiftReduce.Proofs.Layout
import ShiftReduce.Proofs.RuleChecks
import ShiftReduce.Proofs.Kernels
import ShiftReduce.Proofs.SetScripts
import ShiftReduce.Proofs.SlotBounds
import ShiftReduce.Proofs.Vanishing
import ShiftReduce.Proofs.Termination
