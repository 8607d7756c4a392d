import SparseTensor.DataType
import SparseTensor.DataType.Numeric
import SparseTensor.DataType.Promotion
import SparseTensor.Decimal.Shortest
import SparseTensor.Fault
import SparseTensor.Notation.Concrete
import SparseTensor.Notation.Expr
import SparseTensor.Notation.Occurrences
import SparseTensor.Notation.Operator
import SparseTensor.Notation.Sharing
import SparseTensor.Notation.Stmt
import SparseTensor.Notation.Summation
import SparseTensor.Notation.Text
import SparseTensor.Proofs.Checks
import SparseTensor.Proofs.Extent
import SparseTensor.Proofs.Filling
import SparseTensor.Proofs.ModeOrdering
import SparseTensor.Proofs.Positions
import SparseTensor.Proofs.Segments
import SparseTensor.Proofs.StrictOrder
import SparseTensor.Shape
import SparseTensor.Storage.Basic
import SparseTensor.Storage.Builder
import SparseTensor.Storage.Buffer
import SparseTensor.Storage.Entries
import SparseTensor.Storage.Format
import SparseTensor.Storage.Index
import SparseTensor.Storage.IndexArray
import SparseTensor.Storage.LevelKind
import SparseTensor.Storage.Lexicographic
import SparseTensor.Storage.Scatter
import SparseTensor.Storage.Segment
import SparseTensor.Storage.WordArray
import SparseTensor.Text.Bracketed
import SparseTensor.Transform.Event
import SparseTensor.Transform.Pass
import SparseTensor.Transform.Renaming
import SparseTensor.Transform.Substitution
import SparseTensor.Transform.Traversal
import SparseTensor.Value
import SparseTensor.Value.Text
import SparseTensor.Proofs.Packing
import SparseTensor.Proofs.Firsts
import SparseTensor.Proofs.Building
import SparseTensor.Proofs.Faithful
import SparseTensor.Proofs.Interpretation
import SparseTensor.Proofs.SumPlacement
import SparseTensor.Proofs.SummedTerms
import SparseTensor.Proofs.ImplicitSums
import SparseTensor.Proofs.Runs
import SparseTensor.Proofs.Statements
import SparseTensor.Proofs.SummationPass
import SparseTensor.Proofs.Parts
import SparseTensor.Proofs.Concreteness
import SparseTensor.Proofs.Recording
import SparseTensor.Proofs.Paths
import SparseTensor.Proofs.Layout
import SparseTensor.Proofs.Outcome
import SparseTensor.Proofs.Canonical
import SparseTensor.Proofs.Repacking
import SparseTensor.Proofs.Reordering
import SparseTensor.Proofs.Places
import SparseTensor.Proofs.Walks
import SparseTensor.Proofs.Edits
import SparseTensor.Proofs.Traversals
import SparseTensor.Proofs.Renamings
import SparseTensor.Proofs.Substitutions
import SparseTensor.Proofs.KeptNodes
import SparseTensor.Proofs.PlainSubstitution
import SparseTensor.Proofs.Grammar
import SparseTensor.Proofs.Reading
import SparseTensor.Proofs.Tokens
import SparseTensor.Proofs.Printing
import SparseTensor.Proofs.FirstOccurrences
import SparseTensor.Proofs.Soundness
import SparseTensor.Proofs.WrittenSums
import SparseTensor.Proofs.PassSafety
import SparseTensor.Proofs.Images
import SparseTensor.Proofs.ImageAnalyses
import SparseTensor.Proofs.Labels
import SparseTensor.Proofs.FreshNodes
import SparseTensor.Proofs.InjectiveRenamings
import SparseTensor.Proofs.BuiltTrees
import SparseTensor.Proofs.StoredTensors
import SparseTensor.Proofs.WellFormedStacks
import SparseTensor.Proofs.InsertedSums
import SparseTensor.Proofs.OmittedParentheses
import SparseTensor.Proofs.Repetitions
import SparseTensor.Proofs.RenamedImages
import SparseTensor.Proofs.DuplicatePolicies
import SparseTensor.Proofs.ComposedRenamings
import SparseTensor.Proofs.EqualReplacements
import SparseTensor.Proofs.Leaves
import SparseTensor.Proofs.LeafHandlers
import SparseTensor.Proofs.SeveralTypes
import SparseTensor.Proofs.FirstUses
import SparseTensor.Proofs.Collecting
import SparseTensor.Proofs.FailedInsertions
import SparseTensor.Proofs.Ranges
import SparseTensor.Proofs.Words
import SparseTensor.Proofs.Orderings
