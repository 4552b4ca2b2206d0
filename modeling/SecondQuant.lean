import SecondQuant.Sorting
import SecondQuant.Combination
import SecondQuant.Sign
import SecondQuant.Rational
import SecondQuant.Index
import SecondQuant.Index.Context
import SecondQuant.Tensor
import SecondQuant.Word
import SecondQuant.Expr
import SecondQuant.Expr.Order
import SecondQuant.Expr.Collect
import SecondQuant.Expr.Expand
import SecondQuant.Expr.Algebra
import SecondQuant.Expr.Latex
import SecondQuant.Error
import SecondQuant.Event
import SecondQuant.Builder
import SecondQuant.Builder.Events
import SecondQuant.Symbols
import SecondQuant.Pattern
import SecondQuant.Delta
import SecondQuant.Dummy
import SecondQuant.Contraction.Chain
import SecondQuant.Contraction.Value
import SecondQuant.Contraction
import SecondQuant.Contraction.Events
import SecondQuant.Antisymmetry
import SecondQuant.Rank
import SecondQuant.Rank.Counters
import SecondQuant.Proofs.Permutation
import SecondQuant.Proofs.LinearExtension
import SecondQuant.Proofs.Evaluation
import SecondQuant.Proofs.TensorSymmetry
import SecondQuant.Proofs.NormalWord
import SecondQuant.Proofs.OperatorAlgebra
import SecondQuant.Proofs.NormalForm
import SecondQuant.Proofs.CanonicalTree
import SecondQuant.Proofs.CanonicalAlgebra
import SecondQuant.Proofs.OperatorChain
import SecondQuant.Proofs.Positions
import SecondQuant.Proofs.ContractedWord
import SecondQuant.Proofs.WordContraction
import SecondQuant.Proofs.CanonicalOperations
import SecondQuant.Proofs.ExchangeSign
import SecondQuant.Proofs.Wick
import SecondQuant.Proofs.StagedContraction
import SecondQuant.Proofs.Linearity
import SecondQuant.Proofs.PairOrder
import SecondQuant.Proofs.Substitution
import SecondQuant.Proofs.DeltaElimination
import SecondQuant.Proofs.Numbering
import SecondQuant.Proofs.Renumbering
import SecondQuant.Proofs.IndexSupport
import SecondQuant.Proofs.DummyRenaming
import SecondQuant.Proofs.Failures
import SecondQuant.Proofs.TensorText
import SecondQuant.Proofs.SumText
import SecondQuant.Proofs.Relabelling
import SecondQuant.Proofs.RelabelledContraction
import SecondQuant.Proofs.RelabelledReduction
import SecondQuant.Proofs.AdjointAlgebra
import SecondQuant.Proofs.DrawnLabels
import SecondQuant.Proofs.LabelIndependence
import SecondQuant.Proofs.TreeOrder
import SecondQuant.Proofs.TreeAlgebra
import SecondQuant.Proofs.AdjointLaws
import SecondQuant.Proofs.AdjointWords
import SecondQuant.Proofs.DeltaTables
import SecondQuant.Proofs.PairingSign
import SecondQuant.Proofs.Excitations
import SecondQuant.Proofs.OverlapChain
import SecondQuant.Proofs.OverlapContraction
import SecondQuant.Proofs.Overlap
import SecondQuant.Proofs.Replacement
import SecondQuant.Proofs.ContractionBasis
import SecondQuant.Proofs.RenamingLaws
import SecondQuant.Proofs.Arrangements
import SecondQuant.Proofs.AntisymmetricExpansion
import SecondQuant.Proofs.UnsortedExpansion
import SecondQuant.Proofs.Readings
import SecondQuant.Proofs.FullContraction
import SecondQuant.Proofs.Screening
import SecondQuant.Proofs.CounterRange
import SecondQuant.Proofs.ScreeningCharge
import SecondQuant.Proofs.ScreeningDuality
import SecondQuant.Proofs.FreshIndices
import SecondQuant.Proofs.BuilderIndices
import SecondQuant.Proofs.HermitianBuilders
import SecondQuant.Proofs.NeighbourExchange
import SecondQuant.Proofs.ExchangeLaw
import SecondQuant.Proofs.MirroredPattern
import SecondQuant.Proofs.AdjointContraction
import SecondQuant.Proofs.EliminationLoop
import SecondQuant.Proofs.ReadingEquivalence
import SecondQuant.Proofs.ScreeningPaths
import SecondQuant.Proofs.BuilderScreening
import SecondQuant.Proofs.ArrangementSteps
import SecondQuant.Proofs.Decompositions
