import SchurForm.Host.Memory
import SchurForm.Main
import SchurForm.Proofs.AnsweredSelections
import SchurForm.Proofs.AtomicErrors
import SchurForm.Proofs.BlockDiagonalization
import SchurForm.Proofs.BlockStandardization
import SchurForm.Proofs.CharacteristicProduct
import SchurForm.Proofs.EigenvectorLocality
import SchurForm.Proofs.FiniteExchange
import SchurForm.Proofs.FiniteNumbers
import SchurForm.Proofs.FiniteRotation
import SchurForm.Proofs.IndependentVectors
import SchurForm.Proofs.InvalidArguments
import SchurForm.Proofs.LoosenedTolerance
import SchurForm.Proofs.MatrixFiles
import SchurForm.Proofs.NormalizationFailures
import SchurForm.Proofs.PairEigenvalues
import SchurForm.Proofs.PencilFactorization
import SchurForm.Proofs.ReorderedSpectrum
import SchurForm.Proofs.ReorderingFrame
import SchurForm.Proofs.ReorderingOutcome
import SchurForm.Proofs.RepeatedReordering
import SchurForm.Proofs.ScaledPencil
import SchurForm.Proofs.SelectionFiles
import SchurForm.Proofs.ShiftedNorms
import SchurForm.Proofs.ShiftedScale
import SchurForm.Proofs.StandardFactorization
import SchurForm.Proofs.StorageOperations
import SchurForm.Proofs.StorageRefinement
import SchurForm.Proofs.StorageViews
import SchurForm.Proofs.SylvesterRefinement
