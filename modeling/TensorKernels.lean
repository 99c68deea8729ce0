import TensorKernels.Main
import TensorKernels.Session.Command
import TensorKernels.Proofs.Adjoint
import TensorKernels.Proofs.Arena
import TensorKernels.Proofs.BackwardKernel
import TensorKernels.Proofs.Block
import TensorKernels.Proofs.Broadcasting
import TensorKernels.Proofs.Buffers
import TensorKernels.Proofs.Building
import TensorKernels.Proofs.Compilation
import TensorKernels.Proofs.Contexts
import TensorKernels.Proofs.Dataflow
import TensorKernels.Proofs.Dispatch
import TensorKernels.Proofs.DropoutRate
import TensorKernels.Proofs.Evaluation
import TensorKernels.Proofs.FoldPartition
import TensorKernels.Proofs.Forgetting
import TensorKernels.Proofs.ForwardCode
import TensorKernels.Proofs.ForwardKernel
import TensorKernels.Proofs.GradientCode
import TensorKernels.Proofs.GradientValues
import TensorKernels.Proofs.HostFold
import TensorKernels.Proofs.Inference
import TensorKernels.Proofs.KernelSteps
import TensorKernels.Proofs.Lowering
import TensorKernels.Proofs.LoweringSteps
import TensorKernels.Proofs.MaskOwnership
import TensorKernels.Proofs.Meaning
import TensorKernels.Proofs.Names
import TensorKernels.Proofs.NodeGradients
import TensorKernels.Proofs.Placement
import TensorKernels.Proofs.RaceFreedom
import TensorKernels.Proofs.Refinement
import TensorKernels.Proofs.Resolution
import TensorKernels.Proofs.Safety
import TensorKernels.Proofs.Scope
import TensorKernels.Proofs.SessionSteps
import TensorKernels.Proofs.Sessions
import TensorKernels.Proofs.Steps
import TensorKernels.Proofs.StorePlaces
import TensorKernels.Proofs.StoreTrace
import TensorKernels.Proofs.TensorValues
import TensorKernels.Proofs.Transparency
import TensorKernels.Proofs.Values
import TensorKernels.Proofs.Wiring
import TensorKernels.Proofs.Deposits
import TensorKernels.Proofs.RegularGradients
import TensorKernels.Proofs.BackwardShares
import TensorKernels.Proofs.CallSites
import TensorKernels.Proofs.CanonicalPartition
import TensorKernels.Proofs.BufferWiring
import TensorKernels.Proofs.BlockScopes
import TensorKernels.Proofs.LexicalKernels
import TensorKernels.Proofs.StrictCode
import TensorKernels.Proofs.ExactIndices
import TensorKernels.Proofs.GradientLedger
import TensorKernels.Proofs.HostGradients
import TensorKernels.Proofs.TermGradients
import TensorKernels.Proofs.TrainingGradients
import TensorKernels.Proofs.DualNumbers
import TensorKernels.Proofs.ReductionAdjoints
import TensorKernels.Proofs.RegularDerivatives
import TensorKernels.Proofs.BindingCheck
import TensorKernels.Proofs.Normalization
import TensorKernels.Proofs.RoundingIntervals
import TensorKernels.Proofs.LiteralTexts
import TensorKernels.Proofs.ExprTexts
import TensorKernels.Proofs.StmtTexts
import TensorKernels.Proofs.SharedLowering
import TensorKernels.Proofs.ExactOrder
import TensorKernels.Proofs.SoftmaxShift
