import ExprCompiler.Code.Listing
import ExprCompiler.Session.Step
import ExprCompiler.Proofs.Evaluation
import ExprCompiler.Proofs.Arithmetic
import ExprCompiler.Proofs.FoldedValue
import ExprCompiler.Proofs.Acceptance
import ExprCompiler.Proofs.LinkedCode
import ExprCompiler.Proofs.Compilation
import ExprCompiler.Proofs.SessionEffect
import ExprCompiler.Proofs.SessionView
import ExprCompiler.Proofs.Lifetime
import ExprCompiler.Proofs.Unfolding
import ExprCompiler.Proofs.Emission
import ExprCompiler.Proofs.Pipeline
import ExprCompiler.Proofs.FoldedImage
import ExprCompiler.Proofs.FoldedLowering
import ExprCompiler.Proofs.CommonAcceptance
import ExprCompiler.Proofs.Provenance
import ExprCompiler.Proofs.NonInterference
import ExprCompiler.Proofs.VerifiedCode
import ExprCompiler.Proofs.Linearisation
import ExprCompiler.Proofs.SymbolHistory
import ExprCompiler.Proofs.FailedOperations
import ExprCompiler.Proofs.DeclarationTable
import ExprCompiler.Proofs.NormalForm
import ExprCompiler.Proofs.SharedFolding
import ExprCompiler.Proofs.MemoisedEvaluation
import ExprCompiler.Proofs.ConservativeRegistration
import ExprCompiler.Proofs.BindingByIdentity
import ExprCompiler.Proofs.InferredParameters
import ExprCompiler.Proofs.BulkRegistration
import ExprCompiler.Proofs.EdgeTraversal
