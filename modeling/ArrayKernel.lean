import ArrayKernel.Main
import ArrayKernel.Program.FileTree
import ArrayKernel.Proofs.AccessModes
import ArrayKernel.Proofs.BuiltScopes
import ArrayKernel.Proofs.CacheCoherence
import ArrayKernel.Proofs.CallerSlots
import ArrayKernel.Proofs.ConstantFolding
import ArrayKernel.Proofs.ControlFlow
import ArrayKernel.Proofs.ExpressionRoundTrip
import ArrayKernel.Proofs.FailedLaunches
import ArrayKernel.Proofs.FieldLayout
import ArrayKernel.Proofs.GridStride
import ArrayKernel.Proofs.IndexOrder
import ArrayKernel.Proofs.Launching
import ArrayKernel.Proofs.LexicalRoundTrip
import ArrayKernel.Proofs.MeaningPreservation
import ArrayKernel.Proofs.MemberPaths
import ArrayKernel.Proofs.ParserTermination
import ArrayKernel.Proofs.SlotAccess
import ArrayKernel.Proofs.SlotSharing
import ArrayKernel.Proofs.TemplateInstances
import ArrayKernel.Proofs.Termination
import ArrayKernel.Surface.Outline
