import TypeFlow.Main
import TypeFlow.Tree.Builder
import TypeFlow.Proofs.Tree.Decoded
import TypeFlow.Proofs.Flow.Edits
import TypeFlow.Proofs.Flow.Frozen
import TypeFlow.Proofs.Flow.LeastFixpoint
import TypeFlow.Proofs.Flow.Queued
import TypeFlow.Proofs.Guard.Narrowed
import TypeFlow.Proofs.Guard.Order
import TypeFlow.Proofs.Types.Built
import TypeFlow.Proofs.Types.LeastUpperBound
import TypeFlow.Proofs.Types.Metaclasses
import TypeFlow.Proofs.Types.Parameters
import TypeFlow.Proofs.Inference.Course.Carried
import TypeFlow.Proofs.Inference.Course.Constants
import TypeFlow.Proofs.Inference.Course.Dropped
import TypeFlow.Proofs.Inference.Course.Expanded
import TypeFlow.Proofs.Inference.Defined
import TypeFlow.Proofs.Inference.Expanders
import TypeFlow.Proofs.Inference.Guards
import TypeFlow.Proofs.Inference.Leftover
import TypeFlow.Proofs.Inference.Made
import TypeFlow.Proofs.Inference.Merged
import TypeFlow.Proofs.Inference.Raised
import TypeFlow.Proofs.Inference.Remembered
import TypeFlow.Proofs.Inference.Restored.Walk
import TypeFlow.Proofs.Inference.Scoped
import TypeFlow.Proofs.Inference.Selected
import TypeFlow.Proofs.Inference.Unassigned
import TypeFlow.Proofs.Inference.Yielded
import TypeFlow.Proofs.Program.Lowered
import TypeFlow.Proofs.Flow.Joined
import TypeFlow.Proofs.Inference.Ascribed
import TypeFlow.Proofs.Inference.Externals
import TypeFlow.Proofs.Inference.Abstract
import TypeFlow.Proofs.Inference.Breaks
import TypeFlow.Proofs.Inference.Typings
import TypeFlow.Proofs.Tree.Reread
import TypeFlow.Proofs.Tree.Enclosed
