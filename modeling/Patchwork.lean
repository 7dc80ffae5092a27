import Patchwork.Architecture
import Patchwork.Document.Extract
import Patchwork.Main
import Patchwork.Program.Outline
import Patchwork.Release
import Patchwork.Workload.Arithmetic
import Patchwork.Workload.Calls
import Patchwork.Workload.Comparison
import Patchwork.Workload.Compilation
import Patchwork.Workload.Filters
import Patchwork.Workload.Functions
import Patchwork.Workload.Gradients
import Patchwork.Workload.Records
import Patchwork.Workload.Rotations
import Patchwork.Workload.Runs
import Patchwork.Workload.Stencils
import Patchwork.Workload.Tensors
import Patchwork.Workload.Vectors
import Patchwork.Proofs.Database.Callees
import Patchwork.Proofs.Database.Stripping
import Patchwork.Proofs.Gradient.Angle
import Patchwork.Proofs.Gradient.Containers
import Patchwork.Proofs.Gradient.Defined
import Patchwork.Proofs.Schedule.Stable
import Patchwork.Proofs.Schedule.Paths
import Patchwork.Proofs.Failure
import Patchwork.Proofs.Datum.Reflected
import Patchwork.Proofs.Datum.Absorbed
import Patchwork.Proofs.Program.Decoding
import Patchwork.Proofs.Filter.Median
import Patchwork.Proofs.Integer.Division
import Patchwork.Proofs.Elementary
import Patchwork.Proofs.Scalar.Shortcuts
import Patchwork.Proofs.Datum.Broadcast
import Patchwork.Proofs.Datum.Construction
import Patchwork.Proofs.Datum.Products
import Patchwork.Proofs.Datum.Pairs
import Patchwork.Proofs.Datum.Vectors
import Patchwork.Proofs.Datum.Constants
import Patchwork.Proofs.Datum.Sound
import Patchwork.Proofs.Quaternion
