import SlotGrad.Array.Dtype
import SlotGrad.Array.Grid
import SlotGrad.Array.Join
import SlotGrad.Array.Product
import SlotGrad.Array.Select
import SlotGrad.Array.Shape
import SlotGrad.Array.Tensor
import SlotGrad.Error
import SlotGrad.Fault
import SlotGrad.Graph.Expression
import SlotGrad.Graph.Naming
import SlotGrad.Graph.Node
import SlotGrad.Graph.Order
import SlotGrad.Kernel.Builtin
import SlotGrad.Kernel.Elementwise
import SlotGrad.Kernel.Extra
import SlotGrad.Kernel.Layout
import SlotGrad.Kernel.Loss
import SlotGrad.Kernel.Reduction
import SlotGrad.Kernel.Stretch
import SlotGrad.Monitor.History
import SlotGrad.Monitor.Summary
import SlotGrad.Net
import SlotGrad.Number.Arith
import SlotGrad.Number.Binary
import SlotGrad.Number.Decimal
import SlotGrad.Number.Double
import SlotGrad.Number.Numeral
import SlotGrad.Number.Rounding
import SlotGrad.Outcome
import SlotGrad.Program.Addressing
import SlotGrad.Program.Compile
import SlotGrad.Program.Compiled
import SlotGrad.Program.Edit
import SlotGrad.Program.Instruction
import SlotGrad.Proofs.Assembly
import SlotGrad.Proofs.Axes
import SlotGrad.Proofs.Broadcasting
import SlotGrad.Proofs.Builtins
import SlotGrad.Proofs.Calls
import SlotGrad.Proofs.Completion
import SlotGrad.Proofs.Contributions
import SlotGrad.Proofs.DependencyOrder
import SlotGrad.Proofs.Dual
import SlotGrad.Proofs.DualRun
import SlotGrad.Proofs.Equations
import SlotGrad.Proofs.Exact
import SlotGrad.Proofs.ExactGradient
import SlotGrad.Proofs.ForwardPass
import SlotGrad.Proofs.Frame
import SlotGrad.Proofs.Gradient
import SlotGrad.Proofs.IndexTransposes
import SlotGrad.Proofs.JoinTransposes
import SlotGrad.Proofs.LayerTransposes
import SlotGrad.Proofs.LayoutTransposes
import SlotGrad.Proofs.Listing
import SlotGrad.Proofs.Lockstep
import SlotGrad.Proofs.OrderIndependence
import SlotGrad.Proofs.Pairing
import SlotGrad.Proofs.Positions
import SlotGrad.Proofs.RealKernels
import SlotGrad.Proofs.RealValues
import SlotGrad.Proofs.ReductionTransposes
import SlotGrad.Proofs.SparseAgreement
import SlotGrad.Proofs.SparseUpdate
import SlotGrad.Proofs.StaleSlots
import SlotGrad.Proofs.Streams
import SlotGrad.Proofs.Structure
import SlotGrad.Proofs.Transposes
import SlotGrad.Proofs.ValueMap
import SlotGrad.Registry
import SlotGrad.Run.Engine
import SlotGrad.Run.Mode
import SlotGrad.Run.Profile
import SlotGrad.Saved.Bytes
import SlotGrad.Saved.Codec
import SlotGrad.Saved.Directory
import SlotGrad.Saved.Document
import SlotGrad.Saved.File
import SlotGrad.Saved.Json.Basic
import SlotGrad.Saved.Json.Lexer
import SlotGrad.Saved.Json.Parser
import SlotGrad.Saved.Json.Printer
import SlotGrad.Saved.Weights
import SlotGrad.Store
import SlotGrad.Text.Aligned
import SlotGrad.Text.Bracketed
import SlotGrad.Text.Column
import SlotGrad.Text.Printable
import SlotGrad.Text.Quoted
import SlotGrad.Text.Tally
import SlotGrad.Validation.Check
import SlotGrad.Validation.Finding
import SlotGrad.Validation.GraphChecks
import SlotGrad.Validation.NetChecks
import SlotGrad.Value.Arithmetic
import SlotGrad.Value.Basic
import SlotGrad.Value.Index
import SlotGrad.Value.Lookup
import SlotGrad.Value.Reference
import SlotGrad.Value.Restructure
import SlotGrad.Value.Sequence
import SlotGrad.Value.Shown
import SlotGrad.Workspace.Actions
import SlotGrad.Workspace.Basic
import SlotGrad.Proofs.BinaryRounding
import SlotGrad.Proofs.JsonTrees
import SlotGrad.Proofs.SavedValues
import SlotGrad.Proofs.LoadedNets
import SlotGrad.Proofs.ScalarSeeds
import SlotGrad.Proofs.Schedules
import SlotGrad.Proofs.ManyRoots
import SlotGrad.Proofs.SavedAgain
import SlotGrad.Proofs.CopiedGraphs
import SlotGrad.Proofs.OverriddenGraphs
import SlotGrad.Proofs.ResultPlaces
import SlotGrad.Proofs.ContributionOrder
import SlotGrad.Proofs.ShapedValues
import SlotGrad.Proofs.ShapedKernels
import SlotGrad.Proofs.OperandShapes
import SlotGrad.Proofs.AdjointShapes
import SlotGrad.Proofs.PostOrder
import SlotGrad.Proofs.InsertedDerivatives
import SlotGrad.Proofs.NamingRules
import SlotGrad.Proofs.DistinctNames
import SlotGrad.Proofs.CompletedPrefixes
import SlotGrad.Proofs.JoinsAndCuts
import SlotGrad.Proofs.ValidationEnds
import SlotGrad.Proofs.AdjointCoverage
import SlotGrad.Proofs.CountedConstants
import SlotGrad.Proofs.RecordedRuns
import SlotGrad.Proofs.Registrations
import SlotGrad.Proofs.RollingWindows
import SlotGrad.Proofs.BoundInputs
import SlotGrad.Proofs.ReducedDerivatives
import SlotGrad.Proofs.TiledWeights
