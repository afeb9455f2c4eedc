import VliwCompiler.Arithmetic
import VliwCompiler.Asm.Accepted
import VliwCompiler.Asm.Blocks
import VliwCompiler.Asm.BundleText
import VliwCompiler.Asm.Capture
import VliwCompiler.Asm.Emit
import VliwCompiler.Asm.HeaderText
import VliwCompiler.Asm.Opcode
import VliwCompiler.Asm.OperandText
import VliwCompiler.Asm.Parse
import VliwCompiler.Asm.Placement
import VliwCompiler.Asm.Program
import VliwCompiler.Asm.Reading
import VliwCompiler.Asm.Reemission
import VliwCompiler.Asm.Restored
import VliwCompiler.Asm.RoundTrip
import VliwCompiler.Asm.Run
import VliwCompiler.Asm.Semantics
import VliwCompiler.Asm.Splitting
import VliwCompiler.Asm.Totality
import VliwCompiler.Asm.Verify
import VliwCompiler.Codegen.Context
import VliwCompiler.Codegen.Folding
import VliwCompiler.Codegen.Lowering
import VliwCompiler.Codegen.Placed
import VliwCompiler.Codegen.Requests
import VliwCompiler.Codegen.Scalar
import VliwCompiler.Codegen.Simulation
import VliwCompiler.Codegen.Slots
import VliwCompiler.Codegen.Timing
import VliwCompiler.Data.Cycles
import VliwCompiler.Data.InOrder
import VliwCompiler.Data.MapM
import VliwCompiler.Data.Text
import VliwCompiler.Data.Truncation
import VliwCompiler.Data.Worklist
import VliwCompiler.Error
import VliwCompiler.Isel.Activations
import VliwCompiler.Isel.BlockCode
import VliwCompiler.Isel.BlockMeaning
import VliwCompiler.Isel.Calls
import VliwCompiler.Isel.Carried
import VliwCompiler.Isel.Classes
import VliwCompiler.Isel.Collected
import VliwCompiler.Isel.Copies
import VliwCompiler.Isel.CopyTable
import VliwCompiler.Isel.Definite
import VliwCompiler.Isel.Definitions
import VliwCompiler.Isel.Dominance
import VliwCompiler.Isel.EdgeCode
import VliwCompiler.Isel.EdgeMeaning
import VliwCompiler.Isel.Edges
import VliwCompiler.Isel.Effects
import VliwCompiler.Isel.EntryLive
import VliwCompiler.Isel.Execution
import VliwCompiler.Isel.FallThrough
import VliwCompiler.Isel.Layout
import VliwCompiler.Isel.Linking
import VliwCompiler.Isel.Lower
import VliwCompiler.Isel.Meaning
import VliwCompiler.Isel.OneClass
import VliwCompiler.Isel.Ordering
import VliwCompiler.Isel.Phi
import VliwCompiler.Isel.PhiEdges
import VliwCompiler.Isel.PhiVerdict
import VliwCompiler.Isel.Preservation
import VliwCompiler.Isel.Progress
import VliwCompiler.Isel.Recorded
import VliwCompiler.Isel.Registers
import VliwCompiler.Isel.Rejection
import VliwCompiler.Isel.Select
import VliwCompiler.Isel.Shapes
import VliwCompiler.Isel.Sites
import VliwCompiler.Isel.Temporaries
import VliwCompiler.Isel.Traversal
import VliwCompiler.Isel.Verdict
import VliwCompiler.Isel.VisitVerdict
import VliwCompiler.Isel.Width
import VliwCompiler.Llvm.Check
import VliwCompiler.Llvm.Evaluation
import VliwCompiler.Llvm.Semantics
import VliwCompiler.Llvm.Ssa
import VliwCompiler.Llvm.Syntax
import VliwCompiler.Machine.Action
import VliwCompiler.Machine.Commute
import VliwCompiler.Machine.Forward
import VliwCompiler.Machine.Independent
import VliwCompiler.Machine.LockStep
import VliwCompiler.Machine.Memory
import VliwCompiler.Machine.Rebind
import VliwCompiler.Machine.Rename
import VliwCompiler.Machine.Reorder
import VliwCompiler.Mir.Activations
import VliwCompiler.Mir.Layout
import VliwCompiler.Mir.Semantics
import VliwCompiler.Mir.Shape
import VliwCompiler.Mir.Syntax
import VliwCompiler.Pack.Boundaries
import VliwCompiler.Pack.Bounds
import VliwCompiler.Pack.Emission
import VliwCompiler.Pack.Explicit
import VliwCompiler.Pack.Hazards
import VliwCompiler.Pack.Labels
import VliwCompiler.Pack.Latency
import VliwCompiler.Pack.Leading
import VliwCompiler.Pack.Legality
import VliwCompiler.Pack.MemoryOrder
import VliwCompiler.Pack.MemorySlots
import VliwCompiler.Pack.Merge
import VliwCompiler.Pack.Packer
import VliwCompiler.Pack.Paths
import VliwCompiler.Pack.Places
import VliwCompiler.Pack.Readiness
import VliwCompiler.Pack.Refinement
import VliwCompiler.Pack.Return
import VliwCompiler.Pack.Segment
import VliwCompiler.Pack.Stalls
import VliwCompiler.Pack.Steps
import VliwCompiler.Pack.Transfers
import VliwCompiler.Pack.Verified
import VliwCompiler.Pipeline.Compile
import VliwCompiler.Pipeline.Conventions
import VliwCompiler.Regalloc.Agreement
import VliwCompiler.Regalloc.Allocated
import VliwCompiler.Regalloc.Allocator
import VliwCompiler.Regalloc.Arguments
import VliwCompiler.Regalloc.Blocks
import VliwCompiler.Regalloc.CallFree
import VliwCompiler.Regalloc.ControlFlow
import VliwCompiler.Regalloc.Dataflow
import VliwCompiler.Regalloc.Eviction
import VliwCompiler.Regalloc.Exactness
import VliwCompiler.Regalloc.Harmless
import VliwCompiler.Regalloc.Kept
import VliwCompiler.Regalloc.Liveness
import VliwCompiler.Regalloc.Operation
import VliwCompiler.Regalloc.Partition
import VliwCompiler.Regalloc.Places
import VliwCompiler.Regalloc.Pool
import VliwCompiler.Regalloc.Positions
import VliwCompiler.Regalloc.Predicates
import VliwCompiler.Regalloc.Reload
import VliwCompiler.Regalloc.Reserved
import VliwCompiler.Regalloc.Retention
import VliwCompiler.Regalloc.Rewrite
import VliwCompiler.Regalloc.Room
import VliwCompiler.Regalloc.StraightLine
import VliwCompiler.Regalloc.Values
import VliwCompiler.Regs
import VliwCompiler.Schedule.Dag
import VliwCompiler.Schedule.Dependence
import VliwCompiler.Schedule.Iterations
import VliwCompiler.Schedule.ListSchedule
import VliwCompiler.Schedule.Meaning
import VliwCompiler.Schedule.Progress
import VliwCompiler.Schedule.Ready
