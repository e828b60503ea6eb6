import Cbpf.Lib.BoundedLoop
import Cbpf.Lib.Cheri
import Cbpf.Insn
import Cbpf.Run
import Cbpf.RunInvariant
import Cbpf.Gate
import Cbpf.GateRefinement
import Cbpf.Model.Transitions
import Cbpf.Model.Oracle
import Cbpf.Model.Invariant
import Cbpf.Model.EdgeCheck
import Cbpf.Model.Exactness
import Cbpf.RunRefinement
import Cbpf.Lib.History
import Cbpf.Ledger
import Cbpf.Lib.Checked
import Cbpf.CheckedRun
import Cbpf.CheckedGate
import Cbpf.Containment
import Cbpf.Conformance.Bridge
import Cbpf.Conformance.Replay
import Cbpf.Conformance.Agreement
import Cbpf.Conformance.Histories
import Cbpf.Replace
import Cbpf.Independence
import Cbpf.Representation
import Cbpf.Kernel.Runtime
import Cbpf.Kernel.GateSteps
import Cbpf.Kernel.AccessDecision
import Cbpf.Kernel.Enter
import Cbpf.Lib.Interleaving
import Cbpf.Kernel.Teardown
import Cbpf.Kernel.System
import Cbpf.Kernel.Invoke
import Cbpf.Kernel.Controls
import Cbpf.Kernel.Registration
import Cbpf.Lib.Shuffle
import Cbpf.Kernel.Noninterference
import Cbpf.Kernel.EntryGeometry
import Cbpf.Kernel.Writes
import Cbpf.Kernel.Authority
import Cbpf.Kernel.ModelRefinement
import Cbpf.Lib.Stride
import Cbpf.Spatial.ArrayMap
import Cbpf.Spatial.Lifecycle
import Cbpf.Lib.Dataflow
import Cbpf.Jit.Program
import Cbpf.Jit.Admit
import Cbpf.Jit.Transfer
import Cbpf.Jit.Typing
import Cbpf.Jit.Soundness
import Cbpf.Jit.Codegen
import Cbpf.Jit.Emission
import Cbpf.Jit.Passes
import Cbpf.Jit.Native
import Cbpf.Jit.Simulation
import Cbpf.Jit.Marks
import Cbpf.Jit.Compile
import Cbpf.Jit.Integration
import Cbpf.Jit.Executive
import Cbpf.Jit.Epilogue
import Cbpf.Jit.Prologue
import Cbpf.Jit.GatewayCode
import Cbpf.Jit.Exit
import Cbpf.Jit.Envelope
import Cbpf.Jit.Restricted
import Cbpf.Lib.Inevitable
import Cbpf.Jit.Processor
import Cbpf.Jit.Invocation
import Cbpf.Jit.ModelRefinement
import Cbpf.Jit.TestInvoke
import Cbpf.Validation
import Cbpf.Lib.Renaming
import Cbpf.Renaming
import Cbpf.Executed
import Cbpf.Metrics
import Cbpf.Lib.Packed
import Cbpf.Conformance.Adapter
import Cbpf.Lib.BreadthFirst
import Cbpf.Model.Explore
import Cbpf.Model.Mutant
import Cbpf.Lib.Schedule
import Cbpf.Model.Reachability
import Cbpf.Model.Depth
import Cbpf.Model.Count
import Cbpf.Lib.Worklist
import Cbpf.Conformance.Check
import Cbpf.Conformance.Coverage
import Cbpf.Conformance.Recorded
import Cbpf.Lib.Population
import Cbpf.Kfunc.Provider
import Cbpf.Kfunc.Guest
import Cbpf.Lib.FileTree
import Cbpf.Evidence
