import LibcSandbox.Library.Bytes
import LibcSandbox.Library.Layout
import LibcSandbox.Library.Path
import LibcSandbox.Library.Machine
import LibcSandbox.Library.Numbering
import LibcSandbox.Library.Program
import LibcSandbox.Library.Activation
import LibcSandbox.Library.Subdivision
import LibcSandbox.Library.Collapse
import LibcSandbox.Library.Lines
import LibcSandbox.Library.Decimal
import LibcSandbox.Library.Quoting
import LibcSandbox.Library.Interleaving
import LibcSandbox.MemGraph.Pool
import LibcSandbox.MemGraph.Functions
import LibcSandbox.MemGraph.Table
import LibcSandbox.MemGraph.Verify
import LibcSandbox.MemGraph.Bounds
import LibcSandbox.MemGraph.Accepts
import LibcSandbox.MemGraph.Recogniser
import LibcSandbox.MemGraph.Build
import LibcSandbox.MemGraph.Atomic
import LibcSandbox.MemGraph.RoundTrip
import LibcSandbox.MemGraph.Language
import LibcSandbox.MemGraph.Nondeterminism
import LibcSandbox.MemGraph.Alloc
import LibcSandbox.MemGraph.Lookup
import LibcSandbox.MemGraph.Cursor
import LibcSandbox.MemGraph.Capacity
import LibcSandbox.MemGraph.Reload
import LibcSandbox.MemGraph.Reached
import LibcSandbox.MemGraph.Restart
import LibcSandbox.MemGraph.Truncation
import LibcSandbox.MemGraph.Oversize
import LibcSandbox.MemGraph.ListingSize
import LibcSandbox.MemGraph.Filling
import LibcSandbox.MemGraph.Lifetimes
import LibcSandbox.Kernel.Sandboxing
import LibcSandbox.Kernel.Ownership
import LibcSandbox.Kernel.FailClosed
import LibcSandbox.Kernel.Isolation
import LibcSandbox.Kernel.Interleaving
import LibcSandbox.GraphLib.Graaf
import LibcSandbox.GraphLib.LibcCallgraph
import LibcSandbox.GraphLib.Edges
import LibcSandbox.GraphLib.Combine
import LibcSandbox.GraphLib.Quotient
import LibcSandbox.GraphLib.Insert
import LibcSandbox.GraphLib.Operations
import LibcSandbox.GraphLib.Union
import LibcSandbox.Pass.Expand
import LibcSandbox.Pass.Trace
import LibcSandbox.Pass.Convert
import LibcSandbox.Pass.Soundness
import LibcSandbox.Pass.Precision
import LibcSandbox.Pass.Order
import LibcSandbox.Pass.CombineGraphs
import LibcSandbox.Pass.Continuation
import LibcSandbox.Pass.MergeLoops
import LibcSandbox.Pass.Separation
import LibcSandbox.Pass.Representatives
import LibcSandbox.Pass.InMemory
import LibcSandbox.Pass.Encoding
import LibcSandbox.Pass.Buffers
import LibcSandbox.Pass.LibraryCalls
import LibcSandbox.Pass.Instrument
import LibcSandbox.Pass.Weave
import LibcSandbox.Pass.Shape
import LibcSandbox.Pass.BlockGraph
import LibcSandbox.Pass.ReadFile
import LibcSandbox.Pass.Words
import LibcSandbox.Pass.Within
import LibcSandbox.Pass.RunOnModule
import LibcSandbox.Pass.Names
import LibcSandbox.Pass.Executions
import LibcSandbox.Pass.PassTable
import LibcSandbox.Pass.Policy
import LibcSandbox.Pass.FunctionRuns
import LibcSandbox.Pass.ModuleRun
import LibcSandbox.Pass.Provenance
import LibcSandbox.Pass.Preserved
import LibcSandbox.Kernel.Process
import LibcSandbox.Kernel.Session
import LibcSandbox.Kernel.Compiled
import LibcSandbox.Kernel.Spent
import LibcSandbox.Kernel.Announced
import LibcSandbox.LibcListGen.FuncDump
import LibcSandbox.LibcListGen.Decoded
