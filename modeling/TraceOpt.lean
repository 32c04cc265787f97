import TraceOpt.Trace.Recorder
import TraceOpt.HashTrie.Cursor
import TraceOpt.Main
import TraceOpt.Proofs.HashTrie.Shape
import TraceOpt.Proofs.HashTrie.Canonical
import TraceOpt.Proofs.Trace.Execution
import TraceOpt.Proofs.Optimization.Output
import TraceOpt.Proofs.Optimization.Constants
import TraceOpt.Proofs.Optimization.Placement
import TraceOpt.Proofs.Optimization.Splitting
import TraceOpt.Proofs.Optimization.Contradiction
import TraceOpt.Proofs.Optimization.Idempotence
import TraceOpt.Proofs.Optimization.Terminal
import TraceOpt.Proofs.Optimization.Counters
import TraceOpt.Proofs.Trace.Layout
import TraceOpt.Proofs.HashTrie.Arrival
import TraceOpt.Proofs.HashTrie.Equality
import TraceOpt.Proofs.Optimization.Lifecycle
import TraceOpt.Proofs.Optimization.Renaming
import TraceOpt.Proofs.Trace.Unambiguous
import TraceOpt.Proofs.HashTrie.Traversal
import TraceOpt.Proofs.HashTrie.Joining
