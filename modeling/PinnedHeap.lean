import PinnedHeap.Main
import PinnedHeap.Session.Holds
import PinnedHeap.Session.Launched
import PinnedHeap.Symbol.Digest
import PinnedHeap.Proofs.Peak
import PinnedHeap.Proofs.Heap.Arena
import PinnedHeap.Proofs.Heap.Mark
import PinnedHeap.Proofs.Heap.Operation
import PinnedHeap.Proofs.Heap.Effect
import PinnedHeap.Proofs.Heap.FreeList
import PinnedHeap.Proofs.Heap.History
import PinnedHeap.Proofs.Heap.Epoch
import PinnedHeap.Proofs.Heap.Accounting
import PinnedHeap.Proofs.Heap.Lifetime
import PinnedHeap.Proofs.Heap.Stale
import PinnedHeap.Proofs.Heap.Comparison
import PinnedHeap.Proofs.Heap.Repetition
import PinnedHeap.Proofs.Heap.Tracing
import PinnedHeap.Proofs.Registry.Inspection
import PinnedHeap.Proofs.Registry.Chain
import PinnedHeap.Proofs.Registry.Representation
import PinnedHeap.Proofs.Registry.History
import PinnedHeap.Proofs.Registry.Refinement
import PinnedHeap.Proofs.Registry.Turn
import PinnedHeap.Proofs.Registry.WellLinked
import PinnedHeap.Proofs.Registry.Epoch
import PinnedHeap.Proofs.Registry.Lifetime
import PinnedHeap.Proofs.Registry.Records
import PinnedHeap.Proofs.Host.Roots
import PinnedHeap.Proofs.Host.Run
import PinnedHeap.Proofs.Host.Held
import PinnedHeap.Proofs.Host.Allocation
import PinnedHeap.Proofs.Host.Script
import PinnedHeap.Proofs.Host.Finalized
import PinnedHeap.Proofs.Host.Reentry
import PinnedHeap.Proofs.Host.Referents
import PinnedHeap.Proofs.Host.Declared
import PinnedHeap.Proofs.Foreign
import PinnedHeap.Proofs.Text.Blank
import PinnedHeap.Proofs.Text.Hex
import PinnedHeap.Proofs.Text.Numeral
import PinnedHeap.Proofs.Symbol.Lookup
import PinnedHeap.Proofs.Symbol.Pairs
import PinnedHeap.Proofs.Symbol.Merge
import PinnedHeap.Proofs.Symbol.Extension
import PinnedHeap.Proofs.Symbol.Digest
import PinnedHeap.Proofs.Crash.Walk
import PinnedHeap.Proofs.Crash.Rendering
import PinnedHeap.Proofs.Crash.Arming
import PinnedHeap.Proofs.Crash.Overlap
import PinnedHeap.Proofs.Crash.Interrupted
import PinnedHeap.Proofs.Crash.Lines
import PinnedHeap.Proofs.Crash.Truncation
import PinnedHeap.Proofs.BufferDemo.Stock
import PinnedHeap.Proofs.BufferDemo.Fill
import PinnedHeap.Proofs.BufferDemo.Cycle
import PinnedHeap.Proofs.BufferDemo.Accounting
import PinnedHeap.Proofs.BufferDemo.Options
import PinnedHeap.Proofs.Manifest.Quoted
import PinnedHeap.Proofs.Manifest.Reader
import PinnedHeap.Proofs.Symbol.Manifest
import PinnedHeap.Proofs.Settings
