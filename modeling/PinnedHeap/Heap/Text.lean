import PinnedHeap.Heap.Collection
import PinnedHeap.Text.Record

/-!
# Texts of heaps

A heap, its counters and the result of a collection are written as records: a
name, and in braces the fields in order.  The objects themselves are never
written.
-/

namespace PinnedHeap.Heap

/-- The text of a mode. -/
def Mode.text : Mode → String
  | .markSweep => "MarkSweep"
  | .disabled => "Disabled"

/-- The text of a configuration. -/
def Config.text (c : Config) : String :=
  Text.record "HeapConfig"
    [("gc_threshold", toString c.threshold), ("initial_slots", toString c.initialSlots),
      ("mode", c.mode.text)]

/-- The text of the counters. -/
def Stats.text (s : Stats) : String :=
  Text.record "HeapStats"
    [("collections", toString s.collections), ("live_objects", toString s.liveObjects),
      ("live_bytes", toString s.liveBytes),
      ("allocated_since_gc", toString s.allocatedSinceCollection),
      ("total_allocated", toString s.totalAllocated),
      ("freed_objects", toString s.freedObjects)]

variable {α : Type}

/-- The text of a heap. -/
def text (h : Heap α) : String :=
  Text.record "ManagedHeap"
    [("slots", toString h.slots.size), ("stats", h.stats.text), ("config", h.config.text)]

/-- The text of a pending object, which leaves out the object. -/
def Pending.text (p : Pending α) : String :=
  "PendingFinalizer \x7b object_ref: " ++ p.ref.text ++ ", .. \x7d"

/-- The text of what a collection reclaimed. -/
def Collection.text (c : Collection α) : String :=
  Text.record "Collection"
    [("freed", toString c.freed),
      ("pending", Text.list (c.pending.map Pending.text))]

end PinnedHeap.Heap
