import PinnedHeap.Finalization

/-!
# Objects of the demonstration program

The demonstration has a root object, which holds references to buffers, and the
buffers.  Every buffer is finalized.  Its finalizer only counts.
-/

namespace PinnedHeap.BufferDemo

/-- An object of the demonstration. -/
inductive Obj where
  /-- The root, with the buffers it holds. -/
  | root (buffers : Array Ref)
  /-- A buffer. -/
  | buffer (number : Nat)

namespace Obj

/-- The buffers of a root. -/
def buffers? : Obj → Option (Array Ref)
  | .root buffers => some buffers
  | .buffer _ => none

/-- A root with one more buffer.  Anything else stays as it is. -/
def push (r : Ref) : Obj → Obj
  | .root buffers => .root (buffers.push r)
  | .buffer number => .buffer number

/-- A root without buffers.  Anything else stays as it is. -/
def clear : Obj → Obj
  | .root _ => .root #[]
  | .buffer number => .buffer number

instance : HeapObject Obj where
  bytes
    | .root _ => 24
    | .buffer _ => 32
  refs x := (x.buffers?.getD #[]).toList
  finalizable
    | .root _ => false
    | .buffer _ => true

end Obj

/-- What the demonstration leaves behind. -/
structure World where
  /-- Number of buffers finalized. -/
  finalized : Nat := 0
  /-- What was printed. -/
  printed : String := ""
deriving DecidableEq

/-- A buffer is counted when it is finalized. -/
def finalize : Finalizer Obj World
  | .buffer _, _, (heap, world) => (heap, { world with finalized := world.finalized + 1 })
  | .root _, _, state => state

end PinnedHeap.BufferDemo
