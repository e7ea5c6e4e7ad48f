import PinnedHeap.Ref

/-!
# Managed objects

The heap stores values of any type that answers three questions: how many bytes
it takes, which objects it refers to, and whether it wants to be finalized.  The
answers may change while the object is in the heap.  The heap asks for the size
and the finalizer once, when it stores the object, and for the references in
every collection.
-/

namespace PinnedHeap

/-- What the heap asks of the objects it stores. -/
class HeapObject (α : Type) where
  /-- Bytes the object takes, its header not counted. -/
  bytes : α → Nat
  /-- The objects it refers to, in the order it reports them. -/
  refs : α → List Ref
  /-- Whether it declares a finalizer. -/
  finalizable : α → Bool

end PinnedHeap
