import PinnedHeap.Finalization
import PinnedHeap.Heap.Text
import PinnedHeap.Registry.Links
import PinnedHeap.Roots

/-!
# Hosts

A host is what one running program needs: a heap, the registry of references
that foreign code holds, the global roots, the dispatcher of finalizers and the
arguments of the program.  The `world` is what finalizers may change beside the
heap.

A collection of the host keeps what can be reached from the global roots and
from the handles in the registry, and then runs the finalizers of what was
reclaimed.  An allocation collects first when the heap says it is due.  It does
so also if the allocation fails afterwards.
-/

namespace PinnedHeap

/-- What one running program needs. -/
structure Host (α σ : Type) where
  /-- The heap. -/
  heap : Heap α := {}
  /-- References held by foreign code. -/
  registry : Registry Ref := {}
  /-- Global roots. -/
  roots : Roots := {}
  /-- Objects finalized so far. -/
  dispatcher : Dispatcher := {}
  /-- Arguments of the program, its name first. -/
  args : List String := []
  /-- What finalizers may change beside the heap. -/
  world : σ

namespace Host

variable {α σ : Type}

/-- Why an operation of a host fails. -/
inductive Error where
  /-- The heap refuses to store an object. -/
  | heap (cause : Heap.Error)
  /-- A reference to be pinned names no live object. -/
  | deadObject (ref : Ref)
deriving DecidableEq

/-- The message of a failed operation. -/
def Error.message : Error → String
  | .heap cause => cause.message
  | .deadObject r => "cannot pin " ++ r.text ++ ": object is not live"

/-- A host without objects. -/
def new (config : Heap.Config) (args : List String) (world : σ) : Host α σ :=
  { heap := Heap.empty config, args, world }

/-- The references a collection starts from, provider by provider. -/
def providers (h : Host α σ) : List (List Ref) := [h.roots.toList, h.registry.toList]

/-! ## Collecting and allocating -/

section Collecting

variable [HeapObject α]

/-- Collects, and runs the finalizers of what was reclaimed.  The number is that
of the objects reclaimed. -/
def collect (finalize : Finalizer α σ) (h : Host α σ) : Nat × Host α σ :=
  let (collection, heap) := h.heap.collect h.providers
  let done := h.dispatcher.dispatchAll finalize collection.pending (heap, h.world)
  (collection.freed,
    { h with heap := done.state.1, world := done.state.2, dispatcher := done.dispatcher })

/-- Stores an object.  Collects first if that is due. -/
def alloc (finalize : Finalizer α σ) (h : Host α σ) (x : α) : Except Error Ref × Host α σ :=
  let ready := if h.heap.collectionDue then (h.collect finalize).2 else h
  let (result, heap) := ready.heap.alloc x
  (result.mapError Error.heap, { ready with heap })

end Collecting

/-! ## Pinning -/

/-- Holds a live object on behalf of foreign code.  The outer failure ends the
program: the hold could not be counted. -/
def pin (h : Host α σ) (r : Ref) :
    Except (Registry.Violation Ref) (Except Error Token × Host α σ) :=
  if h.heap.isLive r then do
    let (token, registry) ← Registry.demand (h.registry.acquire r)
    .ok (.ok token, { h with registry })
  else .ok (.error (.deadObject r), h)

/-- Releases one hold by its token. -/
def unpin (h : Host α σ) (t : Token) : Except (Registry.Violation Ref) (Host α σ) := do
  let registry ← Registry.demand (h.registry.release t)
  .ok { h with registry }

/-- Releases one hold by its handle. -/
def unpinRef (h : Host α σ) (r : Ref) : Except (Registry.Violation Ref) (Host α σ) := do
  let registry ← Registry.demand (h.registry.releaseHandle r)
  .ok { h with registry }

/-! ## Global roots -/

/-- One more occurrence of a global root. -/
def addRoot (h : Host α σ) (r : Ref) : Host α σ := { h with roots := h.roots.add r }

/-- Takes one occurrence of a global root away.  The flag says whether there was
one. -/
def removeRoot (h : Host α σ) (r : Ref) : Bool × Host α σ :=
  match h.roots.remove? r with
  | some roots => (true, { h with roots })
  | none => (false, h)

/-! ## Text -/

/-- The text of a host: its heap, and how much the other parts hold. -/
def text (h : Host α σ) : String :=
  Text.record "Runtime"
    [("heap", h.heap.text), ("pinned", toString h.registry.size),
      ("globals", toString h.roots.size), ("finalized", toString h.dispatcher.count)]

end Host

end PinnedHeap
