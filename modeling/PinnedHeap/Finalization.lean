import Std.Data.TreeSet
import PinnedHeap.Heap.Collection

/-!
# Finalization

A collection hands out the objects that were stored with a finalizer.  The
dispatcher runs their finalizers when the collection is over, with the whole
heap at their disposal.  It remembers the reference of each object it finalized
and refuses a second notification for the same reference.

A finalizer is a function of the object, of the reference it had, and of what it
may touch: the heap, and a *world* that it shares with the rest of the program.
The registry is not among them.
-/

namespace PinnedHeap

/-- What a reclaimed object does to the heap and to the world.  The reference is
the one it had while it was live. -/
abbrev Finalizer (α σ : Type) := α → Ref → Heap α × σ → Heap α × σ

/-- The references of the objects that were finalized. -/
structure Dispatcher where
  /-- Objects whose finalizer has run. -/
  finalized : Std.TreeSet Ref := {}

namespace Dispatcher

/-- Why a notification is refused. -/
inductive Error where
  /-- The object does not ask for a finalizer. -/
  | notFinalizable (ref : Ref)
  /-- An object with this reference was finalized before. -/
  | alreadyFinalized (ref : Ref)
deriving DecidableEq

/-- The message of a refused notification. -/
def Error.message : Error → String
  | .notFinalizable r => "object " ++ r.text ++ " does not declare a finalizer"
  | .alreadyFinalized r => "object " ++ r.text ++ " was already finalized"

/-- Whether an object with this reference was finalized. -/
def hasFinalized (d : Dispatcher) (r : Ref) : Bool := d.finalized.contains r

/-- Number of objects finalized. -/
def count (d : Dispatcher) : Nat := d.finalized.size

variable {α σ : Type} [HeapObject α]

/-- Runs the finalizer of one object. -/
def dispatch (finalize : Finalizer α σ) (d : Dispatcher) (p : Heap.Pending α)
    (state : Heap α × σ) : Except Error (Dispatcher × Heap α × σ) :=
  if !HeapObject.finalizable p.object then .error (.notFinalizable p.ref)
  else if d.hasFinalized p.ref then .error (.alreadyFinalized p.ref)
  else .ok (⟨d.finalized.insert p.ref⟩, finalize p.object p.ref state)

/-- A dispatch of several objects under way. -/
structure Progress (α σ : Type) where
  /-- The dispatcher so far. -/
  dispatcher : Dispatcher
  /-- Heap and world so far. -/
  state : Heap α × σ
  /-- Number of finalizers that ran. -/
  ran : Nat := 0

/-- Notifies the dispatcher of the next object.  A refusal changes nothing. -/
def Progress.next (finalize : Finalizer α σ) (s : Progress α σ) (p : Heap.Pending α) :
    Progress α σ :=
  match s.dispatcher.dispatch finalize p s.state with
  | .ok (dispatcher, state) => { dispatcher, state, ran := s.ran + 1 }
  | .error _ => s

/-- Runs the finalizers of the objects that a collection handed out, in order. -/
def dispatchAll (finalize : Finalizer α σ) (d : Dispatcher) (pending : List (Heap.Pending α))
    (state : Heap α × σ) : Progress α σ :=
  pending.foldl (Progress.next finalize) { dispatcher := d, state }

end Dispatcher

end PinnedHeap
