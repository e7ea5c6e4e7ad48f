import PinnedHeap.Finalization
import PinnedHeap.Session.Name

/-!
# Objects of a session

The objects that sessions store are of four kinds.  A leaf refers to nothing.  A
node holds a list of references.  A watched object holds a list of references
too, says by a flag whether it wants to be finalized, and brings the steps that
its finalizer takes.  A block is a number of bytes without references.

Since the finalizer of a watched object may store further watched objects, the
steps on a heap and the plans of objects refer to each other.  The parameter `ι`
is the type of the marks that tell watched objects apart in the journal.
-/

namespace PinnedHeap.Session

mutual

/-- How to make an object.  References are resolved when it is made. -/
inductive Plan (ι : Type) where
  /-- An object without content. -/
  | leaf
  /-- An object with references. -/
  | node (refs : List (Arg Ref))
  /-- An object with references and a finalizer. -/
  | watched (refs : List (Arg Ref)) (finalizable : Bool) (mark : ι)
      (actions : List (HeapStep ι))
  /-- An object of that many bytes. -/
  | block (bytes : Nat)

/-- A step that needs nothing but a heap. -/
inductive HeapStep (ι : Type) where
  /-- Store an object. -/
  | alloc (name : Option String) (plan : Plan ι)
  /-- Is the object live? -/
  | isLive (target : Arg Ref)
  /-- The header of an object. -/
  | header (target : Arg Ref)
  /-- The kind of an object. -/
  | kind (target : Arg Ref)
  /-- Does the object want to be finalized now? -/
  | isFinalizable (target : Arg Ref)
  /-- The references of an object. -/
  | getRefs (target : Arg Ref)
  /-- Replace the references of an object. -/
  | setRefs (target : Arg Ref) (refs : List (Arg Ref))
  /-- Append to the references of an object. -/
  | pushRefs (target : Arg Ref) (refs : List (Arg Ref))
  /-- Set whether a watched object wants to be finalized. -/
  | setFinalizable (target : Arg Ref) (value : Bool)
  /-- Is a collection due? -/
  | collectionDue
  /-- Number of live objects. -/
  | liveCount
  /-- Collect from the given roots, and drop what would be finalized. -/
  | collect (roots : List (Arg Ref))
  /-- The text of the heap. -/
  | text
  /-- A step that does not exist. -/
  | unknown

end

/-- An object of a session. -/
inductive Obj (ι : Type) where
  /-- An object without content. -/
  | leaf
  /-- An object with references. -/
  | node (refs : List Ref)
  /-- An object with references and a finalizer. -/
  | watched (refs : List Ref) (finalizable : Bool) (mark : ι) (actions : List (HeapStep ι))
  /-- An object of that many bytes. -/
  | block (bytes : Nat)

variable {ι : Type}

instance : Inhabited (HeapStep ι) := ⟨.unknown⟩

/-- The object a plan makes when names stand for the given references. -/
def Plan.make (names : Names Ref) : Plan ι → Obj ι
  | .leaf => .leaf
  | .node refs => .node (refs.map (Arg.resolve names))
  | .watched refs finalizable mark actions =>
    .watched (refs.map (Arg.resolve names)) finalizable mark actions
  | .block bytes => .block bytes

namespace Obj

/-- Bytes of an object, its header not counted. -/
def bytes : Obj ι → Nat
  | .leaf => 0
  | .node _ => 24
  | .watched .. => 8
  | .block n => n

/-- The references of an object, if it is of a kind that has some. -/
def refs? : Obj ι → Option (List Ref)
  | .node refs => some refs
  | .watched refs .. => some refs
  | _ => none

/-- Whether an object wants to be finalized. -/
def finalizable : Obj ι → Bool
  | .watched _ finalizable _ _ => finalizable
  | _ => false

instance : HeapObject (Obj ι) where
  bytes := bytes
  refs x := x.refs?.getD []
  finalizable := finalizable

/-- The name of the kind of an object. -/
def kindName : Obj ι → String
  | .leaf => "leaf"
  | .node _ => "node"
  | .watched .. => "fin"
  | .block _ => "blob"

/-- An object with its references changed, if it is of a kind that has some. -/
def mapRefs? (f : List Ref → List Ref) : Obj ι → Option (Obj ι)
  | .node refs => some (.node (f refs))
  | .watched refs finalizable mark actions => some (.watched (f refs) finalizable mark actions)
  | _ => none

/-- A watched object with its flag set. -/
def setFinalizable? (value : Bool) : Obj ι → Option (Obj ι)
  | .watched refs _ mark actions => some (.watched refs value mark actions)
  | _ => none

end Obj

end PinnedHeap.Session
