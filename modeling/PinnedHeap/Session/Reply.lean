import PinnedHeap.Foreign

/-!
# Replies of a session

What the steps of a session answer.  A reply holds the values themselves.  How
they are written is left to whoever shows them.
-/

namespace PinnedHeap.Session

/-- The answer of a step. -/
inductive Reply where
  /-- There is no such thing. -/
  | nothing
  /-- The step was taken. -/
  | done
  /-- Yes or no. -/
  | flag (value : Bool)
  /-- A number. -/
  | count (n : Nat)
  /-- A text. -/
  | text (s : String)
  /-- Several texts. -/
  | texts (items : List String)
  /-- A reference. -/
  | ref (r : Ref)
  /-- Several references. -/
  | refs (rs : List Ref)
  /-- A token. -/
  | token (t : Token)
  /-- References with their counts. -/
  | counts (items : List (Ref × Nat))
  /-- The header of an object. -/
  | header (h : Heap.Header)
  /-- What a collection reclaimed, and its text where that is asked for. -/
  | collection (freed : Nat) (pending : List Ref) (text : Option String)
  /-- An object could not be stored. -/
  | heapError (e : Heap.Error)
  /-- An operation of the host failed. -/
  | hostError (e : Host.Error)
  /-- An operation of the registry failed. -/
  | registryError (e : Registry.Error Ref)
  /-- A notification was refused. -/
  | dispatchError (e : Dispatcher.Error)
  /-- The program would have ended by a violation. -/
  | violation (v : Registry.Violation Ref)
  /-- The program would have been aborted. -/
  | abort (a : Foreign.Abort)
  /-- There is no such step. -/
  | unknown

end PinnedHeap.Session
