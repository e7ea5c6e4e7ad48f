import PinnedHeap.Session.Name
import PinnedHeap.Session.Reply

/-!
# The journal of a session

What a session remembers beside the heap: the names it gave, what finalizers
wrote, and which parts of a program were called with what result.

A finalizer writes when it starts, and then the reply of each of its steps.  The
marks of type `ι` tell the finalizers apart.
-/

namespace PinnedHeap.Session

/-- Something that finalizers wrote. -/
inductive Event (ι : Type) where
  /-- A finalizer starts.  Recorded are the reference its object had, whether that
  is live, and which of the objects it refers to are. -/
  | finalize (mark : ι) (ref : Ref) (live : Bool) (refsLive : List Bool)
  /-- A step of a finalizer was answered. -/
  | replied (reply : Reply)

/-- What a step answered, and what the parts of the host held after it. -/
structure Row (ι : Type) where
  /-- The answer. -/
  reply : Reply
  /-- Counters of the heap. -/
  stats : Heap.Stats
  /-- What finalizers wrote during the step. -/
  events : List (Event ι)
  /-- Handles held by foreign code. -/
  pinned : Nat
  /-- Global roots. -/
  globals : Nat
  /-- Objects finalized. -/
  finalized : Nat

/-- A call of a part of a program. -/
inductive Call (ι : Type) where
  /-- The root was made. -/
  | createRoot
  /-- The program was set up. -/
  | init (root : Ref) (rows : List (Row ι))
  /-- The program was run. -/
  | run (root : Ref) (rows : List (Row ι))

/-- What a session remembers beside the heap. -/
structure Journal (ι : Type) where
  /-- Names of references. -/
  names : Names Ref := []
  /-- Names of tokens. -/
  tokens : Names Token := []
  /-- What finalizers wrote since the journal was last read, the latest first. -/
  events : List (Event ι) := []
  /-- Calls of the parts of a program, the latest first. -/
  calls : List (Call ι) := []

variable {ι : Type}

namespace Journal

/-- One more event. -/
def write (j : Journal ι) (e : Event ι) : Journal ι := { j with events := e :: j.events }

/-- One more call. -/
def called (j : Journal ι) (c : Call ι) : Journal ι := { j with calls := c :: j.calls }

/-- The events in their order, and the journal without them. -/
def read (j : Journal ι) : List (Event ι) × Journal ι := (j.events.reverse, { j with events := [] })

/-- Gives a name to a reference. -/
def give (j : Journal ι) (name : Option String) (r : Ref) : Journal ι :=
  { j with names := j.names.give name r }

/-- Gives a name to a token. -/
def giveToken (j : Journal ι) (name : Option String) (t : Token) : Journal ι :=
  { j with tokens := j.tokens.give name t }

/-- The reference an argument stands for. -/
def resolve (j : Journal ι) (a : Arg Ref) : Ref := a.resolve j.names

/-- The references that arguments stand for. -/
def resolveAll (j : Journal ι) (as : List (Arg Ref)) : List Ref := as.map j.resolve

/-- The token an argument stands for. -/
def resolveToken (j : Journal ι) (a : Arg Token) : Token := a.resolve j.tokens

end Journal

end PinnedHeap.Session
