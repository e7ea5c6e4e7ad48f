import PinnedHeap.Launch
import PinnedHeap.Session.Hosted

/-!
# Sessions as programs

A session can be launched as a program.  Its root object is made from a plan, and
its steps are taken in two parts, when the program is set up and when it is run.
Both parts name the root object `root`.  The calls are recorded in the journal.  A
step that must succeed and fails is the failure of the part.
-/

namespace PinnedHeap.Session

variable {ι : Type}

/-- The steps of a part of a program, each with a flag that says whether it must
succeed. -/
abbrev Part (ι : Type) := List (HostStep ι × Bool)

/-- Takes the steps of a part. -/
def takePart (record : Ref → List (Row ι) → Call ι) (steps : Part ι) (root : Ref)
    (h : SessionHost ι) : Option Host.Error × SessionHost ι :=
  let ended := SessionHost.run (SessionHost.give h (some "root") root) steps
  (ended.failure,
    { ended.host with world := ended.host.world.called (record root ended.rows) })

/-- A value, unless there was a failure. -/
def unlessFailed {β : Type} (failure : Option Host.Error) (value : β) : Except Host.Error β :=
  match failure with
  | some e => .error e
  | none => .ok value

/-- The program that takes the steps of a session. -/
def program (root : Plan ι) (init run : Part ι) : Program (Obj ι) (Journal ι) where
  finalize := Obj.finalize
  createRoot journal := (root.make journal.names, journal.called .createRoot)
  init r h :=
    let (failure, h) := takePart .init init r h
    (unlessFailed failure (), h)
  run r h :=
    let (failure, h) := takePart .run run r h
    (unlessFailed failure .returned, h)

/-- Launches a session as a program, without a handler of fatal signals. -/
def launch (files : FileTree) (settings : Settings) (args : List String) (root : Plan ι)
    (init run : Part ι) : Launch.Outcome (Journal ι) :=
  (program root init run).launch files { settings with installHandlers := false } args {}

end PinnedHeap.Session
