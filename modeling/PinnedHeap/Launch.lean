import PinnedHeap.Crash.Handler
import PinnedHeap.Host
import PinnedHeap.Symbol.Load

/-!
# Launching a program

A program makes its root object, is set up, and is run.  To launch it is, in this
order:

* if the settings ask for handlers, to load the symbol table and arm the handler
  of fatal signals,
* to make a host,
* to store the root object and add it to the global roots,
* to set the program up, and to run it.

The first failure ends the launch.  A program may leave in other ways than by
returning: it may raise a signal, exit with a status, or be aborted.
-/

namespace PinnedHeap

namespace Launch

/-- Why a launch fails. -/
inductive Error where
  /-- The symbol table cannot be loaded. -/
  | symbols (cause : Symbol.LoadError)
  /-- An operation of the host failed. -/
  | host (cause : Host.Error)
deriving DecidableEq

/-- The message of a launch that fails. -/
def Error.message : Error → String
  | .symbols cause => cause.message
  | .host cause => cause.message

/-- How a program leaves. -/
inductive Leave where
  /-- It returns. -/
  | returned
  /-- It raises a signal. -/
  | raised (signo : Int)
  /-- It exits with a status, after a report. -/
  | exited (status : Int)
  /-- It is aborted. -/
  | aborted
deriving DecidableEq

end Launch

/-- A program over objects `α` and a world `σ`. -/
structure Program (α σ : Type) where
  /-- What its objects do when they are finalized. -/
  finalize : Finalizer α σ
  /-- Makes the root object. -/
  createRoot : σ → α × σ
  /-- Sets the program up. -/
  init : Ref → Host α σ → Except Host.Error Unit × Host α σ
  /-- Runs the program. -/
  run : Ref → Host α σ → Except Host.Error Launch.Leave × Host α σ

namespace Launch

variable {α σ : Type}

/-- How a launch ended. -/
structure Outcome (σ : Type) where
  /-- How the program left, or why it could not be run. -/
  leave : Except Error Leave
  /-- The world. -/
  world : σ
  /-- The handler of fatal signals. -/
  handler : Crash.Handler := {}
  /-- The symbol table, if it was loaded. -/
  table : Option Symbol.Table := none

/-- Runs a program on a host without objects. -/
def start [HeapObject α] (program : Program α σ) (host : Host α σ) :
    Except Host.Error Leave × Host α σ :=
  let (rootObject, world) := program.createRoot host.world
  match { host with world }.alloc program.finalize rootObject with
  | (.error e, host) => (.error e, host)
  | (.ok root, host) =>
    match program.init root (host.addRoot root) with
    | (.error e, host) => (.error e, host)
    | (.ok (), host) => program.run root host

/-- Loads the symbol table and arms the handler, if the settings ask for it. -/
def prepare (files : FileTree) (settings : Settings) :
    Except Error (Option Symbol.Table × Crash.Handler) :=
  if settings.installHandlers then do
    let table ← (Symbol.Table.load files settings).mapError Error.symbols
    .ok (some table, ({} : Crash.Handler).arm settings.stackTrace)
  else .ok (none, {})

end Launch

/-- Launches a program. -/
def Program.launch {α σ : Type} [HeapObject α] (program : Program α σ) (files : FileTree)
    (settings : Settings) (args : List String) (world : σ) : Launch.Outcome σ :=
  match Launch.prepare files settings with
  | .error e => { leave := .error e, world }
  | .ok (table, handler) =>
    let (leave, host) := Launch.start program (Host.new settings.heap args world)
    { leave := leave.mapError Launch.Error.host, world := host.world, handler, table }

end PinnedHeap
