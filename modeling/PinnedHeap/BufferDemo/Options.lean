import PinnedHeap.Crash.Signal
import PinnedHeap.BufferDemo.Program
import PinnedHeap.Text.Numeral

/-!
# Options of the command line

The command line is the name of the program and then any number of groups.

* `--buffers` and a count: how many buffers the demonstration has.
* `--raise` and the name of a fatal signal: it ends by raising the signal.
* `--fatal-exit` and a status: it ends by exiting with the status.
* `--null-release`: it ends by releasing a hold without a host.

The last group of a kind counts.  The argument after one of the first three flags
is its value, whatever it looks like.  Groups are read from the left, and the
first one that is not of these forms is the error.
-/

namespace PinnedHeap.BufferDemo

/-- What the command line asks for. -/
structure Options where
  /-- Number of buffers. -/
  buffers : Nat := 8
  /-- How the demonstration ends. -/
  ending : Ending := .normal
deriving DecidableEq

namespace Options

/-- What is wrong with a command line. -/
inductive Error where
  /-- A flag without its value. -/
  | missingValue (flag : String)
  /-- A value that is no count. -/
  | notCount (value : String)
  /-- A value that is no name of a fatal signal. -/
  | unsupportedSignal (value : String)
  /-- A value that is no status. -/
  | notStatus (value : String)
  /-- An argument that is no flag. -/
  | unknownArgument (argument : String)
deriving DecidableEq

/-- The message of a command line that is not understood. -/
def Error.message : Error → String
  | .missingValue flag => flag ++ " needs a value"
  | .notCount value => "--buffers: `" ++ value ++ "` is not a count"
  | .unsupportedSignal value => "--raise: unsupported signal `" ++ value ++ "`"
  | .notStatus value => "--fatal-exit: `" ++ value ++ "` is not a status"
  | .unknownArgument argument => "unknown argument `" ++ argument ++ "`"

/-- A flag of the command line. -/
inductive Flag where
  /-- `--buffers` -/
  | buffers
  /-- `--raise` -/
  | raise
  /-- `--fatal-exit` -/
  | fatalExit
  /-- `--null-release` -/
  | nullRelease
deriving DecidableEq

/-- The flags by their texts. -/
def flags : List (String × Flag) :=
  [("--buffers", .buffers), ("--raise", .raise), ("--fatal-exit", .fatalExit),
    ("--null-release", .nullRelease)]

/-- The options with the number of buffers that a value gives. -/
def setBuffers (o : Options) (value : String) : Except Error Options :=
  match Text.Numeral.unsigned? Text.Numeral.wordBound value.toList with
  | some buffers => .ok { o with buffers }
  | none => .error (.notCount value)

/-- The options with the signal that a value names. -/
def setSignal (o : Options) (value : String) : Except Error Options :=
  match Crash.Signal.ofName? value with
  | some signo => .ok { o with ending := .raise signo }
  | none => .error (.unsupportedSignal value)

/-- The options with the status that a value gives. -/
def setStatus (o : Options) (value : String) : Except Error Options :=
  match Text.Numeral.signed? Text.Numeral.halfBound value.toList with
  | some status => .ok { o with ending := .fatalExit status }
  | none => .error (.notStatus value)

/-- How a flag uses its value, if it takes one. -/
def Flag.setter? : Flag → Option (Options → String → Except Error Options)
  | .buffers => some setBuffers
  | .raise => some setSignal
  | .fatalExit => some setStatus
  | .nullRelease => none

/-- Reads groups from the left. -/
def readFrom (o : Options) : List String → Except Error Options
  | [] => .ok o
  | argument :: rest =>
    match flags.lookup argument with
    | none => .error (.unknownArgument argument)
    | some flag =>
      match flag.setter?, rest with
      | none, rest => readFrom { o with ending := .nullRelease } rest
      | some _, [] => .error (.missingValue argument)
      | some set, value :: rest =>
        match set o value with
        | .error e => .error e
        | .ok o => readFrom o rest

/-- The options of a command line, the name of the program first. -/
def ofArguments (arguments : List String) : Except Error Options :=
  readFrom {} (arguments.drop 1)

end Options

end PinnedHeap.BufferDemo
