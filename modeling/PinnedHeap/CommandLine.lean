import PinnedHeap.BufferDemo.Options
import PinnedHeap.Text.Lines

/-!
# The command line

The program reads its arguments, then its settings, and then launches the
demonstration.

* Arguments that are not understood give status 2 and a line on how to use the
  program.
* Settings that are not understood, and a launch that fails, give status 1.
* A demonstration that returns gives status 0.
* One that raises a signal, or is aborted, is reported by the handler and ended by
  the signal.
* One that exits writes a stack trace, unless that is turned off, and gives the
  lowest byte of its status.

The frames of a report are those of the running program.  They are an argument, as
are the variables and the files.
-/

namespace PinnedHeap.CommandLine

/-- How a program ended. -/
inductive End where
  /-- With a status. -/
  | status (code : Nat)
  /-- By a signal. -/
  | signal (signo : Int)
deriving DecidableEq

/-- What a program did. -/
structure Outcome where
  /-- How it ended. -/
  ended : End
  /-- What it wrote to the standard output. -/
  stdout : String := ""
  /-- What it wrote to the standard error. -/
  stderr : List UInt8 := []
deriving DecidableEq

/-- The lines that a program wrote to the standard error.  There are none if that is
no text. -/
def Outcome.errorLines (o : Outcome) : List String :=
  match Text.ofBytes? o.stderr with
  | some s => (Text.lines s.toList).map String.ofList
  | none => []

/-- The name of the program where the arguments do not give it. -/
def defaultName : String := "tscl-bridge"

/-- How to use the program. -/
def usage (name : String) : String :=
  "Usage: " ++ name ++
    " [--buffers <n>] [--raise <SIGNAL>] [--fatal-exit <status>] [--null-release]"

/-- A program that ends at once, after some lines on the standard error. -/
def refused (code : Nat) (lines : List String) : Outcome :=
  { ended := .status code, stderr := lines.flatMap Crash.textLine }

/-- The end of a program by a signal, which its handler notices first. -/
def killed (frames : Crash.Source) (launched : Launch.Outcome BufferDemo.World) (signo : Int) :
    Outcome :=
  let (report, _) := launched.handler.report signo launched.table frames
  { ended := .signal signo, stdout := launched.world.printed, stderr := report.out }

/-- The end of a program by an exit with a status. -/
def exited (frames : Crash.Source) (launched : Launch.Outcome BufferDemo.World) (status : Int) :
    Outcome :=
  let trace :=
    if launched.handler.stackTrace then (Crash.Trace.ofSource launched.table frames {} []).out
    else []
  { ended := .status (status % 256).toNat, stdout := launched.world.printed, stderr := trace }

/-- The end of a program that was launched. -/
def ending (frames : Crash.Source) (launched : Launch.Outcome BufferDemo.World) : Outcome :=
  match launched.leave with
  | .error e =>
    { refused 1 ["Runtime failed: " ++ e.message] with stdout := launched.world.printed }
  | .ok .returned => { ended := .status 0, stdout := launched.world.printed }
  | .ok (.raised signo) => killed frames launched signo
  | .ok (.exited status) => exited frames launched status
  | .ok .aborted => killed frames launched Crash.Signal.abort

/-- Runs the program with its arguments, its own name first. -/
def run (arguments : List String) (lookup : String → Option String) (files : FileTree)
    (frames : Crash.Source) : Outcome :=
  match BufferDemo.Options.ofArguments arguments with
  | .error e => refused 2 [e.message, usage (arguments.head?.getD defaultName)]
  | .ok options =>
    match Settings.ofVariables lookup with
    | .error e => refused 1 ["Invalid configuration: " ++ e.message]
    | .ok settings =>
      ending frames
        ((BufferDemo.program options.buffers options.ending).launch files settings arguments {})

end PinnedHeap.CommandLine
