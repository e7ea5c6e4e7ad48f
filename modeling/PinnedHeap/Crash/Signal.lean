/-!
# Signals

The signals by their numbers, with the names that the command line accepts and the
descriptions that a report shows.  Six of them are fatal: they are reported before
they end the program.
-/

namespace PinnedHeap.Crash

/-- What is known of a signal. -/
structure SignalInfo where
  /-- Its number. -/
  number : Int
  /-- Its name. -/
  name : String
  /-- What it means. -/
  description : String
deriving DecidableEq

namespace Signal

/-- Number of the signal that aborts a program. -/
def abort : Int := 6

/-- The signals that are known. -/
def known : List SignalInfo :=
  [⟨6, "SIGABRT", "Aborted"⟩, ⟨8, "SIGFPE", "Floating point exception"⟩,
    ⟨4, "SIGILL", "Illegal instruction"⟩, ⟨2, "SIGINT", "Interrupt"⟩,
    ⟨15, "SIGTERM", "Terminated"⟩, ⟨11, "SIGSEGV", "Segmentation fault"⟩,
    ⟨7, "SIGBUS", "Bus error"⟩, ⟨13, "SIGPIPE", "Broken pipe"⟩]

/-- The signals that are reported before they end the program. -/
def fatal : List Int := [6, 8, 4, 2, 15, 11]

/-- What is known of the signal with a number. -/
def info? (number : Int) : Option SignalInfo := known.find? fun s => s.number = number

/-- The name of a signal. -/
def name (number : Int) : String := ((info? number).map SignalInfo.name).getD "SIG?"

/-- The description of a signal. -/
def description (number : Int) : String :=
  ((info? number).map SignalInfo.description).getD "Unknown signal"

/-- The number of the fatal signal with a name. -/
def ofName? (s : String) : Option Int := fatal.find? fun number => name number = s

example : fatal.map (fun number => ofName? (name number)) = fatal.map some := by decide

end Signal

end PinnedHeap.Crash
