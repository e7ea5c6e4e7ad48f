import PinnedHeap.Crash.Signal
import PinnedHeap.Crash.Trace

/-!
# The handler of fatal signals

A handler is armed once the program is set up.  The first signal that finds it
armed is reported, and any later one is not.  Where reports are turned off, the
signal is noticed and nothing is written.

A handler is shared between the program and whatever interrupts it, so it changes
in single steps.  To arm it is two steps: to set the toggle, and to set the state.
A report begins by `claim?`, which takes the handler from armed to handling and
fails in any other state.  It then reads the toggle, writes through the buffer of
the handler, and sets the state in which it ends.  `arm` and `report` put these
steps together for a handler that nothing else uses in between.
-/

namespace PinnedHeap.Crash

/-- What a handler is doing. -/
inductive HandlerState where
  /-- It was never armed. -/
  | disarmed
  /-- It waits for a signal. -/
  | armed
  /-- A report is being written. -/
  | handling
  /-- A report was written. -/
  | terminated
  /-- A signal was noticed, and reports are turned off. -/
  | suppressed
deriving DecidableEq

/-- The name of a state. -/
def HandlerState.name : HandlerState → String
  | .disarmed => "Disarmed"
  | .armed => "Armed"
  | .handling => "Handling"
  | .terminated => "Terminated"
  | .suppressed => "Suppressed"

/-- A handler of fatal signals. -/
structure Handler where
  /-- What it is doing. -/
  state : HandlerState := .disarmed
  /-- Whether reports are turned on. -/
  stackTrace : Bool := true
  /-- The buffer for the lines of a report. -/
  scratch : Line := {}
deriving DecidableEq

namespace Handler

/-! ## Single steps -/

/-- Sets the toggle. -/
def setToggle (h : Handler) (stackTrace : Bool) : Handler := { h with stackTrace }

/-- Sets the state. -/
def setState (h : Handler) (state : HandlerState) : Handler := { h with state }

/-- Takes the handler from armed to handling. -/
def claim? (h : Handler) : Option Handler :=
  match h.state with
  | .armed => some (h.setState .handling)
  | _ => none

/-- The line that names a signal. -/
def signalLine (line : Line) (signo : Int) : Line :=
  (line.clear.write "Caught signal : ").write (Signal.description signo)

/-- Writes the report of a signal through the buffer. -/
def write (h : Handler) (signo : Int) (table : Option Symbol.Table) (source : Source) :
    List UInt8 × Handler :=
  let line := signalLine h.scratch signo
  let trace := Trace.ofSource table source line line.ended
  (trace.out, { h with scratch := trace.line })

/-! ## Arming and reporting -/

/-- Arms the handler. -/
def arm (h : Handler) (stackTrace : Bool) : Handler := (h.setToggle stackTrace).setState .armed

/-- What a call for a report did. -/
structure Report where
  /-- The state in which it ended. -/
  ended : HandlerState
  /-- What it wrote. -/
  out : List UInt8 := []

/-- Reports a signal, if the handler is armed. -/
def report (h : Handler) (signo : Int) (table : Option Symbol.Table) (source : Source) :
    Report × Handler :=
  match h.claim? with
  | none => ({ ended := h.state }, h)
  | some h =>
    if h.stackTrace then
      let (out, h) := h.write signo table source
      ({ ended := .terminated, out }, h.setState .terminated)
    else ({ ended := .suppressed }, h.setState .suppressed)

/-! ## Sequences of calls -/

/-- A call of a handler. -/
inductive Call where
  /-- Arm it. -/
  | arm (stackTrace : Bool)
  /-- Report a signal. -/
  | report (signo : Int) (table : Option Symbol.Table) (source : Source)
  /-- Do nothing but look. -/
  | look

/-- What a call did, where it is a call for a report, and the handler after it. -/
def call (h : Handler) : Call → Option Report × Handler
  | .arm stackTrace => (none, h.arm stackTrace)
  | .report signo table source =>
    let (report, h) := h.report signo table source
    (some report, h)
  | .look => (none, h)

/-- What each of several calls did, one after the other. -/
def run (h : Handler) : List Call → List (Option Report × Handler)
  | [] => []
  | c :: cs =>
    let (report, h) := h.call c
    (report, h) :: run h cs

end Handler

/-- The line that names a signal, with its newline. -/
def caughtSignal (signo : Int) : List UInt8 := (Handler.signalLine {} signo).ended

end PinnedHeap.Crash
