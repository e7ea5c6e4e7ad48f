import PinnedHeap.Crash.Frame
import PinnedHeap.Crash.Line
import PinnedHeap.Symbol.Table
import PinnedHeap.Text.Hex

/-!
# Stack traces

A stack trace is a banner of three lines, one line for each frame, and a closing
line.  At most 128 frames are written, and no further frame is asked for.

The line of a frame shows the qualified name that the symbol table gives for the
raw name.  Without one it shows the raw name, cut to 99 bytes.  A frame without a
name shows the address of its instruction.  Each line is put together in one
bounded buffer, so a long qualified name is cut too.
-/

namespace PinnedHeap.Crash

/-- The lines around a trace. -/
def rule : String := "-------------------------------------------------"

/-- The line that names a trace. -/
def title : String := "--   Stack Trace   ------------------------------"

/-- Frames written at most. -/
def frameLimit : Nat := 128

/-- Bytes written at most of a raw name. -/
def rawNameLimit : Nat := 99

/-- A text as a line of output. -/
def textLine (s : String) : List UInt8 := Text.bytes s ++ [Text.newline]

/-- What the line of a frame shows. -/
def frameLabel (table : Option Symbol.Table) (f : Frame) : List UInt8 :=
  match f.name with
  | some raw =>
    match table.bind (·.resolve? raw) with
    | some qualified => Text.bytes qualified
    | none => raw.take rawNameLimit
  | none => Text.bytes (String.ofList ('0' :: 'x' :: Text.Hex.word f.ip))

/-- The line of a frame, put together in a buffer. -/
def frameLine (table : Option Symbol.Table) (line : Line) (f : Frame) : Line :=
  (line.clear.write "` ").push (frameLabel table f)

/-- A trace that is being written. -/
structure Trace where
  /-- The buffer. -/
  line : Line
  /-- The output so far. -/
  out : List UInt8
  /-- Number of frames written. -/
  written : Nat := 0

/-- Writes a frame, unless enough were written. -/
def Trace.visit (table : Option Symbol.Table) : Visitor Trace := fun t f =>
  if t.written = frameLimit then (t, false)
  else
    let line := frameLine table t.line f
    let t := { line, out := t.out ++ line.ended, written := t.written + 1 }
    (t, t.written < frameLimit)

/-- The banner of a trace. -/
def banner : List UInt8 := textLine rule ++ textLine title ++ textLine rule

/-- Writes the trace of a source.  The output comes after what is written already. -/
def Trace.ofSource (table : Option Symbol.Table) (source : Source) (line : Line)
    (out : List UInt8) : Trace :=
  let t := source.walk (Trace.visit table) { line, out := out ++ banner }
  { t with out := t.out ++ textLine rule }

/-- Collects the lines of frames, the last one first. -/
def collectLines (table : Option Symbol.Table) : Visitor (Line × List Line) := fun s f =>
  let line := frameLine table s.1 f
  ((line, line :: s.2), true)

/-- The line of each frame of a source. -/
def frameLines (table : Option Symbol.Table) (source : Source) : List Line :=
  (source.walk (collectLines table) ({}, [])).2.reverse

end PinnedHeap.Crash
