/-!
# Stack frames

A stack is walked from the innermost frame outward.  The walk passes each frame to
a visitor, which changes its own state and says whether it wants to see more.  A
source of frames can be walked any number of times and passes the same frames each
time.

A signal handler that walks its own stack meets frames that belong to the delivery
of the signal: its own frame, those inside it, and the one just outside it, which
the system put there.  The source `interrupted` leaves these out.  It walks the
inner source once to find the handler, and a second time to pass on what comes
after.  If the handler is not on the stack, every frame is passed on.
-/

namespace PinnedHeap.Crash

/-- A frame of a stack. -/
structure Frame where
  /-- Address of the instruction. -/
  ip : UInt64 := 0
  /-- Address of the function, or `0` where it is not known. -/
  function : UInt64 := 0
  /-- Raw name of the function, where there is one. -/
  name : Option (List UInt8) := none
deriving DecidableEq

/-- What is done with each frame of a walk: the state afterwards, and whether the
walk goes on. -/
abbrev Visitor (σ : Type) := σ → Frame → σ × Bool

/-- Passes frames to a visitor until it wants no more. -/
def visitAll {σ : Type} (visit : Visitor σ) : List Frame → σ → σ
  | [], s => s
  | f :: fs, s =>
    match visit s f with
    | (s, true) => visitAll visit fs s
    | (s, false) => s

/-- Something that can be walked. -/
inductive Source where
  /-- Frames that were captured before. -/
  | captured (frames : List Frame)
  /-- The frames of what a signal interrupted.  The signal is handled by the
  function at the given address. -/
  | interrupted (handler : UInt64) (inner : Source)

namespace Source

/-- Looks for the frame of a function.  The state is the number of frames before
it, and whether it was found. -/
def seek (handler : UInt64) : Visitor (Nat × Bool) := fun s f =>
  if f.function = handler then ((s.1, true), false) else ((s.1 + 1, s.2), true)

/-- Leaves out a number of frames.  The state counts those still to be left out. -/
def skipping {σ : Type} (visit : Visitor σ) : Visitor (Nat × σ) := fun s f =>
  match s.1 with
  | 0 =>
    let (s', on) := visit s.2 f
    ((0, s'), on)
  | n + 1 => ((n, s.2), true)

/-- How many frames to leave out, by what was found. -/
def skipCount : Nat × Bool → Nat
  | (depth, true) => depth + 2
  | (_, false) => 0

/-- Walks a source with a visitor, from a state of the visitor. -/
def walk : Source → {σ : Type} → Visitor σ → σ → σ
  | .captured frames, _, visit, s => visitAll visit frames s
  | .interrupted handler inner, _, visit, s =>
    let skip := skipCount (inner.walk (seek handler) (0, false))
    (inner.walk (skipping visit) (skip, s)).2

/-- Collects frames, the last one first, while fewer than a number were seen. -/
def collecting (stopAfter : Option Nat) : Visitor (List Frame) := fun seen f =>
  let seen := f :: seen
  (seen, (stopAfter.map fun n => decide (seen.length < n)).getD true)

/-- The frames that a walk passes before it was told to stop. -/
def frames (s : Source) (stopAfter : Option Nat) : List Frame :=
  (s.walk (collecting stopAfter) []).reverse

end Source

end PinnedHeap.Crash
