import PinnedHeap.Text.Bytes

/-!
# Lines of bounded length

A line is put together in a buffer of fixed size.  What does not fit is dropped.
A line that fills its buffer counts as truncated, whether or not anything was
dropped.
-/

namespace PinnedHeap.Crash

/-- A line that is being put together. -/
structure Line where
  /-- The bytes so far. -/
  bytes : List UInt8 := []
deriving DecidableEq

namespace Line

/-- Number of bytes a line can hold. -/
def capacity : Nat := 512

/-- Number of bytes in a line. -/
def length (l : Line) : Nat := l.bytes.length

/-- An empty line in the same buffer. -/
def clear (_ : Line) : Line := {}

/-- Appends as many bytes as fit. -/
def push (l : Line) (bs : List UInt8) : Line := ⟨l.bytes ++ bs.take (capacity - l.length)⟩

/-- Appends as many bytes of a text as fit. -/
def write (l : Line) (s : String) : Line := l.push (Text.bytes s)

/-- Whether the buffer is full. -/
def isTruncated (l : Line) : Bool := l.length == capacity

/-- The bytes of a line with a newline at the end. -/
def ended (l : Line) : List UInt8 := l.bytes ++ [Text.newline]

/-- What is done to a line. -/
inductive Change where
  /-- Empty it. -/
  | clear
  /-- Append bytes. -/
  | push (bs : List UInt8)
  /-- Append a text. -/
  | write (s : String)

/-- A line after a change. -/
def change (l : Line) : Change → Line
  | .clear => l.clear
  | .push bs => l.push bs
  | .write s => l.write s

/-- The lines after each of several changes. -/
def changes (l : Line) : List Change → List Line
  | [] => []
  | c :: cs => l.change c :: (l.change c).changes cs

/-- A line never grows beyond its buffer. -/
theorem length_push_le {l : Line} (h : l.length ≤ capacity) (bs : List UInt8) :
    (l.push bs).length ≤ capacity := by
  simp only [push, length, List.length_append, List.length_take] at h ⊢
  omega

end Line

end PinnedHeap.Crash
