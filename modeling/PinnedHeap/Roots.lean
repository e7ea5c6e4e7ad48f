import PinnedHeap.Ref

/-!
# Global roots

The global roots of a program, as a list in which a reference may occur several
times.  An occurrence that is removed is the first one, and the last root of the
list takes its place.
-/

namespace PinnedHeap

/-- The global roots of a program. -/
structure Roots where
  /-- The roots, with repetitions. -/
  globals : Array Ref := #[]

namespace Roots

/-- Number of roots, repetitions counted. -/
def size (s : Roots) : Nat := s.globals.size

/-- The roots as a list. -/
def toList (s : Roots) : List Ref := s.globals.toList

/-- One more occurrence of a root. -/
def add (s : Roots) (r : Ref) : Roots := ⟨s.globals.push r⟩

/-- Takes one occurrence of a root away, if there is one. -/
def remove? (s : Roots) (r : Ref) : Option Roots :=
  (s.globals.toList.idxOf? r).map fun i =>
    ⟨(s.globals.swapIfInBounds i (s.globals.size - 1)).pop⟩

/-- The text of the roots. -/
def text (s : Roots) : String := Text.record "RootSet" [("globals", Ref.listText s.toList)]

example : ((Roots.add (Roots.add (Roots.add {} ⟨1, 1⟩) ⟨2, 1⟩) ⟨3, 1⟩).remove? ⟨1, 1⟩).map
    toList = some [⟨3, 1⟩, ⟨2, 1⟩] := by decide

end Roots

end PinnedHeap
