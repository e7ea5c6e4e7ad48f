/-!
# Lines

A text is cut into lines at its line feeds.  A carriage return right before a line
feed ends the line with it.  Any other carriage return belongs to its line.  What
stands after the last line feed is a line if it is not empty.
-/

namespace PinnedHeap.Text

/-- A line that begins with a character, and the lines after it. -/
def consLine (c : Char) : List (List Char) → List (List Char)
  | [] => [[c]]
  | line :: rest => (c :: line) :: rest

/-- The lines of a text, without what ends them. -/
def lines : List Char → List (List Char)
  | [] => []
  | '\n' :: rest => [] :: lines rest
  | '\r' :: '\n' :: rest => [] :: lines rest
  | c :: rest => consLine c (lines rest)

example : lines ['a', '\r', '\n', '\n', 'b', '\r'] = [['a'], [], ['b', '\r']] := by decide
example : lines ['\r', '\r', '\n'] = [['\r']] := by decide

end PinnedHeap.Text
