/-!
# Records and lists in text form

A record is written as a name followed by its fields in braces, each with its own
name.  A list is written in brackets.  What stands inside has been turned into
text before.
-/

namespace PinnedHeap.Text

/-- A list in text form, from the texts of its items. -/
def list (items : List String) : String := "[" ++ ", ".intercalate items ++ "]"

/-- A record in text form, from its name and the names and texts of its fields. -/
def record (name : String) (fields : List (String × String)) : String :=
  name ++ " \x7b " ++ ", ".intercalate (fields.map fun f => f.1 ++ ": " ++ f.2) ++ " \x7d"

example : record "Pair" [("left", "1"), ("right", list ["2", "3"])] =
    "Pair \x7b left: 1, right: [2, 3] \x7d" := by cbv

end PinnedHeap.Text
