/-!
# Names in a session

A session is a list of steps that work on one heap, registry or host.  A step
may give a name to what it made, and later steps may use the name.  A name
stands for what it was given last, and a name that was never given stands for
the default value: the null reference, or the null token.
-/

namespace PinnedHeap.Session

/-- What a step works on: a name, or a value written out. -/
inductive Arg (β : Type) where
  /-- Whatever the name stands for when the step runs. -/
  | named (name : String)
  /-- The value itself. -/
  | given (value : β)

/-- The names given so far, the latest first. -/
abbrev Names (β : Type) := List (String × β)

/-- The value an argument stands for. -/
def Arg.resolve {β : Type} [Inhabited β] (names : Names β) : Arg β → β
  | .named name => (names.lookup name).getD default
  | .given value => value

/-- Gives a name to a value, if a name is asked for. -/
def Names.give {β : Type} (names : Names β) (name : Option String) (value : β) : Names β :=
  match name with
  | some name => (name, value) :: names
  | none => names

end PinnedHeap.Session
