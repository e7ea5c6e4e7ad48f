/-!
# Faults of manifests

What can be wrong with the text of a manifest.  A manifest is read once from left
to right, and the first problem that is met decides.
-/

namespace PinnedHeap.Manifest

/-- What is wrong with a manifest. -/
inductive Fault where
  /-- The text ends too early. -/
  | truncated
  /-- The text is not well formed. -/
  | malformed
  /-- The text is well formed so far, but something else stands where an object or
  a text is expected. -/
  | mistyped
deriving DecidableEq

/-- The message of a fault. -/
def Fault.message : Fault → String
  | .truncated => "invalid symbol manifest: the text ends too early"
  | .malformed => "invalid symbol manifest: the text is not well formed"
  | .mistyped => "invalid symbol manifest: expected an object of strings"

end PinnedHeap.Manifest
