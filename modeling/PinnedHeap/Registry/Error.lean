import PinnedHeap.Registry.Token

/-!
# What can go wrong in the registry

A release of something that is not held is refused.  A hold that cannot be
counted is refused too.  All other causes are *defects* of the registry itself:
links or an index that do not fit together.  No sequence of operations on an
empty registry leads to a defect.  They are listed so that every operation, and
the check of the links, is defined on every value of the type.

A caller that is sure of its hold demands that an operation succeeds.  A failure is
then a `Violation`, which ends the program.
-/

namespace PinnedHeap.Registry

/-- A way in which links and index of a registry do not fit together. -/
inductive Defect where
  /-- A link leads to a slot that holds no record. -/
  | notOccupied (slot : Nat)
  /-- A record does not point back at the one before it. -/
  | wrongPrevious (slot : Nat) (found expected : Option Nat)
  /-- A record without a hold. -/
  | zeroCount (slot : Nat)
  /-- A record that the index does not lead to. -/
  | notIndexed (slot : Nat)
  /-- More records are linked than indexed. -/
  | tooLong
  /-- The last linked record is not the tail. -/
  | wrongTail (last tail : Option Nat)
  /-- Fewer records are linked than indexed. -/
  | tooShort (linked indexed : Nat)
  /-- The links backward do not pass as many records as the links forward. -/
  | backwardLength
  /-- A record is expected in a slot that holds none. -/
  | vacant (slot : Nat)
  /-- The head of the free list holds a record. -/
  | freeListOccupied (slot : Nat)
  /-- No index is left for another slot. -/
  | exhausted
  /-- A link leads out of the arena. -/
  | outside (slot : Nat)
deriving DecidableEq

/-- The text of a slot that may be missing. -/
def slotText : Option Nat → String
  | some i => "Some(" ++ toString i ++ ")"
  | none => "None"

/-- The message of a defect. -/
def Defect.message : Defect → String
  | .notOccupied i => "slot " ++ toString i ++ " linked but not occupied"
  | .wrongPrevious i found expected =>
    "slot " ++ toString i ++ " prev is " ++ slotText found ++ ", expected " ++ slotText expected
  | .zeroCount i => "slot " ++ toString i ++ " linked with zero count"
  | .notIndexed i => "slot " ++ toString i ++ " missing from handle index"
  | .tooLong => "forward walk longer than handle index (cycle?)"
  | .wrongTail last tail =>
    "forward walk ended at " ++ slotText last ++ ", tail is " ++ slotText tail
  | .tooShort linked indexed =>
    "forward walk saw " ++ toString linked ++ " nodes, index has " ++ toString indexed
  | .backwardLength => "backward walk length differs from forward walk"
  | .vacant i => "slot " ++ toString i ++ " is vacant"
  | .freeListOccupied i => "free list points at occupied slot " ++ toString i
  | .exhausted => "slot index space exhausted"
  | .outside i => "slot " ++ toString i ++ " is outside the arena"

/-- Why an operation on the registry fails. -/
inductive Error (H : Type) where
  /-- The token has no record. -/
  | unknownToken (token : Token)
  /-- The handle has no record. -/
  | unknownHandle (handle : H)
  /-- The handle has as many holds as can be counted. -/
  | countOverflow (handle : H)
  /-- The registry is not well linked. -/
  | corruptLinks (defect : Defect)
deriving DecidableEq

/-- The message of a failed operation, with the text that a handle is shown as. -/
def Error.message {H : Type} (handleText : H → String) : Error H → String
  | .unknownToken t => "release of token " ++ t.text ++ " with no active pinned reference"
  | .unknownHandle h =>
    "release of handle " ++ handleText h ++ " with no active pinned reference"
  | .countOverflow h => "pinned reference count overflow for handle " ++ handleText h
  | .corruptLinks d => "registry links are corrupt: " ++ d.message

/-- A failure the caller had ruled out.  It ends the program. -/
structure Violation (H : Type) where
  /-- What failed. -/
  cause : Error H
deriving DecidableEq

/-- The result of an operation whose failure the caller rules out. -/
def demand {H β : Type} (result : Except (Error H) β) : Except (Violation H) β :=
  result.mapError Violation.mk

/-- The last words of a program that ends by a violation. -/
def Violation.message {H : Type} (handleText : H → String) (v : Violation H) : String :=
  "registry invariant violated: " ++ v.cause.message handleText

end PinnedHeap.Registry
