import PinnedHeap.Heap.Basic
import PinnedHeap.Text.Blank
import PinnedHeap.Text.Numeral

/-!
# Settings

A program is set up by four variables of its environment.

* `TSCL_NO_STACK`, with any value, turns the report of a crash off.
* `TSCL_GC` says whether the heap is collected: `marksweep`, `mark-sweep`, `none`
  or `disabled`, in any case of ASCII letters.
* `TSCL_GC_THRESHOLD` is a number of bytes, an unsigned numeral of 64 bits.
* `TSCL_SYMBOL_MANIFEST`, if it is not empty, is the path of a symbol manifest.

White space around the second and the third value does not count.  A value that
is not understood is an error that shows it as it was given.  The variables are
looked at in this order.
-/

namespace PinnedHeap

/-- How a program is set up. -/
structure Settings where
  /-- The heap. -/
  heap : Heap.Config := {}
  /-- Whether a crash is reported. -/
  stackTrace : Bool := true
  /-- Whether a handler of fatal signals is installed. -/
  installHandlers : Bool := true
  /-- The path of a symbol manifest. -/
  symbolManifest : Option String := none
deriving DecidableEq

namespace Settings

/-- The variable that turns the report of a crash off. -/
def noStackVariable : String := "TSCL_NO_STACK"

/-- The variable that chooses the collector. -/
def collectorVariable : String := "TSCL_GC"

/-- The variable with the threshold of the heap. -/
def thresholdVariable : String := "TSCL_GC_THRESHOLD"

/-- The variable with the path of a symbol manifest. -/
def manifestVariable : String := "TSCL_SYMBOL_MANIFEST"

/-- A value that is not understood. -/
inductive Error where
  /-- It names no collector. -/
  | unknownCollector (name value : String)
  /-- It is no number of bytes. -/
  | invalidNumber (name value : String)
deriving DecidableEq

/-- The message of a value that is not understood. -/
def Error.message : Error → String
  | .unknownCollector name value =>
    name ++ ": unknown collector `" ++ value ++ "` (expected `marksweep` or `none`)"
  | .invalidNumber name value => name ++ ": `" ++ value ++ "` is not a byte count"

/-- An ASCII letter in lower case. -/
def lowerAscii (c : Char) : Char := if 'A' ≤ c ∧ c ≤ 'Z' then Char.ofNat (c.toNat + 32) else c

/-- The collectors by their names. -/
def collectorNames : List (String × Heap.Mode) :=
  [("marksweep", .markSweep), ("mark-sweep", .markSweep), ("none", .disabled),
    ("disabled", .disabled)]

/-- The collector a value names. -/
def collector? (value : String) : Option Heap.Mode :=
  collectorNames.lookup (String.ofList ((Text.trim value.toList).map lowerAscii))

/-- The number of bytes a value gives. -/
def threshold? (value : String) : Option Nat :=
  Text.Numeral.unsigned? Text.Numeral.wordBound (Text.trim value.toList)

/-- The collector, from the value of its variable. -/
def readCollector : Option String → Except Error Heap.Mode
  | none => .ok Heap.Mode.markSweep
  | some value =>
    match collector? value with
    | some mode => .ok mode
    | none => .error (.unknownCollector collectorVariable value)

/-- The threshold, from the value of its variable. -/
def readThreshold : Option String → Except Error Nat
  | none => .ok ({} : Heap.Config).threshold
  | some value =>
    match threshold? value with
    | some n => .ok n
    | none => .error (.invalidNumber thresholdVariable value)

/-- The settings that the variables give. -/
def ofVariables (lookup : String → Option String) : Except Error Settings := do
  let mode ← readCollector (lookup collectorVariable)
  let threshold ← readThreshold (lookup thresholdVariable)
  .ok
    { heap := { mode, threshold }
      stackTrace := (lookup noStackVariable).isNone
      symbolManifest := (lookup manifestVariable).filter (· ≠ "") }

end Settings

end PinnedHeap
