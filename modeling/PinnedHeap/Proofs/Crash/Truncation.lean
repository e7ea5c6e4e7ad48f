import Mathlib.Data.List.DropRight
import Mathlib.Data.List.Infix
import PinnedHeap.Crash.Line

/-!
# What a line keeps and what it says about the rest

A line holds as much as fits of what was written to it since it was emptied last, in however many
pieces that was written (`bytes_after`).  The invariant is that the bytes are the front of the
whole text.  A piece only adds to the front as long as there is room for it, and emptying the line
starts a new text.

The buffer keeps no more than these bytes, so it cannot tell a text that fills it from a longer one.
It counts both as truncated.  So a line that does not count as truncated holds the whole text, and a
line that does has lost something, unless the text was exactly as long as the buffer (`reports`).
-/

namespace PinnedHeap.Crash.Line

/-! ## What is written -/

/-- What a change adds to the text. -/
def Change.text : Change → List UInt8
  | .clear => []
  | .push bs => bs
  | .write s => Text.bytes s

/-- Whether a change starts a new text. -/
def Change.isClear : Change → Bool
  | .clear => true
  | .push _ => false
  | .write _ => false

/-- The text that was written since the line was emptied for the last time. -/
def written (cs : List Change) : List UInt8 :=
  (cs.rtakeWhile fun c => !c.isClear).flatMap Change.text

/-- The line after several changes. -/
def after (cs : List Change) : Line := cs.foldl change {}

theorem written_concat (cs : List Change) (c : Change) :
    written (cs ++ [c]) = if c.isClear then [] else written cs ++ c.text := by
  rw [written, List.rtakeWhile_concat]
  cases c.isClear with
  | true => rfl
  | false => simp [written]

theorem after_concat (cs : List Change) (c : Change) : after (cs ++ [c]) = (after cs).change c :=
  List.foldl_concat change {} c cs

/-! ## What is kept -/

/-- A piece is added to the front of a text as far as there is room. -/
theorem bytes_push {l : Line} {text : List UInt8} (hl : l.bytes = text.take capacity)
    (bs : List UInt8) : (l.push bs).bytes = (text ++ bs).take capacity := by
  have hroom : capacity - l.length = capacity - text.length := by
    rw [length, hl, List.length_take]
    omega
  rw [push, hroom, hl, List.take_append]

theorem bytes_change {l : Line} {text : List UInt8} (hl : l.bytes = text.take capacity)
    (c : Change) :
    (l.change c).bytes = (if c.isClear then [] else text ++ c.text).take capacity := by
  cases c with
  | clear => rfl
  | push bs => exact bytes_push hl bs
  | write s => exact bytes_push hl (Text.bytes s)

/-- A line holds the front of the text. -/
theorem bytes_after (cs : List Change) : (after cs).bytes = (written cs).take capacity := by
  induction cs using List.reverseRecOn with
  | nil => rfl
  | append_singleton cs c ih =>
    rw [after_concat, written_concat]
    exact bytes_change ih c

/-! ## What is said -/

/-- How a line reports on a text. -/
structure Reports (text : List UInt8) (l : Line) : Prop where
  /-- It holds the first 512 bytes. -/
  bytes_eq : l.bytes = text.take 512
  /-- It has lost something if there are more. -/
  lost_iff : l.bytes ≠ text ↔ 512 < text.length
  /-- It counts as truncated if there are that many. -/
  isTruncated_iff : l.isTruncated = true ↔ 512 ≤ text.length
  /-- So it says whether something was lost, except for a text that just fits. -/
  tells_iff : (l.isTruncated = true ↔ l.bytes ≠ text) ↔ text.length ≠ 512

theorem reports_of_bytes_eq {text : List UInt8} {l : Line} (hl : l.bytes = text.take capacity) :
    Reports text l := by
  have hlost : l.bytes ≠ text ↔ 512 < text.length := by
    rw [hl, Ne, List.take_eq_self_iff, capacity]
    omega
  have htruncated : l.isTruncated = true ↔ 512 ≤ text.length := by
    rw [isTruncated, length, hl, List.length_take, beq_iff_eq, capacity]
    omega
  refine ⟨hl, hlost, htruncated, ?_⟩
  rw [hlost, htruncated]
  omega

/-- The lines after each of several changes are those after the first change, after the first two,
and so on. -/
theorem changes_eq (l : Line) (cs : List Change) :
    l.changes cs = cs.inits.tail.map (·.foldl change l) := by
  induction cs generalizing l with
  | nil => rfl
  | cons c cs ih =>
    rw [changes, ih, List.inits_cons, List.tail_cons, List.map_map]
    cases cs <;> rfl

/-- After any changes a line holds what fits of the text, and counts as truncated if the text is
at least as long as the buffer.  This goes for the line after each of the changes. -/
theorem reports (cs : List Change) :
    Reports (written cs) (after cs) ∧ changes {} cs = cs.inits.tail.map after :=
  ⟨reports_of_bytes_eq (bytes_after cs), changes_eq {} cs⟩

/-- A text that just fits is kept as a whole, but the line counts as truncated. -/
theorem isTruncated_of_whole :
    let cs := [Change.push (List.replicate 512 97)]
    (after cs).bytes = written cs ∧ (after cs).isTruncated = true := by
  intro cs
  have hreports := reports_of_bytes_eq (bytes_after cs)
  have hwritten : written cs = List.replicate 512 97 := written_concat [] (.push _)
  have hlength : (written cs).length = 512 := by rw [hwritten, List.length_replicate]
  refine ⟨?_, hreports.isTruncated_iff.2 hlength.ge⟩
  rw [hreports.bytes_eq, ← hlength, List.take_length]

end PinnedHeap.Crash.Line
