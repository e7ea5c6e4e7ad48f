/-!
# Text as bytes

Names that native code reports are bytes, of which a text is the special case
that is valid UTF-8.  `bytes` gives the bytes of a text, and `ofBytes?` reads
them back (`ofBytes?_bytes`).  Two texts with the same bytes are the same
(`bytes_inj`).
-/

namespace PinnedHeap.Text

/-- The bytes of a text in UTF-8. -/
def bytes (s : String) : List UInt8 := s.toUTF8.data.toList

/-- The text that has the given bytes, if they are valid UTF-8. -/
def ofBytes? (bs : List UInt8) : Option String := String.fromUTF8? ⟨bs.toArray⟩

theorem ofBytes?_bytes (s : String) : ofBytes? (bytes s) = some s := by
  simp only [ofBytes?, bytes, Array.toArray_toList, String.fromUTF8?,
    String.toUTF8_eq_toByteArray, dif_pos s.isValidUTF8]
  rfl

theorem bytes_inj {s t : String} : bytes s = bytes t ↔ s = t := by
  constructor
  · intro h
    apply String.toByteArray_inj.1
    exact congrArg ByteArray.mk (Array.toList_inj.1 h)
  · rintro rfl
    rfl

/-- The newline byte. -/
def newline : UInt8 := 10

example : bytes "aß" = [97, 195, 159] := by decide

end PinnedHeap.Text
