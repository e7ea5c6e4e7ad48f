import Std.Data.TreeSet
import PinnedHeap.Text.Record
import PinnedHeap.Word

/-!
# Object references

A reference names one object of the heap: the index of its slot, and the
generation of that slot when the object was stored.  It crosses the foreign
interface as one word (`Ref.bits`), which is `0` only for the reference with
index and generation `0`.  No allocation issues that one, so it serves as the
null reference.

References are ordered by index and then by generation.
-/

namespace PinnedHeap

/-- The name of an object: its slot, and the generation it was stored under. -/
structure Ref where
  /-- Index of the slot. -/
  index : UInt32
  /-- Generation of the slot when the reference was issued. -/
  generation : UInt32
deriving DecidableEq

namespace Ref

/-- The reference no allocation issues. -/
def null : Ref := ⟨0, 0⟩

instance : Inhabited Ref := ⟨null⟩

/-! ## Words -/

/-- The word that stands for a reference at the foreign interface. -/
def bits (r : Ref) : UInt64 := Word.pack r.index r.generation

/-- The reference a word stands for. -/
def ofBits (w : UInt64) : Ref := ⟨Word.low w, Word.high w⟩

@[simp] theorem ofBits_bits (r : Ref) : ofBits r.bits = r := by
  simp [ofBits, bits]

@[simp] theorem bits_ofBits (w : UInt64) : (ofBits w).bits = w := by
  simp [ofBits, bits]

theorem bits_inj {r s : Ref} : r.bits = s.bits ↔ r = s :=
  ⟨fun e => by rw [← ofBits_bits r, e, ofBits_bits], fun e => e ▸ rfl⟩

theorem bits_eq_zero_iff {r : Ref} : r.bits = 0 ↔ r = null := by
  rw [← bits_inj, show null.bits = 0 from rfl]

/-! ## Order -/

/-- By index, and by generation where the index is the same. -/
instance : Ord Ref := ⟨compareLex (compareOn Ref.index) (compareOn Ref.generation)⟩

theorem compare_eq (r s : Ref) :
    compare r s = (compare r.index s.index).then (compare r.generation s.generation) := rfl

instance : Std.TransOrd Ref :=
  inferInstanceAs (Std.TransCmp (compareLex (compareOn Ref.index) (compareOn Ref.generation)))

instance : Std.LawfulEqOrd Ref where
  eq_of_compare {r s} h := by
    rw [compare_eq, Ordering.then_eq_eq] at h
    cases r
    cases s
    simp_all

/-- The references of a list in their order, each one once. -/
def sorted (rs : List Ref) : List Ref := (Std.TreeSet.ofList rs).toList

/-! ## Text -/

/-- The text of a reference, such as `ObjectRef(7v3)`. -/
def text (r : Ref) : String :=
  "ObjectRef(" ++ toString r.index.toNat ++ "v" ++ toString r.generation.toNat ++ ")"

/-- The text of a list of references. -/
def listText (rs : List Ref) : String := Text.list (rs.map text)

end Ref

end PinnedHeap
