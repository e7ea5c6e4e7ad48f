import PinnedHeap.Text.Record
import PinnedHeap.Word

/-!
# Tokens

A token names one record of the registry: its slot, and the generation of that
slot when the record was made.  It crosses the foreign interface as one word,
where `0` means that there is no token.
-/

namespace PinnedHeap

/-- The name of a record of the registry. -/
structure Token where
  /-- Index of the slot. -/
  slot : UInt32
  /-- Generation of the slot when the record was made. -/
  generation : UInt32
deriving DecidableEq

namespace Token

/-- The token no record has. -/
def null : Token := ⟨0, 0⟩

instance : Inhabited Token := ⟨null⟩

/-- The word that stands for a token at the foreign interface. -/
def bits (t : Token) : UInt64 := Word.pack t.slot t.generation

/-- The token a word stands for. -/
def ofBits (w : UInt64) : Token := ⟨Word.low w, Word.high w⟩

@[simp] theorem ofBits_bits (t : Token) : ofBits t.bits = t := by
  simp [ofBits, bits]

@[simp] theorem bits_ofBits (w : UInt64) : (ofBits w).bits = w := by
  simp [ofBits, bits]

theorem bits_inj {s t : Token} : s.bits = t.bits ↔ s = t :=
  ⟨fun e => by rw [← ofBits_bits s, e, ofBits_bits], fun e => e ▸ rfl⟩

theorem bits_eq_zero_iff {t : Token} : t.bits = 0 ↔ t = null := by
  rw [← bits_inj, show null.bits = 0 from rfl]

/-- The text of a token. -/
def text (t : Token) : String :=
  Text.record "RefToken"
    [("slot", toString t.slot.toNat), ("generation", toString t.generation.toNat)]

end Token

end PinnedHeap
