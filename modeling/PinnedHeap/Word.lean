/-!
# Packed words

Foreign code sees an arena slot as one 64-bit word.  The low half is the index
of the slot and the high half its generation.

`pack`, `low` and `high` are inverse to each other (`low_pack`, `high_pack`,
`pack_low_high`).  They are defined by arithmetic on natural numbers and not by
shifts, so that `omega` decides the laws.
-/

namespace PinnedHeap.Word

/-- The word with the given halves. -/
def pack (low high : UInt32) : UInt64 := UInt64.ofNat (high.toNat * 4294967296 + low.toNat)

/-- The low half of a word. -/
def low (w : UInt64) : UInt32 := UInt32.ofNat (w.toNat % 4294967296)

/-- The high half of a word. -/
def high (w : UInt64) : UInt32 := UInt32.ofNat (w.toNat / 4294967296)

theorem toNat_pack (l h : UInt32) : (pack l h).toNat = h.toNat * 4294967296 + l.toNat := by
  have hl := UInt32.toNat_lt l
  have hh := UInt32.toNat_lt h
  rw [pack, UInt64.toNat_ofNat']
  omega

theorem toNat_low (w : UInt64) : (low w).toNat = w.toNat % 4294967296 := by
  rw [low, UInt32.toNat_ofNat']
  omega

theorem toNat_high (w : UInt64) : (high w).toNat = w.toNat / 4294967296 := by
  have hw := UInt64.toNat_lt w
  rw [high, UInt32.toNat_ofNat']
  omega

@[simp] theorem low_pack (l h : UInt32) : low (pack l h) = l := by
  have hl := UInt32.toNat_lt l
  apply UInt32.toNat_inj.1
  rw [toNat_low, toNat_pack]
  omega

@[simp] theorem high_pack (l h : UInt32) : high (pack l h) = h := by
  have hl := UInt32.toNat_lt l
  apply UInt32.toNat_inj.1
  rw [toNat_high, toNat_pack]
  omega

@[simp] theorem pack_low_high (w : UInt64) : pack (low w) (high w) = w := by
  apply UInt64.toNat_inj.1
  rw [toNat_pack, toNat_low, toNat_high]
  omega

/-- Two words with the same halves are the same word. -/
theorem pack_inj {l h l' h' : UInt32} : pack l h = pack l' h' ↔ l = l' ∧ h = h' := by
  constructor
  · intro e
    exact ⟨by rw [← low_pack l h, e, low_pack], by rw [← high_pack l h, e, high_pack]⟩
  · rintro ⟨rfl, rfl⟩
    rfl

/-- Only the halves `0` and `0` make the word `0`. -/
theorem pack_eq_zero_iff {l h : UInt32} : pack l h = 0 ↔ l = 0 ∧ h = 0 := by
  rw [show (0 : UInt64) = pack 0 0 from rfl, pack_inj]

example : pack 7 3 = 12884901895 := by decide

end PinnedHeap.Word
