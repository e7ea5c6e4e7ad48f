/-!
# Generations

A slot of an arena is used again after its content is gone.  Its *generation*
says which use of the slot is meant.  A reference remembers the generation it
was issued for, so it goes stale when the slot moves on.

Generations are 32-bit words.  The first one is `1`, and `0` is never issued,
so a reference packed into one word is never the word `0`.  After the last
word the count starts again at `1` (`next_ne_zero`).
-/

namespace PinnedHeap

/-- Which use of a slot is meant. -/
abbrev Generation := UInt32

namespace Generation

/-- The generation of a slot used for the first time. -/
def first : Generation := 1

/-- The largest generation, the one after which the count starts again. -/
def last : Generation := 4294967295

/-- The generation of the next use of a slot. -/
def next (g : Generation) : Generation := if g = last then first else g + 1

theorem first_ne_zero : first ≠ 0 := by decide

/-- Before the last generation, the next one is one more. -/
theorem toNat_next {g : Generation} (h : g ≠ last) : (next g).toNat = g.toNat + 1 := by
  have hlt : g.toNat ≠ 4294967295 := fun e => h (UInt32.toNat_inj.1 e)
  have hbound := UInt32.toNat_lt g
  rw [next, if_neg h, UInt32.toNat_add]
  simp only [UInt32.toNat_one]
  omega

/-- Zero is no generation, not even after the count starts again. -/
theorem next_ne_zero (g : Generation) : next g ≠ 0 := by
  by_cases h : g = last
  · rw [next, if_pos h]
    exact first_ne_zero
  · intro e
    have := toNat_next h
    rw [e] at this
    simp at this

example : next 1 = 2 := by decide
example : next last = 1 := by decide

end Generation

end PinnedHeap
