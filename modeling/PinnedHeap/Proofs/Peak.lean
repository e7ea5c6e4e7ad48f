import Mathlib.Data.List.Induction

/-!
# Arenas that grow only when they are full

An arena whose size changes only when all of it is in use is as large as its use was at its
most.  This is said of any machine that takes steps, with a number `used` that never exceeds
the number `size`.
-/

namespace PinnedHeap

variable {S O : Type} {step : S → O → S} {P : S → Prop} {s : S}

/-- If an arena starts full, and each step leaves its size alone or leaves it full and no
smaller, then the largest use of a run is the size at its end. -/
theorem peak_foldl (used size : S → Nat) (hstep : ∀ s o, P s → P (step s o))
    (hle : ∀ s, P s → used s ≤ size s)
    (hgrow : ∀ s o, P s → size (step s o) = size s ∨
      (size s ≤ size (step s o) ∧ used (step s o) = size (step s o)))
    (hs : P s) (hfull : used s = size s) (os : List O) :
    (∀ n, used ((os.take n).foldl step s) ≤ size (os.foldl step s)) ∧
      ∃ n ≤ os.length, used ((os.take n).foldl step s) = size (os.foldl step s) := by
  -- Induction from the right, since only the last step adds a state to compare with.
  induction os using List.reverseRecOn with
  | nil => exact ⟨fun n => by rw [List.take_nil]; exact hle s hs, 0, Nat.le_refl 0, hfull⟩
  | append_singleton os o ih =>
    obtain ⟨hpeak, n, hn, heq⟩ := ih
    have hbefore : P (os.foldl step s) := os.foldlRecOn step hs fun s hs o _ => hstep s o hs
    have hgrows := hgrow _ o hbefore
    have hlast := hle _ (hstep _ o hbefore)
    have htake : ∀ n ≤ os.length, (os ++ [o]).take n = os.take n :=
      fun n hn => List.take_append_of_le_length hn
    have hafter : (os ++ [o]).foldl step s = step (os.foldl step s) o := List.foldl_append
    have hmono : size (os.foldl step s) ≤ size (step (os.foldl step s) o) := by
      rcases hgrows with hsame | ⟨hmore, -⟩
      · exact Nat.le_of_eq hsame.symm
      · exact hmore
    rw [hafter]
    refine ⟨fun m => ?_, ?_⟩
    · by_cases hm : m ≤ os.length
      · rw [htake m hm]
        exact Nat.le_trans (hpeak m) hmono
      · rw [List.take_of_length_le (by rw [List.length_append]; exact Nat.lt_of_not_le hm), hafter]
        exact hlast
    · rcases hgrows with hsame | ⟨-, hnow⟩
      · exact ⟨n, by rw [List.length_append]; omega, by rw [htake n hn, heq, hsame]⟩
      · exact ⟨(os ++ [o]).length, Nat.le_refl _, by rw [List.take_length, hafter, hnow]⟩

end PinnedHeap
