import PinnedHeap.Roots

/-!
# Global roots as a multiset

The order of the global roots changes when one is removed, because the last root takes
its place.  What counts is how often each root occurs.
-/

namespace PinnedHeap.Roots

variable {s s' : Roots} {r : Ref}

theorem toList_add (s : Roots) (r : Ref) : (s.add r).toList = s.toList ++ [r] := by
  rw [add, toList, Array.toList_push]
  rfl

theorem perm_of_remove? (hs : s.remove? r = some s') : s.toList.Perm (r :: s'.toList) := by
  rw [remove?, Option.map_eq_some_iff] at hs
  obtain ⟨i, hi, rfl⟩ := hs
  obtain ⟨hmem, hget, -⟩ := List.idxOf?_eq_some_iff.1 hi
  have hlt : i < s.globals.size := hmem
  have hsize : s.globals.size - 1 < s.globals.size := Nat.sub_one_lt_of_lt hlt
  have hperm := (Array.swap_perm hlt hsize).toList
  -- The exchange moves the occurrence to the end, where it is dropped.
  have hne : (s.globals.swap i (s.globals.size - 1)).toList ≠ [] := by
    rw [← List.length_pos_iff, Array.length_toList, Array.size_swap]
    exact Nat.zero_lt_of_lt hlt
  have hlast : (s.globals.swap i (s.globals.size - 1)).toList.getLast hne = r := by
    rw [List.getLast_eq_getElem]
    simp only [Array.length_toList, Array.size_swap, Array.getElem_toList]
    rw [Array.getElem_swap_right]
    exact hget
  have hsplit := List.dropLast_concat_getLast hne
  rw [hlast] at hsplit
  rw [Array.swapIfInBounds_def, dif_pos hlt, dif_pos hsize]
  rw [← hsplit] at hperm
  exact hperm.symm.trans (List.perm_append_singleton _ _)

theorem count_add (s : Roots) (r x : Ref) :
    (s.add r).toList.count x = s.toList.count x + if r = x then 1 else 0 := by
  rw [toList_add, List.count_append, List.count_singleton]
  simp

theorem count_of_remove? (hs : s.remove? r = some s') (x : Ref) :
    s.toList.count x = s'.toList.count x + if r = x then 1 else 0 := by
  rw [(perm_of_remove? hs).count_eq, List.count_cons]
  simp

end PinnedHeap.Roots
