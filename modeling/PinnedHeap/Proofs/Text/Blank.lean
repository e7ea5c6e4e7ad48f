import Mathlib.Data.List.DropRight
import PinnedHeap.Text.Blank

/-!
# Texts without the white space at their ends

`whiteSpace` names the white space of Unicode character by character, and the ranges of code points
give the same characters (`isBlank_iff`).

A text that is trimmed lies between white space and white space, and has none at its own ends
(`Trims`).  There is one such text for every text, and it is what trimming gives (`trim_eq_iff`).
For a text of white space alone it is the empty one.
-/

namespace PinnedHeap.Text

/-- The white space of Unicode. -/
def whiteSpace : List Char :=
  ['\t', '\n', '\u000b', '\u000c', '\r', ' ', '\u0085', '\u00a0', '\u1680', '\u2000', '\u2001',
    '\u2002', '\u2003', '\u2004', '\u2005', '\u2006', '\u2007', '\u2008', '\u2009', '\u200a',
    '\u2028', '\u2029', '\u202f', '\u205f', '\u3000']

/-- The text `core` is `cs` without the white space at its ends. -/
structure Trims (cs core : List Char) : Prop where
  /-- White space is all that was taken away. -/
  exists_around : ∃ before after, cs = before ++ core ++ after ∧
    (∀ c ∈ before, c ∈ whiteSpace) ∧ ∀ c ∈ after, c ∈ whiteSpace
  /-- Nothing is left to be taken away in front. -/
  head : ∀ c, core.head? = some c → c ∉ whiteSpace
  /-- Nothing is left to be taken away at the end. -/
  last : ∀ c, core.getLast? = some c → c ∉ whiteSpace

theorem isBlank_iff {c : Char} : isBlank c = true ↔ c ∈ whiteSpace := by
  have hpoints : whiteSpace.map Char.toNat =
      blankRanges.flatMap fun r => List.range' r.1 (r.2 + 1 - r.1) := rfl
  have hmem : c ∈ whiteSpace ↔ c.toNat ∈ whiteSpace.map Char.toNat := by
    rw [List.mem_map]
    constructor
    · intro hc
      exact ⟨c, hc, rfl⟩
    · rintro ⟨d, hd, he⟩
      rwa [← Char.toNat_inj.1 he]
  rw [hmem, hpoints, isBlank, List.any_eq_true, List.mem_flatMap]
  refine exists_congr fun r => and_congr_right fun _ => ?_
  rw [Bool.and_eq_true, decide_eq_true_iff, decide_eq_true_iff, List.mem_range'_1]
  omega

theorem isBlank_eq_false_iff {c : Char} : isBlank c = false ↔ c ∉ whiteSpace := by
  rw [← isBlank_iff, Bool.not_eq_true]

theorem trim_eq_rdropWhile (cs : List Char) :
    trim cs = (cs.dropWhile isBlank).rdropWhile isBlank := rfl

theorem dropWhile_append_of_blank {before : List Char} (hbefore : ∀ c ∈ before, c ∈ whiteSpace)
    (cs : List Char) : (before ++ cs).dropWhile isBlank = cs.dropWhile isBlank :=
  List.dropWhile_append_of_pos fun c hc => isBlank_iff.2 (hbefore c hc)

theorem dropWhile_of_head {cs : List Char} (h : ∀ c, cs.head? = some c → c ∉ whiteSpace) :
    cs.dropWhile isBlank = cs := by
  cases cs with
  | nil => rfl
  | cons c cs => exact List.dropWhile_cons_of_neg (by rw [isBlank_eq_false_iff.2 (h c rfl)]; simp)

/-- What is trimmed is determined. -/
theorem Trims.trim_eq {cs core : List Char} (h : Trims cs core) : trim cs = core := by
  obtain ⟨before, after, rfl, hbefore, hafter⟩ := h.exists_around
  rw [trim, List.append_assoc, dropWhile_append_of_blank hbefore]
  cases hcore : core with
  | nil =>
    -- With nothing in between, the first pass takes what stands behind as well.
    have hnil : after.dropWhile isBlank = [] :=
      List.dropWhile_eq_nil_iff.2 fun c hc => isBlank_iff.2 (hafter c hc)
    rw [List.nil_append, hnil]
    rfl
  | cons c cs =>
    have hhead : ∀ d, (core ++ after).head? = some d → d ∉ whiteSpace := by
      intro d hd
      rw [hcore] at hd
      exact h.head d (by rwa [hcore])
    have hlast : ∀ d, core.reverse.head? = some d → d ∉ whiteSpace := by
      intro d hd
      exact h.last d (by rwa [List.head?_reverse] at hd)
    have hafter' : ∀ d ∈ after.reverse, d ∈ whiteSpace := fun d hd =>
      hafter d (List.mem_reverse.1 hd)
    rw [← hcore, dropWhile_of_head hhead, List.reverse_append, dropWhile_append_of_blank hafter',
      dropWhile_of_head hlast, List.reverse_reverse]

theorem trims_trim (cs : List Char) : Trims cs (trim cs) where
  exists_around := by
    refine ⟨cs.takeWhile isBlank, (cs.dropWhile isBlank).rtakeWhile isBlank, ?_, ?_, ?_⟩
    · rw [trim_eq_rdropWhile, List.append_assoc, List.rdropWhile_append_rtakeWhile,
        List.takeWhile_append_dropWhile]
    · exact fun c hc => isBlank_iff.1 (List.mem_takeWhile_imp hc)
    · exact fun c hc => isBlank_iff.1 (List.mem_rtakeWhile_imp hc)
  head := by
    intro c hc
    obtain ⟨rest, hrest⟩ := List.rdropWhile_prefix isBlank (cs.dropWhile isBlank)
    have hhead : (cs.dropWhile isBlank).head? = some c := by
      rw [← hrest, List.head?_append, ← trim_eq_rdropWhile, hc]
      rfl
    have hnot := List.head?_dropWhile_not isBlank cs
    rw [hhead] at hnot
    exact isBlank_eq_false_iff.1 hnot
  last := by
    intro c hc
    rw [trim, List.getLast?_reverse] at hc
    have hnot := List.head?_dropWhile_not isBlank (cs.dropWhile isBlank).reverse
    rw [hc] at hnot
    exact isBlank_eq_false_iff.1 hnot

/-- Trimming takes the white space away at both ends, and nothing else. -/
theorem trim_eq_iff {cs core : List Char} : trim cs = core ↔ Trims cs core := by
  constructor
  · rintro rfl
    exact trims_trim cs
  · exact Trims.trim_eq

end PinnedHeap.Text
