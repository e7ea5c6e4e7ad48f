import Mathlib.Data.List.Induction
import PinnedHeap.Text.Numeral

/-!
# Decimal numerals

`IsDecimal` builds the numerals of a number digit by digit, the last digit last.  `IsUnsigned` and
`IsSigned` add the signs that may stand in front.  A reader accepts exactly these, as long as the
number lies within its bounds (`unsigned?_eq_some_iff`, `signed?_eq_some_iff`).

A sign is no digit.  So a text that begins with one is a numeral only by what follows the sign,
and the reader can look at the first character to tell.
-/

namespace PinnedHeap.Text.Numeral

/-- Digits that denote a number.  There is at least one, and any number of leading zeros. -/
inductive IsDecimal : List Char → Nat → Prop
  | digit {d : Nat} (hd : d < 10) : IsDecimal [Nat.digitChar d] d
  | concat {cs : List Char} {n d : Nat} (hcs : IsDecimal cs n) (hd : d < 10) :
      IsDecimal (cs ++ [Nat.digitChar d]) (n * 10 + d)

/-- A numeral, perhaps after a plus sign. -/
inductive IsUnsigned : List Char → Nat → Prop
  | bare {cs : List Char} {n : Nat} (h : IsDecimal cs n) : IsUnsigned cs n
  | plus {cs : List Char} {n : Nat} (h : IsDecimal cs n) : IsUnsigned ('+' :: cs) n

/-- A numeral, perhaps after a sign. -/
inductive IsSigned : List Char → Int → Prop
  | bare {cs : List Char} {n : Nat} (h : IsDecimal cs n) : IsSigned cs n
  | plus {cs : List Char} {n : Nat} (h : IsDecimal cs n) : IsSigned ('+' :: cs) n
  | minus {cs : List Char} {n : Nat} (h : IsDecimal cs n) : IsSigned ('-' :: cs) (-n)

variable {cs : List Char} {c : Char} {bound n : Nat}

/-! ## Digits -/

theorem isDigit_digitChar {d : Nat} (hd : d < 10) : isDigit (Nat.digitChar d) = true := by
  have hall : ∀ d < 10, isDigit (Nat.digitChar d) = true := by decide
  exact hall d hd

theorem digitValue_digitChar {d : Nat} (hd : d < 10) : digitValue (Nat.digitChar d) = d := by
  have hall : ∀ d < 10, digitValue (Nat.digitChar d) = d := by decide
  exact hall d hd

theorem digitChar_digitValue (hc : isDigit c = true) :
    digitValue c < 10 ∧ Nat.digitChar (digitValue c) = c := by
  have hall : ∀ n < 58, 48 ≤ n → n - 48 < 10 ∧ Nat.digitChar (n - 48) = Char.ofNat n := by decide
  simp only [isDigit, Bool.and_eq_true, decide_eq_true_eq, Char.le_def] at hc
  have hlo : 48 ≤ c.toNat := hc.1
  have hhi : c.toNat < 58 := Nat.lt_succ_of_le hc.2
  have hdigit := hall c.toNat hhi hlo
  rw [Char.ofNat_toNat] at hdigit
  exact hdigit

theorem value_concat (cs : List Char) (c : Char) :
    value (cs ++ [c]) = value cs * 10 + digitValue c := by
  rw [value, List.foldl_append]
  rfl

/-- A sequence of digits denotes its value. -/
theorem isDecimal_iff :
    IsDecimal cs n ↔ cs ≠ [] ∧ (∀ c ∈ cs, isDigit c = true) ∧ value cs = n := by
  constructor
  · intro h
    induction h with
    | digit hd =>
      refine ⟨List.cons_ne_nil _ _, List.forall_mem_singleton.2 (isDigit_digitChar hd), ?_⟩
      simp [value, digitValue_digitChar hd]
    | concat _ hd ih =>
      obtain ⟨-, hdigits, hvalue⟩ := ih
      refine ⟨by simp, ?_, by rw [value_concat, hvalue, digitValue_digitChar hd]⟩
      exact List.forall_mem_append.2
        ⟨hdigits, List.forall_mem_singleton.2 (isDigit_digitChar hd)⟩
  · intro ⟨hne, hdigits, hvalue⟩
    subst hvalue
    induction cs using List.reverseRecOn with
    | nil => exact absurd rfl hne
    | append_singleton cs c ih =>
      obtain ⟨hcs, hc⟩ := List.forall_mem_append.1 hdigits
      obtain ⟨hlt, hchar⟩ := digitChar_digitValue (hc c (List.mem_singleton.2 rfl))
      rw [value_concat]
      cases cs with
      | nil =>
        have hdecimal : IsDecimal [Nat.digitChar (digitValue c)] (digitValue c) := .digit hlt
        rw [hchar] at hdecimal
        simpa [value] using hdecimal
      | cons c' cs =>
        have hdecimal := IsDecimal.concat (ih (List.cons_ne_nil _ _) hcs) hlt
        rwa [hchar] at hdecimal

theorem digits?_eq_some_iff : digits? cs = some n ↔ IsDecimal cs n := by
  rw [isDecimal_iff, digits?]
  cases cs with
  | nil => simp
  | cons c cs => simp [List.all_eq_true, and_assoc]

theorem not_isDecimal_sign {cs : List Char} (hc : isDigit c = false) : ¬ IsDecimal (c :: cs) n := by
  intro h
  have hdigit := (isDecimal_iff.1 h).2.1 c List.mem_cons_self
  rw [hc] at hdigit
  exact nomatch hdigit

/-! ## Numerals of a number -/

theorem IsDecimal.zero_cons (h : IsDecimal cs n) : IsDecimal ('0' :: cs) n := by
  induction h with
  | @digit d hd =>
    have hzero : IsDecimal ['0'] 0 := .digit (show 0 < 10 by decide)
    simpa using hzero.concat hd
  | concat _ hd ih => exact ih.concat hd

/-- The shortest numeral of a number. -/
theorem isDecimal_toDigits (n : Nat) : IsDecimal (Nat.toDigits 10 n) n := by
  induction n using Nat.strongRecOn with
  | ind n ih =>
    by_cases hn : n < 10
    · rw [Nat.toDigits_of_lt_base hn]
      exact .digit hn
    · have hlast : n % 10 < 10 := Nat.mod_lt n (by decide)
      have hsplit : n / 10 * 10 + n % 10 = n := by omega
      have hconcat := (ih (n / 10) (by omega)).concat hlast
      rwa [hsplit, ← Nat.toDigits_of_base_le (by decide) (by omega)] at hconcat

/-- Leading zeros make no difference. -/
theorem isDecimal_zeros_append (zeros n : Nat) :
    IsDecimal (List.replicate zeros '0' ++ Nat.toDigits 10 n) n := by
  induction zeros with
  | zero => exact isDecimal_toDigits n
  | succ zeros ih => exact ih.zero_cons

/-! ## Readers -/

/-- A reader accepts the numerals of the numbers below its bound. -/
theorem unsigned?_eq_some_iff :
    unsigned? bound cs = some n ↔ IsUnsigned cs n ∧ n < bound := by
  unfold unsigned?
  dsimp only
  rw [Option.filter_eq_some_iff, digits?_eq_some_iff, decide_eq_true_iff]
  refine and_congr_left fun _ => ?_
  split
  · constructor
    · exact .plus
    · intro h
      cases h with
      | bare h => exact absurd h (not_isDecimal_sign rfl)
      | plus h => exact h
  · rename_i hplus
    constructor
    · exact .bare
    · intro h
      cases h with
      | bare h => exact h
      | plus h => exact absurd rfl (hplus _)

theorem map_digits?_eq_some_iff {p : Nat → Bool} {f : Nat → Int} {i : Int} :
    ((digits? cs).filter p).map f = some i ↔ ∃ n, IsDecimal cs n ∧ p n = true ∧ f n = i := by
  rw [Option.map_eq_some_iff]
  refine exists_congr fun n => ?_
  rw [Option.filter_eq_some_iff, digits?_eq_some_iff, and_assoc]

theorem signed?_minus (bound : Nat) (cs : List Char) :
    signed? bound ('-' :: cs) =
      ((digits? cs).filter (· ≤ bound)).map fun n : Nat => -(n : Int) := by
  change (((digits? cs).filter (· ≤ bound)).bind fun n => some (n : Int)).map (- ·) = _
  cases (digits? cs).filter (· ≤ bound) <;> rfl

/-- A reader accepts the numerals of the integers from minus its bound on and below it. -/
theorem signed?_eq_some_iff (hbound : 0 < bound) {i : Int} :
    signed? bound cs = some i ↔ IsSigned cs i ∧ -bound ≤ i ∧ i < bound := by
  constructor
  · intro h
    unfold signed? at h
    split at h
    · obtain ⟨n, hn, hle, rfl⟩ := map_digits?_eq_some_iff.1 ((signed?_minus bound _).symm.trans h)
      rw [decide_eq_true_iff] at hle
      exact ⟨.minus hn, by omega, by omega⟩
    · obtain ⟨n, hn, hlt, rfl⟩ := map_digits?_eq_some_iff.1 h
      exact ⟨.plus hn, by rw [Int.ofNat_eq_natCast]; omega, Int.ofNat_lt.2 (of_decide_eq_true hlt)⟩
    · obtain ⟨n, hn, hlt, rfl⟩ := map_digits?_eq_some_iff.1 h
      exact ⟨.bare hn, by rw [Int.ofNat_eq_natCast]; omega, Int.ofNat_lt.2 (of_decide_eq_true hlt)⟩
  · intro ⟨h, hlo, hhi⟩
    cases h with
    | minus h =>
      rw [signed?_minus]
      exact map_digits?_eq_some_iff.2 ⟨_, h, decide_eq_true (by omega), rfl⟩
    | plus h => exact map_digits?_eq_some_iff.2 ⟨_, h, decide_eq_true (by omega), rfl⟩
    | bare h =>
      unfold signed?
      split
      · exact absurd h (not_isDecimal_sign rfl)
      · exact absurd h (not_isDecimal_sign rfl)
      · exact map_digits?_eq_some_iff.2 ⟨_, h, decide_eq_true (by omega), rfl⟩

end PinnedHeap.Text.Numeral
