import Mathlib.Algebra.Group.Nat.Defs
import Mathlib.Data.List.Induction
import PinnedHeap.Text.Bytes
import PinnedHeap.Text.Hex

/-!
# Hexadecimal numerals

`number?` reads hexadecimal digits.  The digits of a word read back to it, they are lower-case,
and there are no more of them than needed (`isNumeral_word`).  These three facts leave no choice
of the digits (`IsNumeral.unique`).
-/

namespace PinnedHeap.Text.Hex

/-- The number that digits denote, in either case. -/
def number? (cs : List Char) : Option Nat :=
  cs.foldlM (fun n c => (value? c).map (n * 16 + ·)) 0

/-- The shortest lower-case digits of a number. -/
structure IsNumeral (cs : List Char) (n : Nat) : Prop where
  number?_eq : number? cs = some n
  lower : ∀ c ∈ cs, c ∈ digits
  ne_nil : cs ≠ []
  /-- Only zero itself starts with a zero. -/
  shortest : cs.head? = some '0' → cs = ['0']

theorem value?_digit (n : Nat) : value? (digit n) = some (n % 16) := by
  have hall : ∀ k < 16, value? (digits.getD k '0') = some k := by decide
  exact hall _ (Nat.mod_lt _ (by decide))

theorem digit_mem_digits (n : Nat) : digit n ∈ digits := by
  have hall : ∀ k < 16, digits.getD k '0' ∈ digits := by decide
  exact hall _ (Nat.mod_lt _ (by decide))

theorem number?_concat (cs : List Char) (c : Char) :
    number? (cs ++ [c]) = (number? cs).bind fun n => (value? c).map (n * 16 + ·) := by
  rw [number?, List.foldlM_append, number?]
  cases cs.foldlM (fun n c => (value? c).map (n * 16 + ·)) 0 with
  | none => rfl
  | some n => cases hc : value? c <;> simp [hc]

theorem number?_fixed (k n : Nat) : number? (fixed k n) = some (n % 16 ^ k) := by
  induction k generalizing n with
  | zero => rw [Nat.pow_zero, Nat.mod_one]; rfl
  | succ k ih =>
    have hsplit : n % 16 ^ (k + 1) = n / 16 % 16 ^ k * 16 + n % 16 := by
      rw [Nat.pow_succ', Nat.mod_mul]
      omega
    rw [fixed, number?_concat, ih, Option.bind_some, value?_digit, hsplit]
    rfl

theorem mem_digits_of_mem_fixed {k n : Nat} {c : Char} (hc : c ∈ fixed k n) : c ∈ digits := by
  induction k generalizing n with
  | zero => cases hc
  | succ k ih =>
    rcases List.mem_append.1 hc with hc | hc
    · exact ih hc
    · rw [List.mem_singleton.1 hc]
      exact digit_mem_digits n

theorem length_fixed (k n : Nat) : (fixed k n).length = k := by
  induction k generalizing n with
  | zero => rfl
  | succ k ih => rw [fixed, List.length_append, ih, List.length_singleton]

theorem value?_lt {c : Char} {v : Nat} (h : value? c = some v) : v < 16 := by
  have hbelow {a : Char} (hle : c ≤ a) : c.toNat ≤ a.toNat := hle
  rw [value?] at h
  split at h
  · rename_i hdigit
    have hc : c.toNat ≤ 57 := hbelow hdigit.2
    cases h
    have hzero : '0'.toNat = 48 := rfl
    omega
  · split at h
    · rename_i hlower
      have hc : c.toNat ≤ 102 := hbelow hlower.2
      have ha : 'a'.toNat = 97 := rfl
      cases h
      omega
    · split at h
      · rename_i hupper
        have hc : c.toNat ≤ 70 := hbelow hupper.2
        have ha : 'A'.toNat = 65 := rfl
        cases h
        omega
      · exact nomatch h

theorem number?_lt {cs : List Char} {n : Nat} (h : number? cs = some n) : n < 16 ^ cs.length := by
  induction cs using List.reverseRecOn generalizing n with
  | nil =>
    cases h
    exact Nat.one_pos
  | append_singleton cs c ih =>
    simp only [number?_concat, Option.bind_eq_some_iff, Option.map_eq_some_iff] at h
    obtain ⟨m, hm, v, hv, rfl⟩ := h
    have hfront := ih hm
    have hlast := value?_lt hv
    rw [List.length_append, List.length_singleton, Nat.pow_succ]
    omega

/-- The number is computed from the values of all digits. -/
theorem number?_eq_mapM (cs : List Char) :
    number? cs = (cs.mapM value?).map fun vs => vs.foldl (fun n v => n * 16 + v) 0 := by
  have hfrom : ∀ n, cs.foldlM (fun n c => (value? c).map (n * 16 + ·)) n =
      (cs.mapM value?).map fun vs => vs.foldl (fun n v => n * 16 + v) n := by
    induction cs with
    | nil => exact fun _ => rfl
    | cons c cs ih =>
      intro n
      rw [List.foldlM_cons, List.mapM_cons]
      cases value? c with
      | none => rfl
      | some v =>
        change cs.foldlM _ (n * 16 + v) = _
        rw [ih]
        cases cs.mapM value? <;> rfl
  exact hfrom 0

/-- Zeros in front count for nothing. -/
theorem number?_dropWhile (cs : List Char) :
    number? (cs.dropWhile (· == '0')) = number? cs := by
  induction cs with
  | nil => rfl
  | cons c cs ih =>
    by_cases hc : c = '0'
    · rw [hc, List.dropWhile_cons_of_pos rfl, ih]
      rfl
    · rw [List.dropWhile_cons_of_neg (by simpa using hc)]

theorem length_word_le (w : UInt64) : (word w).length ≤ 16 := by
  have hle := (List.dropWhile_sublist (l := fixed 16 w.toNat) (· == '0')).length_le
  rw [length_fixed] at hle
  rw [word]
  split
  · decide
  · rename_i heq
    rwa [heq] at hle

theorem isNumeral_word (w : UInt64) : IsNumeral (word w) w.toNat := by
  have hlt : w.toNat < 16 ^ 16 := by
    have := w.toNat_lt
    omega
  have hnumber : number? (fixed 16 w.toNat) = some w.toNat := by
    rw [number?_fixed, Nat.mod_eq_of_lt hlt]
  have hlower : ∀ c ∈ fixed 16 w.toNat, c ∈ digits := fun c => mem_digits_of_mem_fixed
  rw [word]
  generalize fixed 16 w.toNat = cs at hnumber hlower
  rw [← number?_dropWhile] at hnumber
  split
  · rename_i hnil
    have hzero : number? [] = number? ['0'] := number?_dropWhile ['0']
    rw [hnil, hzero] at hnumber
    exact ⟨hnumber, List.forall_mem_singleton.2 (digit_mem_digits 0), List.cons_ne_nil _ _,
      fun _ => rfl⟩
  · rename_i c rest heq
    have hhead := List.head?_dropWhile_not (· == '0') cs
    have hsub := (List.dropWhile_sublist (l := cs) (· == '0')).subset
    rw [heq] at hnumber hhead hsub
    refine ⟨hnumber, fun c hc => hlower c (hsub hc), List.cons_ne_nil _ _, fun hzero => ?_⟩
    rw [List.head?_cons, Option.some.injEq] at hzero
    rw [hzero] at hhead
    exact nomatch hhead

/-! ## No choice -/

theorem exists_digit_eq {c : Char} (hc : c ∈ digits) : ∃ n < 16, digit n = c := by
  obtain ⟨n, hn, rfl⟩ := List.mem_iff_getElem.1 hc
  have hlt : n < 16 := hn
  refine ⟨n, hlt, ?_⟩
  rw [digit, Nat.mod_eq_of_lt hlt, List.getD_eq_getElem?_getD, List.getElem?_eq_getElem hn,
    Option.getD_some]

theorem exists_value?_lt {c : Char} (hc : c ∈ digits) : ∃ v < 16, value? c = some v := by
  obtain ⟨n, hn, rfl⟩ := exists_digit_eq hc
  exact ⟨n % 16, Nat.mod_lt _ (by decide), value?_digit n⟩

theorem value?_inj {c d : Char} (hc : c ∈ digits) (hd : d ∈ digits) (h : value? c = value? d) :
    c = d := by
  obtain ⟨n, hn, rfl⟩ := exists_digit_eq hc
  obtain ⟨m, hm, rfl⟩ := exists_digit_eq hd
  rw [value?_digit, value?_digit, Option.some.injEq] at h
  rw [digit, digit, h]

/-- Digits in front of the last are the digits of the quotient. -/
theorem number?_concat_eq_some {cs : List Char} {c : Char} (hc : c ∈ digits) {n : Nat} :
    number? (cs ++ [c]) = some n ↔
      number? cs = some (n / 16) ∧ value? c = some (n % 16) := by
  obtain ⟨v, hv, hvalue⟩ := exists_value?_lt hc
  simp only [number?_concat, hvalue, Option.map_some, Option.bind_eq_some_iff, Option.some.injEq]
  constructor
  · rintro ⟨m, hm, rfl⟩
    exact ⟨hm.trans (congrArg some (by omega)), by omega⟩
  · rintro ⟨hm, rfl⟩
    exact ⟨n / 16, hm, by omega⟩

theorem head?_ne_of_concat {cs : List Char} {c : Char} (h : (cs ++ [c]).head? ≠ some '0') :
    cs.head? ≠ some '0' := fun hzero => h (by rw [List.head?_append, hzero]; rfl)

theorem eq_nil_of_number?_eq_zero {cs : List Char} (hcs : ∀ c ∈ cs, c ∈ digits)
    (hhead : cs.head? ≠ some '0') (hzero : number? cs = some 0) : cs = [] := by
  induction cs using List.reverseRecOn with
  | nil => rfl
  | append_singleton cs c ih =>
    have hc : c ∈ digits := hcs c (by simp)
    obtain ⟨hfront, hlast⟩ := (number?_concat_eq_some hc).1 hzero
    have hnil : cs = [] :=
      ih (fun d hd => hcs d (List.mem_append_left _ hd)) (head?_ne_of_concat hhead) hfront
    have hlead : c = '0' := value?_inj hc (by decide) (hlast.trans rfl)
    rw [hnil, hlead] at hhead
    exact absurd rfl hhead

/-- Digits that do not start with a zero are found from their number, the last one first. -/
theorem eq_of_number?_eq {cs ds : List Char} {n : Nat} (hcs : ∀ c ∈ cs, c ∈ digits)
    (hds : ∀ d ∈ ds, d ∈ digits) (hc : cs.head? ≠ some '0') (hd : ds.head? ≠ some '0')
    (hcn : number? cs = some n) (hdn : number? ds = some n) : cs = ds := by
  induction cs using List.reverseRecOn generalizing ds n with
  | nil =>
    cases hcn
    exact (eq_nil_of_number?_eq_zero hds hd hdn).symm
  | append_singleton cs c ih =>
    rcases List.eq_nil_or_concat ds with rfl | ⟨ds, d, rfl⟩
    · cases hdn
      exact eq_nil_of_number?_eq_zero hcs hc hcn
    · rw [List.concat_eq_append] at *
      have hcmem : c ∈ digits := hcs c (by simp)
      have hdmem : d ∈ digits := hds d (by simp)
      obtain ⟨hcfront, hclast⟩ := (number?_concat_eq_some hcmem).1 hcn
      obtain ⟨hdfront, hdlast⟩ := (number?_concat_eq_some hdmem).1 hdn
      have hfront : cs = ds := ih (fun x hx => hcs x (List.mem_append_left _ hx))
        (fun x hx => hds x (List.mem_append_left _ hx)) (head?_ne_of_concat hc)
        (head?_ne_of_concat hd) hcfront hdfront
      rw [hfront, value?_inj hcmem hdmem (hclast.trans hdlast.symm)]

theorem IsNumeral.unique {cs ds : List Char} {n : Nat} (hc : IsNumeral cs n)
    (hd : IsNumeral ds n) : cs = ds := by
  have hlone : ∀ {cs ds : List Char}, IsNumeral cs n → IsNumeral ds n → cs.head? = some '0' →
      cs = ds := by
    intro cs ds hc hd hzero
    have hcs := hc.shortest hzero
    have hn : number? ds = some 0 := by rw [hd.number?_eq, ← hc.number?_eq, hcs]; rfl
    by_cases hhead : ds.head? = some '0'
    · rw [hcs, hd.shortest hhead]
    · exact absurd (eq_nil_of_number?_eq_zero hd.lower hhead hn) hd.ne_nil
  by_cases hchead : cs.head? = some '0'
  · exact hlone hc hd hchead
  · by_cases hdhead : ds.head? = some '0'
    · exact (hlone hd hc hdhead).symm
    · exact eq_of_number?_eq hc.lower hd.lower hchead hdhead hc.number?_eq hd.number?_eq

/-! ## Bytes -/

theorem bytes_ofList (cs : List Char) :
    bytes (String.ofList cs) = cs.flatMap String.utf8EncodeChar := by
  simp [bytes, List.utf8Encode]

theorem length_bytes_ofList_le (cs : List Char) :
    (bytes (String.ofList cs)).length ≤ 4 * cs.length := by
  rw [bytes_ofList]
  induction cs with
  | nil => exact Nat.le_refl _
  | cons c cs ih =>
    have hc := c.utf8Size_le_four
    rw [List.flatMap_cons, List.length_append, String.length_utf8EncodeChar, List.length_cons]
    omega

end PinnedHeap.Text.Hex
