import PinnedHeap.Manifest.Fault
import PinnedHeap.Text.Numeral

/-!
# Numbers in manifests

A manifest has no numbers.  One that stands there all the same is read to its end,
so that a number that is not well formed is told from one that is merely out of
place.

A number is an integer part, and optionally a fraction and an exponent.  Only the
integer part `0` begins with a zero.  A number that is too large for a
floating-point number of 64 bits is not well formed either.  Its size is judged as
it would be computed: as many digits as fit in a word of 64 bits are collected in
a significand, the significand and a power of ten are each rounded to 53 bits, and
their product has to stay below the largest finite value plus half its last place.
-/

namespace PinnedHeap.Manifest.Number

open Text.Numeral

/-! ## Scanning -/

/-- The digits at the front of a text, of which there has to be one. -/
def digits (cs : List Char) : Except Fault (List Char × List Char) :=
  match cs with
  | [] => .error .truncated
  | c :: _ =>
    if isDigit c then .ok (cs.takeWhile isDigit, cs.dropWhile isDigit) else .error .malformed

/-- The parts of a number.  The exponent has a flag that says whether it counts
upward. -/
structure Parts where
  /-- Digits of the integer part. -/
  whole : List Char
  /-- Digits of the fraction. -/
  fraction : List Char
  /-- Direction and digits of the exponent. -/
  exponent : Option (Bool × List Char)

/-- The digits of the integer part. -/
def whole (cs : List Char) : Except Fault (List Char × List Char) := do
  let (ds, rest) ← digits cs
  match ds with
  | '0' :: _ :: _ => .error .malformed
  | _ => .ok (ds, rest)

/-- The digits of the fraction, if there is one. -/
def fraction : List Char → Except Fault (List Char × List Char)
  | '.' :: rest => digits rest
  | cs => .ok ([], cs)

/-- The direction of an exponent and what follows it. -/
def direction : List Char → Bool × List Char
  | '+' :: rest => (true, rest)
  | '-' :: rest => (false, rest)
  | cs => (true, cs)

/-- The exponent, if there is one. -/
def exponent : List Char → Except Fault (Option (Bool × List Char))
  | [] => .ok none
  | c :: rest =>
    if c = 'e' ∨ c = 'E' then do
      let (up, rest) := direction rest
      let (ds, _) ← digits rest
      .ok (some (up, ds))
    else .ok none

/-- The parts of the number at the front of a text, its sign not counted. -/
def scan (cs : List Char) : Except Fault Parts := do
  let (w, rest) ← whole cs
  let (f, rest) ← fraction rest
  let e ← exponent rest
  .ok ⟨w, f, e⟩

/-! ## Range -/

/-- Collects digits in a significand as long as it fits in 64 bits.  The rest is
the digits that were not collected. -/
def collect : Nat → List Char → Nat × List Char
  | s, [] => (s, [])
  | s, c :: cs =>
    let s' := s * 10 + digitValue c
    if s' < wordBound then collect s' cs else (s, c :: cs)

/-- A number rounded to 53 bits, a half going to the even neighbour. -/
def round53 (n : Nat) : Nat :=
  let unit := Nat.pow 2 (n.log2 - 52)
  let q := n / unit
  let r := n % unit
  if unit < 2 * r ∨ (unit = 2 * r ∧ q % 2 = 1) then (q + 1) * unit else q * unit

/-- Products from this bound on are not finite. -/
def finiteBound : Nat := (Nat.pow 2 54 - 1) * Nat.pow 2 970

/-- Whether a significand times a power of ten is too large. -/
def tooLarge (significand : Nat) (exponent : Int) : Bool :=
  significand ≠ 0 && 0 ≤ exponent &&
    (309 ≤ exponent || finiteBound ≤ round53 significand * round53 (Nat.pow 10 exponent.toNat))

/-- Exponents are collected in 31 bits. -/
def exponentBound : Nat := halfBound

/-- Whether a number is too large. -/
def Parts.tooLarge (p : Parts) : Bool :=
  let (s, uncollected) := collect 0 p.whole
  let (s, ignored) := collect s p.fraction
  let places : Int := uncollected.length - (p.fraction.length - ignored.length : Nat)
  match p.exponent with
  | none => Number.tooLarge s places
  | some (up, ds) =>
    let e := value ds
    if exponentBound ≤ e then up && s ≠ 0
    else Number.tooLarge s (if up then places + e else places - e)

/-- What is wrong with a number in a manifest, its sign not counted. -/
def fault (cs : List Char) : Fault :=
  match scan cs with
  | .error f => f
  | .ok p => if p.tooLarge then .malformed else .mistyped

example : fault ['1', '.', '5', 'e', '3'] = .mistyped := by decide +kernel
example : fault ['0', '1'] = .malformed := by decide +kernel
example : fault ['1', '.'] = .truncated := by decide +kernel
example : fault ['1', 'e', '3', '0', '9'] = .malformed := by decide +kernel
example : fault ['0', 'e', '9', '9', '9'] = .mistyped := by decide +kernel

end PinnedHeap.Manifest.Number
