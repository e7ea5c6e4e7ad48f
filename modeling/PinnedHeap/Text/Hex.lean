/-!
# Hexadecimal digits

Numbers and bytes in lower-case hexadecimal digits.  A number is written without
leading zeros, except that zero is one digit.  A byte is always two digits.
-/

namespace PinnedHeap.Text.Hex

/-- The digits in order of their values. -/
def digits : List Char :=
  ['0', '1', '2', '3', '4', '5', '6', '7', '8', '9', 'a', 'b', 'c', 'd', 'e', 'f']

/-- The digit of a value below sixteen. -/
def digit (n : Nat) : Char := digits.getD (n % 16) '0'

/-- The value of a digit, in either case. -/
def value? (c : Char) : Option Nat :=
  if '0' ≤ c ∧ c ≤ '9' then some (c.toNat - '0'.toNat)
  else if 'a' ≤ c ∧ c ≤ 'f' then some (c.toNat - 'a'.toNat + 10)
  else if 'A' ≤ c ∧ c ≤ 'F' then some (c.toNat - 'A'.toNat + 10)
  else none

/-- The lowest digits of a number, so many of them, the highest first. -/
def fixed : Nat → Nat → List Char
  | 0, _ => []
  | k + 1, n => fixed k (n / 16) ++ [digit n]

/-- A word without leading zeros. -/
def word (w : UInt64) : List Char :=
  match (fixed 16 w.toNat).dropWhile (· == '0') with
  | [] => ['0']
  | c :: rest => c :: rest

/-- Bytes, two digits each. -/
def ofBytes (bs : List UInt8) : List Char := bs.flatMap fun b => fixed 2 b.toNat

example : word 0 = ['0'] := by decide
example : word 4096 = ['1', '0', '0', '0'] := by decide
example : ofBytes [0, 255, 16] = ['0', '0', 'f', 'f', '1', '0'] := by decide

end PinnedHeap.Text.Hex
