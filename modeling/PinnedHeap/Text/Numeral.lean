/-!
# Decimal numerals

A numeral is a sequence of ASCII digits, with at least one digit and any number
of leading zeros.  An unsigned numeral may follow a plus sign.  A signed one may
follow a plus or a minus sign.  Nothing else is allowed, in particular no white
space.  The value has to lie within the bounds the reader is given.
-/

namespace PinnedHeap.Text.Numeral

/-- Whether a character is an ASCII digit. -/
def isDigit (c : Char) : Bool := '0' ≤ c && c ≤ '9'

/-- The value of an ASCII digit. -/
def digitValue (c : Char) : Nat := c.toNat - '0'.toNat

/-- The value of a sequence of digits. -/
def value (cs : List Char) : Nat := cs.foldl (fun n c => n * 10 + digitValue c) 0

/-- Reads digits, at least one of them. -/
def digits? (cs : List Char) : Option Nat :=
  if !cs.isEmpty && cs.all isDigit then some (value cs) else none

/-- Reads an unsigned numeral below a bound. -/
def unsigned? (bound : Nat) (cs : List Char) : Option Nat :=
  let digits := match cs with
    | '+' :: rest => rest
    | _ => cs
  (digits? digits).filter (· < bound)

/-- Reads a signed numeral from `-bound` on and below `bound`. -/
def signed? (bound : Nat) (cs : List Char) : Option Int :=
  match cs with
  | '-' :: rest => ((digits? rest).filter (· ≤ bound)).map fun n => -(n : Int)
  | '+' :: rest => ((digits? rest).filter (· < bound)).map Int.ofNat
  | _ => ((digits? cs).filter (· < bound)).map Int.ofNat

/-- Values of unsigned machine words are below this bound. -/
def wordBound : Nat := 18446744073709551616

/-- Values of signed 32-bit words are from minus this bound on and below it. -/
def halfBound : Nat := 2147483648

example : unsigned? 100 ['+', '0', '9', '9'] = some 99 := by decide
example : unsigned? 100 ['1', '0', '0'] = none := by decide
example : unsigned? 100 ['-', '0'] = none := by decide
example : signed? 128 ['-', '1', '2', '8'] = some (-128) := by decide
example : signed? 128 ['1', '2', '8'] = none := by decide

end PinnedHeap.Text.Numeral
