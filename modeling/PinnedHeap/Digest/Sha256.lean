/-!
# SHA-256

The digest of a sequence of bytes.  The message is padded to a whole number of
blocks of 64 bytes: the byte `0x80`, then zeros, then the length of the message
in bits as a word of 64 bits.  Each block is absorbed into a state of eight words
in 64 rounds.  All words are written with the high byte first.

The words that the rounds take are made as they are needed.  A *window* holds the
next sixteen of them.
-/

namespace PinnedHeap.Digest.Sha256

/-! ## Words -/

/-- A word rotated to the right. -/
def rotate (w : UInt32) (n : UInt32) : UInt32 := (w >>> n) ||| (w <<< (32 - n))

/-- The word with the given bytes. -/
def wordOf (bs : List UInt8) : UInt32 := bs.foldl (fun w b => (w <<< 8) ||| b.toUInt32) 0

/-- The lowest bytes of a number, so many of them, the high byte first. -/
def bytesOf : Nat → Nat → List UInt8
  | 0, _ => []
  | k + 1, n => bytesOf k (n / 256) ++ [UInt8.ofNat n]

/-- The words of a sequence of bytes, of which there are four for each word. -/
def wordsOf : Nat → List UInt8 → List UInt32
  | 0, _ => []
  | k + 1, bs => wordOf (bs.take 4) :: wordsOf k (bs.drop 4)

/-! ## Constants -/

/-- The constants of the rounds. -/
def roundConstants : List UInt32 :=
  [0x428a2f98, 0x71374491, 0xb5c0fbcf, 0xe9b5dba5, 0x3956c25b, 0x59f111f1, 0x923f82a4, 0xab1c5ed5,
    0xd807aa98, 0x12835b01, 0x243185be, 0x550c7dc3, 0x72be5d74, 0x80deb1fe, 0x9bdc06a7, 0xc19bf174,
    0xe49b69c1, 0xefbe4786, 0x0fc19dc6, 0x240ca1cc, 0x2de92c6f, 0x4a7484aa, 0x5cb0a9dc, 0x76f988da,
    0x983e5152, 0xa831c66d, 0xb00327c8, 0xbf597fc7, 0xc6e00bf3, 0xd5a79147, 0x06ca6351, 0x14292967,
    0x27b70a85, 0x2e1b2138, 0x4d2c6dfc, 0x53380d13, 0x650a7354, 0x766a0abb, 0x81c2c92e, 0x92722c85,
    0xa2bfe8a1, 0xa81a664b, 0xc24b8b70, 0xc76c51a3, 0xd192e819, 0xd6990624, 0xf40e3585, 0x106aa070,
    0x19a4c116, 0x1e376c08, 0x2748774c, 0x34b0bcb5, 0x391c0cb3, 0x4ed8aa4a, 0x5b9cca4f, 0x682e6ff3,
    0x748f82ee, 0x78a5636f, 0x84c87814, 0x8cc70208, 0x90befffa, 0xa4506ceb, 0xbef9a3f7, 0xc67178f2]

/-- The state of a digest under way. -/
structure State where
  /-- First word. -/
  a : UInt32
  /-- Second word. -/
  b : UInt32
  /-- Third word. -/
  c : UInt32
  /-- Fourth word. -/
  d : UInt32
  /-- Fifth word. -/
  e : UInt32
  /-- Sixth word. -/
  f : UInt32
  /-- Seventh word. -/
  g : UInt32
  /-- Eighth word. -/
  h : UInt32
deriving DecidableEq

/-- The state before the first block. -/
def State.initial : State :=
  ⟨0x6a09e667, 0xbb67ae85, 0x3c6ef372, 0xa54ff53a, 0x510e527f, 0x9b05688c, 0x1f83d9ab, 0x5be0cd19⟩

/-! ## Rounds -/

/-- The window after its first word is used. -/
def nextWindow (window : List UInt32) : List UInt32 :=
  let old := window.getD 0 0
  let early := window.getD 1 0
  let late := window.getD 14 0
  let s0 := rotate early 7 ^^^ rotate early 18 ^^^ (early >>> 3)
  let s1 := rotate late 17 ^^^ rotate late 19 ^^^ (late >>> 10)
  window.drop 1 ++ [old + s0 + window.getD 9 0 + s1]

/-- One round, with its constant and its word. -/
def State.round (s : State) (k w : UInt32) : State :=
  let s1 := rotate s.e 6 ^^^ rotate s.e 11 ^^^ rotate s.e 25
  let choice := (s.e &&& s.f) ^^^ (~~~s.e &&& s.g)
  let t1 := s.h + s1 + choice + k + w
  let s0 := rotate s.a 2 ^^^ rotate s.a 13 ^^^ rotate s.a 22
  let majority := (s.a &&& s.b) ^^^ (s.a &&& s.c) ^^^ (s.b &&& s.c)
  ⟨t1 + s0 + majority, s.a, s.b, s.c, s.d + t1, s.e, s.f, s.g⟩

/-- Rounds with the given constants and the words of a window. -/
def State.rounds : List UInt32 → List UInt32 → State → State
  | [], _, s => s
  | k :: ks, window, s => rounds ks (nextWindow window) (s.round k (window.getD 0 0))

/-- The sums of the words of two states. -/
def State.add (s t : State) : State :=
  ⟨s.a + t.a, s.b + t.b, s.c + t.c, s.d + t.d, s.e + t.e, s.f + t.f, s.g + t.g, s.h + t.h⟩

/-- Absorbs one block. -/
def State.absorb (s : State) (block : List UInt8) : State :=
  s.add (State.rounds roundConstants (wordsOf 16 block) s)

/-- Absorbs so many blocks. -/
def State.absorbAll : Nat → List UInt8 → State → State
  | 0, _, s => s
  | n + 1, bs, s => absorbAll n (bs.drop 64) (s.absorb (bs.take 64))

/-- The bytes of a state. -/
def State.bytes (s : State) : List UInt8 :=
  [s.a, s.b, s.c, s.d, s.e, s.f, s.g, s.h].flatMap fun w => bytesOf 4 w.toNat

/-! ## Digests -/

/-- A message of whole blocks. -/
def pad (message : List UInt8) : List UInt8 :=
  let zeros := (119 - message.length % 64) % 64
  message ++ 0x80 :: List.replicate zeros 0 ++ bytesOf 8 (message.length * 8)

/-- The digest of a message, 32 bytes. -/
def digest (message : List UInt8) : List UInt8 :=
  let padded := pad message
  (State.absorbAll (padded.length / 64) padded State.initial).bytes

example : (digest []).take 4 = [0xe3, 0xb0, 0xc4, 0x42] := by decide +kernel
example : (digest [97, 98, 99]).take 4 = [0xba, 0x78, 0x16, 0xbf] := by decide +kernel

end PinnedHeap.Digest.Sha256
