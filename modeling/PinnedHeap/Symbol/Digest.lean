import PinnedHeap.Digest.Sha256
import PinnedHeap.Symbol.Table
import PinnedHeap.Text.Hex

/-!
# Digests of symbol tables

The digest of a table is the SHA-256 digest of its entries in their order.  Each
name is preceded by its length, so no two tables have the same sequence of bytes.
-/

namespace PinnedHeap.Symbol.Table

/-- The length of a name as a word of 64 bits, the low byte first. -/
def lengthBytes (n : Nat) : List UInt8 := (Digest.Sha256.bytesOf 8 n).reverse

/-- A name with its length in front. -/
def nameBytes (name : String) : List UInt8 :=
  let bs := Text.bytes name
  lengthBytes bs.length ++ bs

/-- The bytes that stand for a table. -/
def digestInput (t : Table) : List UInt8 :=
  t.entries.toList.flatMap fun e => nameBytes e.raw ++ nameBytes e.qualified

/-- The digest of a table in hexadecimal digits. -/
def digest (t : Table) : String :=
  String.ofList (Text.Hex.ofBytes (Digest.Sha256.digest t.digestInput))

end PinnedHeap.Symbol.Table
