import Std.Data.TreeMap
import PinnedHeap.Text.Bytes

/-!
# Symbol tables

A symbol table gives the qualified names of native procedures.  It holds one
entry for each raw name, in the order of the bytes of the raw names, so that a
name is found by binary search.

Tables are built from pairs of a raw and a qualified name.  The pairs may come in
any order, and a pair may be repeated.  Two pairs that give one raw name different
qualified names are a conflict.  The conflict reported is the first one met when
the pairs are read in order.  Two tables are merged by reading the entries of the
one and then those of the other.

A name to be looked up is a sequence of bytes, which need not be valid UTF-8.
-/

namespace PinnedHeap.Symbol

/-- A raw name and what it is called. -/
structure Entry where
  /-- Name of the native procedure. -/
  raw : String
  /-- Qualified name. -/
  qualified : String
deriving DecidableEq

/-- Two pairs that disagree on a raw name. -/
structure Conflict where
  /-- The raw name. -/
  raw : String
  /-- The qualified name given first. -/
  first : String
  /-- The qualified name that disagrees with it. -/
  second : String
deriving DecidableEq

/-- The message of a conflict. -/
def Conflict.message (c : Conflict) : String :=
  "conflicting names for native symbol `" ++ c.raw ++ "`: `" ++ c.first ++ "` and `" ++
    c.second ++ "`"

/-- The order of texts by their bytes. -/
def byteOrder : String → String → Ordering := compareOn Text.bytes

instance : Std.TransCmp byteOrder := inferInstanceAs (Std.TransCmp (compareOn Text.bytes))

instance : Std.LawfulEqCmp byteOrder where
  eq_of_compare h := Text.bytes_inj.1 (Std.LawfulEqOrd.eq_of_compare h)

/-- A symbol table. -/
structure Table where
  /-- The entries in the order of the bytes of their raw names. -/
  entries : Array Entry := #[]
deriving DecidableEq

namespace Table

/-! ## Building -/

/-- Qualified names by raw name. -/
abbrev Names := Std.TreeMap String String byteOrder

/-- Adds a pair to the names read so far. -/
def addPair (names : Names) (pair : String × String) : Except Conflict Names :=
  match names[pair.1]? with
  | some first => if first = pair.2 then .ok names else .error ⟨pair.1, first, pair.2⟩
  | none => .ok (names.insert pair.1 pair.2)

/-- The table with the given names. -/
def ofNames (names : Names) : Table := ⟨(names.toList.map fun p => ⟨p.1, p.2⟩).toArray⟩

/-- The table of the given pairs. -/
def ofPairs (pairs : List (String × String)) : Except Conflict Table :=
  (pairs.foldlM addPair {}).map ofNames

/-! ## Looking up -/

/-- Number of entries. -/
def size (t : Table) : Nat := t.entries.size

/-- The pairs of a table. -/
def toPairs (t : Table) : List (String × String) :=
  t.entries.toList.map fun e => (e.raw, e.qualified)

/-- Searches the entries from `lo` on and before `hi` for a name, in a number of
halvings. -/
def search (entries : Array Entry) (name : List UInt8) : Nat → (lo hi : Nat) → Option Entry
  | 0, _, _ => none
  | n + 1, lo, hi =>
    if lo < hi then
      let mid := lo + (hi - lo) / 2
      match entries[mid]? with
      | some e =>
        match compare (Text.bytes e.raw) name with
        | .lt => search entries name n (mid + 1) hi
        | .eq => some e
        | .gt => search entries name n lo mid
      | none => none
    else none

/-- The qualified name of a raw name. -/
def resolve? (t : Table) (name : List UInt8) : Option String :=
  (search t.entries name (t.entries.size.log2 + 1) 0 t.entries.size).map Entry.qualified

/-! ## Merging -/

/-- The entries of two tables. -/
def merge (t u : Table) : Except Conflict Table := ofPairs (t.toPairs ++ u.toPairs)

example : ((ofPairs [("b", "B"), ("a", "A"), ("b", "B")]).map toPairs).toOption =
    some [("a", "A"), ("b", "B")] := by decide +kernel

end Table

end PinnedHeap.Symbol
