import Std.Data.TreeMap
import PinnedHeap.Generation
import PinnedHeap.Registry.Error

/-!
# The registry of pinned references

Foreign code may hold a handle while managed code runs.  The registry counts the
holds of each handle and keeps the handles in the order in which they were first
pinned.

A handle that is held has one record, in a slot of an arena.  The records are
linked in both directions, with `head` and `tail` at the ends.  The first hold
appends a record at the tail, a further hold only counts, and the release of the
last hold unlinks the record.  Its slot goes to the next generation and to the
front of the free list, so a token of the old record finds nothing.  `byHandle`
leads from a handle to the slot of its record.

The count of a record has to fit in 32 bits, and so has the index of a slot.
-/

namespace PinnedHeap

namespace Registry

/-- The holds of one handle, and the neighbours of the record. -/
structure Record (H : Type) where
  /-- The handle. -/
  handle : H
  /-- Number of holds. -/
  count : Nat
  /-- Slot of the record before this one. -/
  prev : Option Nat
  /-- Slot of the record after this one. -/
  next : Option Nat
deriving DecidableEq

/-- A place of the arena. -/
inductive Slot (H : Type) where
  /-- A slot that holds a record. -/
  | occupied (generation : Generation) (record : Record H)
  /-- A slot that waits for the next record. -/
  | vacant (generation : Generation) (nextFree : Option Nat)
deriving DecidableEq

/-- Counts of holds are below this bound. -/
def countLimit : Nat := 4294967296

/-- Indices of slots are below this bound. -/
def indexLimit : Nat := 4294967296

end Registry

/-- The foreign holds on handles, in the order of their first hold. -/
structure Registry (H : Type) [Ord H] where
  /-- The arena. -/
  slots : Array (Registry.Slot H) := #[]
  /-- First slot of the free list. -/
  freeHead : Option Nat := none
  /-- Slot of the first record. -/
  head : Option Nat := none
  /-- Slot of the last record. -/
  tail : Option Nat := none
  /-- The slot of each handle that is held. -/
  byHandle : Std.TreeMap H Nat := {}

namespace Registry

variable {H : Type} [Ord H]

/-! ## Looking up -/

/-- Number of handles that are held. -/
def size (r : Registry H) : Nat := r.byHandle.size

/-- Whether no handle is held. -/
def isEmpty (r : Registry H) : Bool := r.byHandle.isEmpty

/-- Whether a handle is held. -/
def contains (r : Registry H) (h : H) : Bool := r.byHandle.contains h

/-- The record in a slot. -/
def record? (r : Registry H) (i : Nat) : Option (Record H) :=
  match r.slots[i]? with
  | some (.occupied _ rec) => some rec
  | _ => none

/-- Number of holds of a handle. -/
def count (r : Registry H) (h : H) : Nat :=
  ((r.byHandle[h]?.bind r.record?).map Record.count).getD 0

/-- The generation and the record of a slot that has to hold one. -/
def occupant (r : Registry H) (i : Nat) : Except (Error H) (Generation × Record H) :=
  match r.slots[i]? with
  | some (.occupied g rec) => .ok (g, rec)
  | some (.vacant _ _) => .error (.corruptLinks (.vacant i))
  | none => .error (.corruptLinks (.outside i))

/-! ## Links -/

/-- The registry with another record in a slot. -/
def setRecord (r : Registry H) (i : Nat) (g : Generation) (rec : Record H) : Registry H :=
  { r with slots := r.slots.setIfInBounds i (.occupied g rec) }

/-- Lets the record at `place` point forward at `target`.  Where there is no
record, `target` is the head. -/
def linkForward (r : Registry H) (place target : Option Nat) : Except (Error H) (Registry H) :=
  match place with
  | none => .ok { r with head := target }
  | some i => do
    let (g, rec) ← r.occupant i
    .ok (r.setRecord i g { rec with next := target })

/-- Lets the record at `place` point backward at `target`.  Where there is no
record, `target` is the tail. -/
def linkBackward (r : Registry H) (place target : Option Nat) : Except (Error H) (Registry H) :=
  match place with
  | none => .ok { r with tail := target }
  | some i => do
    let (g, rec) ← r.occupant i
    .ok (r.setRecord i g { rec with prev := target })

/-! ## Holding -/

/-- Puts a record into the first free slot, or else into a new one. -/
def place (r : Registry H) (rec : Record H) : Except (Error H) (Nat × Generation × Registry H) :=
  match r.freeHead with
  | some i =>
    match r.slots[i]? with
    | some (.vacant g nextFree) => .ok (i, g, { r.setRecord i g rec with freeHead := nextFree })
    | some (.occupied _ _) => .error (.corruptLinks (.freeListOccupied i))
    | none => .error (.corruptLinks (.outside i))
  | none =>
    if r.slots.size < indexLimit then
      let g := Generation.first
      .ok (r.slots.size, g, { r with slots := r.slots.push (.occupied g rec) })
    else .error (.corruptLinks .exhausted)

/-- One more hold of a handle whose record is in the given slot. -/
def countUp (r : Registry H) (h : H) (i : Nat) : Except (Error H) (Token × Registry H) := do
  let (g, rec) ← r.occupant i
  if rec.count + 1 < countLimit then
    .ok (⟨UInt32.ofNat i, g⟩, r.setRecord i g { rec with count := rec.count + 1 })
  else .error (.countOverflow h)

/-- The first hold of a handle. -/
def append (r : Registry H) (h : H) : Except (Error H) (Token × Registry H) := do
  let (i, g, placed) ← r.place { handle := h, count := 1, prev := r.tail, next := none }
  let linked ← placed.linkForward r.tail (some i)
  .ok (⟨UInt32.ofNat i, g⟩,
    { linked with tail := some i, byHandle := linked.byHandle.insert h i })

/-- Holds a handle once more. -/
def acquire (r : Registry H) (h : H) : Except (Error H) (Token × Registry H) :=
  match r.byHandle[h]? with
  | some i => r.countUp h i
  | none => r.append h

/-! ## Releasing -/

/-- Takes the record of a slot out of the links and frees the slot. -/
def unlink (r : Registry H) (i : Nat) (g : Generation) (rec : Record H) :
    Except (Error H) (Registry H) := do
  let ahead ← r.linkForward rec.prev rec.next
  let both ← ahead.linkBackward rec.next rec.prev
  .ok { both with
    slots := both.slots.setIfInBounds i (.vacant g.next both.freeHead)
    freeHead := some i
    byHandle := both.byHandle.erase rec.handle }

/-- One hold less for the record in a slot. -/
def countDown (r : Registry H) (i : Nat) : Except (Error H) (Registry H) := do
  let (g, rec) ← r.occupant i
  match rec.count with
  | 0 => .error (.corruptLinks (.zeroCount i))
  | 1 => r.unlink i g rec
  | n + 2 => .ok (r.setRecord i g { rec with count := n + 1 })

/-- Releases one hold by its token. -/
def release (r : Registry H) (t : Token) : Except (Error H) (Registry H) :=
  match r.slots[t.slot.toNat]? with
  | some (.occupied g _) =>
    if g = t.generation then r.countDown t.slot.toNat else .error (.unknownToken t)
  | _ => .error (.unknownToken t)

/-- Releases one hold by its handle. -/
def releaseHandle (r : Registry H) (h : H) : Except (Error H) (Registry H) :=
  match r.byHandle[h]? with
  | some i => r.countDown i
  | none => .error (.unknownHandle h)

end Registry

end PinnedHeap
