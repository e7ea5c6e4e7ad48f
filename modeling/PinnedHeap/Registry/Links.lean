import PinnedHeap.Registry.Basic

/-!
# Walking the links of a registry

The handles of a registry are listed by following the links from either end.  A
walk may meet a link that leads nowhere, so it reports where it left the arena
beside the handles it passed.

`verify` says whether links and index fit together.  It follows the links
forward and compares each record with its neighbour, with the index and with
the tail, and then counts the records backward.  It is defined on every value,
also where links are cyclic or lead out of the arena: the forward walk passes at
most one record more than the index holds, and the backward walk is cut at that
length.
-/

namespace PinnedHeap.Registry

variable {H : Type} [Ord H]

/-! ## Walks -/

/-- Which of its two neighbours comes after a record. -/
inductive Direction where
  /-- From the head to the tail. -/
  | forward
  /-- From the tail to the head. -/
  | backward
deriving DecidableEq

/-- The link of a record in a direction. -/
def Record.link (rec : Record H) : Direction → Option Nat
  | .forward => rec.next
  | .backward => rec.prev

/-- What a walk along the links found. -/
structure Trail (H : Type) where
  /-- Handles of the records passed, in order. -/
  handles : List H
  /-- Where the walk left the arena, if it did. -/
  stray : Option Nat

/-- Follows the links from a slot, over at most the given number of records.  A
walk ends at a slot without a record. -/
def walk (r : Registry H) (d : Direction) : Nat → Option Nat → Trail H
  | 0, _ => ⟨[], none⟩
  | _ + 1, none => ⟨[], none⟩
  | n + 1, some i =>
    match r.slots[i]? with
    | none => ⟨[], some i⟩
    | some (.vacant _ _) => ⟨[], none⟩
    | some (.occupied _ rec) =>
      let rest := r.walk d n (rec.link d)
      ⟨rec.handle :: rest.handles, rest.stray⟩

/-- The handles that are held, in the order of their first hold. -/
def toList (r : Registry H) : List H := (r.walk .forward r.slots.size r.head).handles

/-- The handles that are held, the one held last first. -/
def toListRev (r : Registry H) : List H := (r.walk .backward r.slots.size r.tail).handles

/-- The handles that are held with their counts, in the order of their first
hold. -/
def counts (r : Registry H) : List (H × Nat) := r.toList.map fun h => (h, r.count h)

/-! ## Checking -/

/-- Follows the links forward and checks each record.  `left` is how many more
records the index has.  The result is the last slot and the number of records. -/
def checkForward (r : Registry H) :
    (left seen : Nat) → (prev cursor : Option Nat) → Except Defect (Option Nat × Nat)
  | _, seen, prev, none => .ok (prev, seen)
  | left, seen, prev, some i =>
    match r.record? i with
    | none => .error (.notOccupied i)
    | some rec =>
      if rec.prev ≠ prev then .error (.wrongPrevious i rec.prev prev)
      else if rec.count = 0 then .error (.zeroCount i)
      else if r.byHandle[rec.handle]? ≠ some i then .error (.notIndexed i)
      else match left with
        | 0 => .error .tooLong
        | left + 1 => r.checkForward left (seen + 1) (some i) rec.next

/-- Counts the records backward. -/
def checkBackward (r : Registry H) : Except Defect Unit :=
  let trail := r.walk .backward (r.size + 1) r.tail
  match trail.stray with
  | some i => .error (.outside i)
  | none => if trail.handles.length = r.size then .ok () else .error .backwardLength

/-- Follows the links in both directions.  Fails with the first defect found. -/
def inspect (r : Registry H) : Except Defect Unit := do
  let (last, seen) ← r.checkForward r.size 0 none r.head
  if last ≠ r.tail then .error (.wrongTail last r.tail)
  else if seen ≠ r.size then .error (.tooShort seen r.size)
  else r.checkBackward

/-- Whether links and index fit together. -/
def verify (r : Registry H) : Except (Error H) Unit :=
  r.inspect.mapError Error.corruptLinks

end PinnedHeap.Registry
