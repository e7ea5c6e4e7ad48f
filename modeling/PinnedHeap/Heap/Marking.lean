import PinnedHeap.Heap.Basic

/-!
# Marking

Marking visits what can be reached from a worklist of references.  A step takes
the reference on top.  If it names a live object that is not marked, the object
is marked and its references are put on top, the last one uppermost.  Any other
reference is dropped: it is stale, was never issued, or was visited before.

A step removes one reference and adds those of an object that was unmarked until
then.  So the number of steps is at most the length of the worklist plus the
references of all unmarked objects (`Marking.bound`).  `Marking.finish` takes
that many steps, by structural recursion on their number.

`Marking.traced` records whose references were read, the latest first.  It is
the evidence that no object is asked twice.
-/

namespace PinnedHeap.Heap

variable {α : Type} [HeapObject α]

/-! ## Slots under marking -/

/-- A slot with its mark set as given.  A free slot has no mark. -/
def Slot.withMark (marked : Bool) : Slot α → Slot α
  | .live g header x => .live g { header with marked } x
  | .free g nextFree => .free g nextFree

/-- The references of the object in a slot. -/
def Slot.refs : Slot α → List Ref
  | .live _ _ x => HeapObject.refs x
  | .free _ _ => []

/-- The number of references that marking a slot would add to the worklist. -/
def Slot.unmarkedRefs : Slot α → Nat
  | .live _ header x => if header.marked then 0 else (HeapObject.refs x).length
  | .free _ _ => 0

/-! ## Steps -/

/-- The state of a marking: the arena, what is still to be visited, and the
objects whose references were read. -/
structure Marking (α : Type) where
  /-- The arena with the marks set so far. -/
  slots : Array (Slot α)
  /-- References still to be visited, the next one first. -/
  worklist : List Ref
  /-- Objects whose references were read, the latest first. -/
  traced : List Ref := []

namespace Marking

/-- A worklist with more references on top, the last one uppermost. -/
def push (worklist more : List Ref) : List Ref := more.foldl (fun top r => r :: top) worklist

/-- Visits the reference on top of the worklist. -/
def step (m : Marking α) : Marking α :=
  match m with
  | ⟨slots, [], traced⟩ => ⟨slots, [], traced⟩
  | ⟨slots, r :: rest, traced⟩ =>
    match slots[r.index.toNat]? with
    | some (.live g header x) =>
      if g = r.generation ∧ header.marked = false then
        { slots := slots.setIfInBounds r.index.toNat (.live g { header with marked := true } x)
          worklist := push rest (HeapObject.refs x)
          traced := r :: traced }
      else ⟨slots, rest, traced⟩
    | _ => ⟨slots, rest, traced⟩

/-- Takes at most the given number of steps, fewer if the worklist runs empty. -/
def run : Nat → Marking α → Marking α
  | 0, m => m
  | n + 1, m => if m.worklist.isEmpty then m else run n m.step

/-- A number of steps after which the worklist is empty. -/
def bound (m : Marking α) : Nat :=
  m.worklist.length + m.slots.toList.foldr (fun s n => s.unmarkedRefs + n) 0

/-- Visits everything that can be reached from the worklist. -/
def finish (m : Marking α) : Marking α := m.run m.bound

/-- A worklist that grows is a worklist with the new references in reverse. -/
theorem push_eq (worklist more : List Ref) : push worklist more = more.reverse ++ worklist := by
  induction more generalizing worklist with
  | nil => rfl
  | cons r rest ih =>
    have h := ih (r :: worklist)
    simp only [push, List.foldl_cons, List.reverse_cons, List.append_assoc] at h ⊢
    exact h

end Marking

end PinnedHeap.Heap
