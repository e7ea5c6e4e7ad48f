import PinnedHeap.Heap.Marking

/-!
# Collections

A collection keeps what can be reached from the roots and reclaims the rest.  It
has four parts.

* Mark from the roots, given as a list of providers, each with the references
  it holds.
* Find the *doomed* objects: live, not marked, and stored with a finalizer.
  Mark them, so that links among them do not bring them back, and mark from
  their references.  A finalizer then still finds what its object refers to.
* Take the marks of the doomed objects away again.
* Sweep the slots in ascending order.  A marked object keeps its slot and loses
  the mark.  Any other object is reclaimed: its slot goes to the next generation
  and to the front of the free list, and if it was stored with a finalizer it is
  handed out as pending.

`survey` is the first three parts and `sweep` the last.  A heap whose mode is
`disabled` is left as it is.
-/

namespace PinnedHeap.Heap

variable {α : Type}

/-- An object that left the heap and waits for its finalizer. -/
structure Pending (α : Type) where
  /-- The reference it had. -/
  ref : Ref
  /-- The object. -/
  object : α

/-- What a collection reclaimed. -/
structure Collection (α : Type) where
  /-- Number of objects reclaimed, the pending ones included. -/
  freed : Nat := 0
  /-- Objects stored with a finalizer, in ascending order of their slots. -/
  pending : List (Pending α) := []

/-! ## Finding what stays -/

/-- Whether a slot holds an unmarked object that was stored with a finalizer. -/
def Slot.isDoomed : Slot α → Bool
  | .live _ header _ => header.finalizable && !header.marked
  | .free _ _ => false

/-- The doomed slots in ascending order. -/
def doomed (slots : Array (Slot α)) : List Nat :=
  (List.range slots.size).filter fun i => slots[i]?.any Slot.isDoomed

/-- Sets the marks of the given slots. -/
def setMarks (marked : Bool) (slots : Array (Slot α)) (indices : List Nat) : Array (Slot α) :=
  indices.foldl (fun slots i => slots.modify i (Slot.withMark marked)) slots

/-- The reference to the object in a slot. -/
def refAt? (slots : Array (Slot α)) (i : Nat) : Option Ref :=
  match slots[i]? with
  | some (.live g _ _) => some ⟨UInt32.ofNat i, g⟩
  | _ => none

section Survey

variable [HeapObject α]

/-- Marking from the references of the doomed objects, which are marked
themselves.  The state given is the one after marking from the roots. -/
def Marking.ofDoomed (m : Marking α) (indices : List Nat) : Marking α :=
  let found := indices.flatMap fun i => (m.slots[i]?.map Slot.refs).getD []
  let asked := indices.filterMap (refAt? m.slots)
  { slots := setMarks true m.slots indices
    worklist := Marking.push m.worklist found
    traced := asked.reverse ++ m.traced }

/-- Marks what stays: the arena, with the worklist empty and the marks of the
doomed objects taken away. -/
def survey (slots : Array (Slot α)) (roots : List Ref) : Marking α :=
  let reached := Marking.finish { slots, worklist := Marking.push [] roots }
  let indices := doomed reached.slots
  let kept := Marking.finish (reached.ofDoomed indices)
  { kept with slots := setMarks false kept.slots indices }

end Survey

/-! ## Sweeping -/

/-- The state of a sweep. -/
structure Sweep (α : Type) where
  /-- The slots swept so far. -/
  slots : Array (Slot α) := #[]
  /-- First slot of the free list. -/
  freeHead : Option Nat
  /-- Objects reclaimed so far. -/
  freed : Nat := 0
  /-- Bytes accounted to the objects reclaimed so far. -/
  freedBytes : Nat := 0
  /-- Pending objects found so far. -/
  pending : Array (Pending α) := #[]

/-- Sweeps the next slot. -/
def Sweep.visit (s : Sweep α) : Slot α → Sweep α
  | .live g header x =>
    if header.marked then
      { s with slots := s.slots.push (.live g { header with marked := false } x) }
    else
      let i := s.slots.size
      { slots := s.slots.push (.free g.next s.freeHead)
        freeHead := some i
        freed := s.freed + 1
        freedBytes := s.freedBytes + header.size
        pending :=
          if header.finalizable then s.pending.push ⟨⟨UInt32.ofNat i, g⟩, x⟩ else s.pending }
  | .free g nextFree => { s with slots := s.slots.push (.free g nextFree) }

/-- Sweeps an arena in ascending order. -/
def sweep (slots : Array (Slot α)) (freeHead : Option Nat) : Sweep α :=
  slots.foldl Sweep.visit { freeHead }

/-! ## The whole -/

/-- Reclaims what cannot be reached from the roots of the providers. -/
def collect [HeapObject α] (h : Heap α) (providers : List (List Ref)) :
    Collection α × Heap α :=
  match h.config.mode with
  | .disabled => ({}, h)
  | .markSweep =>
    let swept := sweep (survey h.slots providers.flatten).slots h.freeHead
    ({ freed := swept.freed, pending := swept.pending.toList },
      { h with
        slots := swept.slots
        freeHead := swept.freeHead
        stats := h.stats.collected swept.freed swept.freedBytes })

end PinnedHeap.Heap
