import PinnedHeap.Generation
import PinnedHeap.Object

/-!
# The heap

Objects live in an arena of slots.  A slot is live, with a header and an object,
or free.  Free slots form a list through their `nextFree` links, and the heap
holds its head.  An allocation takes the first free slot and grows the arena
only when there is none.  Every use of a slot has its own generation, so a
reference to an object that is gone finds nothing.

An object is accounted with its header, which takes eight bytes.  An accounted
size has to fit in 32 bits, and so has the index of a slot.  An allocation that
fails leaves the heap as it was (`alloc_snd_of_error`).

Slots can be reserved when a heap is created.  They have to fit into memory, so a
configuration comes with the proof that they do.

The counters in `Stats` are natural numbers.  They stay far below any machine
word, since each allocation adds less than `2 ^ 32` to them.
-/

namespace PinnedHeap

namespace Heap

/-! ## Configuration and counters -/

/-- Whether unreachable objects are reclaimed. -/
inductive Mode where
  /-- Mark what is reachable and sweep the rest. -/
  | markSweep
  /-- Never collect. -/
  | disabled
deriving DecidableEq

/-- Bytes of memory that a slot takes. -/
def slotBytes : Nat := 32

/-- What is reserved takes less memory than so many bytes. -/
def memoryLimit : Nat := 9223372036854775808

/-- How a heap is set up. -/
structure Config where
  /-- Bytes allocated between two collections. -/
  threshold : Nat := 786432
  /-- Slots reserved when the heap is created. -/
  initialSlots : Nat := 1024
  /-- Whether the heap is collected. -/
  mode : Mode := .markSweep
  /-- So many slots can be reserved. -/
  reservable : initialSlots * slotBytes < memoryLimit := by decide
deriving DecidableEq

/-- Slots that cannot be reserved.  A program that asks for them ends. -/
structure CapacityOverflow where
  /-- Number of slots. -/
  slots : Nat
deriving DecidableEq

/-- The last words of a program that asks for too many slots. -/
def CapacityOverflow.message (_ : CapacityOverflow) : String := "capacity overflow"

/-- The configuration with the given values, if so many slots can be reserved. -/
def Config.make (threshold initialSlots : Nat) (mode : Mode) : Except CapacityOverflow Config :=
  if reservable : initialSlots * slotBytes < memoryLimit then
    .ok { threshold, initialSlots, mode, reservable }
  else .error ⟨initialSlots⟩

/-- The counters of a heap. -/
structure Stats where
  /-- Completed collections. -/
  collections : Nat := 0
  /-- Objects in live slots. -/
  liveObjects : Nat := 0
  /-- Bytes accounted to the objects in live slots. -/
  liveBytes : Nat := 0
  /-- Bytes allocated since the last collection. -/
  allocatedSinceCollection : Nat := 0
  /-- Bytes ever allocated. -/
  totalAllocated : Nat := 0
  /-- Objects reclaimed by all collections together. -/
  freedObjects : Nat := 0
deriving DecidableEq

/-- The counters after one more object of the given accounted size. -/
def Stats.allocated (s : Stats) (bytes : Nat) : Stats :=
  { s with
    liveObjects := s.liveObjects + 1
    liveBytes := s.liveBytes + bytes
    allocatedSinceCollection := s.allocatedSinceCollection + bytes
    totalAllocated := s.totalAllocated + bytes }

/-- The counters after a collection that reclaimed objects of the given total size. -/
def Stats.collected (s : Stats) (freed freedBytes : Nat) : Stats :=
  { s with
    collections := s.collections + 1
    liveObjects := s.liveObjects - freed
    liveBytes := s.liveBytes - freedBytes
    allocatedSinceCollection := 0
    freedObjects := s.freedObjects + freed }

/-- Why an allocation fails. -/
inductive Error where
  /-- No index is left for another slot. -/
  | exhausted
  /-- The accounted size does not fit in 32 bits. -/
  | tooLarge (bytes : Nat)
  /-- The head of the free list is not a free slot. -/
  | corruptFreeList (slot : Nat)
deriving DecidableEq

/-- The message of a failed allocation. -/
def Error.message : Error → String
  | .exhausted => "managed heap exhausted: slot index space used up"
  | .tooLarge bytes => "object too large to account: " ++ toString bytes ++ " bytes"
  | .corruptFreeList slot => "heap free list points at live slot " ++ toString slot

/-! ## Slots -/

/-- What the heap keeps beside a live object. -/
structure Header where
  /-- Reached by the collection under way. -/
  marked : Bool
  /-- The object declared a finalizer when it was stored. -/
  finalizable : Bool
  /-- Accounted size, the header included. -/
  size : Nat
deriving DecidableEq

/-- A place of the arena. -/
inductive Slot (α : Type) where
  /-- A slot that holds an object. -/
  | live (generation : Generation) (header : Header) (object : α)
  /-- A slot that waits for the next allocation. -/
  | free (generation : Generation) (nextFree : Option Nat)

/-- Bytes of a header. -/
def headerBytes : Nat := 8

/-- Accounted sizes are below this bound. -/
def sizeLimit : Nat := 4294967296

/-- Indices of slots are below this bound. -/
def indexLimit : Nat := 4294967296

end Heap

/-- The heap: an arena of slots, the head of its free list, and counters. -/
structure Heap (α : Type) where
  /-- The arena. -/
  slots : Array (Heap.Slot α) := #[]
  /-- First slot of the free list. -/
  freeHead : Option Nat := none
  /-- Counters. -/
  stats : Heap.Stats := {}
  /-- Configuration. -/
  config : Heap.Config := {}

namespace Heap

variable {α : Type}

/-- A heap without objects. -/
def empty (config : Config) : Heap α := { config }

/-! ## Looking up -/

/-- The header and the object a reference names. -/
def entry? (h : Heap α) (r : Ref) : Option (Header × α) :=
  match h.slots[r.index.toNat]? with
  | some (.live g header x) => if g = r.generation then some (header, x) else none
  | _ => none

/-- The header of the object a reference names. -/
def header? (h : Heap α) (r : Ref) : Option Header := (h.entry? r).map Prod.fst

/-- The object a reference names. -/
def get? (h : Heap α) (r : Ref) : Option α := (h.entry? r).map Prod.snd

/-- Whether a reference still names an object. -/
def isLive (h : Heap α) (r : Ref) : Bool := (h.entry? r).isSome

/-- Number of live objects, as counted. -/
def liveCount (h : Heap α) : Nat := h.stats.liveObjects

/-- Whether enough was allocated for a collection to be due. -/
def collectionDue (h : Heap α) : Bool :=
  h.config.mode == .markSweep && h.config.threshold ≤ h.stats.allocatedSinceCollection

/-! ## Storing and changing objects -/

section Storing

variable [HeapObject α]

/-- Bytes accounted to an object. -/
def accountedBytes (x : α) : Nat := headerBytes + HeapObject.bytes x

/-- The header of an object that is being stored. -/
def headerOf (x : α) : Header :=
  { marked := false, finalizable := HeapObject.finalizable x, size := accountedBytes x }

/-- A place for the next object: its slot, the generation it gets there, and the
free list without it. -/
structure Vacancy where
  /-- Index of the slot. -/
  index : Nat
  /-- Generation of the object. -/
  generation : Generation
  /-- First slot of the remaining free list. -/
  nextFree : Option Nat

/-- The reference of an object that is stored in a vacancy. -/
def Vacancy.ref (v : Vacancy) : Ref := ⟨UInt32.ofNat v.index, v.generation⟩

/-- The first free slot, or else a new one. -/
def vacancy (h : Heap α) : Except Error Vacancy :=
  match h.freeHead with
  | some i =>
    match h.slots[i]? with
    | some (.free g nextFree) => .ok ⟨i, g, nextFree⟩
    | _ => .error (.corruptFreeList i)
  | none =>
    if h.slots.size < indexLimit then .ok ⟨h.slots.size, Generation.first, none⟩
    else .error .exhausted

/-- The place where an object would be stored.  Its size is looked at first. -/
def vacancyFor (h : Heap α) (x : α) : Except Error Vacancy :=
  if accountedBytes x < sizeLimit then h.vacancy else .error (.tooLarge (accountedBytes x))

/-- The heap with an object in a vacancy. -/
def store (h : Heap α) (v : Vacancy) (x : α) : Heap α :=
  let slot := Slot.live v.generation (headerOf x) x
  { h with
    slots :=
      if v.index < h.slots.size then h.slots.setIfInBounds v.index slot else h.slots.push slot
    freeHead := v.nextFree
    stats := h.stats.allocated (accountedBytes x) }

/-- Stores an object in the first free slot, or else in a new one. -/
def alloc (h : Heap α) (x : α) : Except Error Ref × Heap α :=
  match h.vacancyFor x with
  | .ok v => (.ok v.ref, h.store v x)
  | .error e => (.error e, h)

/-- An allocation that fails changes nothing. -/
theorem alloc_snd_of_error {h : Heap α} {x : α} {e : Error} (he : (h.alloc x).1 = .error e) :
    (h.alloc x).2 = h := by
  unfold alloc at he ⊢
  cases hv : h.vacancyFor x with
  | ok v => simp [hv] at he
  | error e' => rfl

end Storing

/-- A slot whose object, if it is stored under this generation, is changed by `f`. -/
def Slot.update (g : Generation) (f : α → α) : Slot α → Slot α
  | .live g' header x => .live g' header (if g' = g then f x else x)
  | .free g' nextFree => .free g' nextFree

/-- Changes the object a reference names.  The header stays as it is, and a
reference that names nothing changes nothing. -/
def update (h : Heap α) (r : Ref) (f : α → α) : Heap α :=
  { h with slots := h.slots.modify r.index.toNat (Slot.update r.generation f) }

end Heap

end PinnedHeap
