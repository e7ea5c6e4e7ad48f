import PinnedHeap.Proofs.Heap.Arena

/-!
# Reachability

An object can be reached from some origins if there is a path of references to
it that starts at an origin.  `ReachesBy` has a path pass only through objects
with a given property.  For a heap as a whole the property is to be live
(`Heap.Reaches`).  For a marking it is to be live and not yet marked, so that
what was visited before is a barrier.

Origins are a property of references and not a list, because the origins of the
second pass of a collection are the references of all doomed objects.
-/

namespace PinnedHeap.Heap

variable {α : Type} [HeapObject α]

/-! ## Paths in an arena -/

/-- What can be reached from `origins` through objects with the property `through`. -/
inductive ReachesBy (slots : Array (Slot α)) (through origins : Ref → Prop) : Ref → Prop where
  /-- An origin with the property. -/
  | origin {r : Ref} : origins r → through r → ReachesBy slots through origins r
  /-- An object with the property that an object reached before refers to. -/
  | next {p r : Ref} {header : Header} {x : α} :
      ReachesBy slots through origins p → find? slots p = some (header, x) →
      r ∈ HeapObject.refs x → through r → ReachesBy slots through origins r

namespace ReachesBy

variable {slots : Array (Slot α)} {through origins : Ref → Prop} {r : Ref}

theorem through_of (h : ReachesBy slots through origins r) : through r := by
  cases h with
  | origin _ ht => exact ht
  | next _ _ _ ht => exact ht

theorem mono {through' origins' : Ref → Prop} (h : ReachesBy slots through origins r)
    (ht : ∀ s, through s → through' s) (ho : ∀ s, origins s → through s → origins' s) :
    ReachesBy slots through' origins' r := by
  induction h with
  | origin hr hthrough => exact .origin (ho _ hr hthrough) (ht _ hthrough)
  | next _ hf hr hthrough ih => exact .next ih hf hr (ht _ hthrough)

/-- Only the objects of an arena matter for paths, not the marks. -/
theorem of_plain {slots' : Array (Slot α)} (hp : plain slots = plain slots')
    (h : ReachesBy slots through origins r) : ReachesBy slots' through origins r := by
  induction h with
  | origin hr ht => exact .origin hr ht
  | @next p _ _ _ _ hf hr ht ih =>
    have hm := find?_map_of_plain hp p
    rw [hf] at hm
    obtain ⟨⟨header', x'⟩, hf', he⟩ := Option.map_eq_some_iff.1 hm.symm
    simp only [withMark, Prod.mk.injEq] at he
    obtain ⟨-, rfl⟩ := he
    exact .next ih hf' hr ht

theorem not_of_empty (ho : ∀ s, ¬ origins s) : ¬ ReachesBy slots through origins r := by
  intro h
  induction h with
  | origin hr _ => exact ho _ hr
  | next _ _ _ _ ih => exact ih

end ReachesBy

/-! ## Live objects of a heap -/

/-- What can be reached from `origins` through live objects of a heap. -/
def Reaches (h : Heap α) (origins : Ref → Prop) (r : Ref) : Prop :=
  ReachesBy h.slots (fun s => h.isLive s) origins r

end PinnedHeap.Heap
