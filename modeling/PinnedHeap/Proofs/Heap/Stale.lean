import PinnedHeap.Proofs.Heap.Operation

/-!
# Stale references

A slot keeps its generation until a sweep reclaims its object.  Storing an object in a
slot and changing it leave the generation alone (`generationAt_after`).  So a reference
that a collection made stale stays stale until the next collection, even if its slot is
used again (`not_isLive_of_collect`).
-/

namespace PinnedHeap

theorem Generation.next_ne (g : Generation) : next g ≠ g := by
  by_cases h : g = last
  · rw [h]
    decide
  · intro heq
    have hnext := toNat_next h
    rw [heq] at hnext
    omega

namespace Heap

variable {α : Type}

/-- The generation of a slot. -/
def Slot.generation : Slot α → Generation
  | .live g _ _ => g
  | .free g _ => g

/-- The generation of the slot with an index. -/
def generationAt (h : Heap α) (i : Nat) : Option Generation := h.slots[i]?.map Slot.generation

theorem generationAt_of_isLive {h : Heap α} {r : Ref} (hl : h.isLive r) :
    h.generationAt r.index.toNat = some r.generation := by
  obtain ⟨header, x, hf⟩ := isLive_iff_find?.1 hl
  rw [generationAt, find?_eq_some_iff.1 hf]
  rfl

theorem generationAt_update (h : Heap α) (r : Ref) (f : α → α) (i : Nat) :
    (h.update r f).generationAt i = h.generationAt i := by
  rw [generationAt, generationAt, update, Array.getElem?_modify]
  split
  · rw [Option.map_map]
    congr 1
    funext s
    cases s with
    | live g header x =>
      rw [Function.comp_apply, Slot.update]
      split <;> rfl
    | free g next => rfl
  · rfl

variable [HeapObject α] {h : Heap α}

theorem generationAt_alloc (x : α) {i : Nat} {g : Generation} (hi : h.generationAt i = some g) :
    Heap.generationAt (h.alloc x).2 i = some g := by
  rcases alloc_cases h x with ⟨v, hv, he⟩ | ⟨e, he⟩
  · rw [he, generationAt, getElem?_store hv]
    split
    · rename_i heq
      rw [generationAt, heq] at hi
      rcases vacancy_cases hv with ⟨-, hs⟩ | ⟨-, -, rfl⟩
      · rw [hs] at hi
        exact hi
      · rw [Array.getElem?_eq_none (Nat.le_refl _)] at hi
        exact nomatch hi
    · exact hi
  · rw [he]
    exact hi

theorem generationAt_after {ops : List (Operation α)} (hops : ∀ op ∈ ops, op.Quiet) {i : Nat}
    {g : Generation} (hi : h.generationAt i = some g) : (h.after ops).generationAt i = some g := by
  induction ops generalizing h with
  | nil => exact hi
  | cons op rest ih =>
    rw [List.forall_mem_cons] at hops
    apply ih hops.2
    cases op with
    | store x => exact generationAt_alloc x hi
    | update r f => exact (generationAt_update h r f i).trans hi
    | collect providers => exact nomatch hops.1

/-- A collection moves the slots of what it reclaims to the next generation. -/
theorem generationAt_collect (hs : h.Sound) (hm : h.config.mode = .markSweep)
    {providers : List (List Ref)} {r : Ref} (hl : h.isLive r)
    (hn : ¬ h.Survives providers.flatten r) :
    Heap.generationAt (h.collect providers).2 r.index.toNat =
      some (Generation.next r.generation) := by
  obtain ⟨header, x, hf⟩ := isLive_iff_find?.1 hl
  obtain ⟨marked, hsurvey, hiff⟩ := find?_survey providers.flatten hs.plain hs.size_le hf
  have hmarked : marked = false := by
    rw [Bool.eq_false_iff]
    exact fun ht => hn (hiff.1 ht)
  rw [generationAt, slots_collect hm, sweep_eq_sweepList, getElem?_sweepList,
    Array.getElem?_toList, find?_eq_some_iff.1 hsurvey, hmarked]
  rfl

/-- What a collection reclaims is not live after it, and quiet operations do not bring it
back. -/
theorem not_isLive_of_collect (hs : h.Sound) (hm : h.config.mode = .markSweep)
    {providers : List (List Ref)} {r : Ref} (hl : h.isLive r)
    (hn : ¬ h.Survives providers.flatten r) {h' : Heap α}
    (hlead : LeadsTo Operation.Quiet (h.collect providers).2 h') : ¬ h'.isLive r := by
  intro hl'
  obtain ⟨ops, hops, rfl⟩ := hlead
  have hmoved := generationAt_after hops (generationAt_collect hs hm hl hn)
  rw [generationAt_of_isLive hl'] at hmoved
  exact Generation.next_ne _ (Option.some.inj hmoved).symm

end Heap

end PinnedHeap
