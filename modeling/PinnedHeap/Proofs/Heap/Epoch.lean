import PinnedHeap.Proofs.Heap.History
import PinnedHeap.Proofs.Heap.Stale

/-!
# Epochs

The epoch of a slot is the generation of the object in it, or else of the next one that it
will hold.  A slot that the arena does not have yet is in its first epoch.  So storing
an object leaves every epoch as it is, be it in a free slot or in a new one, and a
collection moves on the epochs of the slots it frees and no other (`epoch_collect`).

This ties the epochs to the history: a slot is in its first epoch and moves on each time it
is freed.  As long as it was not freed too often, its epoch is the number of times it was
freed and one more (`Dated.apply`).
-/

namespace PinnedHeap.Heap

variable {α : Type}

/-- The generation of the object in a slot, or of the next one it will hold. -/
def epoch (h : Heap α) (i : Nat) : Generation := (h.generationAt i).getD Generation.first

theorem epoch_of_isLive {h : Heap α} {r : Ref} (hl : h.isLive r) :
    h.epoch r.index.toNat = r.generation := by
  rw [epoch, generationAt_of_isLive hl, Option.getD_some]

theorem epoch_of_vacancy {h : Heap α} {v : Vacancy} (hv : h.vacancy = .ok v) :
    h.epoch v.index = v.generation := by
  rcases vacancy_cases hv with ⟨-, hs⟩ | ⟨-, -, rfl⟩
  · rw [epoch, generationAt, hs]
    rfl
  · rw [epoch, generationAt, Array.getElem?_eq_none (Nat.le_refl _)]
    rfl

theorem epoch_empty (config : Config) (i : Nat) :
    (empty config : Heap α).epoch i = Generation.first := by
  rw [epoch, generationAt, empty]
  rfl

theorem epoch_update (h : Heap α) (r : Ref) (f : α → α) (i : Nat) :
    (h.update r f).epoch i = h.epoch i := by
  rw [epoch, generationAt_update]
  rfl

section Epoch

variable [HeapObject α] {h : Heap α}

theorem epoch_alloc (h : Heap α) (x : α) (i : Nat) :
    epoch (h.alloc x).2 i = h.epoch i := by
  rcases alloc_cases h x with ⟨v, hv, he⟩ | ⟨e, he⟩
  · by_cases hi : i = v.index
    · subst hi
      rw [he, epoch_of_vacancy hv, epoch, generationAt, getElem?_store hv, if_pos rfl]
      rfl
    · rw [he, epoch, generationAt, getElem?_store hv, if_neg hi]
      rfl
  · rw [he]

/-- A slot that a collection frees enters its next epoch. -/
theorem epoch_collect (hp : h.Plain) (providers : List (List Ref)) (i : Nat) :
    epoch (h.collect providers).2 i =
      if h.occupied i ∧ ¬ Heap.occupied (h.collect providers).2 i then (h.epoch i).next
      else h.epoch i := by
  cases hs : h.slots[i]? with
  | none =>
    have hs' : (h.collect providers).2.slots[i]? = none := by
      rw [Array.getElem?_eq_none_iff, size_collect hp]
      exact Array.getElem?_eq_none_iff.1 hs
    simp [epoch, generationAt, occupied, refAt?, hs, hs']
  | some s =>
    rcases slot_collect_cases hp providers hs with hs' | ⟨g, header, x, next, rfl, hs'⟩
    · have hsame : Heap.occupied (h.collect providers).2 i = h.occupied i := by
        rw [occupied, occupied, refAt?, refAt?, hs, hs']
      rw [hsame, if_neg (fun hc => hc.2 hc.1), epoch, epoch, generationAt, generationAt, hs, hs']
    · simp [epoch, generationAt, occupied, refAt?, hs, hs', Slot.generation]

/-- No slot gets into the epoch `0`. -/
theorem epoch_apply_ne_zero (hp : h.Plain) {i : Nat} (hne : h.epoch i ≠ 0) (op : Operation α) :
    epoch (op.apply h) i ≠ 0 := by
  cases op with
  | store x =>
    rw [Operation.apply, epoch_alloc]
    exact hne
  | update r f =>
    rw [Operation.apply, epoch_update]
    exact hne
  | collect providers =>
    rw [Operation.apply, epoch_collect hp]
    split
    · exact Generation.next_ne_zero _
    · exact hne

/-- The epochs that the frees of a history lead to. -/
def Dated {β : Type} (h : Heap β) (past : List (Event β)) : Prop :=
  ∀ i, (h.epoch i).toNat = frees i past + 1

omit [HeapObject α] in
theorem dated_empty (config : Config) : (empty config : Heap α).Dated [] := by
  intro i
  rw [epoch_empty]
  rfl

theorem Dated.collect {past : List (Event α)} (hd : h.Dated past) (hp : h.Plain)
    (providers : List (List Ref)) (left : Nat)
    (hu : Unwrapped (.collected (h.freedSlots (h.collect providers).2) left :: past)) :
    Dated (h.collect providers).2
      (.collected (h.freedSlots (h.collect providers).2) left :: past) := by
  intro i
  have hi := hd i
  have hlt := hu i
  rw [frees, count_freedSlots] at hlt ⊢
  rw [epoch_collect hp]
  by_cases hfreed : h.occupied i ∧ ¬ Heap.occupied (h.collect providers).2 i
  · rw [if_pos hfreed] at hlt ⊢
    rw [if_pos hfreed]
    have hne : h.epoch i ≠ Generation.last := by
      intro heq
      rw [heq] at hi
      omega
    rw [Generation.toNat_next hne]
    omega
  · rw [if_neg hfreed] at hlt ⊢
    rw [if_neg hfreed]
    omega

/-- As long as no slot was freed too often, the epochs count the frees. -/
theorem Dated.apply {past : List (Event α)} (hd : h.Dated past) (hp : h.Plain)
    (op : Operation α) (hu : Unwrapped ((h.event? op).toList ++ past)) :
    Dated (op.apply h) ((h.event? op).toList ++ past) := by
  cases op with
  | store x =>
    intro i
    rw [Operation.apply, epoch_alloc, hd i, frees_append, event?]
    cases (h.alloc x).1 <;> simp [Except.toOption, frees]
  | update r f =>
    intro i
    rw [Operation.apply, epoch_update]
    exact hd i
  | collect providers =>
    cases hm : h.config.mode with
    | disabled =>
      rw [Operation.apply, collect_of_disabled hm, event?, hm]
      exact hd
    | markSweep =>
      simp only [event?, hm] at hu ⊢
      exact hd.collect hp providers _ hu

end Epoch

end PinnedHeap.Heap
