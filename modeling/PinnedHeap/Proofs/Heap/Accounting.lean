import Mathlib.Algebra.Order.BigOperators.Group.List
import Mathlib.Algebra.Order.Group.Nat
import PinnedHeap.Proofs.Heap.Epoch
import PinnedHeap.Proofs.Heap.FreeList
import PinnedHeap.Proofs.Peak

/-!
# What a heap accounts for

An allocation and a sweep both write slots, links and counters.  `Wellformed` says how these
fit together in one heap, and `Balanced` what the counters tell about the history that
led to it.  Every operation keeps both, and an empty heap has them.

Two facts keep the counters exact.  A sweep takes off no more than is there, since what it
reclaims is part of what the live slots weigh (`freed_le`).  And an arena grows only if all of
its slots hold objects (`size_cases`), so it is as large as the live objects were at their
most.
-/

namespace PinnedHeap.Heap

variable {α : Type} [HeapObject α] {h : Heap α} {past : List (Event α)}

/-! ## One heap -/

/-- How slots, links and counters fit together. -/
structure Wellformed {β : Type} (h : Heap β) : Prop where
  sound : h.Sound
  hasFreeList : h.HasFreeList
  epoch_ne_zero : ∀ i, h.epoch i ≠ 0
  size_lt : ∀ r header, h.header? r = some header → header.size < sizeLimit

omit [HeapObject α] in
theorem wellformed_empty (config : Config) : (empty config : Heap α).Wellformed where
  sound := sound_empty config
  hasFreeList := hasFreeList_empty config
  epoch_ne_zero i := by
    rw [epoch_empty]
    exact Generation.first_ne_zero
  size_lt r header hh := by
    obtain ⟨x, hf⟩ := header?_eq_some_iff.1 hh
    exact nomatch hf

/-- Only objects that fit are stored. -/
theorem accountedBytes_lt_of_alloc {x : α} {r : Ref} (ha : (h.alloc x).1 = .ok r) :
    accountedBytes x < sizeLimit := by
  rw [alloc, vacancyFor] at ha
  by_cases hlt : accountedBytes x < sizeLimit
  · exact hlt
  · rw [if_neg hlt] at ha
    cases ha

theorem Wellformed.apply (hw : h.Wellformed) (op : Operation α) : (op.apply h).Wellformed where
  sound := hw.sound.apply op
  hasFreeList := by
    cases op with
    | store x => exact hw.hasFreeList.alloc x
    | update r f => exact hw.hasFreeList.update r f
    | collect providers => exact hw.hasFreeList.collect hw.sound.plain providers
  epoch_ne_zero i := epoch_apply_ne_zero hw.sound.plain (hw.epoch_ne_zero i) op
  size_lt r header hh := by
    rcases header?_apply_cases hw.sound op hh with hh | ⟨x, rfl, ha, rfl⟩
    · exact hw.size_lt r header hh
    · exact accountedBytes_lt_of_alloc ha

/-! ## Allocations -/

/-- An allocation fails for a reason that the caller can see. -/
theorem Wellformed.alloc_error (hw : h.Wellformed) {x : α} {e : Error}
    (he : (h.alloc x).1 = .error e) :
    (h.alloc x).2 = h ∧
      ((sizeLimit ≤ accountedBytes x ∧ e = .tooLarge (accountedBytes x)) ∨
        (h.slots.size = indexLimit ∧ e = .exhausted)) := by
  refine ⟨alloc_snd_of_error he, ?_⟩
  rw [alloc, vacancyFor] at he
  by_cases hlt : accountedBytes x < sizeLimit
  · rw [if_pos hlt] at he
    rcases hw.hasFreeList.vacancy_cases with ⟨v, hv⟩ | ⟨hv, -, hsize⟩
    · rw [hv] at he
      cases he
    · rw [hv] at he
      exact Or.inr ⟨Nat.le_antisymm hw.sound.size_le hsize, (Except.error.inj he).symm⟩
  · rw [if_neg hlt] at he
    exact Or.inl ⟨Nat.le_of_not_lt hlt, (Except.error.inj he).symm⟩

/-! ## Sweeps -/

/-- What a sweep reclaims is part of what is there. -/
theorem freed_le (hs : h.Sound) (roots : List Ref) :
    (sweep (survey h.slots roots).slots h.freeHead).freed ≤ h.stats.liveObjects ∧
      (sweep (survey h.slots roots).slots h.freeHead).freedBytes ≤ h.stats.liveBytes := by
  have hplain := (plain_survey roots hs.plain).trans hs.plain.symm
  rw [sweep_eq_sweepList, freed_sweepList, freedBytes_sweepList, hs.liveObjects, hs.liveBytes,
    ← sum_of_plain hplain Slot.weight_objects, ← sum_of_plain hplain Slot.weight_bytes,
    ← sum_sweepList h.freeHead _ Slot.weight_objects, ← sum_sweepList h.freeHead _ Slot.weight_bytes]
  exact ⟨Nat.le_add_left _ _, Nat.le_add_left _ _⟩

/-! ## The counters and the history -/

/-- The counters tell what the history says. -/
structure Balanced (h : Heap α) (past : List (Event α)) : Prop where
  objects : h.stats.liveObjects + h.stats.freedObjects = (stores past).length
  allocated : h.stats.totalAllocated = ((stores past).map fun p => accountedBytes p.2).sum
  bytes : h.stats.liveBytes = bytesLeft past + h.stats.allocatedSinceCollection
  bytes_le : h.stats.liveBytes ≤ h.stats.totalAllocated

theorem balanced_empty (config : Config) : (empty config : Heap α).Balanced [] where
  objects := rfl
  allocated := rfl
  bytes := rfl
  bytes_le := Nat.le_refl 0

theorem Balanced.store (hb : h.Balanced past) (v : Vacancy) (x : α) :
    (h.store v x).Balanced (.stored v.ref x :: past) where
  objects := by
    have := hb.objects
    simp only [Heap.store, Stats.allocated, stores_stored, List.length_cons]
    omega
  allocated := by
    have := hb.allocated
    simp only [Heap.store, Stats.allocated, stores_stored, List.map_cons, List.sum_cons]
    omega
  bytes := by
    have := hb.bytes
    simp only [Heap.store, Stats.allocated, bytesLeft]
    omega
  bytes_le := Nat.add_le_add_right hb.bytes_le _

theorem Balanced.collect (hb : h.Balanced past) (hs : h.Sound) (hm : h.config.mode = .markSweep)
    (providers : List (List Ref)) (freed : List Nat) :
    Balanced (h.collect providers).2
      (.collected freed (h.collect providers).2.stats.liveBytes :: past) := by
  obtain ⟨hobjects, hbytes⟩ := freed_le hs providers.flatten
  have hstats : (h.collect providers).2.stats = h.stats.collected
      (sweep (survey h.slots providers.flatten).slots h.freeHead).freed
      (sweep (survey h.slots providers.flatten).slots h.freeHead).freedBytes := by
    rw [Heap.collect, hm]
  refine ⟨?_, ?_, ?_, ?_⟩
  · have := hb.objects
    rw [hstats, stores_collected]
    simp only [Stats.collected]
    omega
  · rw [hstats]
    exact hb.allocated
  · rw [hstats]
    rfl
  · have := hb.bytes_le
    rw [hstats]
    simp only [Stats.collected]
    omega

theorem Balanced.apply (hb : h.Balanced past) (hs : h.Sound) (op : Operation α) :
    (op.apply h).Balanced ((h.event? op).toList ++ past) := by
  cases op with
  | store x =>
    rw [Operation.apply, event?]
    rcases alloc_cases h x with ⟨v, hv, he⟩ | ⟨e, he⟩
    · rw [he]
      exact hb.store v x
    · rw [he]
      exact hb
  | update r f => exact ⟨hb.objects, hb.allocated, hb.bytes, hb.bytes_le⟩
  | collect providers =>
    cases hm : h.config.mode with
    | disabled =>
      rw [Operation.apply, collect_of_disabled hm, event?, hm]
      exact hb
    | markSweep =>
      simp only [Operation.apply, event?, hm]
      exact hb.collect hs hm providers _

/-! ## The size of the arena -/

omit [HeapObject α] in
theorem liveCount_le_size (hs : h.Sound) : h.liveCount ≤ h.slots.size := by
  rw [liveCount, hs.liveObjects, ← Array.length_toList, ← List.length_map (f := Slot.objects),
    ← Nat.mul_one (List.length _)]
  refine List.sum_le_card_nsmul _ 1 fun n hn => ?_
  obtain ⟨s, -, rfl⟩ := List.mem_map.1 hn
  cases s with
  | live g header x => exact Nat.le_refl 1
  | free g next => exact Nat.zero_le 1

/-- An arena keeps its size, or it grows by one slot and is full. -/
theorem size_cases (hw : h.Wellformed) (op : Operation α) :
    (op.apply h).slots.size = h.slots.size ∨
      (h.slots.size ≤ (op.apply h).slots.size ∧
        (op.apply h).liveCount = (op.apply h).slots.size) := by
  cases op with
  | store x =>
    rw [Operation.apply]
    rcases alloc_cases h x with ⟨v, hv, he⟩ | ⟨e, he⟩
    · rw [he]
      rcases vacancy_cases hv with ⟨-, hslot⟩ | ⟨hhead, -, rfl⟩
      · have hlt := (Array.getElem?_eq_some_iff.1 hslot).1
        left
        simp only [store, if_pos hlt, Array.size_setIfInBounds]
      · have hfull := hw.hasFreeList.full hhead
        right
        simp only [store, Nat.lt_irrefl, if_false, Array.size_push, liveCount, Stats.allocated,
          hw.sound.liveObjects, hfull]
        exact ⟨Nat.le_succ _, trivial⟩
    · rw [he]
      exact Or.inl rfl
  | update r f =>
    left
    rw [Operation.apply, update, Array.size_modify]
  | collect providers => exact Or.inl (size_collect hw.sound.plain providers)

/-! ## Runs -/

theorem wellformed_after (config : Config) (ops : List (Operation α)) :
    ((empty config).after ops).Wellformed := by
  induction ops using List.reverseRecOn with
  | nil => exact wellformed_empty config
  | append_singleton ops op ih =>
    rw [after_append]
    exact ih.apply op

/-- The live count never exceeds the size of the arena, and was equal to it some time. -/
theorem liveCount_peak (config : Config) (ops : List (Operation α)) :
    (∀ n, ((empty config).after (ops.take n)).liveCount ≤
        ((empty config).after ops).slots.size) ∧
      ∃ n ≤ ops.length, ((empty config).after (ops.take n)).liveCount =
        ((empty config).after ops).slots.size := by
  refine peak_foldl liveCount (fun h : Heap α => h.slots.size) (fun h op hw => hw.apply op)
    (fun h hw => liveCount_le_size hw.sound) (fun h op hw => ?_) (wellformed_empty config) rfl ops
  rcases size_cases hw op with hsame | ⟨hmore, hfull⟩
  · exact Or.inl hsame
  · exact Or.inr ⟨hmore, hfull⟩

/-- How a heap and the history of the run that led to it fit together. -/
structure Accounting (config : Config) (ops : List (Operation α)) (h : Heap α)
    (past : List (Event α)) : Prop where
  /-- The free list ends, and visits every free slot once and no other slot. -/
  hasFreeList : h.HasFreeList
  generation_ne_zero : ∀ i g, h.generationAt i = some g → g ≠ 0
  unmarked : ∀ (i : Nat) g header x, h.slots[i]? = some (Slot.live g header x) →
    header.marked = false
  liveObjects_eq : h.stats.liveObjects = (h.slots.toList.map Slot.objects).sum
  liveBytes_eq : h.stats.liveBytes = (h.slots.toList.map Slot.bytes).sum
  /-- Sizes fit in the field of a header. -/
  size_lt : ∀ r header, h.header? r = some header → header.size < sizeLimit
  stores_eq : h.stats.liveObjects + h.stats.freedObjects = (stores past).length
  totalAllocated_eq : h.stats.totalAllocated =
    ((stores past).map fun p => accountedBytes p.2).sum
  /-- What is live was left by the last collection or allocated since. -/
  bytesLeft_eq : h.stats.liveBytes = bytesLeft past + h.stats.allocatedSinceCollection
  liveBytes_le : h.stats.liveBytes ≤ h.stats.totalAllocated
  /-- The arena is as large as the live objects were at their most. -/
  peak_le : ∀ n, ((empty config).after (ops.take n)).liveCount ≤ h.slots.size
  peak_eq : ∃ n ≤ ops.length, ((empty config).after (ops.take n)).liveCount = h.slots.size
  /-- No counter drops below zero in a sweep. -/
  freed_le : ∀ roots, (sweep (survey h.slots roots).slots h.freeHead).freed ≤ h.stats.liveObjects
  freedBytes_le : ∀ roots,
    (sweep (survey h.slots roots).slots h.freeHead).freedBytes ≤ h.stats.liveBytes
  alloc_ok : ∀ x, accountedBytes x < sizeLimit → h.slots.size < indexLimit →
    ∃ r, (h.alloc x).1 = .ok r
  /-- The free list is never found corrupt, and an allocation that fails changes nothing. -/
  alloc_error : ∀ x e, (h.alloc x).1 = .error e → (h.alloc x).2 = h ∧
    ((sizeLimit ≤ accountedBytes x ∧ e = .tooLarge (accountedBytes x)) ∨
      (h.slots.size = indexLimit ∧ e = .exhausted))

/-- After any operations on an empty heap, its slots, links and counters fit together and tell
what was done. -/
theorem accounting_after (config : Config) (ops : List (Operation α)) :
    Accounting config ops ((empty config).after ops) ((empty config).history [] ops) := by
  have hw := wellformed_after config ops
  have hbalanced : ((empty config).after ops).Balanced ((empty config).history [] ops) :=
    (history_induction (P := fun h past => h.Sound ∧ h.Balanced past)
      (fun h past op ih => ⟨ih.1.apply op, ih.2.apply ih.1 op⟩)
      ⟨sound_empty config, balanced_empty config⟩ ops).2
  obtain ⟨hpeak_le, hpeak_eq⟩ := liveCount_peak config ops
  generalize (empty config).after ops = h at hw hbalanced hpeak_le hpeak_eq
  refine
    { hasFreeList := hw.hasFreeList
      generation_ne_zero := fun i g hg => ?_
      unmarked := fun i g header x hslot => ?_
      liveObjects_eq := hw.sound.liveObjects
      liveBytes_eq := hw.sound.liveBytes
      size_lt := hw.size_lt
      stores_eq := hbalanced.objects
      totalAllocated_eq := hbalanced.allocated
      bytesLeft_eq := hbalanced.bytes
      liveBytes_le := hbalanced.bytes_le
      peak_le := hpeak_le
      peak_eq := hpeak_eq
      freed_le := fun roots => (Heap.freed_le hw.sound roots).1
      freedBytes_le := fun roots => (Heap.freed_le hw.sound roots).2
      alloc_ok := fun x hfits hroom => ?_
      alloc_error := fun x e he => hw.alloc_error he }
  · have hne := hw.epoch_ne_zero i
    rw [epoch, hg] at hne
    exact hne
  · have := plain_eq_self_iff.1 hw.sound.plain i _ hslot
    rw [Slot.withMark, Slot.live.injEq] at this
    rw [← this.2.1]
  · cases hresult : (h.alloc x).1 with
    | ok r => exact ⟨r, rfl⟩
    | error e =>
      rcases (hw.alloc_error hresult).2 with ⟨hlarge, -⟩ | ⟨hfull, -⟩
      · exact absurd hfits (Nat.not_lt.2 hlarge)
      · exact absurd hroom (Nat.not_lt.2 (Nat.le_of_eq hfull.symm))

end PinnedHeap.Heap
