import PinnedHeap.Proofs.Heap.Operation
import PinnedHeap.Session.Object

/-!
# The exact effect of a collection

`CollectionEffect` says what a collection with given roots does: which objects are
live afterwards and what they are, which objects it hands out, how many it
reclaimed, and how the counters moved.  `collect_effect` says that this is what
`Heap.collect` does to every reachable heap.

The effect is stated by the classes of `Survey` alone, so it does not mention marks,
worklists or slots.  What is reclaimed is a list of references in ascending order, and
the counters drop by its length and by the sizes of its objects.
-/

namespace PinnedHeap.Heap

variable {α : Type} [HeapObject α]

/-- The accounted size of the object that a reference names. -/
def sizeAt {β : Type} (h : Heap β) (r : Ref) : Nat := ((h.header? r).map Header.size).getD 0

/-- What a collection with the given roots makes of the heap `h`: it hands out `c`
and leaves the heap `h'`. -/
structure CollectionEffect (h : Heap α) (roots : List Ref) (c : Collection α) (h' : Heap α) :
    Prop where
  /-- The live objects are those that can be reached from the roots, and those that
  can be reached from an object that waits for its finalizer. -/
  isLive_iff : ∀ r, h'.isLive r ↔ h.Reached roots r ∨ h.IsKept roots r
  /-- They are what they were, header and object. -/
  entry?_eq : ∀ r, h'.isLive r → h'.entry? r = h.entry? r
  /-- None of them is marked. -/
  unmarked : ∀ r header, h'.header? r = some header → header.marked = false
  /-- The objects handed out are the doomed ones, as they were. -/
  mem_pending_iff : ∀ r x, ⟨r, x⟩ ∈ c.pending ↔ h.IsDoomed roots r ∧ h.get? r = some x
  /-- They come in ascending order of their slots, each one once. -/
  pending_ascending : c.pending.Pairwise fun p q => p.ref.index.toNat < q.ref.index.toNat
  /-- The counters of live objects and of their bytes drop by what was reclaimed. -/
  reclaimed : ∃ dead : List Ref,
    (dead.Pairwise fun r s => r.index.toNat < s.index.toNat) ∧
    (∀ r, r ∈ dead ↔ h.isLive r ∧ ¬ (h.Reached roots r ∨ h.IsKept roots r)) ∧
    c.freed = dead.length ∧
    h'.stats.liveObjects + dead.length = h.stats.liveObjects ∧
    h'.stats.liveBytes + (dead.map h.sizeAt).sum = h.stats.liveBytes
  /-- The counter of reclaimed objects grows by as many. -/
  freedObjects_eq : h'.stats.freedObjects = h.stats.freedObjects + c.freed
  /-- One more collection is complete. -/
  collections_eq : h'.stats.collections = h.stats.collections + 1
  /-- Nothing was allocated since. -/
  allocatedSinceCollection_eq : h'.stats.allocatedSinceCollection = 0
  /-- What was ever allocated stays as it is. -/
  totalAllocated_eq : h'.stats.totalAllocated = h.stats.totalAllocated
  /-- The configuration stays as it is. -/
  config_eq : h'.config = h.config

section Effect

variable {h : Heap α}

theorem isLive_collect_iff (hs : h.Sound) (hm : h.config.mode = .markSweep)
    (providers : List (List Ref)) (r : Ref) :
    (h.collect providers).2.isLive r ↔ h.Survives providers.flatten r := by
  constructor
  · intro hl
    apply Classical.byContradiction
    intro hn
    rw [isLive, entry?_collect_of_not_survives hm hs.plain hs.size_le hn] at hl
    exact Bool.false_ne_true hl
  · intro hsurvives
    have hl := hsurvives.isLive
    rw [isLive, entry?_collect_of_survives hs.plain hs.size_le hsurvives]
    exact hl

theorem unmarked_survey_iff (hs : h.Sound) (roots : List Ref) (r : Ref) :
    Unmarked (survey h.slots roots).slots r ↔ h.isLive r ∧ ¬ h.Survives roots r := by
  rw [Plain.unmarked_iff (plain_survey roots hs.plain), marked_survey_iff roots hs.plain hs.size_le]

theorem size_survey (hs : h.Sound) (roots : List Ref) :
    (survey h.slots roots).slots.size ≤ indexLimit := by
  rw [← size_plain, plain_survey roots hs.plain]
  exact hs.size_le

/-- A doomed object is a live one that does not survive and was stored with a
finalizer. -/
theorem isDoomed_iff (roots : List Ref) (r : Ref) : h.IsDoomed roots r ↔
    (∃ header, h.header? r = some header ∧ header.finalizable = true) ∧
      ¬ h.Survives roots r := by
  constructor
  · intro hd
    exact ⟨hd.1, fun hs => hs.not_isDoomed hd⟩
  · rintro ⟨hh, hn⟩
    exact ⟨hh, fun hr => hn (Or.inl hr)⟩

theorem mem_pending_collect_iff (hs : h.Sound) (hm : h.config.mode = .markSweep)
    (providers : List (List Ref)) (r : Ref) (x : α) :
    ⟨r, x⟩ ∈ (h.collect providers).1.pending ↔
      h.IsDoomed providers.flatten r ∧ h.get? r = some x := by
  have hpending : (h.collect providers).1.pending =
      (sweep (survey h.slots providers.flatten).slots h.freeHead).pending.toList := by
    rw [collect, hm]
  rw [hpending, mem_pending_sweep_iff (size_survey hs _), isDoomed_iff]
  constructor
  · rintro ⟨header, hf, hmark, hfin⟩
    have hu : Unmarked (survey h.slots providers.flatten).slots r := ⟨header, x, hf, hmark⟩
    obtain ⟨hl, hn⟩ := (unmarked_survey_iff hs _ r).1 hu
    obtain ⟨header', x', hf'⟩ := isLive_iff_find?.1 hl
    obtain ⟨marked, hsurvey, -⟩ := find?_survey providers.flatten hs.plain hs.size_le hf'
    rw [hf] at hsurvey
    obtain ⟨rfl, rfl⟩ := Prod.mk.inj (Option.some.inj hsurvey)
    exact ⟨⟨⟨header', header?_eq_some_iff.2 ⟨_, hf'⟩, hfin⟩, hn⟩,
      get?_eq_some_iff.2 ⟨header', hf'⟩⟩
  · rintro ⟨⟨⟨header, hh, hfin⟩, hn⟩, hx⟩
    obtain ⟨x', hf⟩ := header?_eq_some_iff.1 hh
    obtain ⟨header', hf'⟩ := get?_eq_some_iff.1 hx
    rw [hf] at hf'
    obtain ⟨rfl, rfl⟩ := Prod.mk.inj (Option.some.inj hf')
    obtain ⟨marked, hsurvey, hiff⟩ := find?_survey providers.flatten hs.plain hs.size_le hf
    have hmarked : marked = false := by
      rw [Bool.eq_false_iff]
      exact fun ht => hn (hiff.1 ht)
    exact ⟨_, hsurvey, hmarked, hfin⟩

/-- The garbage of a survey weighs what the heap says its objects weigh. -/
theorem garbageSum_survey (hs : h.Sound) (roots : List Ref) :
    garbageSum Slot.objects (survey h.slots roots).slots.toList =
        (garbageRefs (survey h.slots roots).slots).length ∧
      garbageSum Slot.bytes (survey h.slots roots).slots.toList =
        ((garbageRefs (survey h.slots roots).slots).map h.sizeAt).sum := by
  constructor
  · have hsum : garbageSum Slot.objects (survey h.slots roots).slots.toList =
        ((garbageRefs (survey h.slots roots).slots).map fun _ => 1).sum :=
      garbageSum_eq_sum fun _ _ _ _ _ => rfl
    rw [hsum, List.map_const', List.sum_replicate_nat, Nat.mul_one]
  · refine garbageSum_eq_sum fun i g header x hi => ?_
    have hlt := Nat.lt_of_lt_of_le (Array.getElem?_eq_some_iff.1 hi).1 (size_survey hs roots)
    have hf := find?_mk hlt hi
    have hfind : find? h.slots ⟨UInt32.ofNat i, g⟩ = some ({ header with marked := false }, x) := by
      rw [← plain_survey roots hs.plain, find?_plain, hf]
      rfl
    rw [sizeAt, header?_eq_some_iff.2 ⟨x, hfind⟩]
    rfl

end Effect

/-- A collection keeps what can be reached from the roots or from the objects that
wait for their finalizers, hands out the latter, and accounts for the rest. -/
theorem collect_effect {h : Heap α} (hr : h.Reachable) (hm : h.config.mode = .markSweep)
    (providers : List (List Ref)) :
    CollectionEffect h providers.flatten (h.collect providers).1 (h.collect providers).2 := by
  have hs := hr.sound
  have hs' := hs.collect providers
  have hsize := size_survey hs providers.flatten
  have hcollect : h.collect providers =
      ({ freed := (sweep (survey h.slots providers.flatten).slots h.freeHead).freed
         pending := (sweep (survey h.slots providers.flatten).slots h.freeHead).pending.toList },
        { h with
          slots := (sweep (survey h.slots providers.flatten).slots h.freeHead).slots
          freeHead := (sweep (survey h.slots providers.flatten).slots h.freeHead).freeHead
          stats := h.stats.collected
            (sweep (survey h.slots providers.flatten).slots h.freeHead).freed
            (sweep (survey h.slots providers.flatten).slots h.freeHead).freedBytes }) := by
    rw [collect, hm]
  obtain ⟨hobjects, hbytes⟩ := garbageSum_survey hs providers.flatten
  refine
    { isLive_iff := isLive_collect_iff hs hm providers
      entry?_eq := fun r hl => entry?_collect_of_survives hs.plain hs.size_le
        ((isLive_collect_iff hs hm providers r).1 hl)
      unmarked := fun r header hh => ?_
      mem_pending_iff := mem_pending_collect_iff hs hm providers
      pending_ascending := ?_
      reclaimed := ⟨garbageRefs (survey h.slots providers.flatten).slots,
        pairwise_garbageRefs hsize, fun r => ?_, ?_, ?_, ?_⟩
      freedObjects_eq := by rw [hcollect]; rfl
      collections_eq := by rw [hcollect]; rfl
      allocatedSinceCollection_eq := by rw [hcollect]; rfl
      totalAllocated_eq := by rw [hcollect]; rfl
      config_eq := by rw [hcollect] }
  · obtain ⟨x, hf⟩ := header?_eq_some_iff.1 hh
    exact hs'.plain.marked_eq_false hf
  · rw [hcollect]
    exact pairwise_pending_sweep hsize h.freeHead
  · rw [mem_garbageRefs_iff hsize, unmarked_survey_iff hs]
    rfl
  · rw [hcollect, sweep_eq_sweepList, freed_sweepList, hobjects]
  · have hsum := sum_collect hs.plain hm providers Slot.weight_objects
    rw [hs'.liveObjects, hs.liveObjects, ← hsum, hobjects]
  · have hsum := sum_collect hs.plain hm providers Slot.weight_bytes
    rw [hs'.liveBytes, hs.liveBytes, ← hsum, hbytes]

/-- A node that is a root, and an unreachable object with a finalizer that refers to
itself, to a leaf and to a slot that was never used. -/
def ownerHeap (config : Config) : Heap (Session.Obj Unit) :=
  (empty config).after
    [.store .leaf, .store (.watched [⟨1, 1⟩, ⟨0, 1⟩, ⟨9, 3⟩] true () []), .store (.node [⟨2, 1⟩])]

theorem collect_effect_ownerHeap :
    (ownerHeap {}).Reachable ∧ (ownerHeap {}).config.mode = .markSweep ∧
      CollectionEffect (ownerHeap {}) [⟨2, 1⟩] ((ownerHeap {}).collect [[⟨2, 1⟩]]).1
        ((ownerHeap {}).collect [[⟨2, 1⟩]]).2 :=
  have hr : (ownerHeap {}).Reachable := ⟨{}, _, rfl⟩
  ⟨hr, rfl, collect_effect hr rfl [[⟨2, 1⟩]]⟩

end PinnedHeap.Heap
