import PinnedHeap.Proofs.Heap.Effect

/-!
# Collections one after the other

A collection leaves objects behind that cannot be reached from the roots: what the objects that it
hands out refer to.  The next collection with the same roots takes them.

* What can be reached from the roots can be reached from them afterwards, and nothing else can
  (`reached_collect_iff`).
* Nothing is doomed after a collection (`not_isDoomed_collect`).  A kept object is not one with a
  finalizer, since that would be doomed itself, be it referred to by other doomed objects or not.
* With nothing doomed there is nothing to keep, so the second collection leaves what is reached.
* A sweep that finds no garbage gives the arena back without its marks (`sweepList_of_no_garbage`).
  So a collection that keeps everything only counts itself (`collect_of_survives`), and the third
  collection is one.
-/

namespace PinnedHeap.Heap

variable {α : Type}

/-! ## Collections that find no garbage -/

/-- A collection that reclaims nothing, right after another one, moves one counter. -/
theorem Stats.collected_zero {s : Stats} (hs : s.allocatedSinceCollection = 0) :
    s.collected 0 0 = { s with collections := s.collections + 1 } := by
  cases s
  subst hs
  rfl

theorem Slot.swept_of_not_isGarbage {s : Slot α} (hs : s.isGarbage = false) (link : Option Nat) :
    s.swept link = s.withMark false := by
  cases s with
  | live g header x =>
    have hm : header.marked = true := by simpa [isGarbage] using hs
    simp [swept, hm, withMark]
  | free g next => rfl

theorem Slot.pending?_of_not_isGarbage {s : Slot α} (hs : s.isGarbage = false) (i : Nat) :
    s.pending? i = none := by
  cases s with
  | live g header x =>
    have hm : header.marked = true := by simpa [isGarbage] using hs
    simp [pending?, hm]
  | free g next => rfl

/-- A sweep without garbage takes the marks away and does nothing else. -/
theorem sweepList_of_no_garbage (freeHead : Option Nat) {slots : List (Slot α)}
    (hs : ∀ s ∈ slots, s.isGarbage = false) :
    sweepList freeHead slots =
      { slots := (slots.map (Slot.withMark false)).toArray, freeHead } := by
  induction slots using List.reverseRecOn with
  | nil => rfl
  | append_singleton slots slot ih =>
    have hslot : slot.isGarbage = false := hs slot (by simp)
    have hslots := ih fun s hmem => hs s (by simp [hmem])
    rw [sweepList_concat, Sweep.visit_eq, hslots, Slot.swept_of_not_isGarbage hslot,
      Slot.pending?_of_not_isGarbage hslot, hslot]
    simp

variable [HeapObject α] {h : Heap α}

/-- A collection that keeps everything counts itself and changes nothing else. -/
theorem collect_of_survives (hs : h.Sound) (hm : h.config.mode = .markSweep)
    {providers : List (List Ref)} (hall : ∀ r, h.isLive r → h.Survives providers.flatten r) :
    h.collect providers = ({}, { h with stats := h.stats.collected 0 0 }) := by
  have hgarbage : ∀ s ∈ (survey h.slots providers.flatten).slots.toList, s.isGarbage = false := by
    intro s hmem
    cases s with
    | free g next => rfl
    | live g header x =>
      cases hmark : header.marked with
      | true => simp [Slot.isGarbage, hmark]
      | false =>
        obtain ⟨i, hi, hslot⟩ := List.mem_iff_getElem.1 hmem
        rw [Array.getElem_toList] at hslot
        have hlt : i < (survey h.slots providers.flatten).slots.size := by simpa using hi
        have hfind := find?_mk (Nat.lt_of_lt_of_le hlt (size_survey hs providers.flatten))
          (Array.getElem?_eq_some_iff.2 ⟨hlt, hslot⟩)
        obtain ⟨hl, hn⟩ := (unmarked_survey_iff hs _ _).1 ⟨header, x, hfind, hmark⟩
        exact absurd (hall _ hl) hn
  have hplain := plain_survey providers.flatten hs.plain
  have hsweep : sweep (survey h.slots providers.flatten).slots h.freeHead =
      { slots := h.slots, freeHead := h.freeHead } := by
    rw [sweep_eq_sweepList, sweepList_of_no_garbage _ hgarbage, ← Array.toList_map,
      Array.toArray_toList]
    exact congrArg (fun slots => Sweep.mk slots h.freeHead 0 0 #[]) hplain
  rw [collect, hm]
  simp only [hsweep, Array.toList_empty]

/-! ## What is reached after a collection -/

section Reached

variable {origins : Ref → Prop} {r : Ref}

/-- What is reached depends only on the objects that are reached. -/
theorem Reaches.of_entry?_eq {h' : Heap α}
    (heq : ∀ s, h.Reaches origins s → h'.entry? s = h.entry? s) (hr : h.Reaches origins r) :
    h'.Reaches origins r := by
  have hlive : ∀ s, h.Reaches origins s → h'.isLive s := by
    intro s hs
    have hl : h.isLive s := hs.through_of
    rw [isLive, heq s hs]
    exact hl
  induction hr with
  | origin ho hl => exact .origin ho (hlive _ (.origin ho hl))
  | @next p s header x hp hf hmem hl ih =>
    have hfind : find? h'.slots p = some (header, x) := by
      rw [← entry?_eq_find?, heq p hp, entry?_eq_find?, hf]
    exact .next ih hfind hmem (hlive _ (.next hp hf hmem hl))

variable (hs : h.Sound) (hm : h.config.mode = .markSweep) (providers : List (List Ref))
include hs hm

/-- A collection takes nothing away from what is reached, and adds nothing to it. -/
theorem reached_collect_iff :
    (h.collect providers).2.Reached providers.flatten r ↔ h.Reached providers.flatten r := by
  constructor
  · refine Reaches.of_entry?_eq fun s hreached => ?_
    have hsurvives := (isLive_collect_iff hs hm providers s).1 hreached.through_of
    exact (entry?_collect_of_survives hs.plain hs.size_le hsurvives).symm
  · refine Reaches.of_entry?_eq fun s hreached => ?_
    exact entry?_collect_of_survives hs.plain hs.size_le (Or.inl hreached)

/-- Whatever was stored with a finalizer is reached after a collection, or gone. -/
theorem not_isDoomed_collect : ¬ (h.collect providers).2.IsDoomed providers.flatten r := by
  intro hd
  obtain ⟨⟨header, hheader, hfin⟩, hreached⟩ := id hd
  rw [reached_collect_iff hs hm] at hreached
  have hsurvives := (isLive_collect_iff hs hm providers r).1 hd.isLive
  rw [header?, entry?_collect_of_survives hs.plain hs.size_le hsurvives] at hheader
  exact hsurvives.not_isDoomed ⟨⟨header, hheader, hfin⟩, hreached⟩

/-- After a collection nothing is kept but what is reached. -/
theorem survives_collect_iff :
    (h.collect providers).2.Survives providers.flatten r ↔ h.Reached providers.flatten r := by
  constructor
  · rintro (hreached | hkept)
    · exact (reached_collect_iff hs hm providers).1 hreached
    · refine absurd hkept.1 (ReachesBy.not_of_empty ?_)
      rintro s ⟨d, x, hd, -⟩
      exact not_isDoomed_collect hs hm providers hd
  · exact fun hreached => Or.inl ((reached_collect_iff hs hm providers).2 hreached)

end Reached

/-! ## Two collections and a third -/

/-- The heap after two collections with the same roots. -/
def collectTwice (h : Heap α) (providers : List (List Ref)) : Heap α :=
  ((h.collect providers).2.collect providers).2

/-- Two collections leave nothing for a third. -/
structure ClearedByTwo (h : Heap α) (providers : List (List Ref)) : Prop where
  /-- What is left is what could be reached from the roots at first. -/
  isLive_iff : ∀ r, (h.collectTwice providers).isLive r ↔ h.Reached providers.flatten r
  /-- It can be reached from them still. -/
  isLive_iff_reached : ∀ r,
    (h.collectTwice providers).isLive r ↔ (h.collectTwice providers).Reached providers.flatten r
  /-- It is what it was. -/
  entry?_eq : ∀ r, (h.collectTwice providers).isLive r →
    Heap.entry? (h.collectTwice providers) r = h.entry? r
  /-- The second collection hands nothing out. -/
  pending_eq : ((h.collect providers).2.collect providers).1.pending = []
  /-- A third one reclaims nothing, hands nothing out, and leaves everything as it is.  Only the
  counter of collections moves. -/
  collect_eq : (h.collectTwice providers).collect providers =
    ({}, { h.collectTwice providers with
      stats := { (h.collectTwice providers).stats with
        collections := (h.collectTwice providers).stats.collections + 1 } })

/-- Two collections with the same roots clear all garbage. -/
theorem clearedByTwo (hr : h.Reachable) (hm : h.config.mode = .markSweep)
    (providers : List (List Ref)) : h.ClearedByTwo providers := by
  have hs := hr.sound
  have heffect := collect_effect hr hm providers
  have hr' : (h.collect providers).2.Reachable := hr.after [.collect providers]
  have hs' := hr'.sound
  have hm' : (h.collect providers).2.config.mode = .markSweep := by rw [heffect.config_eq, hm]
  have heffect' := collect_effect hr' hm' providers
  have hs'' : (h.collectTwice providers).Sound := hs'.collect providers
  have hm'' : (h.collectTwice providers).config.mode = .markSweep := by
    rw [collectTwice, heffect'.config_eq, hm']
  have hlive : ∀ r, (h.collectTwice providers).isLive r ↔ h.Reached providers.flatten r := fun r =>
    (isLive_collect_iff hs' hm' providers r).trans (survives_collect_iff hs hm providers)
  have hreached : ∀ r, (h.collectTwice providers).Reached providers.flatten r ↔
      h.Reached providers.flatten r := fun r =>
    (reached_collect_iff hs' hm' providers).trans (reached_collect_iff hs hm providers)
  refine
    { isLive_iff := hlive
      isLive_iff_reached := fun r => (hlive r).trans (hreached r).symm
      entry?_eq := fun r hl => ?_
      pending_eq := ?_
      collect_eq := ?_ }
  · rw [collectTwice, heffect'.entry?_eq r hl]
    exact heffect.entry?_eq r ((isLive_collect_iff hs hm providers r).2 (Or.inl ((hlive r).1 hl)))
  · rw [List.eq_nil_iff_forall_not_mem]
    rintro ⟨r, x⟩ hmem
    exact not_isDoomed_collect hs hm providers ((heffect'.mem_pending_iff r x).1 hmem).1
  · have hall : ∀ r, (h.collectTwice providers).isLive r →
        (h.collectTwice providers).Survives providers.flatten r := fun r hl =>
      Or.inl ((hreached r).2 ((hlive r).1 hl))
    have hzero : (h.collectTwice providers).stats.allocatedSinceCollection = 0 :=
      heffect'.allocatedSinceCollection_eq
    rw [collect_of_survives hs'' hm'' hall, Stats.collected_zero hzero]

/-- The first collection keeps the leaf for its owner, the second one takes it, and the node that
is the root stays. -/
theorem clearedByTwo_ownerHeap :
    (ownerHeap {}).Reachable ∧ (ownerHeap {}).config.mode = .markSweep ∧
      (ownerHeap {}).ClearedByTwo [[⟨2, 1⟩]] ∧
      ((ownerHeap {}).collect [[⟨2, 1⟩]]).2.isLive ⟨0, 1⟩ ∧
      ((ownerHeap {}).collectTwice [[⟨2, 1⟩]]).isLive ⟨0, 1⟩ = false :=
  have hr : (ownerHeap {}).Reachable := ⟨{}, _, rfl⟩
  ⟨hr, rfl, clearedByTwo hr rfl [[⟨2, 1⟩]], by decide, by decide⟩

end PinnedHeap.Heap
