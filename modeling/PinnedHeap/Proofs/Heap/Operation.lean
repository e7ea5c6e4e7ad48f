import PinnedHeap.Proofs.Heap.Survey
import PinnedHeap.Proofs.Heap.Sweep

/-!
# Operations on a heap

A heap changes by three operations: an object is stored, an object is changed, or
the heap is collected.  A heap is *reachable* if some operations lead to it from
an empty heap.

What an operation does is said by what references name afterwards.  Storing
gives one reference an object, which named nothing before (`find?_store`).  A change
replaces one object (`find?_update`).  A collection leaves the survivors as they are and
no other object (`entry?_collect_of_survives`, `entry?_collect_of_not_survives`).

`Sound` is what every reachable heap has: no marks, as many slots as there are
indices at most, and counters that count (`Reachable.sound`).  Operations other
than a collection keep live objects live (`isLive_after`).
-/

namespace PinnedHeap.Heap

variable {α : Type}

/-! ## Storing -/

/-- A vacancy is the first free slot, or the place behind the last slot. -/
theorem vacancy_cases {h : Heap α} {v : Vacancy} (hv : h.vacancy = .ok v) :
    (h.freeHead = some v.index ∧ h.slots[v.index]? = some (.free v.generation v.nextFree)) ∨
    (h.freeHead = none ∧ h.slots.size < indexLimit ∧
      v = ⟨h.slots.size, Generation.first, none⟩) := by
  rw [vacancy] at hv
  cases hfree : h.freeHead with
  | none =>
    rw [hfree] at hv
    by_cases hlt : h.slots.size < indexLimit
    · rw [if_pos hlt] at hv
      exact Or.inr ⟨rfl, hlt, (Except.ok.inj hv).symm⟩
    · simp [hlt] at hv
  | some i =>
    rw [hfree] at hv
    cases hs : h.slots[i]? with
    | none => simp [hs] at hv
    | some s =>
      cases s with
      | live g header x => simp [hs] at hv
      | free g next =>
        simp only [hs, Except.ok.injEq] at hv
        subst hv
        exact Or.inl ⟨rfl, hs⟩

theorem find?_eq_none_of_vacancy {h : Heap α} {v : Vacancy} (hv : h.vacancy = .ok v) {r : Ref}
    (hr : r.index.toNat = v.index) : find? h.slots r = none := by
  rcases vacancy_cases hv with ⟨-, hs⟩ | ⟨-, -, rfl⟩
  · rw [← hr] at hs
    rw [find?_of_getElem? hs]
    rfl
  · rw [find?, hr, Array.getElem?_eq_none (Nat.le_refl _)]
    rfl

theorem index_lt_of_vacancy {h : Heap α} {v : Vacancy} (hsize : h.slots.size ≤ indexLimit)
    (hv : h.vacancy = .ok v) : v.index < indexLimit := by
  rcases vacancy_cases hv with ⟨-, hs⟩ | ⟨-, hlt, rfl⟩
  · exact Nat.lt_of_lt_of_le (Array.getElem?_eq_some_iff.1 hs).1 hsize
  · exact hlt

section Storing

variable [HeapObject α]

theorem getElem?_store {h : Heap α} {v : Vacancy} (hv : h.vacancy = .ok v) (x : α) (i : Nat) :
    (h.store v x).slots[i]? =
      if i = v.index then some (.live v.generation (headerOf x) x) else h.slots[i]? := by
  rcases vacancy_cases hv with ⟨-, hs⟩ | ⟨-, -, rfl⟩
  · have hlt := (Array.getElem?_eq_some_iff.1 hs).1
    simp only [store, if_pos hlt, Array.getElem?_setIfInBounds]
    by_cases hi : i = v.index
    · simp [hi]
    · rw [if_neg hi, if_neg (fun e => hi e.symm)]
  · simp only [store, Nat.lt_irrefl, if_false, Array.getElem?_push]

/-- Storing succeeds with a vacancy, or it fails and changes nothing. -/
theorem alloc_cases (h : Heap α) (x : α) :
    (∃ v, h.vacancy = .ok v ∧ h.alloc x = (.ok v.ref, h.store v x)) ∨
    (∃ e, h.alloc x = (.error e, h)) := by
  rw [alloc]
  cases hv : h.vacancyFor x with
  | error e => exact Or.inr ⟨e, rfl⟩
  | ok v =>
    refine Or.inl ⟨v, ?_, rfl⟩
    rw [vacancyFor] at hv
    split at hv
    · exact hv
    · exact absurd hv (by simp)

/-- Stored under its reference, an object is found, and every other reference names
what it named before. -/
theorem find?_store {h : Heap α} {v : Vacancy} (hsize : h.slots.size ≤ indexLimit)
    (hv : h.vacancy = .ok v) (x : α) (r : Ref) :
    find? (h.store v x).slots r = if r = v.ref then some (headerOf x, x) else find? h.slots r := by
  have hindex : (UInt32.ofNat v.index).toNat = v.index :=
    UInt32.toNat_ofNat_of_lt' (index_lt_of_vacancy hsize hv)
  have hslot := getElem?_store hv x r.index.toNat
  by_cases hi : r.index.toNat = v.index
  · rw [if_pos hi] at hslot
    rw [find?_of_getElem? hslot, find?_eq_none_of_vacancy hv hi, Slot.named]
    by_cases hg : v.generation = r.generation
    · have hr : r = v.ref := by
        cases r
        simp only [Vacancy.ref, Ref.mk.injEq]
        exact ⟨UInt32.toNat_inj.1 (hi.trans hindex.symm), hg.symm⟩
      rw [if_pos hg, if_pos hr]
    · have hr : r ≠ v.ref := fun e => hg (by rw [e]; rfl)
      rw [if_neg hg, if_neg hr]
  · have hr : r ≠ v.ref := by
      rintro rfl
      exact hi hindex
    rw [if_neg hi] at hslot
    rw [if_neg hr, find?, find?, hslot]

theorem entry?_of_alloc {h : Heap α} (hsize : h.slots.size ≤ indexLimit) {x : α} {r : Ref}
    (ha : (h.alloc x).1 = .ok r) : Heap.entry? (h.alloc x).2 r = some (headerOf x, x) := by
  rcases alloc_cases h x with ⟨v, hv, he⟩ | ⟨e, he⟩
  · rw [he] at ha ⊢
    obtain rfl := Except.ok.inj ha
    rw [entry?_eq_find?, find?_store hsize hv, if_pos rfl]
  · rw [he] at ha
    exact nomatch ha

theorem isLive_of_alloc {h : Heap α} (hsize : h.slots.size ≤ indexLimit) {x : α} {r : Ref}
    (ha : (h.alloc x).1 = .ok r) : (h.alloc x).2.isLive r := by
  rw [isLive, entry?_of_alloc hsize ha]
  rfl

theorem entry?_alloc_of_isLive {h : Heap α} (hsize : h.slots.size ≤ indexLimit) (x : α) {r : Ref}
    (hl : h.isLive r) : Heap.entry? (h.alloc x).2 r = h.entry? r := by
  rcases alloc_cases h x with ⟨v, hv, he⟩ | ⟨e, he⟩
  · have hr : r ≠ v.ref := by
      rintro rfl
      obtain ⟨header, y, hf⟩ := isLive_iff_find?.1 hl
      have hindex := UInt32.toNat_ofNat_of_lt' (index_lt_of_vacancy hsize hv)
      rw [find?_eq_none_of_vacancy hv hindex] at hf
      exact absurd hf (by simp)
    rw [he, entry?_eq_find?, entry?_eq_find?]
    simp only
    rw [find?_store hsize hv, if_neg hr]
  · rw [he]

end Storing

/-! ## Changing -/

theorem find?_update (h : Heap α) (r : Ref) (f : α → α) (s : Ref) :
    find? (h.update r f).slots s =
      if s = r then (find? h.slots s).map fun e => (e.1, f e.2) else find? h.slots s := by
  rw [update, find?, Array.getElem?_modify]
  by_cases hi : r.index.toNat = s.index.toNat
  · rw [if_pos hi, find?]
    cases hs : h.slots[s.index.toNat]? with
    | none => simp
    | some slot =>
      cases slot with
      | live g header x =>
        simp only [Option.map_some, Option.bind_some, Slot.update, Slot.named]
        by_cases hr : s = r
        · subst hr
          by_cases hg : g = s.generation <;> simp [hg]
        · have hne : s.generation ≠ r.generation := by
            intro hg
            apply hr
            cases s
            cases r
            simp only [Ref.mk.injEq]
            exact ⟨UInt32.toNat_inj.1 hi.symm, hg⟩
          rw [if_neg hr]
          by_cases hg : g = s.generation
          · subst hg
            simp [hne]
          · simp [hg]
      | free g next => simp [Slot.update, Slot.named]
  · have hr : s ≠ r := by
      rintro rfl
      exact hi rfl
    rw [if_neg hi, if_neg hr, find?]

theorem isLive_update (h : Heap α) (r : Ref) (f : α → α) (s : Ref) :
    (h.update r f).isLive s = h.isLive s := by
  rw [isLive, isLive, entry?_eq_find?, entry?_eq_find?, find?_update]
  by_cases hs : s = r
  · rw [if_pos hs, Option.isSome_map]
  · rw [if_neg hs]

/-! ## Collecting -/

section Collecting

variable [HeapObject α] {h : Heap α}

/-- What a survey of a heap without marks finds is what the heap has, with the marks
of the survivors. -/
theorem find?_survey (roots : List Ref) (hp : h.Plain) (hsize : h.slots.size ≤ indexLimit) {r : Ref}
    {header : Header} {x : α} (hf : find? h.slots r = some (header, x)) :
    ∃ marked, find? (survey h.slots roots).slots r = some ({ header with marked }, x) ∧
      (marked = true ↔ h.Survives roots r) := by
  have hplain := plain_survey roots hp
  have hl : h.isLive r := isLive_iff_find?.2 ⟨header, x, hf⟩
  obtain ⟨e, he⟩ := (Plain.exists_find?_iff hplain r).2 hl
  have hsame : withMark false e = (header, x) := by
    have := find?_plain (survey h.slots roots).slots r
    rw [hplain, hf, he] at this
    exact (Option.some.inj this).symm
  refine ⟨e.1.marked, ?_, ?_⟩
  · rw [he, ← (Prod.mk.inj hsame).1, ← (Prod.mk.inj hsame).2]
  · rw [← marked_survey_iff roots hp hsize]
    constructor
    · exact fun hm => ⟨e.1, e.2, he, hm⟩
    · rintro ⟨header', x', hf', hm⟩
      rw [he] at hf'
      rw [Option.some.inj hf']
      exact hm

theorem slots_collect (hm : h.config.mode = .markSweep) (providers : List (List Ref)) :
    (h.collect providers).2.slots =
      (sweep (survey h.slots providers.flatten).slots h.freeHead).slots := by
  rw [collect, hm]

theorem Plain.marked_eq_false {β : Type} {h : Heap β} (hp : h.Plain) {r : Ref} {header : Header}
    {x : β} (hf : find? h.slots r = some (header, x)) : header.marked = false := by
  rw [← hp, find?_plain] at hf
  obtain ⟨e, -, he⟩ := Option.map_eq_some_iff.1 hf
  rw [← (Prod.mk.inj he).1]

theorem collect_of_disabled (hm : h.config.mode = .disabled) (providers : List (List Ref)) :
    h.collect providers = ({}, h) := by
  rw [collect, hm]

theorem size_collect (hp : h.Plain) (providers : List (List Ref)) :
    (h.collect providers).2.slots.size = h.slots.size := by
  cases hm : h.config.mode with
  | disabled => rw [collect_of_disabled hm]
  | markSweep => rw [slots_collect hm, size_sweep, ← size_plain, plain_survey _ hp]

/-- A collection leaves a slot as it is, or takes its object away and moves it to the next
generation. -/
theorem slot_collect_cases (hp : h.Plain) (providers : List (List Ref)) {i : Nat} {s : Slot α}
    (hs : h.slots[i]? = some s) :
    (h.collect providers).2.slots[i]? = some s ∨
      ∃ g header x next, s = .live g header x ∧
        (h.collect providers).2.slots[i]? = some (.free g.next next) := by
  cases hm : h.config.mode with
  | disabled =>
    rw [collect_of_disabled hm]
    exact Or.inl hs
  | markSweep =>
    have hplain := getElem?_plain (survey h.slots providers.flatten).slots i
    rw [plain_survey _ hp, hs] at hplain
    obtain ⟨s', hs', rfl⟩ := Option.map_eq_some_iff.1 hplain.symm
    rw [slots_collect hm, sweep_eq_sweepList, getElem?_sweepList, Array.getElem?_toList, hs',
      Option.map_some]
    cases s' with
    | live g header x =>
      cases hmark : header.marked with
      | true => exact Or.inl (by simp [Slot.swept, Slot.withMark, hmark])
      | false => exact Or.inr ⟨g, _, x, _, rfl, by simp [Slot.swept, hmark]; rfl⟩
    | free g next => exact Or.inl rfl

/-- A survivor is what it was before the collection. -/
theorem entry?_collect_of_survives (hp : h.Plain) (hsize : h.slots.size ≤ indexLimit)
    {providers : List (List Ref)} {r : Ref} (hs : h.Survives providers.flatten r) :
    Heap.entry? (h.collect providers).2 r = h.entry? r := by
  cases hm : h.config.mode with
  | disabled => rw [collect_of_disabled hm]
  | markSweep =>
    obtain ⟨header, x, hf⟩ := isLive_iff_find?.1 hs.isLive
    obtain ⟨marked, hsurvey, hiff⟩ := find?_survey _ hp hsize hf
    have hmark := hp.marked_eq_false hf
    rw [entry?_eq_find?, entry?_eq_find?, slots_collect hm, find?_sweep, hsurvey, hf,
      Option.bind_some, hiff.2 hs, if_pos rfl, withMark, ← hmark]

/-- What does not survive is gone after the collection. -/
theorem entry?_collect_of_not_survives (hm : h.config.mode = .markSweep) (hp : h.Plain)
    (hsize : h.slots.size ≤ indexLimit) {providers : List (List Ref)} {r : Ref}
    (hs : ¬ h.Survives providers.flatten r) : Heap.entry? (h.collect providers).2 r = none := by
  rw [entry?_eq_find?, slots_collect hm, find?_sweep]
  cases hf : find? h.slots r with
  | none =>
    have : find? (survey h.slots providers.flatten).slots r = none := by
      rw [Option.eq_none_iff_forall_ne_some]
      intro e he
      obtain ⟨header, x, hf'⟩ := isLive_iff_find?.1
        ((Plain.exists_find?_iff (plain_survey _ hp) r).1 ⟨e, he⟩)
      rw [hf] at hf'
      exact absurd hf' (by simp)
    rw [this]
    rfl
  | some e =>
    obtain ⟨marked, hsurvey, hiff⟩ := find?_survey providers.flatten hp hsize hf
    have hmarked : marked = false := by
      rw [Bool.eq_false_iff]
      exact fun ht => hs (hiff.1 ht)
    rw [hsurvey, Option.bind_some, hmarked]
    rfl

end Collecting

/-! ## Operations -/

/-- An operation on a heap. -/
inductive Operation (α : Type) where
  /-- Store an object. -/
  | store (x : α)
  /-- Change the object that a reference names. -/
  | update (r : Ref) (f : α → α)
  /-- Collect with the roots of some providers. -/
  | collect (providers : List (List Ref))

section Operations

variable [HeapObject α]

namespace Operation

/-- The heap after an operation. -/
def apply (h : Heap α) : Operation α → Heap α
  | .store x => (h.alloc x).2
  | .update r f => h.update r f
  | .collect providers => (h.collect providers).2

/-- Whether an operation is a collection. -/
def isCollect {β : Type} : Operation β → Bool
  | .collect _ => true
  | _ => false

end Operation

/-- The heap after several operations. -/
def after (h : Heap α) (ops : List (Operation α)) : Heap α := ops.foldl Operation.apply h

/-- A heap that operations lead to from an empty heap. -/
def Reachable (h : Heap α) : Prop := ∃ config ops, h = (empty config).after ops

theorem after_append (h : Heap α) (ops more : List (Operation α)) :
    h.after (ops ++ more) = (h.after ops).after more := List.foldl_append

theorem Reachable.after {h : Heap α} (hr : h.Reachable) (ops : List (Operation α)) :
    (h.after ops).Reachable := by
  obtain ⟨config, before, rfl⟩ := hr
  exact ⟨config, before ++ ops, (after_append _ before ops).symm⟩

end Operations

/-! ## What every reachable heap has -/

/-- No marks, as many slots as there are indices at most, and counters that count. -/
structure Sound {β : Type} (h : Heap β) : Prop where
  /-- No slot carries a mark. -/
  plain : h.Plain
  /-- Every slot has an index. -/
  size_le : h.slots.size ≤ indexLimit
  /-- The counter of live objects counts them. -/
  liveObjects : h.stats.liveObjects = (h.slots.toList.map Slot.objects).sum
  /-- The counter of live bytes is the sum of their sizes. -/
  liveBytes : h.stats.liveBytes = (h.slots.toList.map Slot.bytes).sum

section Sound

variable [HeapObject α] {h : Heap α}

omit [HeapObject α] in
theorem sound_empty (config : Config) : (empty config : Heap α).Sound where
  plain := by simp [Plain, Heap.plain, empty]
  size_le := Nat.zero_le _
  liveObjects := rfl
  liveBytes := rfl

/-- Storing adds what the new slot weighs. -/
theorem sum_store {v : Vacancy} (hv : h.vacancy = .ok v) (x : α) {w : Slot α → Nat}
    (hw : Slot.Weight w) :
    ((h.store v x).slots.toList.map w).sum =
      (h.slots.toList.map w).sum + w (.live v.generation (headerOf x) x) := by
  rcases vacancy_cases hv with ⟨-, hs⟩ | ⟨-, -, rfl⟩
  · have hlt := (Array.getElem?_eq_some_iff.1 hs).1
    rw [← Array.getElem?_toList] at hs
    have := sum_map_set w hs (.live v.generation (headerOf x) x)
    rw [hw.free, Nat.add_zero] at this
    simp only [store, if_pos hlt, Array.toList_setIfInBounds]
    exact this
  · simp [store]

theorem Sound.alloc (hs : h.Sound) (x : α) : (h.alloc x).2.Sound := by
  rcases alloc_cases h x with ⟨v, hv, he⟩ | ⟨e, he⟩
  · rw [he]
    have hlt := index_lt_of_vacancy hs.size_le hv
    refine ⟨?_, ?_, ?_, ?_⟩
    · refine plain_eq_self_iff.2 fun i s hi => ?_
      rw [getElem?_store hv] at hi
      split at hi
      · rw [← Option.some.inj hi]
        rfl
      · exact plain_eq_self_iff.1 hs.plain i s hi
    · rcases vacancy_cases hv with ⟨-, hslot⟩ | ⟨-, hsize, rfl⟩
      · have := (Array.getElem?_eq_some_iff.1 hslot).1
        simp only [store, if_pos this, Array.size_setIfInBounds]
        exact hs.size_le
      · simp only [store, Nat.lt_irrefl, if_false, Array.size_push]
        exact hsize
    · rw [sum_store hv x Slot.weight_objects, ← hs.liveObjects]
      rfl
    · rw [sum_store hv x Slot.weight_bytes, ← hs.liveBytes]
      rfl
  · rw [he]
    exact hs

omit [HeapObject α] in
theorem sum_update (r : Ref) (f : α → α) {w : Slot α → Nat} (hw : Slot.Weight w) :
    ((h.update r f).slots.toList.map w).sum = (h.slots.toList.map w).sum := by
  congr 1
  apply List.ext_getElem?
  intro i
  rw [List.getElem?_map, List.getElem?_map, Array.getElem?_toList, Array.getElem?_toList, update,
    Array.getElem?_modify]
  split
  · rw [Option.map_map]
    congr 1
    funext s
    exact hw.update r.generation f s
  · rfl

omit [HeapObject α] in
theorem Sound.update (hs : h.Sound) (r : Ref) (f : α → α) : (h.update r f).Sound where
  plain := by
    refine plain_eq_self_iff.2 fun i s hi => ?_
    rw [Heap.update, Array.getElem?_modify] at hi
    split at hi
    · obtain ⟨s', hs', rfl⟩ := Option.map_eq_some_iff.1 hi
      have := plain_eq_self_iff.1 hs.plain i s' hs'
      cases s' with
      | live g header x =>
        simp only [Slot.withMark, Slot.live.injEq, true_and, and_true, Slot.update] at this ⊢
        exact this
      | free g next => rfl
    · exact plain_eq_self_iff.1 hs.plain i s hi
  size_le := by
    rw [Heap.update, Array.size_modify]
    exact hs.size_le
  liveObjects := by
    rw [sum_update r f Slot.weight_objects]
    exact hs.liveObjects
  liveBytes := by
    rw [sum_update r f Slot.weight_bytes]
    exact hs.liveBytes

omit [HeapObject α] in
/-- Arenas that differ in marks only weigh the same. -/
theorem sum_of_plain {a b : Array (Slot α)} (hp : plain a = plain b) {w : Slot α → Nat}
    (hw : Slot.Weight w) :
    (a.toList.map w).sum = (b.toList.map w).sum := by
  have key : ∀ slots : Array (Slot α), ((plain slots).toList.map w) = slots.toList.map w := by
    intro slots
    rw [plain, Array.toList_map, List.map_map]
    congr 1
    funext s
    exact hw.withMark false s
  rw [← key a, hp, key b]

/-- What a collection keeps and what it reclaims add up to what there was. -/
theorem sum_collect (hp : h.Plain) (hm : h.config.mode = .markSweep) (providers : List (List Ref))
    {w : Slot α → Nat} (hw : Slot.Weight w) :
    ((h.collect providers).2.slots.toList.map w).sum +
        garbageSum w (survey h.slots providers.flatten).slots.toList =
      (h.slots.toList.map w).sum := by
  rw [slots_collect hm, sweep_eq_sweepList, sum_sweepList _ _ hw]
  exact sum_of_plain ((plain_survey _ hp).trans hp.symm) hw

theorem Sound.collect (hs : h.Sound) (providers : List (List Ref)) :
    (h.collect providers).2.Sound := by
  cases hm : h.config.mode with
  | disabled =>
    rw [collect_of_disabled hm]
    exact hs
  | markSweep =>
    have hobjects := sum_collect hs.plain hm providers Slot.weight_objects
    have hbytes := sum_collect hs.plain hm providers Slot.weight_bytes
    refine ⟨?_, ?_, ?_, ?_⟩
    · rw [Plain, slots_collect hm, plain_sweep]
    · rw [size_collect hs.plain]
      exact hs.size_le
    · have : (h.collect providers).2.stats.liveObjects = h.stats.liveObjects -
          garbageSum Slot.objects (survey h.slots providers.flatten).slots.toList := by
        rw [Heap.collect, hm, ← freed_sweepList h.freeHead, ← sweep_eq_sweepList]
        rfl
      rw [this, hs.liveObjects]
      omega
    · have : (h.collect providers).2.stats.liveBytes = h.stats.liveBytes -
          garbageSum Slot.bytes (survey h.slots providers.flatten).slots.toList := by
        rw [Heap.collect, hm, ← freedBytes_sweepList h.freeHead, ← sweep_eq_sweepList]
        rfl
      rw [this, hs.liveBytes]
      omega

theorem Sound.apply (hs : h.Sound) (op : Operation α) : (Operation.apply h op).Sound := by
  cases op with
  | store x => exact hs.alloc x
  | update r f => exact hs.update r f
  | collect providers => exact hs.collect providers

theorem Sound.after (hs : h.Sound) (ops : List (Operation α)) : (h.after ops).Sound := by
  induction ops generalizing h with
  | nil => exact hs
  | cons op rest ih => exact ih (hs.apply op)

theorem Reachable.sound (hr : h.Reachable) : h.Sound := by
  obtain ⟨config, ops, rfl⟩ := hr
  exact (sound_empty config).after ops

end Sound

/-! ## Headers -/

section Headers

variable [HeapObject α] {h : Heap α}

/-- An object is found with the header it had, or with the one it was stored with. -/
theorem header?_apply_cases (hs : h.Sound) (op : Operation α) {r : Ref} {header : Header}
    (hh : Heap.header? (op.apply h) r = some header) :
    h.header? r = some header ∨
      ∃ x, op = .store x ∧ (h.alloc x).1 = .ok r ∧ header = headerOf x := by
  obtain ⟨y, hf⟩ := header?_eq_some_iff.1 hh
  cases op with
  | store x =>
    rw [Operation.apply] at hf
    rcases alloc_cases h x with ⟨v, hv, he⟩ | ⟨e, he⟩
    · rw [he] at hf
      rw [find?_store hs.size_le hv] at hf
      split at hf
      next hr =>
        obtain ⟨rfl, rfl⟩ := Prod.mk.inj (Option.some.inj hf)
        exact Or.inr ⟨x, rfl, by rw [he, hr], rfl⟩
      next => exact Or.inl (header?_eq_some_iff.2 ⟨y, hf⟩)
    · rw [he] at hf
      exact Or.inl (header?_eq_some_iff.2 ⟨y, hf⟩)
  | update s f =>
    rw [Operation.apply, find?_update] at hf
    split at hf
    · obtain ⟨⟨header', x⟩, hf', he⟩ := Option.map_eq_some_iff.1 hf
      obtain ⟨rfl, -⟩ := Prod.mk.inj he
      exact Or.inl (header?_eq_some_iff.2 ⟨x, hf'⟩)
    · exact Or.inl (header?_eq_some_iff.2 ⟨y, hf⟩)
  | collect providers =>
    left
    cases hm : h.config.mode with
    | disabled =>
      rw [Operation.apply, collect_of_disabled hm] at hh
      exact hh
    | markSweep =>
      by_cases hsurvives : h.Survives providers.flatten r
      · rw [header?, ← entry?_collect_of_survives hs.plain hs.size_le hsurvives]
        exact hh
      · have hnone := entry?_collect_of_not_survives hm hs.plain hs.size_le hsurvives
        rw [Operation.apply, header?, hnone] at hh
        cases hh

end Headers

/-! ## Operations that keep live objects -/

section Keeping

variable [HeapObject α] {h : Heap α}

theorem isLive_apply (hs : h.Sound) {op : Operation α} (hop : op.isCollect = false) {r : Ref}
    (hl : h.isLive r) : (Operation.apply h op).isLive r := by
  cases op with
  | store x =>
    have := entry?_alloc_of_isLive hs.size_le x hl
    rw [Operation.apply, isLive, this]
    exact hl
  | update r' f =>
    rw [Operation.apply, isLive_update]
    exact hl
  | collect providers => exact absurd hop (by simp [Operation.isCollect])

/-- Without a collection live objects stay live. -/
theorem isLive_after (hs : h.Sound) {ops : List (Operation α)}
    (hops : ∀ op ∈ ops, op.isCollect = false) {r : Ref} (hl : h.isLive r) :
    (h.after ops).isLive r := by
  induction ops generalizing h with
  | nil => exact hl
  | cons op rest ih =>
    exact ih (hs.apply op) (fun o ho => hops o (List.mem_cons_of_mem op ho))
      (isLive_apply hs (hops op List.mem_cons_self) hl)

end Keeping

/-! ## Operations with a property -/

section LeadsTo

variable [HeapObject α] {allowed : Operation α → Prop} {a b c h h' : Heap α}

/-- A heap that some operations with the property `allowed` lead to. -/
def LeadsTo (allowed : Operation α → Prop) (h h' : Heap α) : Prop :=
  ∃ ops : List (Operation α), (∀ op ∈ ops, allowed op) ∧ h' = h.after ops

theorem LeadsTo.refl (h : Heap α) : h.LeadsTo allowed h :=
  ⟨[], fun _ hop => absurd hop List.not_mem_nil, rfl⟩

theorem LeadsTo.trans (hab : a.LeadsTo allowed b) (hbc : b.LeadsTo allowed c) :
    a.LeadsTo allowed c := by
  obtain ⟨ops, hops, rfl⟩ := hab
  obtain ⟨more, hmore, rfl⟩ := hbc
  refine ⟨ops ++ more, fun op hop => (List.mem_append.1 hop).elim (hops op) (hmore op), ?_⟩
  rw [after_append]

theorem LeadsTo.sound (hlead : h.LeadsTo allowed h') (hs : h.Sound) : h'.Sound := by
  obtain ⟨ops, -, rfl⟩ := hlead
  exact hs.after ops

/-- Operations other than collections. -/
def Operation.Quiet {β : Type} (op : Operation β) : Prop := op.isCollect = false

theorem LeadsTo.isLive (hlead : h.LeadsTo Operation.Quiet h') (hs : h.Sound) {r : Ref}
    (hl : h.isLive r) : h'.isLive r := by
  obtain ⟨ops, hops, rfl⟩ := hlead
  exact isLive_after hs hops hl

end LeadsTo

end PinnedHeap.Heap
