import PinnedHeap.Proofs.Heap.Mark

/-!
# What a survey keeps

The live objects of a heap fall into four classes for a list of roots.

* *Reached*: reachable from the roots.
* *Doomed*: not reached, and stored with a finalizer.
* *Kept*: neither, but reachable from the references of a doomed object.
* The rest.

`marked_survey_iff` says that a survey marks exactly the reached and the kept
objects.  It is put together from the two markings of a survey.  The first marks
the reached objects.  The second starts from the references of the doomed ones
and stops at what is reached or doomed, which loses nothing: a path that enters
a reached object stays among the reached, and a path that enters a doomed object
goes on at one of the origins (`reachesBy_unclaimed_iff`).

The heap must carry no marks at the start (`Heap.Plain`), and its slots must fit
the indices of references.
-/

namespace PinnedHeap.Heap

variable {α : Type} [HeapObject α]

/-! ## The classes -/

/-- Reachable from the roots through live objects. -/
def Reached (h : Heap α) (roots : List Ref) (r : Ref) : Prop := h.Reaches (· ∈ roots) r

/-- Live, not reached, and stored with a finalizer. -/
def IsDoomed (h : Heap α) (roots : List Ref) (r : Ref) : Prop :=
  (∃ header, h.header? r = some header ∧ header.finalizable = true) ∧ ¬ h.Reached roots r

/-- A reference of a doomed object. -/
def DoomedRef (h : Heap α) (roots : List Ref) (r : Ref) : Prop :=
  ∃ d x, h.IsDoomed roots d ∧ h.get? d = some x ∧ r ∈ HeapObject.refs x

/-- Neither reached nor doomed, but reachable from a reference of a doomed object
through live objects. -/
def IsKept (h : Heap α) (roots : List Ref) (r : Ref) : Prop :=
  h.Reaches (h.DoomedRef roots) r ∧ ¬ h.Reached roots r ∧ ¬ h.IsDoomed roots r

/-- Reached or kept. -/
def Survives (h : Heap α) (roots : List Ref) (r : Ref) : Prop :=
  h.Reached roots r ∨ h.IsKept roots r

section Classes

variable {h : Heap α} {roots : List Ref} {r : Ref}

theorem Reached.isLive (hr : h.Reached roots r) : h.isLive r := hr.through_of

theorem IsKept.isLive (hk : h.IsKept roots r) : h.isLive r := hk.1.through_of

theorem Survives.isLive (hs : h.Survives roots r) : h.isLive r := hs.elim (·.isLive) (·.isLive)

theorem IsDoomed.isLive (hd : h.IsDoomed roots r) : h.isLive r := by
  obtain ⟨⟨header, hh, -⟩, -⟩ := hd
  obtain ⟨e, he, -⟩ := Option.map_eq_some_iff.1 hh
  rw [Heap.isLive, he]
  rfl

theorem Survives.not_isDoomed (hs : h.Survives roots r) : ¬ h.IsDoomed roots r := by
  rcases hs with hr | hk
  · exact fun hd => hd.2 hr
  · exact hk.2.2

end Classes

theorem get?_eq_some_iff {β : Type} {h : Heap β} {r : Ref} {x : β} :
    h.get? r = some x ↔ ∃ header, find? h.slots r = some (header, x) := by
  rw [get?, entry?_eq_find?, Option.map_eq_some_iff]
  constructor
  · rintro ⟨⟨header, x'⟩, he, rfl⟩
    exact ⟨header, he⟩
  · rintro ⟨header, he⟩
    exact ⟨(header, x), he, rfl⟩

theorem header?_eq_some_iff {β : Type} {h : Heap β} {r : Ref} {header : Header} :
    h.header? r = some header ↔ ∃ x, find? h.slots r = some (header, x) := by
  rw [header?, entry?_eq_find?, Option.map_eq_some_iff]
  constructor
  · rintro ⟨⟨header', x⟩, he, rfl⟩
    exact ⟨x, he⟩
  · rintro ⟨x, he⟩
    exact ⟨(header, x), he, rfl⟩

/-! ## Heaps without marks -/

/-- No slot of the heap carries a mark. -/
def Plain {β : Type} (h : Heap β) : Prop := plain h.slots = h.slots

/-- An arena that differs from a heap without marks in marks only names the same
objects. -/
theorem Plain.exists_find?_iff {β : Type} {h : Heap β} {slots : Array (Slot β)}
    (hp : plain slots = h.slots) (r : Ref) : (∃ e, find? slots r = some e) ↔ h.isLive r := by
  rw [isLive_iff_find?, ← hp, find?_plain]
  constructor
  · rintro ⟨e, he⟩
    exact ⟨_, _, by rw [he]; rfl⟩
  · rintro ⟨header, x, he⟩
    obtain ⟨e, he, -⟩ := Option.map_eq_some_iff.1 he
    exact ⟨e, he⟩

theorem Plain.unmarked_iff {β : Type} {h : Heap β} {slots : Array (Slot β)}
    (hp : plain slots = h.slots) (r : Ref) :
    Unmarked slots r ↔ h.isLive r ∧ ¬ Marked slots r := by
  constructor
  · intro hu
    obtain ⟨header, x, hf, -⟩ := id hu
    exact ⟨(Plain.exists_find?_iff hp r).1 ⟨_, hf⟩, fun hm => hm.not_unmarked hu⟩
  · rintro ⟨hl, hm⟩
    obtain ⟨e, hf⟩ := (Plain.exists_find?_iff hp r).2 hl
    exact (marked_or_unmarked hf).resolve_left hm

/-! ## The first marking -/

/-- The marking from the roots, when it has come to its end. -/
def firstMarking (slots : Array (Slot α)) (roots : List Ref) : Marking α :=
  Marking.finish { slots, worklist := Marking.push [] roots }

section Survey

variable {h : Heap α} (roots : List Ref)

theorem plain_firstMarking (hp : h.Plain) : plain (firstMarking h.slots roots).slots = h.slots :=
  (Marking.plain_finish _).trans hp

theorem marked_firstMarking_iff (hp : h.Plain) (r : Ref) :
    Marked (firstMarking h.slots roots).slots r ↔ h.Reached roots r := by
  have hno : ∀ s, ¬ Marked h.slots s := by
    intro s
    rw [← hp]
    exact not_marked_plain h.slots s
  rw [firstMarking, Marking.marked_finish_iff, or_iff_right (hno r)]
  constructor
  · intro hr
    refine hr.mono (fun s hs => ?_) (fun s hs _ => ?_)
    · exact ((Plain.unmarked_iff hp s).1 hs).1
    · simpa [Marking.push_eq] using hs
  · intro hr
    refine hr.mono (fun s hs => ?_) (fun s hs _ => ?_)
    · exact (Plain.unmarked_iff hp s).2 ⟨hs, hno s⟩
    · simpa [Marking.push_eq] using hs

/-! ## The doomed objects -/

omit [HeapObject α] in
theorem mem_doomed_iff {slots : Array (Slot α)} {i : Nat} :
    i ∈ doomed slots ↔ ∃ g header x, slots[i]? = some (.live g header x) ∧
      header.finalizable = true ∧ header.marked = false := by
  rw [doomed, List.mem_filter, List.mem_range, Option.any_eq_true]
  constructor
  · rintro ⟨-, s, hs, hd⟩
    cases s with
    | live g header x =>
      simp only [Slot.isDoomed, Bool.and_eq_true, Bool.not_eq_true'] at hd
      exact ⟨g, header, x, hs, hd.1, hd.2⟩
    | free g next => exact absurd hd (by simp [Slot.isDoomed])
  · rintro ⟨g, header, x, hs, hf, hm⟩
    refine ⟨(Array.getElem?_eq_some_iff.1 hs).1, _, hs, ?_⟩
    simp [Slot.isDoomed, hf, hm]

theorem index_mem_doomed_iff (hp : h.Plain) {r : Ref} (hl : h.isLive r) :
    r.index.toNat ∈ doomed (firstMarking h.slots roots).slots ↔ h.IsDoomed roots r := by
  have hplain := plain_firstMarking roots hp
  obtain ⟨e, he⟩ := (Plain.exists_find?_iff hplain r).2 hl
  have hfind : find? h.slots r = some (withMark false e) := by
    rw [← hplain, find?_plain, he]
    rfl
  have hslot := find?_eq_some_iff.1 he
  have hreached : e.1.marked = true ↔ h.Reached roots r := by
    rw [← marked_firstMarking_iff roots hp]
    constructor
    · exact fun hm => ⟨e.1, e.2, he, hm⟩
    · rintro ⟨header, x, hf, hm⟩
      rw [he] at hf
      rw [Option.some.inj hf]
      exact hm
  rw [mem_doomed_iff, IsDoomed, ← hreached, Bool.not_eq_true]
  constructor
  · rintro ⟨g, header, x, hs, hf, hm⟩
    rw [hslot] at hs
    obtain ⟨-, rfl, -⟩ := Slot.live.inj (Option.some.inj hs)
    exact ⟨⟨_, header?_eq_some_iff.2 ⟨e.2, hfind⟩, hf⟩, hm⟩
  · rintro ⟨⟨header, hh, hf⟩, hm⟩
    obtain ⟨x, hx⟩ := header?_eq_some_iff.1 hh
    rw [hfind] at hx
    obtain ⟨rfl, -⟩ := Prod.mk.inj (Option.some.inj hx)
    exact ⟨_, _, _, hslot, hf, hm⟩

/-- The doomed slots hold doomed objects and nothing else. -/
theorem exists_ref_of_mem_doomed (hp : h.Plain) (hsize : h.slots.size ≤ indexLimit) {i : Nat}
    (hi : i ∈ doomed (firstMarking h.slots roots).slots) :
    ∃ r x, r.index.toNat = i ∧ h.IsDoomed roots r ∧ h.get? r = some x ∧
      (firstMarking h.slots roots).slots[i]?.map Slot.refs = some (HeapObject.refs x) ∧
      refAt? (firstMarking h.slots roots).slots i = some r := by
  have hplain := plain_firstMarking roots hp
  obtain ⟨g, header, x, hs, -, -⟩ := mem_doomed_iff.1 hi
  have hlt : i < indexLimit := by
    have := (Array.getElem?_eq_some_iff.1 hs).1
    rw [← size_plain, hplain] at this
    omega
  have hindex : (UInt32.ofNat i).toNat = i := UInt32.toNat_ofNat_of_lt' hlt
  have hf := find?_mk hlt hs
  have hget : h.get? ⟨UInt32.ofNat i, g⟩ = some x := by
    rw [get?_eq_some_iff, ← hplain, find?_plain, hf]
    exact ⟨_, rfl⟩
  have hl : h.isLive ⟨UInt32.ofNat i, g⟩ := (Plain.exists_find?_iff hplain _).1 ⟨_, hf⟩
  refine ⟨⟨UInt32.ofNat i, g⟩, x, hindex, ?_, hget, by rw [hs]; rfl, by rw [refAt?, hs]⟩
  rw [← index_mem_doomed_iff roots hp hl, hindex]
  exact hi

/-! ## The second marking -/

/-- The marking from the references of the doomed objects, before its first step. -/
def secondMarking (slots : Array (Slot α)) (roots : List Ref) : Marking α :=
  (firstMarking slots roots).ofDoomed (doomed (firstMarking slots roots).slots)

theorem plain_secondMarking (hp : h.Plain) :
    plain (secondMarking h.slots roots).slots = h.slots :=
  (plain_setMarks true _ _).trans (plain_firstMarking roots hp)

/-- The second marking starts with the reached and the doomed objects marked. -/
theorem marked_secondMarking_iff (hp : h.Plain) (r : Ref) :
    Marked (secondMarking h.slots roots).slots r ↔ h.Reached roots r ∨ h.IsDoomed roots r := by
  have hplain := plain_firstMarking roots hp
  simp only [Marked, secondMarking, Marking.ofDoomed, find?_setMarks]
  by_cases hl : h.isLive r
  · have hd := index_mem_doomed_iff roots hp hl
    obtain ⟨e, he⟩ := (Plain.exists_find?_iff hplain r).2 hl
    by_cases hi : r.index.toNat ∈ doomed (firstMarking h.slots roots).slots
    · rw [if_pos hi, he]
      exact ⟨fun _ => Or.inr (hd.1 hi), fun _ => ⟨_, _, rfl, rfl⟩⟩
    · rw [if_neg hi]
      change Marked (firstMarking h.slots roots).slots r ↔ _
      rw [marked_firstMarking_iff roots hp, or_iff_left (fun h' => hi (hd.2 h'))]
  · constructor
    · rintro ⟨header, x, hf, -⟩
      refine absurd ((Plain.exists_find?_iff hplain r).1 ?_) hl
      cases he : find? (firstMarking h.slots roots).slots r with
      | none => simp [he] at hf
      | some e => exact ⟨e, rfl⟩
    · rintro (hr | hd)
      · exact absurd hr.isLive hl
      · exact absurd hd.isLive hl

theorem mem_worklist_secondMarking_iff (hp : h.Plain) (hsize : h.slots.size ≤ indexLimit)
    (r : Ref) : r ∈ (secondMarking h.slots roots).worklist ↔ h.DoomedRef roots r := by
  have hempty : (firstMarking h.slots roots).worklist = [] := Marking.worklist_finish _
  simp only [secondMarking, Marking.ofDoomed, Marking.push_eq, hempty, List.append_nil,
    List.mem_reverse, List.mem_flatMap]
  constructor
  · rintro ⟨i, hi, hr⟩
    obtain ⟨d, x, -, hd, hx, hrefs, -⟩ := exists_ref_of_mem_doomed roots hp hsize hi
    rw [hrefs, Option.getD_some] at hr
    exact ⟨d, x, hd, hx, hr⟩
  · rintro ⟨d, x, hd, hx, hr⟩
    have hi := (index_mem_doomed_iff roots hp hd.isLive).2 hd
    obtain ⟨d', x', hindex, hd', hx', hrefs, -⟩ := exists_ref_of_mem_doomed roots hp hsize hi
    refine ⟨d.index.toNat, hi, ?_⟩
    obtain ⟨header, hf⟩ := get?_eq_some_iff.1 hx
    obtain ⟨header', hf'⟩ := get?_eq_some_iff.1 hx'
    obtain rfl := ref_eq_of_index hf hf' hindex.symm
    rw [hf] at hf'
    obtain ⟨-, rfl⟩ := Prod.mk.inj (Option.some.inj hf')
    rw [hrefs, Option.getD_some]
    exact hr

/-- Through objects that are neither reached nor doomed, the references of the
doomed objects lead to the kept objects. -/
theorem reachesBy_unclaimed_iff (r : Ref) :
    ReachesBy h.slots (fun s => h.isLive s ∧ ¬ (h.Reached roots s ∨ h.IsDoomed roots s))
      (h.DoomedRef roots) r ↔ h.IsKept roots r := by
  constructor
  · intro hr
    obtain ⟨-, hclaimed⟩ := hr.through_of
    exact ⟨hr.mono (fun _ ht => ht.1) (fun _ ho _ => ho), fun h' => hclaimed (Or.inl h'),
      fun h' => hclaimed (Or.inr h')⟩
  · rintro ⟨hr, hnot⟩
    -- Every object on the path is reached, doomed, or reachable the narrow way.
    have key : (h.Reached roots r ∨ h.IsDoomed roots r) ∨
        ReachesBy h.slots (fun s => h.isLive s ∧ ¬ (h.Reached roots s ∨ h.IsDoomed roots s))
          (h.DoomedRef roots) r := by
      clear hnot
      induction hr with
      | @origin s ho hl =>
        by_cases hc : h.Reached roots s ∨ h.IsDoomed roots s
        · exact Or.inl hc
        · exact Or.inr (.origin ho ⟨hl, hc⟩)
      | @next p s header x _ hf hs hl ih =>
        by_cases hc : h.Reached roots s ∨ h.IsDoomed roots s
        · exact Or.inl hc
        rcases ih with (hreached | hdoomed) | hp
        · exact Or.inl (Or.inl (.next hreached hf hs hl))
        · exact Or.inr (.origin ⟨p, x, hdoomed, get?_eq_some_iff.2 ⟨header, hf⟩, hs⟩ ⟨hl, hc⟩)
        · exact Or.inr (.next hp hf hs ⟨hl, hc⟩)
    rcases key with (hreached | hdoomed) | hp
    · exact absurd hreached hnot.1
    · exact absurd hdoomed hnot.2
    · exact hp

/-- At its end the second marking has marked all but what is reclaimed for sure. -/
theorem marked_finish_secondMarking_iff (hp : h.Plain) (hsize : h.slots.size ≤ indexLimit)
    (r : Ref) : Marked (secondMarking h.slots roots).finish.slots r ↔
      (h.Reached roots r ∨ h.IsDoomed roots r) ∨ h.IsKept roots r := by
  have hplain := plain_secondMarking roots hp
  have hunmarked : ∀ s, Unmarked (secondMarking h.slots roots).slots s ↔
      h.isLive s ∧ ¬ (h.Reached roots s ∨ h.IsDoomed roots s) := by
    intro s
    rw [Plain.unmarked_iff hplain, marked_secondMarking_iff roots hp]
  rw [Marking.marked_finish_iff, marked_secondMarking_iff roots hp, ← reachesBy_unclaimed_iff roots]
  refine or_congr Iff.rfl ⟨fun hr => ?_, fun hr => ?_⟩
  · refine (hr.of_plain (hplain.trans hp.symm)).mono (fun s hs => (hunmarked s).1 hs) ?_
    exact fun s hs _ => (mem_worklist_secondMarking_iff roots hp hsize s).1 hs
  · refine (hr.of_plain (hp.trans hplain.symm)).mono (fun s hs => (hunmarked s).2 hs) ?_
    exact fun s hs _ => (mem_worklist_secondMarking_iff roots hp hsize s).2 hs

/-! ## The survey -/

theorem survey_slots (slots : Array (Slot α)) (roots : List Ref) :
    (survey slots roots).slots = setMarks false (secondMarking slots roots).finish.slots
      (doomed (firstMarking slots roots).slots) := rfl

theorem plain_survey (hp : h.Plain) : plain (survey h.slots roots).slots = h.slots := by
  rw [survey_slots, plain_setMarks, Marking.plain_finish, plain_secondMarking roots hp]

/-- A survey marks exactly the reached and the kept objects. -/
theorem marked_survey_iff (hp : h.Plain) (hsize : h.slots.size ≤ indexLimit) (r : Ref) :
    Marked (survey h.slots roots).slots r ↔ h.Survives roots r := by
  have hsecond := marked_finish_secondMarking_iff roots hp hsize r
  simp only [Marked, survey_slots, find?_setMarks]
  by_cases hl : h.isLive r
  · have hd := index_mem_doomed_iff roots hp hl
    by_cases hi : r.index.toNat ∈ doomed (firstMarking h.slots roots).slots
    · rw [if_pos hi]
      constructor
      · rintro ⟨header, x, hf, hm⟩
        obtain ⟨e, -, he⟩ := Option.map_eq_some_iff.1 hf
        rw [← (Prod.mk.inj he).1] at hm
        exact absurd hm Bool.false_ne_true
      · exact fun hs => absurd (hd.1 hi) hs.not_isDoomed
    · rw [if_neg hi]
      change Marked (secondMarking h.slots roots).finish.slots r ↔ _
      rw [hsecond, or_iff_left (fun h' => hi (hd.2 h'))]
      rfl
  · constructor
    · rintro ⟨header, x, hf, -⟩
      refine absurd ((Plain.exists_find?_iff (plain_survey roots hp) r).1 ?_) hl
      rw [survey_slots, find?_setMarks]
      exact ⟨_, hf⟩
    · exact fun hs => absurd hs.isLive hl

end Survey

end PinnedHeap.Heap
