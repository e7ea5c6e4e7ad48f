import PinnedHeap.Proofs.Heap.Effect
import PinnedHeap.Proofs.Heap.History

/-!
# Collections with different roots

A marking goes through its worklist from the top, so its path depends on the order of the roots.
What it marks does not.  An arena is determined by its slots without their marks and by what is
marked (`slots_eq_of_marked_iff`), and a sweep only looks at the arena.  So two collections that
keep the same objects are equal in every respect, down to the order of the free list
(`collect_eq_of_survives_iff`).

More roots keep more (`Survives.of_subset`).  The case to look at is an object that is kept for the
sake of a doomed one.  A new root may reach the doomed object, which is then no longer doomed.  But
then the root also reaches whatever that object refers to.
-/

namespace PinnedHeap.Heap

variable {α : Type}

/-! ## Arenas with the same marks -/

/-- Arenas that differ in marks only are equal if the same objects are marked. -/
theorem slots_eq_of_marked_iff {a b : Array (Slot α)} (hplain : plain a = plain b)
    (hsize : a.size ≤ indexLimit) (hmarked : ∀ r, Marked a r ↔ Marked b r) : a = b := by
  apply Array.ext_getElem?
  intro i
  have hi := getElem?_plain a i
  rw [hplain, getElem?_plain] at hi
  cases ha : a[i]? with
  | none =>
    rw [ha] at hi
    exact (Option.map_eq_none_iff.1 hi).symm
  | some s =>
    rw [ha] at hi
    obtain ⟨s', hb, hs⟩ := Option.map_eq_some_iff.1 hi
    rw [hb]
    have hlt : i < indexLimit := Nat.lt_of_lt_of_le (Array.getElem?_eq_some_iff.1 ha).1 hsize
    cases s with
    | free g next =>
      cases s' with
      | free g' next' => exact congrArg some hs.symm
      | live g' header' x' => exact nomatch hs
    | live g header x =>
      cases s' with
      | free g' next' => exact nomatch hs
      | live g' header' x' =>
        obtain ⟨rfl, hheader, rfl⟩ := Slot.live.inj hs
        have hmark := hmarked ⟨UInt32.ofNat i, g'⟩
        rw [Marked, Marked, find?_mk hlt ha, find?_mk hlt hb] at hmark
        simp at hmark
        cases header
        cases header'
        simp_all

variable [HeapObject α] {h : Heap α} {roots roots' : List Ref} {r : Ref}

/-- The marks of a survey are all that it adds to the arena. -/
theorem slots_survey_eq (hs : h.Sound)
    (hsurvives : ∀ r, h.Survives roots r ↔ h.Survives roots' r) :
    (survey h.slots roots).slots = (survey h.slots roots').slots := by
  refine slots_eq_of_marked_iff ?_ (size_survey hs roots) fun r => ?_
  · rw [plain_survey roots hs.plain, plain_survey roots' hs.plain]
  · rw [marked_survey_iff roots hs.plain hs.size_le, marked_survey_iff roots' hs.plain hs.size_le,
      hsurvives]

/-- Collections that keep the same objects are the same. -/
theorem collect_eq_of_survives_iff (hs : h.Sound) {providers providers' : List (List Ref)}
    (hsurvives : ∀ r, h.Survives providers.flatten r ↔ h.Survives providers'.flatten r) :
    h.collect providers = h.collect providers' := by
  rw [collect, collect, slots_survey_eq hs hsurvives]

/-! ## More roots -/

theorem Reached.of_subset (hsub : ∀ s ∈ roots, h.isLive s → s ∈ roots') (hr : h.Reached roots r) :
    h.Reached roots' r :=
  hr.mono (fun _ hl => hl) fun s hmem hl => hsub s hmem hl

/-- A doomed object that is not doomed with other roots is reached from them. -/
theorem IsDoomed.isDoomed_or_reached (hd : h.IsDoomed roots r) :
    h.IsDoomed roots' r ∨ h.Reached roots' r := by
  by_cases hr : h.Reached roots' r
  · exact Or.inr hr
  · exact Or.inl ⟨hd.1, hr⟩

/-- What a doomed object leads to is reached, or a doomed object still leads to it. -/
theorem Reaches.of_doomedRef (hr : h.Reaches (h.DoomedRef roots) r) :
    h.Reached roots' r ∨ h.Reaches (h.DoomedRef roots') r := by
  induction hr with
  | @origin s horigin hl =>
    obtain ⟨d, x, hd, hx, hmem⟩ := horigin
    obtain hd' | hreached : h.IsDoomed roots' d ∨ h.Reached roots' d := hd.isDoomed_or_reached
    · exact Or.inr (.origin ⟨d, x, hd', hx, hmem⟩ hl)
    · obtain ⟨header, hf⟩ := get?_eq_some_iff.1 hx
      exact Or.inl (.next hreached hf hmem hl)
  | next _ hf hmem hl ih =>
    rcases ih with hreached | hreaches
    · exact Or.inl (.next hreached hf hmem hl)
    · exact Or.inr (.next hreaches hf hmem hl)

/-- More roots keep more. -/
theorem Survives.of_subset (hsub : ∀ s ∈ roots, h.isLive s → s ∈ roots')
    (hr : h.Survives roots r) : h.Survives roots' r := by
  by_cases hreached' : h.Reached roots' r
  · exact Or.inl hreached'
  · rcases hr with hreached | ⟨hreaches, hreached, hdoomed⟩
    · exact Or.inl (hreached.of_subset hsub)
    · refine Or.inr ⟨hreaches.of_doomedRef.resolve_left hreached', hreached', fun hd => ?_⟩
      exact hdoomed ⟨hd.1, hreached⟩

/-! ## The comparison -/

/-- How collections of a heap with different roots compare. -/
structure ComparesByRoots (h : Heap α) : Prop where
  /-- Providers that report the same live references make the same of the heap, whatever the order
  and the number of times they report them, and whatever stale references they report besides. -/
  collect_eq : ∀ providers providers' : List (List Ref),
    (∀ r, h.isLive r → (r ∈ providers.flatten ↔ r ∈ providers'.flatten)) →
    h.collect providers = h.collect providers'
  /-- So the same references are issued by whatever comes next. -/
  issued_eq : ∀ providers providers' : List (List Ref),
    (∀ r, h.isLive r → (r ∈ providers.flatten ↔ r ∈ providers'.flatten)) →
    ∀ ops, issued ((h.collect providers).2.history [] ops) =
      issued ((h.collect providers').2.history [] ops)
  /-- What a collection keeps is kept, as it is, by one with more roots. -/
  entry?_eq : ∀ providers providers' : List (List Ref),
    (∀ r, h.isLive r → r ∈ providers.flatten → r ∈ providers'.flatten) →
    ∀ r, (h.collect providers).2.isLive r →
      (h.collect providers').2.isLive r ∧
        Heap.entry? (h.collect providers').2 r = Heap.entry? (h.collect providers).2 r

/-- A collection depends on the set of its live roots only, and it keeps more for a larger one. -/
theorem comparesByRoots (hr : h.Reachable) : h.ComparesByRoots := by
  have hs := hr.sound
  have heq : ∀ providers providers' : List (List Ref),
      (∀ r, h.isLive r → (r ∈ providers.flatten ↔ r ∈ providers'.flatten)) →
      h.collect providers = h.collect providers' := by
    intro providers providers' hsame
    refine collect_eq_of_survives_iff hs fun r => ⟨fun hr => ?_, fun hr => ?_⟩
    · exact hr.of_subset fun s hmem hl => (hsame s hl).1 hmem
    · exact hr.of_subset fun s hmem hl => (hsame s hl).2 hmem
  refine ⟨heq, fun providers providers' hsame ops => ?_, fun providers providers' hsub r hl => ?_⟩
  · rw [heq providers providers' hsame]
  · cases hm : h.config.mode with
    | disabled =>
      rw [collect_of_disabled hm] at hl
      rw [collect_of_disabled hm, collect_of_disabled hm]
      exact ⟨hl, rfl⟩
    | markSweep =>
      have hsurvives := (isLive_collect_iff hs hm providers r).1 hl
      have hmore := hsurvives.of_subset fun s hmem hls => hsub s hls hmem
      refine ⟨(isLive_collect_iff hs hm providers' r).2 hmore, ?_⟩
      rw [entry?_collect_of_survives hs.plain hs.size_le hmore,
        entry?_collect_of_survives hs.plain hs.size_le hsurvives]

/-- A root reported twice, and a stale one, make no difference.  With the owner for another root the
leaf is no longer kept for its sake but reached through it. -/
theorem comparesByRoots_ownerHeap :
    (ownerHeap {}).Reachable ∧
      (ownerHeap {}).collect [[⟨2, 1⟩], [⟨7, 1⟩, ⟨2, 1⟩]] = (ownerHeap {}).collect [[⟨2, 1⟩]] ∧
      ((ownerHeap {}).collect [[⟨2, 1⟩]]).2.isLive ⟨0, 1⟩ ∧
      ((ownerHeap {}).collect [[⟨1, 1⟩], [⟨2, 1⟩]]).2.isLive ⟨0, 1⟩ := by
  have hr : (ownerHeap {}).Reachable := ⟨{}, _, rfl⟩
  have hcompares := comparesByRoots hr
  have hkept : ((ownerHeap {}).collect [[⟨2, 1⟩]]).2.isLive ⟨0, 1⟩ := by decide
  refine ⟨hr, hcompares.collect_eq _ _ ?_, hkept, (hcompares.entry?_eq _ _ ?_ _ hkept).1⟩
  · intro r hl
    have hstale : r ≠ ⟨7, 1⟩ := by
      rintro rfl
      exact absurd hl (by decide)
    simp [hstale]
  · intro r _ hmem
    simp only [List.flatten_cons, List.flatten_nil, List.append_nil, List.mem_singleton] at hmem
    simp [hmem]

end PinnedHeap.Heap
