import PinnedHeap.BufferDemo.Object
import PinnedHeap.Proofs.Heap.Accounting
import PinnedHeap.Proofs.Heap.Repetition

/-!
# The heap of the demonstration

At any time the live objects of the demonstration are a root and some buffers (`Stocked`).  Only
the root has references, so there are two cases for a collection that starts from the root.

* The root refers to all buffers.  Then everything is reached (`Stocked.reached_of_links`).
* The root refers to nothing.  Then every buffer stands for itself: it survives if it is a root of
  the collection, and is handed out otherwise (`Stocked.collect`).
-/

namespace PinnedHeap

/-! ## Storing where there is room -/

namespace Heap

variable {α : Type} [HeapObject α] {h : Heap α}

theorem Reachable.wellformed (hr : h.Reachable) : h.Wellformed := by
  obtain ⟨config, ops, rfl⟩ := hr
  exact wellformed_after config ops

/-- What storing the object `x` under the reference `r` makes of the heap `h`. -/
structure Stored (h : Heap α) (x : α) (r : Ref) (h' : Heap α) : Prop where
  not_isLive : ¬ h.isLive r
  entry?_eq : ∀ s, h'.entry? s = if s = r then some (headerOf x, x) else h.entry? s
  stats_eq : h'.stats = h.stats.allocated (accountedBytes x)
  config_eq : h'.config = h.config
  size_le : h'.slots.size ≤ h.slots.size + 1
  reachable : h'.Reachable

/-- An object that fits is stored as long as there are indices left. -/
theorem Reachable.exists_stored (hr : h.Reachable) {x : α} (hfits : accountedBytes x < sizeLimit)
    (hroom : h.slots.size < indexLimit) : ∃ r h', h.alloc x = (.ok r, h') ∧ Stored h x r h' := by
  have hw := hr.wellformed
  have hsize := hw.sound.size_le
  rcases alloc_cases h x with ⟨v, hv, halloc⟩ | ⟨e, halloc⟩
  · have hreachable : (h.alloc x).2.Reachable := hr.after [.store x]
    rw [halloc] at hreachable
    refine ⟨v.ref, h.store v x, halloc, ?_, fun s => ?_, rfl, rfl, ?_, hreachable⟩
    · intro hl
      obtain ⟨header, y, hf⟩ := isLive_iff_find?.1 hl
      have hindex := UInt32.toNat_ofNat_of_lt' (index_lt_of_vacancy hsize hv)
      rw [find?_eq_none_of_vacancy hv hindex] at hf
      exact nomatch hf
    · rw [entry?_eq_find?, entry?_eq_find?, find?_store hsize hv]
    · simp only [store]
      split <;> simp
  · rcases (hw.alloc_error (by rw [halloc] : (h.alloc x).1 = .error e)).2 with hlarge | hfull
    · exact absurd hfits (Nat.not_lt.2 hlarge.1)
    · exact absurd hroom (Nat.not_lt.2 (Nat.le_of_eq hfull.1.symm))

theorem Stored.isLive_iff {x : α} {r : Ref} {h' : Heap α} (hst : Stored h x r h') (s : Ref) :
    h'.isLive s ↔ s = r ∨ h.isLive s := by
  rw [isLive, isLive, hst.entry?_eq]
  by_cases hs : s = r
  · simp [hs]
  · simp [hs]

/-- Where no object refers to another one, the survivors are the roots that are live. -/
theorem survives_iff_of_bare (hbare : ∀ r x, h.get? r = some x → HeapObject.refs x = [])
    (roots : List Ref) (r : Ref) : h.Survives roots r ↔ h.isLive r ∧ r ∈ roots := by
  constructor
  · rintro (hreached | hkept)
    · refine ⟨hreached.isLive, ?_⟩
      cases hreached with
      | origin hmem _ => exact hmem
      | next _ hf hmem _ =>
        rw [hbare _ _ (get?_eq_some_iff.2 ⟨_, hf⟩)] at hmem
        exact absurd hmem List.not_mem_nil
    · refine absurd hkept.1 (ReachesBy.not_of_empty ?_)
      rintro s ⟨d, x, -, hx, hmem⟩
      rw [hbare d x hx] at hmem
      exact absurd hmem List.not_mem_nil
  · rintro ⟨hl, hmem⟩
    exact Or.inl (.origin hmem hl)

end Heap

namespace BufferDemo

open Heap (Stored)

/-! ## Objects in their places -/

/-- A reference names an object, and the header tells whether the object has a finalizer. -/
def Stores (h : Heap Obj) (r : Ref) (x : Obj) : Prop :=
  ∃ header, h.entry? r = some (header, x) ∧ header.finalizable = HeapObject.finalizable x

section Stores

variable {h h' : Heap Obj} {r s : Ref} {x y : Obj}

theorem Stores.get? (hst : Stores h r x) : h.get? r = some x := by
  obtain ⟨header, he, -⟩ := hst
  rw [Heap.get?, he]
  rfl

theorem Stores.eq (hx : Stores h r x) (hy : Stores h r y) : x = y := by
  have hget := hx.get?
  rw [hy.get?] at hget
  exact (Option.some.inj hget).symm

theorem Stores.of_entry?_eq (hst : Stores h r x) (he : h'.entry? r = h.entry? r) :
    Stores h' r x := by
  obtain ⟨header, hentry, hfin⟩ := hst
  exact ⟨header, he.trans hentry, hfin⟩

theorem Stores.isLive (hst : Stores h r x) : h.isLive r := by
  obtain ⟨header, he, -⟩ := hst
  rw [Heap.isLive, he]
  rfl

theorem Stores.stored (hst : Stores h r x) (hstored : Stored h y s h') : Stores h' r x := by
  have hne : r ≠ s := by
    rintro rfl
    exact hstored.not_isLive hst.isLive
  exact hst.of_entry?_eq (by rw [hstored.entry?_eq, if_neg hne])

theorem stores_of_stored (hstored : Stored h y s h') : Stores h' s y :=
  ⟨_, by rw [hstored.entry?_eq, if_pos rfl], rfl⟩

theorem Stores.update {f : Obj → Obj} (hst : Stores h r x)
    (hf : HeapObject.finalizable (f x) = HeapObject.finalizable x) :
    Stores (h.update r f) r (f x) := by
  obtain ⟨header, he, hfin⟩ := hst
  refine ⟨header, ?_, hfin.trans hf.symm⟩
  rw [Heap.entry?_eq_find?] at he ⊢
  rw [Heap.find?_update, if_pos rfl, he]
  rfl

theorem Stores.update_of_ne {f : Obj → Obj} (hst : Stores h r x) (hne : r ≠ s) :
    Stores (h.update s f) r x := by
  refine hst.of_entry?_eq ?_
  rw [Heap.entry?_eq_find?, Heap.entry?_eq_find?, Heap.find?_update, if_neg hne]

end Stores

/-! ## A root and buffers -/

/-- The live objects are a root, which refers to `links`, and the `buffers`. -/
structure Stocked (h : Heap Obj) (root : Ref) (links : Array Ref) (buffers : List Ref) : Prop where
  reachable : h.Reachable
  stores_root : Stores h root (.root links)
  stores_buffer : ∀ r ∈ buffers, ∃ number, Stores h r (.buffer number)
  isLive_iff : ∀ r, h.isLive r ↔ r = root ∨ r ∈ buffers
  nodup : buffers.Nodup
  liveObjects_eq : h.stats.liveObjects = buffers.length + 1

variable {h : Heap Obj} {root : Ref} {links : Array Ref} {buffers : List Ref}

theorem Stocked.root_not_mem (hs : Stocked h root links buffers) : root ∉ buffers := by
  intro hmem
  obtain ⟨number, hst⟩ := hs.stores_buffer root hmem
  exact nomatch hs.stores_root.eq hst

theorem Stocked.isLive_of_mem (hs : Stocked h root links buffers) {r : Ref} (hr : r ∈ buffers) :
    h.isLive r := (hs.isLive_iff r).2 (Or.inr hr)

/-- A heap with a root and nothing else. -/
theorem stocked_of_stored {h' : Heap Obj} (hdead : ∀ r, ¬ h.isLive r)
    (hzero : h.stats.liveObjects = 0) (hst : Stored h (.root #[]) root h') :
    Stocked h' root #[] [] where
  reachable := hst.reachable
  stores_root := stores_of_stored hst
  stores_buffer _ hr := absurd hr List.not_mem_nil
  isLive_iff r := by
    rw [hst.isLive_iff, or_iff_left (hdead r), or_iff_left List.not_mem_nil]
  nodup := List.nodup_nil
  liveObjects_eq := by
    rw [hst.stats_eq, Heap.Stats.allocated, hzero]
    rfl

/-- A change of the root. -/
theorem Stocked.update (hs : Stocked h root links buffers) {f : Obj → Obj} {links' : Array Ref}
    (hf : f (.root links) = .root links') : Stocked (h.update root f) root links' buffers where
  reachable := hs.reachable.after [.update root f]
  stores_root := hf ▸ hs.stores_root.update (by rw [hf]; rfl)
  stores_buffer r hr := by
    obtain ⟨number, hst⟩ := hs.stores_buffer r hr
    refine ⟨number, hst.update_of_ne ?_⟩
    rintro rfl
    exact hs.root_not_mem hr
  isLive_iff r := by rw [Heap.isLive_update, hs.isLive_iff]
  nodup := hs.nodup
  liveObjects_eq := hs.liveObjects_eq

/-- One more buffer. -/
theorem Stocked.stored (hs : Stocked h root links buffers) {number : Nat} {r : Ref}
    {h' : Heap Obj} (hst : Stored h (.buffer number) r h') :
    Stocked h' root links (buffers ++ [r]) where
  reachable := hst.reachable
  stores_root := hs.stores_root.stored hst
  stores_buffer s hmem := by
    rcases List.mem_append.1 hmem with hmem | hmem
    · obtain ⟨k, hk⟩ := hs.stores_buffer s hmem
      exact ⟨k, hk.stored hst⟩
    · rw [List.mem_singleton.1 hmem]
      exact ⟨number, stores_of_stored hst⟩
  isLive_iff s := by
    rw [hst.isLive_iff, hs.isLive_iff, List.mem_append, List.mem_singleton]
    constructor
    · rintro (hs | hs | hs)
      · exact Or.inr (Or.inr hs)
      · exact Or.inl hs
      · exact Or.inr (Or.inl hs)
    · rintro (hs | hs | hs)
      · exact Or.inr (Or.inl hs)
      · exact Or.inr (Or.inr hs)
      · exact Or.inl hs
  nodup := by
    refine hs.nodup.append (List.nodup_singleton r) (List.disjoint_singleton.2 fun hmem => ?_)
    exact hst.not_isLive (hs.isLive_of_mem hmem)
  liveObjects_eq := by
    rw [hst.stats_eq, List.length_append, List.length_singleton, ← hs.liveObjects_eq]
    rfl

/-! ## Collections -/

/-- A root that refers to all buffers keeps everything. -/
theorem Stocked.reached_of_links (hs : Stocked h root buffers.toArray buffers) {roots : List Ref}
    (hroot : root ∈ roots) {r : Ref} (hl : h.isLive r) : h.Reached roots r := by
  have hrootLive : h.isLive root := (hs.isLive_iff root).2 (Or.inl rfl)
  rcases (hs.isLive_iff r).1 hl with rfl | hmem
  · exact .origin hroot hl
  · obtain ⟨header, hf⟩ := Heap.get?_eq_some_iff.1 hs.stores_root.get?
    exact .next (.origin hroot hrootLive) hf hmem hl

/-- A root without references leaves every object to itself. -/
theorem Stocked.bare (hs : Stocked h root #[] buffers) {r : Ref} {x : Obj}
    (hx : h.get? r = some x) : HeapObject.refs x = [] := by
  obtain ⟨header, hf⟩ := Heap.get?_eq_some_iff.1 hx
  rcases (hs.isLive_iff r).1 (Heap.isLive_iff_find?.2 ⟨header, x, hf⟩) with rfl | hmem
  · rw [hs.stores_root.get?] at hx
    obtain rfl := Option.some.inj hx
    rfl
  · obtain ⟨number, hst⟩ := hs.stores_buffer r hmem
    rw [hst.get?] at hx
    obtain rfl := Option.some.inj hx
    rfl

/-- The buffers that a collection from the given roots keeps. -/
def keptOf (roots buffers : List Ref) : List Ref := buffers.filter fun r => r ∈ roots

/-- The buffers that it reclaims. -/
def droppedOf (roots buffers : List Ref) : List Ref := buffers.filter fun r => !decide (r ∈ roots)

theorem length_keptOf_add (roots buffers : List Ref) :
    (keptOf roots buffers).length + (droppedOf roots buffers).length = buffers.length :=
  (List.length_eq_length_filter_add _).symm

theorem nodup_droppedOf {roots : List Ref} (hnodup : buffers.Nodup) :
    (droppedOf roots buffers).Nodup := hnodup.filter _

theorem mem_keptOf_iff {roots : List Ref} {r : Ref} :
    r ∈ keptOf roots buffers ↔ r ∈ buffers ∧ r ∈ roots := by simp [keptOf]

theorem mem_droppedOf_iff {roots : List Ref} {r : Ref} :
    r ∈ droppedOf roots buffers ↔ r ∈ buffers ∧ r ∉ roots := by simp [droppedOf]

section Bare

variable {roots : List Ref} {r : Ref}

theorem Stocked.survives_iff (hs : Stocked h root #[] buffers) :
    h.Survives roots r ↔ h.isLive r ∧ r ∈ roots :=
  Heap.survives_iff_of_bare (fun _ _ hx => hs.bare hx) roots r

/-- What is not kept is a buffer, since the root is. -/
theorem Stocked.dropped_iff (hs : Stocked h root #[] buffers) (hroot : root ∈ roots) :
    r ∈ droppedOf roots buffers ↔ h.isLive r ∧ ¬ h.Survives roots r := by
  rw [mem_droppedOf_iff, hs.survives_iff]
  constructor
  · rintro ⟨hbuffer, hmem⟩
    exact ⟨hs.isLive_of_mem hbuffer, fun hsurvives => hmem hsurvives.2⟩
  · rintro ⟨hl, hnot⟩
    have hmem : r ∉ roots := fun hmem => hnot ⟨hl, hmem⟩
    rcases (hs.isLive_iff r).1 hl with rfl | hbuffer
    · exact absurd hroot hmem
    · exact ⟨hbuffer, hmem⟩

/-- Every buffer that is not kept has a finalizer to wait for. -/
theorem Stocked.isDoomed_iff (hs : Stocked h root #[] buffers) (hroot : root ∈ roots) :
    h.IsDoomed roots r ↔ r ∈ droppedOf roots buffers := by
  constructor
  · intro hdoomed
    exact (hs.dropped_iff hroot).2 ⟨hdoomed.isLive, ((Heap.isDoomed_iff _ r).1 hdoomed).2⟩
  · intro hr
    obtain ⟨-, hnot⟩ := (hs.dropped_iff hroot).1 hr
    obtain ⟨number, header, he, hfin⟩ := hs.stores_buffer r (mem_droppedOf_iff.1 hr).1
    exact (Heap.isDoomed_iff _ r).2 ⟨⟨header, by rw [Heap.header?, he]; rfl, hfin⟩, hnot⟩

end Bare

/-- What a collection from the given roots makes of a heap whose root refers to nothing. -/
structure Swept (h : Heap Obj) (root : Ref) (roots buffers : List Ref) (c : Heap.Collection Obj)
    (h' : Heap Obj) : Prop where
  stocked : Stocked h' root #[] (keptOf roots buffers)
  freed_eq : c.freed = (droppedOf roots buffers).length
  pending_perm : (c.pending.map Heap.Pending.ref).Perm (droppedOf roots buffers)
  pending_buffer : ∀ p ∈ c.pending, ∃ number, p.object = .buffer number
  freedObjects_eq : h'.stats.freedObjects = h.stats.freedObjects + c.freed
  config_eq : h'.config = h.config

section Collection

variable (hs : Stocked h root #[] buffers) {roots : List Ref} (hroot : root ∈ roots)
  {c : Heap.Collection Obj} {h' : Heap Obj} (heffect : Heap.CollectionEffect h roots c h')
include hs hroot heffect

/-- As many objects are reclaimed as there are buffers that are not kept. -/
theorem Stocked.freed_eq : c.freed = (droppedOf roots buffers).length ∧
    h'.stats.liveObjects + c.freed = h.stats.liveObjects := by
  obtain ⟨dead, hpairwise, hdead, hfreed, hcount, -⟩ := heffect.reclaimed
  have hnodup : dead.Nodup := hpairwise.imp fun hlt heq => by simp [heq] at hlt
  have hperm : dead.Perm (droppedOf roots buffers) := by
    rw [List.perm_ext_iff_of_nodup hnodup (nodup_droppedOf hs.nodup)]
    intro r
    rw [hdead, hs.dropped_iff hroot]
    rfl
  exact ⟨hfreed.trans hperm.length_eq, hfreed.symm ▸ hcount⟩

theorem Stocked.pending_perm :
    (c.pending.map Heap.Pending.ref).Perm (droppedOf roots buffers) := by
  have hnodup : (c.pending.map Heap.Pending.ref).Nodup := by
    rw [List.Nodup, List.pairwise_map]
    exact heffect.pending_ascending.imp fun hlt heq => by simp [heq] at hlt
  rw [List.perm_ext_iff_of_nodup hnodup (nodup_droppedOf hs.nodup)]
  intro r
  rw [List.mem_map, ← hs.isDoomed_iff hroot]
  constructor
  · rintro ⟨p, hp, rfl⟩
    exact ((heffect.mem_pending_iff p.ref p.object).1 hp).1
  · intro hdoomed
    obtain ⟨header, x, hf⟩ := Heap.isLive_iff_find?.1 hdoomed.isLive
    have hx := Heap.get?_eq_some_iff.2 ⟨header, hf⟩
    exact ⟨⟨r, x⟩, (heffect.mem_pending_iff r x).2 ⟨hdoomed, hx⟩, rfl⟩

/-- The root and the buffers that are kept are as before. -/
theorem Stocked.of_effect (hreachable : h'.Reachable) :
    Stocked h' root #[] (keptOf roots buffers) := by
  have hlive : ∀ r, h'.isLive r ↔ h.isLive r ∧ r ∈ roots := fun r =>
    (heffect.isLive_iff r).trans hs.survives_iff
  have hstores : ∀ {r x}, Stores h r x → r ∈ roots → Stores h' r x := by
    intro r x hst hmem
    exact hst.of_entry?_eq (heffect.entry?_eq r ((hlive r).2 ⟨hst.isLive, hmem⟩))
  refine
    { reachable := hreachable
      stores_root := hstores hs.stores_root hroot
      stores_buffer := fun r hr => ?_
      isLive_iff := fun r => ?_
      nodup := hs.nodup.filter _
      liveObjects_eq := ?_ }
  · obtain ⟨hbuffer, hmem⟩ := mem_keptOf_iff.1 hr
    obtain ⟨number, hst⟩ := hs.stores_buffer r hbuffer
    exact ⟨number, hstores hst hmem⟩
  · rw [hlive, hs.isLive_iff, mem_keptOf_iff, or_and_right]
    refine or_congr ⟨And.left, ?_⟩ Iff.rfl
    rintro rfl
    exact ⟨rfl, hroot⟩
  · obtain ⟨hfreed, hcount⟩ := hs.freed_eq hroot heffect
    have := hs.liveObjects_eq
    have := length_keptOf_add roots buffers
    omega

end Collection

theorem Stocked.collect (hs : Stocked h root #[] buffers) (hm : h.config.mode = .markSweep)
    {providers : List (List Ref)} (hroot : root ∈ providers.flatten) :
    Swept h root providers.flatten buffers (h.collect providers).1 (h.collect providers).2 := by
  have heffect := Heap.collect_effect hs.reachable hm providers
  refine
    { stocked := hs.of_effect hroot heffect (hs.reachable.after [.collect providers])
      freed_eq := (hs.freed_eq hroot heffect).1
      pending_perm := hs.pending_perm hroot heffect
      pending_buffer := fun p hp => ?_
      freedObjects_eq := heffect.freedObjects_eq
      config_eq := heffect.config_eq }
  obtain ⟨hdoomed, hx⟩ := (heffect.mem_pending_iff p.ref p.object).1 hp
  have hdropped := (hs.isDoomed_iff hroot).1 hdoomed
  obtain ⟨number, hst⟩ := hs.stores_buffer p.ref (mem_droppedOf_iff.1 hdropped).1
  rw [hst.get?] at hx
  exact ⟨number, (Option.some.inj hx).symm⟩

end BufferDemo

end PinnedHeap
