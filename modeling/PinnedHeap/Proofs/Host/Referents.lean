import PinnedHeap.Proofs.Host.Finalized
import PinnedHeap.Proofs.Host.Reentry

/-!
# What a finalizer finds

When the first finalizer of a collection starts, the sweep is over, and before a later one starts
the earlier ones had the whole heap at their disposal.  So the heap that a finalizer finds is one
of those between the operations of all finalizers of the collection (`exists_finalizing_eq`).

What the object of a finalizer referred to, directly or not, is still there, unless it waits for a
finalizer itself.  For a path from a doomed object leads to that object itself or on from one of
its references (`eq_or_reaches_of_isDoomed`), so what is at the end of the path is reached, doomed
or kept.  What was reclaimed is gone, and an object that is stored in its slot gets another
reference.  Both stay true through all operations other than collections.
-/

namespace PinnedHeap

open PinnedHeap.Action

variable {α σ : Type} [HeapObject α]

namespace Heap

variable {h : Heap α} {roots : List Ref} {d r : Ref}

/-- A path from a doomed object is empty, or it goes on from one of its references. -/
theorem eq_or_reaches_of_isDoomed (hd : h.IsDoomed roots d) (hr : h.Reaches (· = d) r) :
    r = d ∨ h.Reaches (h.DoomedRef roots) r := by
  -- The first step of the path leaves the doomed object, and the others follow.
  induction hr with
  | origin heq _ => exact Or.inl heq
  | @next p r header x _ hf hmem hl ih =>
    right
    rcases ih with rfl | hreaches
    · exact .origin ⟨p, x, hd, get?_eq_some_iff.2 ⟨header, hf⟩, hmem⟩ hl
    · exact .next hreaches hf hmem hl

/-- What a doomed object leads to survives, or it is doomed itself. -/
theorem survives_of_isDoomed (hd : h.IsDoomed roots d) (hr : h.Reaches (· = d) r)
    (hn : ¬ h.IsDoomed roots r) : h.Survives roots r := by
  by_cases hreached : h.Reached roots r
  · exact Or.inl hreached
  · rcases eq_or_reaches_of_isDoomed hd hr with rfl | hreaches
    · exact absurd hd hn
    · exact Or.inr ⟨hreaches, hreached, hn⟩

end Heap

namespace Host

variable {finalize : Finalizer α σ} {h : Host α σ}

/-! ## Between the operations of finalizers -/

/-- The heap of a collection after the first `n` operations of its finalizers. -/
def between (script : finalize.Script) (h : Host α σ) (n : Nat) : Heap α :=
  h.swept.after ((h.finalizerOps script).take n)

/-- The heap that a finalizer finds is one between the operations of finalizers. -/
theorem exists_finalizing_eq (script : finalize.Script) (h : Host α σ) (k : Nat) :
    ∃ n, (h.finalizing finalize k).1 = h.between script n := by
  have hfinalizing : (h.finalizing finalize k).1 =
      h.swept.after (heapOps (h.unnotified.notices script (h.pending.take k))) :=
    Dispatcher.Progress.heap_foldl script h.unnotified (h.pending.take k)
  have hops : h.finalizerOps script = heapOps (h.unnotified.notices script (h.pending.take k)) ++
      heapOps (((h.pending.take k).foldl (Dispatcher.Progress.next finalize)
        h.unnotified).notices script (h.pending.drop k)) := by
    rw [finalizerOps, ← heapOps_append, ← Dispatcher.Progress.notices_append,
      List.take_append_drop]
  refine ⟨(heapOps (h.unnotified.notices script (h.pending.take k))).length, ?_⟩
  rw [hfinalizing, between, hops, List.take_left]

theorem finalizing_succ (finalize : Finalizer α σ) (h : Host α σ) {k : Nat} {p : Heap.Pending α}
    (hp : h.pending[k]? = some p) : h.finalizing finalize (k + 1) =
      if (h.notified finalize k).accepts p then finalize p.object p.ref (h.finalizing finalize k)
      else h.finalizing finalize k := by
  have hnext : h.finalizing finalize (k + 1) = ((h.notified finalize k).next finalize p).state := by
    rw [finalizing, Dispatcher.dispatchAll, List.take_add_one, hp, List.foldl_append]
    rfl
  rw [hnext]
  split
  · rename_i ha
    rw [Dispatcher.Progress.next_of_accepts ha]
    rfl
  · rename_i ha
    rw [Dispatcher.Progress.next_of_refuses (Bool.eq_false_iff.2 ha)]
    rfl

theorem leadsTo_between {script : finalize.Script}
    (hq : ∀ op ∈ h.finalizerOps script, op.Quiet) (n : Nat) :
    h.swept.LeadsTo Heap.Operation.Quiet (h.between script n) :=
  ⟨(h.finalizerOps script).take n, fun op hop => hq op (List.mem_of_mem_take hop), rfl⟩

/-! ## Referents and garbage -/

/-- What an object that was handed out leads to survives, or it was handed out as well. -/
theorem survives_of_mem_pending (hs : h.heap.Sound) {p : Heap.Pending α} (hp : p ∈ h.pending)
    {r : Ref} (hr : h.heap.Reaches (· = p.ref) r) (hn : r ∉ h.pending.map Heap.Pending.ref) :
    h.heap.Survives h.providers.flatten r := by
  obtain ⟨hm, hd, -⟩ := (mem_pending_iff hs p.ref p.object).1 hp
  refine Heap.survives_of_isDoomed hd hr fun hdoomed => hn ?_
  obtain ⟨header, x, hf⟩ := Heap.isLive_iff_find?.1 hdoomed.isLive
  have hx : h.heap.get? r = some x := Heap.get?_eq_some_iff.2 ⟨header, hf⟩
  exact List.mem_map_of_mem ((mem_pending_iff hs r x).2 ⟨hm, hdoomed, hx⟩)

/-- What the finalizers of a collection find. -/
structure FindsReferents (script : finalize.Script) (h : Host α σ) : Prop where
  /-- A finalizer starts with a heap between the operations of the finalizers, and it leaves the
  heap that the next one starts with. -/
  starts : ∀ k p, h.pending[k]? = some p →
    (∃ n, (h.finalizing finalize k).1 = h.between script n) ∧
    h.finalizing finalize (k + 1) =
      if (h.notified finalize k).accepts p then finalize p.object p.ref (h.finalizing finalize k)
      else h.finalizing finalize k
  /-- The dispatch ends with the last of these heaps. -/
  ends : (h.collect finalize).2.heap = h.between script (h.finalizerOps script).length
  /-- What could be reached from an object that was handed out, and was not handed out itself, is
  live all the time. -/
  referents : ∀ p ∈ h.pending, ∀ r, h.heap.Reaches (· = p.ref) r →
    r ∉ h.pending.map Heap.Pending.ref → ∀ n, (h.between script n).isLive r
  /-- What the sweep reclaimed is dead all the time. -/
  reclaimed : ∀ r, h.heap.isLive r → h.swept.isLive r = false →
    ∀ n, (h.between script n).isLive r = false
  /-- The objects that were handed out are among that. -/
  pending : ∀ p ∈ h.pending, h.heap.isLive p.ref ∧ h.swept.isLive p.ref = false

/-- A finalizer finds its referents live and the garbage gone, whatever other finalizers of the
collection did to the heap. -/
theorem findsReferents_of_quiet (script : finalize.Script) (hr : h.Reachable finalize)
    (hq : ∀ op ∈ h.finalizerOps script, op.Quiet) : FindsReferents script h := by
  have hs := hr.sound_heap script.lawful
  refine
    { starts := fun k p hp => ⟨exists_finalizing_eq script h k, finalizing_succ finalize h hp⟩
      ends := ?_
      referents := fun p hp r hreaches hn n => ?_
      reclaimed := fun r hl hdead n => ?_
      pending := fun p hp => ⟨((mem_pending_iff hs p.ref p.object).1 hp).2.1.isLive,
        not_isLive_of_mem_pending hs hp⟩ }
  · rw [between, List.take_length]
    exact heap_collect_eq script h
  · have hsurvives := survives_of_mem_pending hs hp hreaches hn
    have hswept : h.swept.isLive r := by
      rw [Heap.isLive, swept, Heap.entry?_collect_of_survives hs.plain hs.size_le hsurvives]
      exact hsurvives.isLive
    exact (leadsTo_between hq n).isLive (sound_swept hs) hswept
  · obtain ⟨hm, hn⟩ := not_survives_of_swept hs hl hdead
    rw [Bool.eq_false_iff]
    exact Heap.not_isLive_of_collect hs hm hl hn (leadsTo_between hq n)

/-- Two watched objects that refer to each other, one of them to a leaf. -/
def knot : List (Operation (Session.Obj Unit)) :=
  [.alloc .leaf, .alloc (.watched [⟨0, 1⟩, ⟨2, 1⟩] true () []),
    .alloc (.watched [⟨1, 1⟩] true () [])]

/-- The host after `knot`, with a finalizer that stores a leaf. -/
def knotHost (config : Heap.Config) : Host (Session.Obj Unit) Unit :=
  (new config [] ()).run storeLeaf knot

theorem findsReferents_of_quiet_knotHost :
    (knotHost {}).Reachable storeLeaf ∧
      (∀ op ∈ (knotHost {}).finalizerOps storeLeafScript, op.Quiet) ∧
      (knotHost {}).pending.map Heap.Pending.ref = [⟨1, 1⟩, ⟨2, 1⟩] ∧
      FindsReferents storeLeafScript (knotHost {}) :=
  have hr : (knotHost {}).Reachable storeLeaf := ⟨{}, [], (), knot, rfl⟩
  have hops : (knotHost {}).finalizerOps storeLeafScript = [.store .leaf, .store .leaf] := rfl
  have hq : ∀ op ∈ (knotHost {}).finalizerOps storeLeafScript, op.Quiet := by
    rw [hops]
    exact List.forall_mem_cons.2 ⟨rfl, List.forall_mem_singleton.2 rfl⟩
  ⟨hr, hq, rfl, findsReferents_of_quiet storeLeafScript hr hq⟩

end Host

end PinnedHeap
