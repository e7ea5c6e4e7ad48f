import PinnedHeap.Proofs.Heap.Stale
import PinnedHeap.Proofs.Host.Run
import PinnedHeap.Session.Object

/-!
# What an allocation costs

An allocation collects first if that is due.  The object to be stored is not in the heap
at that time, so what it refers to is kept only if something else keeps it.  A reference
of a new object may be stale from the start (`not_alloc_keeps_refs`).

An allocation that is not preceded by a collection reclaims nothing, and one that is
reclaims what that collection does not keep and nothing else (`isLive_alloc_iff`).  So a
caller has to pin or root the objects that a new one shall refer to.
-/

namespace PinnedHeap.Host

variable {α σ : Type} [HeapObject α] {finalize : Finalizer α σ} {h : Host α σ}

/-- No notification of a collection that starts here collects. -/
def QuietCollection (finalize : Finalizer α σ) (h : Host α σ) : Prop :=
  ∀ k, (h.finalizing finalize k).1.LeadsTo Heap.Operation.Quiet
    (h.finalizing finalize (k + 1)).1

/-- Quiet operations after the sweep of a collection find what survives and bring nothing
back. -/
theorem isLive_iff_of_leadsTo (hs : h.heap.Sound) (hm : h.heap.config.mode = .markSweep)
    {heap : Heap α} (hlead : h.swept.LeadsTo Heap.Operation.Quiet heap) {s : Ref}
    (hl : h.heap.isLive s) : heap.isLive s ↔ h.heap.Survives h.providers.flatten s := by
  constructor
  · intro hl'
    apply Classical.byContradiction
    intro hn
    exact Heap.not_isLive_of_collect hs hm hl hn hlead hl'
  · intro hsurvives
    apply hlead.isLive (sound_swept hs)
    rw [Heap.isLive, swept, Heap.entry?_collect_of_survives hs.plain hs.size_le hsurvives]
    exact hl

theorem leadsTo_alloc (finalize : Finalizer α σ) (h : Host α σ) (x : α) :
    (h.ready finalize).heap.LeadsTo Heap.Operation.Quiet (h.alloc finalize x).2.heap :=
  ⟨[.store x], fun _ hop => List.mem_singleton.1 hop ▸ rfl, rfl⟩

/-- An allocation that succeeds stores a live object.  An object that was live when it was
called is live when it returns, unless a collection was due and the object was garbage for
it: neither to be reached from what is pinned or rooted, nor from an object that waits for
its finalizer. -/
theorem isLive_alloc_iff (hlawful : finalize.Lawful) (hr : h.Reachable finalize)
    (hq : h.heap.collectionDue → h.QuietCollection finalize) {x : α} {r : Ref}
    (ha : (h.alloc finalize x).1 = .ok r) :
    (h.alloc finalize x).2.heap.isLive r ∧ ∀ s, h.heap.isLive s →
      ((h.alloc finalize x).2.heap.isLive s ↔
        (h.heap.collectionDue → h.heap.Survives h.providers.flatten s)) := by
  have hs := hr.sound_heap hlawful
  refine ⟨isLive_alloc hlawful hs ha, fun s hl => ?_⟩
  have halloc := leadsTo_alloc finalize h x
  by_cases hdue : h.heap.collectionDue
  · have hm : h.heap.config.mode = .markSweep := by
      rw [Heap.collectionDue, Bool.and_eq_true, beq_iff_eq] at hdue
      exact hdue.1
    rw [ready, if_pos hdue, heap_collect] at halloc
    have hlead := (leadsTo_finalizing (hq hdue) h.pending.length).trans halloc
    rw [isLive_iff_of_leadsTo hs hm hlead hl]
    exact ⟨fun hsurvives _ => hsurvives, fun hsurvives => hsurvives hdue⟩
  · rw [ready, if_neg hdue] at halloc
    exact ⟨fun _ hdue' => absurd hdue' hdue, fun _ => halloc.isLive hs hl⟩

/-- A finalizer that leaves everything as it is. -/
def idle : Finalizer (Session.Obj Unit) Unit := fun _ _ s => s

theorem quiet_idle : idle.Quiet := fun _ _ s => .refl s.1

/-- A host with a leaf that nothing holds. -/
def leafHost (config : Heap.Config) : Host (Session.Obj Unit) Unit :=
  (new config [] ()).run idle [.alloc .leaf]

theorem reachable_leafHost (config : Heap.Config) : (leafHost config).Reachable idle :=
  ⟨config, [], (), _, rfl⟩

theorem isLive_alloc_iff_leafHost :
    idle.Lawful ∧ (leafHost { threshold := 0 }).Reachable idle ∧
      ((leafHost { threshold := 0 }).heap.collectionDue →
        (leafHost { threshold := 0 }).QuietCollection idle) ∧
      ((leafHost { threshold := 0 }).alloc idle (.node [⟨0, 1⟩])).1 = .ok ⟨0, 2⟩ ∧
      ∀ s, (leafHost { threshold := 0 }).heap.isLive s →
        (((leafHost { threshold := 0 }).alloc idle (.node [⟨0, 1⟩])).2.heap.isLive s ↔
          ((leafHost { threshold := 0 }).heap.collectionDue →
            (leafHost { threshold := 0 }).heap.Survives
              (leafHost { threshold := 0 }).providers.flatten s)) :=
  have hr := reachable_leafHost { threshold := 0 }
  have hq : QuietCollection idle (leafHost { threshold := 0 }) :=
    leadsTo_finalizing_succ quiet_idle _
  have hstored : ((leafHost { threshold := 0 }).alloc idle (.node [⟨0, 1⟩])).1 = .ok ⟨0, 2⟩ :=
    rfl
  ⟨quiet_idle.lawful, hr, fun _ => hq, hstored,
    (isLive_alloc_iff quiet_idle.lawful hr (fun _ => hq) hstored).2⟩

/-- It is not true that an allocation leaves what the new object refers to alone: here it
collects first, and nothing else holds the leaf that the new node refers to. -/
theorem not_alloc_keeps_refs :
    ¬ ∀ (finalize : Finalizer (Session.Obj Unit) Unit) (h : Host (Session.Obj Unit) Unit),
      finalize.Quiet → h.Reachable finalize →
      ∀ x r, (h.alloc finalize x).1 = .ok r →
      ∀ s ∈ HeapObject.refs x, h.heap.isLive s → (h.alloc finalize x).2.heap.isLive s := by
  intro hall
  have hstored : ((leafHost { threshold := 0 }).alloc idle (.node [⟨0, 1⟩])).1 = .ok ⟨0, 2⟩ :=
    rfl
  have hlive : (leafHost { threshold := 0 }).heap.isLive ⟨0, 1⟩ := rfl
  have hkept := hall idle _ quiet_idle (reachable_leafHost { threshold := 0 }) _ _ hstored ⟨0, 1⟩
    List.mem_cons_self hlive
  exact absurd hkept (by decide)

end PinnedHeap.Host
