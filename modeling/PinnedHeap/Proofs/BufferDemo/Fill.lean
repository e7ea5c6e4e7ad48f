import PinnedHeap.BufferDemo.Program
import PinnedHeap.Proofs.BufferDemo.Stock
import PinnedHeap.Proofs.Host.Run

/-!
# Setting the demonstration up

While the root is filled, an allocation may collect first.  Such a collection finds everything
reachable, because each buffer was handed to the root before the next one is stored.  So it changes
counters and nothing else (`Heap.Recounted`), whenever it happens.

`Filled` is the invariant of the loop.  One turn of the loop keeps it with one more buffer
(`Filled.alloc`), and by induction `fill` succeeds with all of them (`Filled.fill`).
-/

namespace PinnedHeap

/-! ## Allocations that reclaim nothing -/

section Alloc

variable {α σ : Type} [HeapObject α]

/-- The heap `h'` differs from `h` at most in the counters of collections. -/
structure Heap.Recounted (h h' : Heap α) : Prop where
  slots_eq : h'.slots = h.slots
  config_eq : h'.config = h.config
  liveObjects_eq : h'.stats.liveObjects = h.stats.liveObjects
  freedObjects_eq : h'.stats.freedObjects = h.stats.freedObjects
  reachable : h'.Reachable

theorem Heap.Recounted.entry?_eq {h h' : Heap α} (hc : h.Recounted h') (r : Ref) :
    h'.entry? r = h.entry? r := by
  rw [Heap.entry?_eq_find?, Heap.entry?_eq_find?, hc.slots_eq]

/-- A collection that keeps everything leaves the host as it is, but for counters. -/
theorem Heap.recounted_collect {h : Heap α} (hr : h.Reachable) (hm : h.config.mode = .markSweep)
    {providers : List (List Ref)} (hall : ∀ r, h.isLive r → h.Survives providers.flatten r) :
    h.Recounted (h.collect providers).2 := by
  have hreachable : (h.collect providers).2.Reachable := hr.after [.collect providers]
  rw [Heap.collect_of_survives hr.sound hm hall] at hreachable ⊢
  exact ⟨rfl, rfl, rfl, rfl, hreachable⟩

variable (finalize : Finalizer α σ) {h : Host α σ}

/-- A host is ready for an allocation as it is, or after a collection that keeps everything. -/
theorem Host.exists_recounted (hr : h.heap.Reachable)
    (hall : ∀ r, h.heap.isLive r → h.heap.Survives h.providers.flatten r) :
    ∃ heap, h.ready finalize = { h with heap } ∧ h.heap.Recounted heap := by
  by_cases hdue : h.heap.collectionDue
  · have hm : h.heap.config.mode = .markSweep := by
      rw [Heap.collectionDue, Bool.and_eq_true, beq_iff_eq] at hdue
      exact hdue.1
    refine ⟨(h.heap.collect h.providers).2, ?_, Heap.recounted_collect hr hm hall⟩
    rw [Host.ready, if_pos hdue, Host.collect, Heap.collect_of_survives hr.sound hm hall]
    rfl
  · rw [Host.ready, if_neg hdue]
    exact ⟨h.heap, rfl, rfl, rfl, rfl, rfl, hr⟩

/-- Where everything survives, an allocation stores its object and changes nothing else. -/
theorem Host.exists_alloc {x : α} (hr : h.heap.Reachable)
    (hall : ∀ r, h.heap.isLive r → h.heap.Survives h.providers.flatten r)
    (hfits : Heap.accountedBytes x < Heap.sizeLimit) (hroom : h.heap.slots.size < Heap.indexLimit) :
    ∃ r heap heap', h.heap.Recounted heap ∧ heap.Stored x r heap' ∧
      h.alloc finalize x = (.ok r, { h with heap := heap' }) := by
  obtain ⟨heap, hready, hrecounted⟩ := Host.exists_recounted finalize hr hall
  obtain ⟨r, heap', halloc, hstored⟩ :=
    hrecounted.reachable.exists_stored hfits (by rw [hrecounted.slots_eq]; exact hroom)
  refine ⟨r, heap, heap', hrecounted, hstored, ?_⟩
  rw [Host.alloc_eq, hready]
  simp only [halloc, Except.mapError]

end Alloc

namespace BufferDemo

theorem Stocked.recounted {h h' : Heap Obj} {root : Ref} {links : Array Ref} {buffers : List Ref}
    (hs : Stocked h root links buffers) (hc : h.Recounted h') : Stocked h' root links buffers where
  reachable := hc.reachable
  stores_root := hs.stores_root.of_entry?_eq (hc.entry?_eq root)
  stores_buffer r hr := by
    obtain ⟨number, hst⟩ := hs.stores_buffer r hr
    exact ⟨number, hst.of_entry?_eq (hc.entry?_eq r)⟩
  isLive_iff r := by rw [Heap.isLive, hc.entry?_eq, ← Heap.isLive, hs.isLive_iff]
  nodup := hs.nodup
  liveObjects_eq := hc.liveObjects_eq.trans hs.liveObjects_eq

/-! ## The loop -/

/-- Nothing happened to the host but that its root was given the `buffers`. -/
structure Filled (config : Heap.Config) (world : World) (root : Ref) (buffers : List Ref)
    (h : BufferHost) : Prop where
  stocked : Stocked h.heap root buffers.toArray buffers
  size_le : h.heap.slots.size ≤ buffers.length + 1
  freedObjects_eq : h.heap.stats.freedObjects = 0
  config_eq : h.heap.config = config
  roots_eq : h.roots.toList = [root]
  registry_eq : h.registry = {}
  dispatcher_eq : h.dispatcher = {}
  world_eq : h.world = world

variable {config : Heap.Config} {world : World} {root : Ref} {buffers : List Ref} {h : BufferHost}

theorem Filled.survives (hf : Filled config world root buffers h) {r : Ref}
    (hl : h.heap.isLive r) : h.heap.Survives h.providers.flatten r := by
  refine Or.inl (hf.stocked.reached_of_links ?_ hl)
  simp [Host.providers, hf.roots_eq]

/-- One turn of the loop. -/
theorem Filled.alloc (hf : Filled config world root buffers h)
    (hroom : buffers.length + 1 < Heap.indexLimit) (number : Nat) :
    ∃ r h', h.alloc finalize (.buffer number) = (.ok r, h') ∧
      Filled config world root (buffers ++ [r])
        { h' with heap := h'.heap.update root (Obj.push r) } := by
  have hfits : Heap.accountedBytes (Obj.buffer number) < Heap.sizeLimit := by
    show 8 + 32 < Heap.sizeLimit
    decide
  obtain ⟨r, heap, heap', hrecounted, hstored, halloc⟩ :=
    Host.exists_alloc finalize hf.stocked.reachable (fun _ hl => hf.survives hl) hfits
      (Nat.lt_of_le_of_lt hf.size_le hroom)
  have hpush : Obj.push r (.root buffers.toArray) = .root (buffers ++ [r]).toArray := by
    rw [Obj.push, List.push_toArray]
  refine ⟨r, { h with heap := heap' }, halloc, ?_⟩
  refine
    { stocked := ((hf.stocked.recounted hrecounted).stored hstored).update hpush
      size_le := ?_
      freedObjects_eq := ?_
      config_eq := hstored.config_eq.trans (hrecounted.config_eq.trans hf.config_eq)
      roots_eq := hf.roots_eq
      registry_eq := hf.registry_eq
      dispatcher_eq := hf.dispatcher_eq
      world_eq := hf.world_eq }
  · have hsize := hstored.size_le
    have hle := hf.size_le
    rw [hrecounted.slots_eq] at hsize
    simp only [Heap.update, Array.size_modify, List.length_append, List.length_singleton]
    omega
  · show heap'.stats.freedObjects = 0
    rw [hstored.stats_eq]
    exact hrecounted.freedObjects_eq.trans hf.freedObjects_eq

/-- The root is given as many buffers as are asked for. -/
theorem Filled.fill (hf : Filled config world root buffers h) (n number : Nat)
    (hroom : buffers.length + n < Heap.indexLimit) :
    ∃ buffers' h', fill root n number h = (.ok (), h') ∧ buffers'.length = buffers.length + n ∧
      Filled config world root buffers' h' := by
  induction n generalizing buffers h number with
  | zero => exact ⟨buffers, h, rfl, rfl, hf⟩
  | succ n ih =>
    obtain ⟨r, h', halloc, hf'⟩ := hf.alloc (by omega) number
    have hlength : (buffers ++ [r]).length = buffers.length + 1 := by simp
    obtain ⟨buffers', h'', hfill, hbuffers', hf''⟩ := ih hf' (number + 1) (by omega)
    refine ⟨buffers', h'', ?_, by omega, hf''⟩
    rw [BufferDemo.fill, halloc]
    exact hfill

/-- A new host with a root. -/
theorem filled_new (config : Heap.Config) (args : List String) (world : World) :
    ∃ root h, (Host.new config args world).alloc finalize (.root #[]) = (.ok root, h) ∧
      Filled config world root [] (h.addRoot root) := by
  have hdead : ∀ r, ¬ (Heap.empty config : Heap Obj).isLive r := fun _ => Bool.false_ne_true
  have hfits : Heap.accountedBytes (Obj.root #[]) < Heap.sizeLimit := by decide
  have hroom : 0 < Heap.indexLimit := by decide
  obtain ⟨root, heap, heap', hrecounted, hstored, halloc⟩ :=
    Host.exists_alloc finalize (h := Host.new config args world) ⟨config, [], rfl⟩
      (fun r hl => absurd hl (hdead r)) hfits hroom
  have hdead' : ∀ r, ¬ heap.isLive r := by
    intro r
    rw [Heap.isLive, hrecounted.entry?_eq]
    exact hdead r
  refine ⟨root, _, halloc, ?_⟩
  exact
    { stocked := stocked_of_stored hdead' hrecounted.liveObjects_eq hstored
      size_le := by
        have hsize := hstored.size_le
        rw [hrecounted.slots_eq] at hsize
        exact hsize
      freedObjects_eq := by
        show heap'.stats.freedObjects = 0
        rw [hstored.stats_eq]
        exact hrecounted.freedObjects_eq
      config_eq := hstored.config_eq.trans hrecounted.config_eq
      roots_eq := rfl
      registry_eq := rfl
      dispatcher_eq := rfl
      world_eq := rfl }

end BufferDemo

end PinnedHeap
