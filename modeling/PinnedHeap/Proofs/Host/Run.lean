import PinnedHeap.Host
import PinnedHeap.Proofs.Heap.Operation
import PinnedHeap.Proofs.Host.Roots
import PinnedHeap.Proofs.Registry.Refinement

/-!
# Runs of a host

A host changes by its own operations and by operations on its heap.  An operation that
ends the program leaves the host as it is, so runs may go on after it.

The history of a run lists the pins and unpins that succeeded and the global roots that
came and went, the latest first.  What is pinned and what is rooted is read off the
history: `IsPinned` and `IsRooted` do not mention the registry or the list of roots.

A finalizer is *lawful* if what it does to the heap is some operations on it, and *quiet*
if these are other than collections.  `Moment` describes all the heaps that can be seen
while a host is in some state: the heap of the state itself, and the heaps of a collection
that starts there, after the sweep, between the finalizers and inside of them.
-/

namespace PinnedHeap

variable {α σ : Type}

section Finalizers

variable [HeapObject α]

/-- A finalizer that works on the heap by operations with the property `allowed`. -/
def Finalizer.WorksBy (finalize : Finalizer α σ) (allowed : Heap.Operation α → Prop) : Prop :=
  ∀ (x : α) (r : Ref) (s : Heap α × σ), s.1.LeadsTo allowed (finalize x r s).1

/-- A finalizer that works on the heap by its operations. -/
def Finalizer.Lawful (finalize : Finalizer α σ) : Prop := finalize.WorksBy fun _ => True

/-- A finalizer that works on the heap by operations other than collections. -/
def Finalizer.Quiet (finalize : Finalizer α σ) : Prop :=
  finalize.WorksBy Heap.Operation.Quiet

theorem Finalizer.Quiet.lawful {finalize : Finalizer α σ} (hq : finalize.Quiet) :
    finalize.Lawful := by
  intro x r s
  obtain ⟨ops, -, hstate⟩ := hq x r s
  exact ⟨ops, fun _ _ => trivial, hstate⟩

end Finalizers

namespace Host

/-! ## Operations -/

/-- An operation on a host. -/
inductive Operation (α : Type) where
  /-- Store an object, after a collection if one is due. -/
  | alloc (x : α)
  /-- Pin an object. -/
  | pin (r : Ref)
  /-- Release a pin by its token. -/
  | unpin (t : Token)
  /-- Release a pin by its reference. -/
  | unpinRef (r : Ref)
  /-- Collect. -/
  | collect
  /-- Add a global root. -/
  | addRoot (r : Ref)
  /-- Remove a global root. -/
  | removeRoot (r : Ref)
  /-- Change the heap directly. -/
  | heap (op : Heap.Operation α)

/-- An operation that does not collect behind the back of the host. -/
def Operation.isQuiet : Operation α → Bool
  | .heap op => !op.isCollect
  | _ => true

/-- The host after a result that may be a violation. -/
def settle (h : Host α σ) : Except (Registry.Violation Ref) (Host α σ) → Host α σ
  | .ok h' => h'
  | .error _ => h

section Act

variable [HeapObject α] (finalize : Finalizer α σ)

/-- The host after an operation. -/
def act (h : Host α σ) : Operation α → Host α σ
  | .alloc x => (h.alloc finalize x).2
  | .pin r => h.settle ((h.pin r).map Prod.snd)
  | .unpin t => h.settle (h.unpin t)
  | .unpinRef r => h.settle (h.unpinRef r)
  | .collect => (h.collect finalize).2
  | .addRoot r => h.addRoot r
  | .removeRoot r => (h.removeRoot r).2
  | .heap op => { h with heap := op.apply h.heap }

/-- The host after several operations. -/
def run (h : Host α σ) (ops : List (Operation α)) : Host α σ := ops.foldl (act finalize) h

/-- A host that operations lead to from a new one. -/
def Reachable (h : Host α σ) : Prop :=
  ∃ config args world ops, h = (new config args world).run finalize ops

end Act

/-! ## Histories -/

/-- A change of what is pinned or rooted. -/
inductive Event where
  /-- A pin or an unpin. -/
  | hold (event : Registry.Event Ref)
  /-- A global root was added. -/
  | rooted (r : Ref)
  /-- A global root was removed. -/
  | unrooted (r : Ref)
deriving DecidableEq

/-- The pin or unpin of an event. -/
def Event.hold? : Event → Option (Registry.Event Ref)
  | .hold event => some event
  | _ => none

/-- What an operation adds to the history. -/
def event? (h : Host α σ) : Operation α → Option Event
  | .pin r =>
    match h.pin r with
    | .ok (.ok t, _) => some (.hold (.held r t))
    | _ => none
  | .unpin t => (h.unpin t).toOption.map fun _ => .hold (.released t)
  | .unpinRef r => (h.unpinRef r).toOption.map fun _ => .hold (.releasedHandle r)
  | .addRoot r => some (.rooted r)
  | .removeRoot r => if (h.removeRoot r).1 then some (.unrooted r) else none
  | _ => none

/-- The history after several operations, from a history before them. -/
def history [HeapObject α] (finalize : Finalizer α σ) (h : Host α σ) (past : List Event) :
    List (Operation α) → List Event
  | [] => past
  | op :: ops => history finalize (act finalize h op) ((h.event? op).toList ++ past) ops

/-- The pins and unpins of a history. -/
def pins (past : List Event) : List (Registry.Event Ref) := past.filterMap Event.hold?

/-- Pinned more often than unpinned. -/
def IsPinned (past : List Event) (r : Ref) : Prop :=
  Registry.releases r (pins past) < Registry.holds r (pins past)

/-- Added to the global roots more often than removed from them. -/
def IsRooted (past : List Event) (r : Ref) : Prop :=
  past.count (.unrooted r) < past.count (.rooted r)

/-! ## Moments -/

section Moments

variable [HeapObject α] (finalize : Finalizer α σ)

/-- The heap right after the sweep of a collection. -/
def swept (h : Host α σ) : Heap α := (h.heap.collect h.providers).2

/-- What a collection hands out. -/
def pending (h : Host α σ) : List (Heap.Pending α) := (h.heap.collect h.providers).1.pending

/-- Heap and world of a collection after the first `k` notifications of the dispatcher. -/
def finalizing (h : Host α σ) (k : Nat) : Heap α × σ :=
  (h.dispatcher.dispatchAll finalize (h.pending.take k) (h.swept, h.world)).state

/-- The host that an allocation stores in. -/
def ready (h : Host α σ) : Host α σ :=
  if h.heap.collectionDue then (h.collect finalize).2 else h

/-- A heap that can be seen while the host is in the state `h`: its own, or that of a
collection under way, with a finalizer somewhere among its operations. -/
def Moment (h : Host α σ) (heap : Heap α) : Prop :=
  heap = h.heap ∨
    ∃ k, (h.finalizing finalize k).1.LeadsTo Heap.Operation.Quiet heap

end Moments

section Moments

variable [HeapObject α] {finalize : Finalizer α σ} {h : Host α σ}

/-- A notification leads from the heap before it to the heap after it, by operations of
the finalizer if that runs. -/
theorem leadsTo_next {allowed : Heap.Operation α → Prop} (hworks : finalize.WorksBy allowed)
    (s : Dispatcher.Progress α σ) (p : Heap.Pending α) :
    s.state.1.LeadsTo allowed (s.next finalize p).state.1 := by
  rw [Dispatcher.Progress.next, Dispatcher.dispatch]
  split
  · rename_i hok
    split at hok
    · exact nomatch hok
    · split at hok
      · exact nomatch hok
      · obtain ⟨-, rfl⟩ := Prod.mk.inj (Except.ok.inj hok)
        exact hworks p.object p.ref s.state
  · exact .refl _

theorem leadsTo_finalizing_succ {allowed : Heap.Operation α → Prop}
    (hworks : finalize.WorksBy allowed) (h : Host α σ) (k : Nat) :
    (h.finalizing finalize k).1.LeadsTo allowed (h.finalizing finalize (k + 1)).1 := by
  rw [finalizing, finalizing, Dispatcher.dispatchAll, Dispatcher.dispatchAll, List.take_add_one,
    List.foldl_append]
  cases h.pending[k]? with
  | none => exact .refl _
  | some p => exact leadsTo_next hworks _ p

/-- From the sweep on, a collection leads from heap to heap as its notifications do. -/
theorem leadsTo_finalizing {allowed : Heap.Operation α → Prop} {h : Host α σ}
    (hsteps : ∀ k, (h.finalizing finalize k).1.LeadsTo allowed (h.finalizing finalize (k + 1)).1)
    (k : Nat) : h.swept.LeadsTo allowed (h.finalizing finalize k).1 := by
  induction k with
  | zero => exact .refl _
  | succ k ih => exact ih.trans (hsteps k)

theorem heap_collect (finalize : Finalizer α σ) (h : Host α σ) :
    (h.collect finalize).2.heap = (h.finalizing finalize h.pending.length).1 := by
  rw [finalizing, List.take_length]
  rfl

theorem moment_self (finalize : Finalizer α σ) (h : Host α σ) : h.Moment finalize h.heap :=
  Or.inl rfl

theorem moment_collect (finalize : Finalizer α σ) (h : Host α σ) :
    h.Moment finalize (h.collect finalize).2.heap := by
  rw [heap_collect]
  exact Or.inr ⟨_, .refl _⟩

theorem sound_swept (hs : h.heap.Sound) : h.swept.Sound := hs.collect h.providers

/-- At every moment a heap is sound, whatever the finalizers do to it. -/
theorem sound_moment (hlawful : finalize.Lawful) (hs : h.heap.Sound) {heap : Heap α}
    (hm : h.Moment finalize heap) : heap.Sound := by
  rcases hm with rfl | ⟨k, hlead⟩
  · exact hs
  · exact hlead.sound
      ((leadsTo_finalizing (leadsTo_finalizing_succ hlawful h) k).sound (sound_swept hs))

/-! ## What a collection of the host keeps -/

/-- What can be reached from the roots of the host is not touched by the sweep. -/
theorem entry?_swept (hs : h.heap.Sound) {r : Ref}
    (hr : h.heap.Reaches (fun s => s ∈ h.providers.flatten) r) :
    h.swept.entry? r = h.heap.entry? r :=
  Heap.entry?_collect_of_survives hs.plain hs.size_le (Or.inl hr)

/-- A live root of the host is live at every moment. -/
theorem isLive_moment (hq : finalize.Quiet) (hs : h.heap.Sound) {r : Ref}
    (hr : r ∈ h.providers.flatten) (hl : h.heap.isLive r) {heap : Heap α}
    (hm : h.Moment finalize heap) : heap.isLive r := by
  rcases hm with rfl | ⟨k, hlead⟩
  · exact hl
  · have hswept : h.swept.isLive r := by
      rw [Heap.isLive, entry?_swept hs (.origin hr hl)]
      exact hl
    have hfinalizing := leadsTo_finalizing (leadsTo_finalizing_succ hq h) k
    exact hlead.isLive (hfinalizing.sound (sound_swept hs))
      (hfinalizing.isLive (sound_swept hs) hswept)

/-! ## Storing -/

theorem alloc_eq (h : Host α σ) (x : α) : h.alloc finalize x =
    (((h.ready finalize).heap.alloc x).1.mapError Error.heap,
      { h.ready finalize with heap := ((h.ready finalize).heap.alloc x).2 }) := rfl

theorem moment_ready (finalize : Finalizer α σ) (h : Host α σ) :
    h.Moment finalize (h.ready finalize).heap := by
  rw [ready]
  split
  · exact moment_collect finalize h
  · exact moment_self finalize h

theorem isLive_alloc (hlawful : finalize.Lawful) (hs : h.heap.Sound) {x : α} {r : Ref}
    (ha : (h.alloc finalize x).1 = .ok r) : (h.alloc finalize x).2.heap.isLive r := by
  rw [alloc_eq] at ha ⊢
  apply Heap.isLive_of_alloc (sound_moment hlawful hs (moment_ready finalize h)).size_le
  cases hresult : ((h.ready finalize).heap.alloc x).1 with
  | ok r' =>
    rw [hresult] at ha
    rw [Except.ok.inj ha]
  | error e =>
    rw [hresult] at ha
    exact nomatch ha

end Moments

/-! ## What the operations change -/

section Act

variable [HeapObject α]

/-- A pin adds a hold of a live object to the registry, or nothing happens. -/
theorem act_pin_cases (finalize : Finalizer α σ) (h : Host α σ) (r : Ref) :
    (∃ t registry, h.heap.isLive r ∧ h.registry.acquire r = .ok (t, registry) ∧
      h.act finalize (.pin r) = { h with registry } ∧
      h.event? (.pin r) = some (.hold (.held r t))) ∨
    (h.act finalize (.pin r) = h ∧ h.event? (.pin r) = none) := by
  rw [act, event?, pin]
  by_cases hl : h.heap.isLive r
  · rw [if_pos hl]
    cases hacquire : h.registry.acquire r with
    | ok x => exact Or.inl ⟨x.1, x.2, hl, rfl, rfl, rfl⟩
    | error e => exact Or.inr ⟨rfl, rfl⟩
  · rw [if_neg hl]
    exact Or.inr ⟨rfl, rfl⟩

theorem act_unpin_cases (finalize : Finalizer α σ) (h : Host α σ) (t : Token) :
    (∃ registry, h.registry.release t = .ok registry ∧
      h.act finalize (.unpin t) = { h with registry } ∧
      h.event? (.unpin t) = some (.hold (.released t))) ∨
    (h.act finalize (.unpin t) = h ∧ h.event? (.unpin t) = none) := by
  rw [act, event?, unpin]
  cases hrelease : h.registry.release t with
  | ok registry => exact Or.inl ⟨registry, rfl, rfl, rfl⟩
  | error e => exact Or.inr ⟨rfl, rfl⟩

theorem act_unpinRef_cases (finalize : Finalizer α σ) (h : Host α σ) (r : Ref) :
    (∃ registry, h.registry.releaseHandle r = .ok registry ∧
      h.act finalize (.unpinRef r) = { h with registry } ∧
      h.event? (.unpinRef r) = some (.hold (.releasedHandle r))) ∨
    (h.act finalize (.unpinRef r) = h ∧ h.event? (.unpinRef r) = none) := by
  rw [act, event?, unpinRef]
  cases hrelease : h.registry.releaseHandle r with
  | ok registry => exact Or.inl ⟨registry, rfl, rfl, rfl⟩
  | error e => exact Or.inr ⟨rfl, rfl⟩

theorem act_removeRoot_cases (finalize : Finalizer α σ) (h : Host α σ) (r : Ref) :
    (∃ roots, h.roots.remove? r = some roots ∧
      h.act finalize (.removeRoot r) = { h with roots } ∧
      h.event? (.removeRoot r) = some (.unrooted r)) ∨
    (h.act finalize (.removeRoot r) = h ∧ h.event? (.removeRoot r) = none) := by
  rw [act, event?, removeRoot]
  cases hremove : h.roots.remove? r with
  | some roots => exact Or.inl ⟨roots, rfl, rfl, rfl⟩
  | none => exact Or.inr ⟨rfl, rfl⟩

/-- Whether an operation only changes what is pinned and what is rooted. -/
def Operation.keepsHeap : Operation α → Bool
  | .pin _ | .unpin _ | .unpinRef _ | .addRoot _ | .removeRoot _ => true
  | _ => false

theorem act_of_keepsHeap (finalize : Finalizer α σ) (h : Host α σ) {op : Operation α}
    (hop : op.keepsHeap) : ∃ registry roots, h.act finalize op = { h with registry, roots } := by
  cases op with
  | alloc x => exact nomatch hop
  | pin r =>
    rcases act_pin_cases finalize h r with ⟨t, registry, -, -, hact, -⟩ | ⟨hact, -⟩
    · exact ⟨registry, h.roots, hact⟩
    · exact ⟨h.registry, h.roots, hact⟩
  | unpin t =>
    rcases act_unpin_cases finalize h t with ⟨registry, -, hact, -⟩ | ⟨hact, -⟩
    · exact ⟨registry, h.roots, hact⟩
    · exact ⟨h.registry, h.roots, hact⟩
  | unpinRef r =>
    rcases act_unpinRef_cases finalize h r with ⟨registry, -, hact, -⟩ | ⟨hact, -⟩
    · exact ⟨registry, h.roots, hact⟩
    · exact ⟨h.registry, h.roots, hact⟩
  | collect => exact nomatch hop
  | addRoot r => exact ⟨h.registry, h.roots.add r, rfl⟩
  | removeRoot r =>
    rcases act_removeRoot_cases finalize h r with ⟨roots, -, hact, -⟩ | ⟨hact, -⟩
    · exact ⟨h.registry, roots, hact⟩
    · exact ⟨h.registry, h.roots, hact⟩
  | heap op => exact nomatch hop

theorem heap_act_of_keepsHeap (finalize : Finalizer α σ) (h : Host α σ) {op : Operation α}
    (hop : op.keepsHeap) : (h.act finalize op).heap = h.heap := by
  obtain ⟨registry, roots, hact⟩ := act_of_keepsHeap finalize h hop
  rw [hact]

theorem sound_heap_act {finalize : Finalizer α σ} (hlawful : finalize.Lawful) {h : Host α σ}
    (hs : h.heap.Sound) (op : Operation α) : (h.act finalize op).heap.Sound := by
  cases op with
  | alloc x => exact (sound_moment hlawful hs (moment_ready finalize h)).alloc x
  | pin r | unpin t | unpinRef r | addRoot r | removeRoot r =>
    rw [heap_act_of_keepsHeap finalize h rfl]
    exact hs
  | collect => exact sound_moment hlawful hs (moment_collect finalize h)
  | heap op => exact hs.apply op

theorem Reachable.sound_heap {finalize : Finalizer α σ} (hlawful : finalize.Lawful)
    {h : Host α σ} (hr : h.Reachable finalize) : h.heap.Sound := by
  obtain ⟨config, args, world, ops, rfl⟩ := hr
  have hstart : (new config args world : Host α σ).heap.Sound := Heap.sound_empty config
  generalize (new config args world : Host α σ) = start at hstart ⊢
  induction ops generalizing start with
  | nil => exact hstart
  | cons op ops ih => exact ih (start.act finalize op) (sound_heap_act hlawful hstart op)

/-- A collection, be it on behalf of an allocation or not, changes neither what is pinned
nor what is rooted. -/
theorem ready_cases (finalize : Finalizer α σ) (h : Host α σ) :
    (h.ready finalize).registry = h.registry ∧ (h.ready finalize).roots = h.roots := by
  rw [ready]
  split <;> exact ⟨rfl, rfl⟩

end Act

end Host

end PinnedHeap
