import PinnedHeap.Proofs.Heap.Effect
import PinnedHeap.Proofs.Host.Allocation
import PinnedHeap.Proofs.Host.Held
import PinnedHeap.Proofs.Host.Script

/-!
# Finalizers that collect

A finalizer has the whole heap at its disposal but not the registry.  So it may collect, with
roots of its own, and it cannot name the pinned objects among them.  Such a collection reclaims
a pinned object that its roots do not lead to (`not_collect_keeps_pins`).

Nothing else does.  The sweep of the host starts from the pins, so it keeps them.  What
the finalizers do afterwards is a list of operations on the heap, and a pinned object is live
all the way through them if and only if each collection among them keeps it
(`pinned_collect_iff`).
-/

namespace PinnedHeap

variable {α σ : Type} [HeapObject α]

namespace Heap

variable {h : Heap α} {r : Ref}

/-- An operation keeps an object, unless it is a collection that does not. -/
def Keeps (h : Heap α) (r : Ref) : Operation α → Prop
  | .collect providers => h.config.mode = .markSweep → h.Survives providers.flatten r
  | _ => True

theorem isLive_apply_iff (hs : h.Sound) (hl : h.isLive r) (op : Operation α) :
    (op.apply h).isLive r ↔ h.Keeps r op := by
  cases op with
  | store x => exact iff_of_true (isLive_apply hs rfl hl) trivial
  | update s f => exact iff_of_true (isLive_apply hs rfl hl) trivial
  | collect providers =>
    rw [Operation.apply, Keeps]
    cases hm : h.config.mode with
    | disabled =>
      rw [collect_of_disabled hm]
      exact iff_of_true hl (fun hne => by cases hne)
    | markSweep =>
      rw [isLive_collect_iff hs hm]
      exact ⟨fun hsurvives _ => hsurvives, fun hsurvives => hsurvives rfl⟩

theorem after_take_succ (h : Heap α) {ops : List (Operation α)} {n : Nat} {op : Operation α}
    (hop : ops[n]? = some op) : h.after (ops.take (n + 1)) = op.apply (h.after (ops.take n)) := by
  rw [List.take_add_one, hop, after_append]
  rfl

/-- An object is live through some operations if each of them keeps it. -/
theorem isLive_take_iff (hs : h.Sound) (hl : h.isLive r) (ops : List (Operation α)) :
    (∀ n, (h.after (ops.take n)).isLive r) ↔
      ∀ (n : Nat) op, ops[n]? = some op → (h.after (ops.take n)).Keeps r op := by
  constructor
  · intro hlive n op hop
    have hnext := hlive (n + 1)
    rw [after_take_succ h hop] at hnext
    exact (isLive_apply_iff (hs.after _) (hlive n) op).1 hnext
  · intro hkeeps n
    induction n with
    | zero => exact hl
    | succ n ih =>
      cases hop : ops[n]? with
      | none =>
        rw [List.take_add_one, hop, Option.toList_none, List.append_nil]
        exact ih
      | some op =>
        rw [after_take_succ h hop]
        exact (isLive_apply_iff (hs.after _) ih op).2 (hkeeps n op hop)

end Heap

namespace Host

variable {finalize : Finalizer α σ} {h : Host α σ}

/-! ## The registry of a reachable host -/

/-- The registry holds what was pinned and not unpinned, whatever the finalizers do. -/
theorem kept_act (finalize : Finalizer α σ) {past : List Event}
    (hk : Registry.Kept h.registry (pins past)) (op : Operation α) :
    Registry.Kept (h.act finalize op).registry (pins ((h.event? op).toList ++ past)) := by
  cases op with
  | alloc x =>
    rw [act, alloc_eq, (ready_cases finalize h).1]
    exact hk
  | pin r =>
    rcases act_pin_cases finalize h r with ⟨t, registry, -, hacquire, hact, he⟩ | ⟨hact, he⟩
    · rw [hact, he]
      exact hk.acquire hacquire
    · rw [hact, he]
      exact hk
  | unpin t =>
    rcases act_unpin_cases finalize h t with ⟨registry, hrelease, hact, he⟩ | ⟨hact, he⟩
    · rw [hact, he]
      exact hk.release hrelease
    · rw [hact, he]
      exact hk
  | unpinRef r =>
    rcases act_unpinRef_cases finalize h r with ⟨registry, hrelease, hact, he⟩ | ⟨hact, he⟩
    · rw [hact, he]
      exact hk.releaseHandle hrelease
    · rw [hact, he]
      exact hk
  | removeRoot r =>
    rcases act_removeRoot_cases finalize h r with ⟨roots, -, hact, he⟩ | ⟨hact, he⟩
    · rw [hact, he]
      exact hk
    · rw [hact, he]
      exact hk
  | collect | addRoot r | heap op => exact hk

theorem Reachable.kept (hr : h.Reachable finalize) :
    ∃ past, Registry.Kept h.registry (pins past) := by
  obtain ⟨config, args, world, ops, rfl⟩ := hr
  induction ops using List.reverseRecOn with
  | nil => exact ⟨[], Registry.kept_empty⟩
  | append_singleton ops op ih =>
    obtain ⟨past, hk⟩ := ih
    rw [run_append]
    exact ⟨_, kept_act finalize hk op⟩

/-- What is in the registry is among the roots of a collection. -/
theorem Reachable.mem_providers (hr : h.Reachable finalize) {r : Ref}
    (hpinned : h.registry.contains r) : r ∈ h.providers.flatten := by
  obtain ⟨past, hk⟩ := hr.kept
  rw [providers, List.flatten_cons, List.flatten_cons, List.flatten_nil, List.append_nil]
  exact List.mem_append_right _ ((hk.mem_toList_iff r).2 hpinned)

/-! ## A collection with finalizers that collect -/

/-- The operations on the heap by the finalizers of a collection. -/
def finalizerOps (script : finalize.Script) (h : Host α σ) : List (Heap.Operation α) :=
  Action.heapOps (h.unnotified.notices script h.pending)

/-- What a collection of the host means for a pinned object. -/
structure HeldThrough (script : finalize.Script) (h : Host α σ) (r : Ref) : Prop where
  /-- The sweep keeps it. -/
  swept : h.swept.isLive r
  /-- It is live through all that the finalizers do, if each of their collections keeps it. -/
  isLive_iff : (∀ n, (h.swept.after ((h.finalizerOps script).take n)).isLive r) ↔
    ∀ (n : Nat) op, (h.finalizerOps script)[n]? = some op →
      (h.swept.after ((h.finalizerOps script).take n)).Keeps r op
  /-- And then it is live at the end. -/
  collected : (∀ (n : Nat) op, (h.finalizerOps script)[n]? = some op →
      (h.swept.after ((h.finalizerOps script).take n)).Keeps r op) →
    (h.collect finalize).2.heap.isLive r

/-- A pinned object is live until a collection returns, if and only if each collection of a
finalizer in between keeps it. -/
theorem pinned_collect_iff (script : finalize.Script) (hr : h.Reachable finalize)
    (hlive : ∀ r, h.registry.contains r → h.heap.isLive r) :
    (h.collect finalize).2.registry = h.registry ∧
      (h.collect finalize).2.heap = h.swept.after (h.finalizerOps script) ∧
      ∀ r, h.registry.contains r → HeldThrough script h r := by
  have hs := hr.sound_heap script.lawful
  have hheap : (h.collect finalize).2.heap = h.swept.after (h.finalizerOps script) :=
    heap_collect_eq script h
  refine ⟨rfl, hheap, fun r hpinned => ?_⟩
  have hl := hlive r hpinned
  have hswept : h.swept.isLive r := by
    rw [Heap.isLive, entry?_swept hs (.origin (hr.mem_providers hpinned) hl)]
    exact hl
  have hiff := Heap.isLive_take_iff (sound_swept hs) hswept (h.finalizerOps script)
  refine ⟨hswept, hiff, fun hkeeps => ?_⟩
  have hend := hiff.2 hkeeps (h.finalizerOps script).length
  rw [List.take_length, ← hheap] at hend
  exact hend

/-- A finalizer that collects without roots. -/
def clearing : Finalizer (Session.Obj Unit) Unit := fun _ _ s => ((s.1.collect []).2, s.2)

def clearingScript : clearing.Script where
  ops _ _ _ := [.collect []]
  heap_eq _ _ _ := rfl

/-- A leaf that is pinned, and a watched object that nothing holds. -/
def pinning : List (Operation (Session.Obj Unit)) :=
  [.alloc .leaf, .pin ⟨0, 1⟩, .alloc (.watched [] true () [])]

/-- The host after `pinning`. -/
def pinnedHost (config : Heap.Config) : Host (Session.Obj Unit) Unit :=
  (new config [] ()).run clearing pinning

theorem reachable_pinnedHost (config : Heap.Config) : (pinnedHost config).Reachable clearing :=
  ⟨config, [], (), _, rfl⟩

theorem contains_pinnedHost : (pinnedHost {}).registry.contains ⟨0, 1⟩ := by decide

theorem isLive_of_pinnedHost (r : Ref) (hr : (pinnedHost {}).registry.contains r) :
    (pinnedHost {}).heap.isLive r := by
  -- Nothing is collected in this run, so it is the same with a quiet finalizer.
  have hquiet : ∀ op ∈ pinning, op.isQuiet := by decide
  have hs := (sound_new {} [] ()).run quiet_idle hquiet
  exact hs.pinned_live r ((hs.contains_iff r).1 hr)

theorem pinned_collect_iff_pinnedHost :
    (pinnedHost {}).Reachable clearing ∧
      (∀ r, (pinnedHost {}).registry.contains r → (pinnedHost {}).heap.isLive r) ∧
      (pinnedHost {}).registry.contains ⟨0, 1⟩ ∧
      HeldThrough clearingScript (pinnedHost {}) ⟨0, 1⟩ :=
  ⟨reachable_pinnedHost {}, isLive_of_pinnedHost, contains_pinnedHost,
    (pinned_collect_iff clearingScript (reachable_pinnedHost {}) isLive_of_pinnedHost).2.2 _
      contains_pinnedHost⟩

/-- It is not true that a pinned object is live when a collection returns: here a finalizer
collects without roots. -/
theorem not_collect_keeps_pins :
    ¬ ∀ (finalize : Finalizer (Session.Obj Unit) Unit) (h : Host (Session.Obj Unit) Unit),
      finalize.Lawful → h.Reachable finalize →
      (∀ r, h.registry.contains r → h.heap.isLive r) →
      ∀ r, h.registry.contains r → (h.collect finalize).2.heap.isLive r := by
  intro hall
  have hkept := hall clearing (pinnedHost {}) clearingScript.lawful (reachable_pinnedHost {})
    isLive_of_pinnedHost ⟨0, 1⟩ contains_pinnedHost
  exact absurd hkept (by decide)

end Host

end PinnedHeap
