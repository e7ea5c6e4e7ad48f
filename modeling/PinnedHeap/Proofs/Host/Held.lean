import PinnedHeap.Proofs.Host.Run
import PinnedHeap.Session.Object

/-!
# What is held stays live

`Sound h past` ties a host to the history of its run: the registry holds what was pinned
and not unpinned, the global roots are those that were added and not removed, and pinned
objects are live.  Every operation keeps it (`Sound.act`), so it holds after every run
(`Sound.run`).

A collection finds the pinned and the rooted objects among its roots, so it keeps them
and all that can be reached from them.  Quiet finalizers take nothing away.  A pinned
object is live from the start, because only live objects are pinned.  A global root may
be dead when it is added.  One that is live then stays so as long as it is rooted
(`isLive_run`).
-/

namespace PinnedHeap.Host

variable {α σ : Type} {h : Host α σ} {past : List Event}

/-! ## The invariant -/

/-- What a host has after a run with the history `past`. -/
structure Sound (h : Host α σ) (past : List Event) : Prop where
  heap : h.heap.Sound
  registry : Registry.Kept h.registry (pins past)
  roots : ∀ r, past.count (.rooted r) = h.roots.toList.count r + past.count (.unrooted r)
  pinned_live : ∀ r, IsPinned past r → h.heap.isLive r

theorem sound_new (config : Heap.Config) (args : List String) (world : σ) :
    Sound (new config args world : Host α σ) [] where
  heap := Heap.sound_empty config
  registry := Registry.kept_empty
  roots := fun _ => rfl
  pinned_live := fun _ hp => absurd hp (Nat.lt_irrefl 0)

theorem Sound.contains_iff (hs : Sound h past) (r : Ref) :
    h.registry.contains r ↔ IsPinned past r := hs.registry.contains_iff r

/-- A collection starts from what is pinned and what is rooted. -/
theorem Sound.mem_providers_iff (hs : Sound h past) (r : Ref) :
    r ∈ h.providers.flatten ↔ IsPinned past r ∨ IsRooted past r := by
  have hroots := hs.roots r
  have hcount : r ∈ h.roots.toList ↔ IsRooted past r := by
    rw [← List.count_pos_iff, IsRooted]
    omega
  rw [providers, List.flatten_cons, List.flatten_cons, List.flatten_nil, List.append_nil,
    List.mem_append, hs.registry.mem_toList_iff, hs.contains_iff, hcount]
  exact Or.comm

/-- An operation that leaves registry, roots and history as they are, and keeps live roots
live, keeps the invariant. -/
theorem Sound.of_same (hs : Sound h past) {h' : Host α σ} (hheap : h'.heap.Sound)
    (hregistry : h'.registry = h.registry) (hroots : h'.roots = h.roots)
    (hlive : ∀ r ∈ h.providers.flatten, h.heap.isLive r → h'.heap.isLive r) :
    Sound h' past where
  heap := hheap
  registry := hregistry ▸ hs.registry
  roots := hroots ▸ hs.roots
  pinned_live := fun r hp =>
    hlive r ((hs.mem_providers_iff r).2 (Or.inl hp)) (hs.pinned_live r hp)

theorem isPinned_hold {event : Registry.Event Ref} {r : Ref}
    (hp : IsPinned (.hold event :: past) r) :
    IsPinned past r ∨ ∃ t, event = .held r t := by
  rw [IsPinned, show pins (.hold event :: past) = event :: pins past from rfl] at hp
  cases event with
  | held r' t =>
    rw [Registry.holds, Registry.releases] at hp
    by_cases heq : r' = r
    · exact Or.inr ⟨t, heq ▸ rfl⟩
    · rw [if_neg heq] at hp
      exact Or.inl hp
  | released t =>
    simp only [Registry.holds, Registry.releases] at hp
    split at hp
    · exact Or.inl (Nat.lt_of_succ_lt hp)
    · exact Or.inl hp
  | releasedHandle r' =>
    simp only [Registry.holds, Registry.releases] at hp
    split at hp
    · exact Or.inl (Nat.lt_of_succ_lt hp)
    · exact Or.inl hp

/-- A change of the registry that is a pin of a live object or an unpin keeps the
invariant. -/
theorem Sound.hold (hs : Sound h past) {registry : Registry Ref} {event : Registry.Event Ref}
    (hkept : Registry.Kept registry (event :: pins past))
    (hlive : ∀ r t, event = .held r t → h.heap.isLive r) :
    Sound { h with registry } (.hold event :: past) where
  heap := hs.heap
  registry := hkept
  roots := by
    intro r
    simp only [List.count_cons, beq_iff_eq, reduceCtorEq, if_false, Nat.add_zero]
    exact hs.roots r
  pinned_live := by
    intro r hp
    rcases isPinned_hold hp with hp | ⟨t, he⟩
    · exact hs.pinned_live r hp
    · exact hlive r t he

theorem Sound.addRoot (hs : Sound h past) (r : Ref) :
    Sound (h.addRoot r) (.rooted r :: past) where
  heap := hs.heap
  registry := hs.registry
  roots := by
    intro r'
    have hroots := hs.roots r'
    have hcount := Roots.count_add h.roots r r'
    simp only [Host.addRoot, List.count_cons, beq_iff_eq, Event.rooted.injEq, reduceCtorEq,
      if_false, Nat.add_zero]
    omega
  pinned_live := hs.pinned_live

theorem Sound.removeRoot (hs : Sound h past) {r : Ref} {roots : Roots}
    (hremove : h.roots.remove? r = some roots) :
    Sound { h with roots } (.unrooted r :: past) where
  heap := hs.heap
  registry := hs.registry
  roots := by
    intro r'
    have hroots := hs.roots r'
    have hcount := Roots.count_of_remove? hremove r'
    simp only [List.count_cons, beq_iff_eq, Event.unrooted.injEq, reduceCtorEq, if_false,
      Nat.add_zero]
    omega
  pinned_live := hs.pinned_live

variable [HeapObject α] {finalize : Finalizer α σ}

/-! ## One operation -/

/-- A live root of the host is live after every operation. -/
theorem isLive_act (hq : finalize.Quiet) (hs : h.heap.Sound) {op : Operation α}
    (hop : op.isQuiet) {r : Ref} (hr : r ∈ h.providers.flatten) (hl : h.heap.isLive r) :
    (h.act finalize op).heap.isLive r := by
  cases op with
  | alloc x =>
    have hready := isLive_moment hq hs hr hl (moment_ready finalize h)
    have hsize := (sound_moment hq.lawful hs (moment_ready finalize h)).size_le
    rw [act, alloc_eq, Heap.isLive]
    simp only
    rw [Heap.entry?_alloc_of_isLive hsize x hready]
    exact hready
  | pin r' | unpin t | unpinRef r' | addRoot r' | removeRoot r' =>
    rw [heap_act_of_keepsHeap finalize h rfl]
    exact hl
  | collect => exact isLive_moment hq hs hr hl (moment_collect finalize h)
  | heap op =>
    refine Heap.isLive_apply hs ?_ hl
    rw [Operation.isQuiet, Bool.not_eq_true'] at hop
    exact hop

theorem Sound.act (hq : finalize.Quiet) (hs : Sound h past) {op : Operation α}
    (hop : op.isQuiet) : Sound (h.act finalize op) ((h.event? op).toList ++ past) := by
  have hheap := sound_heap_act hq.lawful hs.heap op
  have hlive : ∀ r ∈ h.providers.flatten, h.heap.isLive r → (h.act finalize op).heap.isLive r :=
    fun r hr hl => isLive_act hq hs.heap hop hr hl
  cases op with
  | alloc x =>
    obtain ⟨hregistry, hroots⟩ := ready_cases finalize h
    exact hs.of_same hheap hregistry hroots hlive
  | collect => exact hs.of_same hheap rfl rfl hlive
  | heap op => exact hs.of_same hheap rfl rfl hlive
  | pin r =>
    rcases act_pin_cases finalize h r with ⟨t, registry, hl, hacquire, hact, he⟩ | ⟨hact, he⟩
    · rw [hact, he]
      refine hs.hold (hs.registry.acquire hacquire) fun r' t' heq => ?_
      rw [← (Registry.Event.held.inj heq).1]
      exact hl
    · rw [hact, he]
      exact hs
  | unpin t =>
    rcases act_unpin_cases finalize h t with ⟨registry, hrelease, hact, he⟩ | ⟨hact, he⟩
    · rw [hact, he]
      exact hs.hold (hs.registry.release hrelease) fun _ _ heq => nomatch heq
    · rw [hact, he]
      exact hs
  | unpinRef r =>
    rcases act_unpinRef_cases finalize h r with ⟨registry, hrelease, hact, he⟩ | ⟨hact, he⟩
    · rw [hact, he]
      exact hs.hold (hs.registry.releaseHandle hrelease) fun _ _ heq => nomatch heq
    · rw [hact, he]
      exact hs
  | addRoot r => exact hs.addRoot r
  | removeRoot r =>
    rcases act_removeRoot_cases finalize h r with ⟨roots, hremove, hact, he⟩ | ⟨hact, he⟩
    · rw [hact, he]
      exact hs.removeRoot hremove
    · rw [hact, he]
      exact hs

/-! ## Runs -/

theorem history_append (finalize : Finalizer α σ) (h : Host α σ) (past : List Event)
    (ops more : List (Operation α)) : h.history finalize past (ops ++ more) =
      (h.run finalize ops).history finalize (h.history finalize past ops) more := by
  induction ops generalizing h past with
  | nil => rfl
  | cons op ops ih => exact ih (h.act finalize op) ((h.event? op).toList ++ past)

theorem Sound.run (hq : finalize.Quiet) (hs : Sound h past) {ops : List (Operation α)}
    (hops : ∀ op ∈ ops, op.isQuiet) :
    Sound (h.run finalize ops) (h.history finalize past ops) := by
  induction ops generalizing h past with
  | nil => exact hs
  | cons op ops ih =>
    rw [List.forall_mem_cons] at hops
    exact ih (hs.act hq hops.1) hops.2

theorem isLive_run (hq : finalize.Quiet) (hs : Sound h past) {ops : List (Operation α)}
    (hops : ∀ op ∈ ops, op.isQuiet) {r : Ref}
    (hr : ∀ n ≤ ops.length, IsRooted (h.history finalize past (ops.take n)) r)
    (hl : h.heap.isLive r) : (h.run finalize ops).heap.isLive r := by
  induction ops generalizing h past with
  | nil => exact hl
  | cons op ops ih =>
    rw [List.forall_mem_cons] at hops
    have hnow : IsRooted past r := hr 0 (Nat.zero_le _)
    have hlive := isLive_act hq hs.heap hops.1 ((hs.mem_providers_iff r).2 (Or.inr hnow)) hl
    exact ih (hs.act hq hops.1) hops.2
      (fun n hn => hr (n + 1) (Nat.succ_le_succ hn)) hlive

/-- After a run of a host, what is held by pins or by global roots is safe. -/
structure Safe (finalize : Finalizer α σ) (start : Host α σ) (ops : List (Operation α)) :
    Prop where
  /-- The registry holds what was pinned more often than unpinned. -/
  contains_iff : ∀ r, (start.run finalize ops).registry.contains r ↔
    IsPinned (start.history finalize [] ops) r
  /-- The sweep of a collection keeps what can be reached from pinned and rooted objects,
  as it is. -/
  kept : ∀ r, (start.run finalize ops).heap.Reaches
      (fun s => IsPinned (start.history finalize [] ops) s ∨
        IsRooted (start.history finalize [] ops) s) r →
    (start.run finalize ops).swept.isLive r ∧
      (start.run finalize ops).swept.entry? r = (start.run finalize ops).heap.entry? r
  /-- What the registry holds is live, also while finalizers run. -/
  pinned_live : ∀ heap, (start.run finalize ops).Moment finalize heap →
    ∀ r, (start.run finalize ops).registry.contains r → heap.isLive r
  /-- A global root that was live when it was added is live as long as it is rooted, also
  while finalizers run. -/
  rooted_live : ∀ before r later, ops = before ++ .addRoot r :: later →
    (start.run finalize before).heap.isLive r →
    (∀ n ≤ later.length,
      IsRooted (start.history finalize [] (before ++ .addRoot r :: later.take n)) r) →
    ∀ heap, (start.run finalize ops).Moment finalize heap → heap.isLive r
  /-- What an allocation returns is live, so it may serve as such a root. -/
  stored_live : ∀ x r, ((start.run finalize ops).alloc finalize x).1 = .ok r →
    ((start.run finalize ops).act finalize (.alloc x)).heap.isLive r

/-- Objects that are pinned or rooted, and what can be reached from them, are never
reclaimed: not in any run of operations on a new host, with finalizers that do what they
like to the heap except for a collection. -/
theorem held_safe (hq : finalize.Quiet) (config : Heap.Config) (args : List String) (world : σ)
    {ops : List (Operation α)} (hops : ∀ op ∈ ops, op.isQuiet) :
    Safe finalize (new config args world) ops := by
  have hnew : Sound (new config args world : Host α σ) [] := sound_new config args world
  have hs := hnew.run hq hops
  have hproviders := hs.mem_providers_iff
  exact
    { contains_iff := hs.contains_iff
      kept := by
        intro r hr
        have hreach := hr.mono (fun _ ht => ht) fun s ho _ => (hproviders s).2 ho
        have hentry := entry?_swept hs.heap hreach
        refine ⟨?_, hentry⟩
        rw [Heap.isLive, hentry]
        exact hr.through_of
      pinned_live := by
        intro heap hm r hr
        have hp := (hs.contains_iff r).1 hr
        exact isLive_moment hq hs.heap ((hproviders r).2 (Or.inl hp)) (hs.pinned_live r hp) hm
      rooted_live := by
        intro before r later heq hl hrooted heap hm
        have hlast := hrooted later.length (Nat.le_refl _)
        rw [List.take_length, ← heq] at hlast
        subst heq
        -- The run goes on from the state right after the root was added.
        rw [List.forall_mem_append, List.forall_mem_cons] at hops
        have hadded := (hnew.run hq hops.1).act hq hops.2.1
        have hlive : Heap.isLive
            ((new config args world).run finalize (before ++ .addRoot r :: later)).heap r := by
          rw [Host.run, List.foldl_append]
          refine isLive_run hq hadded hops.2.2 (fun n hn => ?_) hl
          have hnow := hrooted n hn
          rw [history_append] at hnow
          exact hnow
        exact isLive_moment hq hs.heap ((hproviders r).2 (Or.inr hlast)) hlive hm
      stored_live := fun x r ha => isLive_alloc hq.lawful hs.heap ha }

/-- A finalizer that stores a leaf. -/
def storeLeaf : Finalizer (Session.Obj Unit) Unit := fun _ _ s => ((s.1.alloc .leaf).2, s.2)

/-- A pinned leaf, and a global root that refers to it and wants to be finalized.  The root
is removed, but the leaf is made to refer to it before the next collection.  The one after
the release of the pin finalizes it. -/
def leafRun : List (Operation (Session.Obj Unit)) :=
  [.alloc .leaf, .pin ⟨0, 1⟩, .alloc (.watched [⟨0, 1⟩] true () []), .addRoot ⟨1, 1⟩, .collect,
    .removeRoot ⟨1, 1⟩, .heap (.update ⟨0, 1⟩ fun _ => .node [⟨1, 1⟩]), .collect,
    .unpinRef ⟨0, 1⟩, .collect, .unpin ⟨0, 1⟩]

theorem held_safe_leafRun :
    storeLeaf.Quiet ∧ (∀ op ∈ leafRun, op.isQuiet) ∧
      Safe storeLeaf (new {} ["program"] ()) leafRun :=
  have hq : storeLeaf.Quiet := fun _ _ _ =>
    ⟨[.store .leaf], fun _ hop => List.mem_singleton.1 hop ▸ rfl, rfl⟩
  have hops : ∀ op ∈ leafRun, op.isQuiet := by decide
  ⟨hq, hops, held_safe hq {} ["program"] () hops⟩

end PinnedHeap.Host
