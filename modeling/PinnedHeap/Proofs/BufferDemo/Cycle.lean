import PinnedHeap.Proofs.BufferDemo.Holds
import PinnedHeap.Proofs.BufferDemo.Stock
import PinnedHeap.Proofs.Host.Finalized

/-!
# A cycle of the demonstration

`Staged` says that a cycle can run: the host has a root and some buffers, and none of the buffers
was finalized before.  A collection of such a host finalizes each buffer that it reclaims, since its
reference comes up for the first time, and leaves a host that is staged again (`Staged.collect`).

A cycle is two collections.  The first one keeps the buffers that foreign code holds.  Which ones
these are makes no difference in the end.  What the first collection keeps is reclaimed by the
second, so both together reclaim all buffers (`Staged.cycle`), or none if the heap is not collected.
-/

namespace PinnedHeap.BufferDemo

open Registry (Represents)

/-! ## Finalizers -/

/-- Buffers that come up for the first time are counted, and the heap stays as it is. -/
theorem foldl_next_of_buffers {pending : List (Heap.Pending Obj)}
    {s : Dispatcher.Progress Obj World}
    (hbuffer : ∀ p ∈ pending, ∃ number, p.object = .buffer number)
    (hnew : ∀ p ∈ pending, s.dispatcher.hasFinalized p.ref = false)
    (hnodup : (pending.map Heap.Pending.ref).Nodup) :
    (pending.foldl (Dispatcher.Progress.next finalize) s).state =
        (s.state.1, { s.state.2 with finalized := s.state.2.finalized + pending.length }) ∧
      ∀ r, (pending.foldl (Dispatcher.Progress.next finalize) s).dispatcher.hasFinalized r ↔
        s.dispatcher.hasFinalized r ∨ r ∈ pending.map Heap.Pending.ref := by
  induction pending generalizing s with
  | nil => exact ⟨rfl, fun r => by simp⟩
  | cons p pending ih =>
    obtain ⟨number, hobject⟩ := hbuffer p List.mem_cons_self
    have hp := hnew p List.mem_cons_self
    rw [List.map_cons, List.nodup_cons] at hnodup
    have haccepts : s.accepts p = true := by
      rw [Dispatcher.Progress.accepts, hobject, hp]
      rfl
    have hinsert : ∀ r, (s.next finalize p).dispatcher.hasFinalized r ↔
        s.dispatcher.hasFinalized r ∨ r = p.ref := by
      intro r
      rw [Dispatcher.Progress.next_of_accepts haccepts]
      exact Dispatcher.hasFinalized_insert s.dispatcher p.ref r
    have hstate : (s.next finalize p).state =
        (s.state.1, { s.state.2 with finalized := s.state.2.finalized + 1 }) := by
      rw [Dispatcher.Progress.next_of_accepts haccepts, hobject]
      rfl
    have hnew' : ∀ q ∈ pending, (s.next finalize p).dispatcher.hasFinalized q.ref = false := by
      intro q hq
      rw [Bool.eq_false_iff, Ne, hinsert, hnew q (List.mem_cons_of_mem p hq)]
      rintro (hfalse | heq)
      · exact Bool.false_ne_true hfalse
      · exact hnodup.1 (heq ▸ List.mem_map_of_mem hq)
    obtain ⟨hfold, hfinalized⟩ :=
      ih (fun q hq => hbuffer q (List.mem_cons_of_mem p hq)) hnew' hnodup.2
    refine ⟨?_, fun r => ?_⟩
    · rw [List.foldl_cons, hfold, hstate, List.length_cons, Nat.add_assoc, Nat.add_comm 1]
    · rw [List.foldl_cons, hfinalized, hinsert, List.map_cons, List.mem_cons, or_assoc]

/-! ## Collections -/

/-- The host has a root, which is its only global root, and buffers that were never finalized. -/
structure Staged (root : Ref) (links : Array Ref) (buffers : List Ref) (h : BufferHost) :
    Prop where
  stocked : Stocked h.heap root links buffers
  roots_eq : h.roots.toList = [root]
  unfinalized : ∀ r ∈ buffers, h.dispatcher.hasFinalized r = false

/-- On the way from the one host to the other, `n` buffers are reclaimed and finalized. -/
structure Reclaims (h : BufferHost) (n : Nat) (h' : BufferHost) : Prop where
  world_eq : h'.world = { h.world with finalized := h.world.finalized + n }
  freedObjects_eq : h'.heap.stats.freedObjects = h.heap.stats.freedObjects + n
  config_eq : h'.heap.config = h.heap.config

theorem Reclaims.trans {h h' h'' : BufferHost} {m n : Nat} (hm : Reclaims h m h')
    (hn : Reclaims h' n h'') : Reclaims h (m + n) h'' where
  world_eq := by rw [hn.world_eq, hm.world_eq, Nat.add_assoc]
  freedObjects_eq := by rw [hn.freedObjects_eq, hm.freedObjects_eq, Nat.add_assoc]
  config_eq := hn.config_eq.trans hm.config_eq

/-- The buffers that a collection from the given roots leaves. -/
def leftOf (mode : Heap.Mode) (roots buffers : List Ref) : List Ref :=
  match mode with
  | .markSweep => keptOf roots buffers
  | .disabled => buffers

theorem mem_of_mem_leftOf {mode : Heap.Mode} {roots buffers : List Ref} {r : Ref}
    (hr : r ∈ leftOf mode roots buffers) : r ∈ buffers := by
  cases mode with
  | markSweep => exact (mem_keptOf_iff.1 hr).1
  | disabled => exact hr

variable {h : BufferHost} {root : Ref} {links : Array Ref} {buffers : List Ref}

theorem collect_of_disabled (hm : h.heap.config.mode = .disabled) :
    h.collect finalize = (0, h) := by
  rw [Host.collect, Heap.collect_of_disabled hm]
  rfl

/-- A collection reclaims and finalizes what it does not leave. -/
theorem Staged.collect (hs : Staged root #[] buffers h) :
    ∃ n h', h.collect finalize = (n, h') ∧
      n + (leftOf h.heap.config.mode h.providers.flatten buffers).length = buffers.length ∧
      Staged root #[] (leftOf h.heap.config.mode h.providers.flatten buffers) h' ∧
      Reclaims h n h' ∧ h'.registry = h.registry := by
  cases hm : h.heap.config.mode with
  | disabled =>
    refine ⟨0, h, collect_of_disabled hm, Nat.zero_add _, hs, ⟨rfl, rfl, rfl⟩, rfl⟩
  | markSweep =>
    have hroot : root ∈ h.providers.flatten := by simp [Host.providers, hs.roots_eq]
    have hswept := hs.stocked.collect hm hroot
    have hmem : ∀ p ∈ h.pending, p.ref ∈ droppedOf h.providers.flatten buffers := fun p hp =>
      hswept.pending_perm.mem_iff.1 (List.mem_map_of_mem hp)
    have hnodup : (h.pending.map Heap.Pending.ref).Nodup :=
      hswept.pending_perm.nodup_iff.2 (nodup_droppedOf hs.stocked.nodup)
    obtain ⟨hstate, hfinalized⟩ :=
      foldl_next_of_buffers (s := ⟨h.dispatcher, (h.swept, h.world), 0⟩) hswept.pending_buffer
        (fun p hp => hs.unfinalized p.ref (mem_droppedOf_iff.1 (hmem p hp)).1) hnodup
    have hlength : h.pending.length = (h.heap.collect h.providers).1.freed := by
      rw [hswept.freed_eq, ← hswept.pending_perm.length_eq, List.length_map]
      rfl
    have hheap : (h.collect finalize).2.heap = h.swept := congrArg Prod.fst hstate
    refine ⟨(h.heap.collect h.providers).1.freed, (h.collect finalize).2, rfl, ?_, ?_, ?_, rfl⟩
    · rw [hswept.freed_eq, Nat.add_comm]
      exact length_keptOf_add _ _
    · refine ⟨?_, hs.roots_eq, fun r hr => ?_⟩
      · rw [hheap]
        exact hswept.stocked
      · -- What is kept was not handed out, so the dispatcher has not seen it.
        obtain ⟨hbuffer, hkept⟩ := mem_keptOf_iff.1 hr
        have hnot : r ∉ h.pending.map Heap.Pending.ref := fun hpending =>
          (mem_droppedOf_iff.1 (hswept.pending_perm.mem_iff.1 hpending)).2 hkept
        rw [Bool.eq_false_iff, Ne]
        intro htrue
        rcases (hfinalized r).1 htrue with hold | hpending
        · exact Bool.false_ne_true ((hs.unfinalized r hbuffer).symm.trans hold)
        · exact hnot hpending
    · refine ⟨?_, ?_, ?_⟩
      · rw [← hlength]
        exact congrArg Prod.snd hstate
      · rw [hheap]
        exact hswept.freedObjects_eq
      · rw [hheap]
        exact hswept.config_eq

/-! ## The cycle -/

/-- The buffers that a cycle leaves. -/
def remaining (mode : Heap.Mode) (buffers : List Ref) : List Ref :=
  match mode with
  | .markSweep => []
  | .disabled => buffers

/-- When nothing is held, a collection leaves no buffers. -/
theorem leftOf_leftOf (mode : Heap.Mode) (roots : List Ref) (hroot : root ∉ buffers) :
    leftOf mode [root] (leftOf mode roots buffers) = remaining mode buffers := by
  cases mode with
  | disabled => rfl
  | markSweep =>
    rw [remaining, List.eq_nil_iff_forall_not_mem]
    intro r hr
    obtain ⟨hleft, hmem⟩ := mem_keptOf_iff.1 hr
    rw [List.mem_singleton.1 hmem] at hleft
    exact hroot (mem_of_mem_leftOf hleft)

/-- The root drops its buffers while every other one is held. -/
theorem Staged.hold (hs : Staged root links buffers h) (hlinks : links.toList.Nodup)
    (hsub : ∀ r ∈ links.toList, r ∈ buffers) (hroom : links.size < Registry.countLimit)
    (hunpinned : Represents h.registry []) :
    ∃ l registry, holdAll (everyOther links.toList)
        (some { h with heap := h.heap.update root Obj.clear }) =
          .ok (words l, some { h with heap := h.heap.update root Obj.clear, registry }) ∧
      Represents registry l ∧ (∀ e ∈ l, e.count = 1) ∧
      Staged root #[] buffers { h with heap := h.heap.update root Obj.clear, registry } := by
  have hdropped : Stocked (h.heap.update root Obj.clear) root #[] buffers := hs.stocked.update rfl
  have hothers := everyOther_sublist links.toList
  have hlength : (everyOther links.toList).length ≤ links.size := hothers.length_le
  have hzero : Registry.Ledger.holds ([] : Registry.Ledger Ref) = 0 := rfl
  obtain ⟨l, registry, hhold, hrepresents, -, hone⟩ :=
    holdAll_of_live (h := { h with heap := h.heap.update root Obj.clear }) hunpinned
      (fun r hr => hdropped.isLive_of_mem (hsub r (hothers.subset hr))) (hlinks.sublist hothers)
      (by omega)
  exact ⟨l, registry, hhold, hrepresents, hone, hdropped, hs.roots_eq, hs.unfinalized⟩

/-- The steps of a cycle, one after the other. -/
theorem cycle_eq {held collected released done : BufferHost} {tokens : List UInt64} {m n : Nat}
    (hget : h.heap.get? root = some (.root links))
    (hhold : holdAll (everyOther links.toList)
      (some { h with heap := h.heap.update root Obj.clear }) = .ok (tokens, some held))
    (hfirst : held.collect finalize = (m, collected))
    (hrelease : releaseAll tokens (some collected) = .ok (some released))
    (hsecond : released.collect finalize = (n, done)) :
    cycle (some h) root.bits = .ok (UInt64.ofNat m + UInt64.ofNat n, some done) := by
  have hbuffers : (h.heap.get? root).bind Obj.buffers? = some links := by
    rw [hget]
    rfl
  have hcollect : Foreign.collect finalize (some held) = (UInt64.ofNat m, some collected) := by
    rw [Foreign.collect, hfirst]
  have hcollect' : Foreign.collect finalize (some released) = (UInt64.ofNat n, some done) := by
    rw [Foreign.collect, hsecond]
  rw [cycle, Ref.ofBits_bits, hbuffers]
  simp only [hhold, bind, Except.bind, hcollect, hrelease, hcollect']

/-- A cycle reclaims and finalizes all buffers but those that remain.  No hold and no release
fails, and at the end nothing is held. -/
theorem Staged.cycle (hs : Staged root links buffers h) (hlinks : links.toList.Nodup)
    (hsub : ∀ r ∈ links.toList, r ∈ buffers) (hroom : links.size < Registry.countLimit)
    (hunpinned : Represents h.registry []) :
    ∃ n h', cycle (some h) root.bits = .ok (UInt64.ofNat n, some h') ∧
      n + (remaining h.heap.config.mode buffers).length = buffers.length ∧
      Staged root #[] (remaining h.heap.config.mode buffers) h' ∧ Reclaims h n h' ∧
      Represents h'.registry [] := by
  obtain ⟨l, pinned, hhold, hrepresents, hone, hheld⟩ := hs.hold hlinks hsub hroom hunpinned
  -- The first collection leaves at least what is held.
  obtain ⟨m, collected, hfirst, hm, hcollected, hreclaims, hregistry⟩ := hheld.collect
  -- The second one starts from the root alone.
  obtain ⟨unpinned, hrelease, hreleased⟩ :=
    releaseAll_of_one (h := collected) (hregistry ▸ hrepresents) hone
  have hstaged : Staged root #[] _ { collected with registry := unpinned } :=
    ⟨hcollected.stocked, hcollected.roots_eq, hcollected.unfinalized⟩
  have hproviders : List.flatten (Host.providers { collected with registry := unpinned }) =
      [root] := by
    simp [Host.providers, hcollected.roots_eq, hreleased.observed.toList_eq]
  obtain ⟨n, h', hsecond, hn, hleft, hreclaims', hregistry'⟩ := hstaged.collect
  have hmode : collected.heap.config.mode = h.heap.config.mode :=
    congrArg Heap.Config.mode hreclaims.config_eq
  rw [hproviders] at hn hleft
  simp only [hmode, Heap.update] at hm hn hleft
  rw [leftOf_leftOf _ _ hs.stocked.root_not_mem] at hn hleft
  have hmove : Reclaims h m collected :=
    ⟨hreclaims.world_eq, hreclaims.freedObjects_eq, hreclaims.config_eq⟩
  have hmove' : Reclaims collected n h' :=
    ⟨hreclaims'.world_eq, hreclaims'.freedObjects_eq, hreclaims'.config_eq⟩
  refine ⟨m + n, h', ?_, by omega, hleft, hmove.trans hmove', ?_⟩
  · rw [UInt64.ofNat_add]
    exact cycle_eq hs.stocked.stores_root.get? hhold hfirst hrelease hsecond
  · rw [hregistry']
    exact hreleased

end PinnedHeap.BufferDemo
