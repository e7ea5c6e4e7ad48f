import PinnedHeap.Proofs.Host.Allocation
import PinnedHeap.Proofs.Host.Finalized

/-!
# Declarations of finalizers

An object is asked twice whether it wants to be finalized: by the heap when it is stored, and by
the dispatcher when it is handed out.  The answer to the first question is kept in the header and
decides what the sweep does with the object.  So an object that changes its mind in between is
treated by both answers (`not_collect_honours_last_declaration`).  One that declares a finalizer
too late is dropped, and one that takes its declaration back is handed out and refused.

`honoursDeclarations_run` says what holds for every run.  The header of an object agrees with what
was stored last under its reference (`Heap.Labelled`), so the sweep hands out what declared a
finalizer when it was stored.  The finalizers called are those that the dispatcher accepts when
the sweep is over (`calls_notices`), since a notification only changes what it says about its own
reference.
-/

namespace PinnedHeap

open PinnedHeap.Action

variable {α σ : Type} [HeapObject α]

/-! ## What the header remembers -/

namespace Heap

/-- Whether the object that was stored last under a reference asked for a finalizer then. -/
def declared (past : List (Event α)) (r : Ref) : Bool :=
  (stored? past r).any HeapObject.finalizable

/-- The flag in the header is the answer that was given last when an object was stored. -/
theorem Labelled.finalizable_iff {h : Heap α} {past : List (Event α)} {r : Ref}
    (hlabel : h.Labelled past) (hl : h.isLive r) :
    (∃ header, h.header? r = some header ∧ header.finalizable = true) ↔ declared past r := by
  obtain ⟨header, y, hf⟩ := isLive_iff_find?.1 hl
  have hh := header?_eq_some_iff.2 ⟨y, hf⟩
  obtain ⟨x, hx, rfl⟩ := hlabel r header hh
  rw [declared, hx, Option.any_some]
  constructor
  · rintro ⟨header, hh', hfin⟩
    rw [hh] at hh'
    rw [← Option.some.inj hh'] at hfin
    exact hfin
  · exact fun hfin => ⟨_, hh, hfin⟩

end Heap

/-! ## What the dispatcher is asked -/

namespace Dispatcher.Progress

variable {finalize : Finalizer α σ} {s : Progress α σ} {p q : Heap.Pending α}

/-- A notification changes what the dispatcher says about its own reference only. -/
theorem accepts_next (hne : q.ref ≠ p.ref) : (s.next finalize p).accepts q = s.accepts q := by
  cases ha : s.accepts p with
  | true =>
    have hsame : hasFinalized ⟨s.dispatcher.finalized.insert p.ref⟩ q.ref =
        s.dispatcher.hasFinalized q.ref := by
      rw [Bool.eq_iff_iff, hasFinalized_insert, or_iff_left hne]
    rw [next_of_accepts ha, accepts, accepts, hsame]
  | false => rw [next_of_refuses ha]

/-- The objects that are finalized are those that the dispatcher accepts from the start. -/
theorem calls_notices (script : finalize.Script) (s : Progress α σ)
    {pending : List (Heap.Pending α)} (hn : (pending.map Heap.Pending.ref).Nodup) :
    calls (s.notices script pending) = (pending.filter s.accepts).map Heap.Pending.ref := by
  induction pending generalizing s with
  | nil => rfl
  | cons p rest ih =>
    obtain ⟨hp, hrest⟩ := List.nodup_cons.1 hn
    -- The notification of `p` does not matter for the others, which have other references.
    have hsame : ∀ q ∈ rest, (s.next finalize p).accepts q = s.accepts q := by
      intro q hq
      refine accepts_next fun heq => hp ?_
      rw [← heq]
      exact List.mem_map_of_mem hq
    rw [notices, calls_append, ih _ hrest, List.filter_congr hsame, notice]
    cases ha : s.accepts p with
    | true =>
      rw [if_pos rfl, calls_finalize, calls_map_heap, List.filter_cons_of_pos ha]
      rfl
    | false =>
      rw [if_neg Bool.false_ne_true, List.filter_cons_of_neg (Bool.eq_false_iff.1 ha)]
      rfl

end Dispatcher.Progress

/-! ## Collections of the host -/

namespace Host

variable {finalize : Finalizer α σ} {h : Host α σ} {past : List (Heap.Event α)} {r : Ref} {x : α}

theorem called_collect (script : finalize.Script) (hs : h.heap.Sound) :
    h.called finalize [.collect] =
      (h.pending.filter h.unnotified.accepts).map Heap.Pending.ref := by
  rw [called_eq script, actions, actions, List.append_nil, actActions, collectActions, calls_heap,
    Dispatcher.Progress.calls_notices script _ (nodup_pending hs)]

/-- What the sweep reclaims, it hands out if the object asked for that when it was stored. -/
theorem mem_pending_iff_declared (hs : h.heap.Sound) (hlabel : h.heap.Labelled past)
    (hx : h.heap.get? r = some x) (hdead : h.swept.isLive r = false) :
    ⟨r, x⟩ ∈ h.pending ↔ Heap.declared past r := by
  obtain ⟨header, hf⟩ := Heap.get?_eq_some_iff.1 hx
  have hl : h.heap.isLive r := Heap.isLive_iff_find?.2 ⟨header, x, hf⟩
  obtain ⟨hm, hn⟩ := not_survives_of_swept hs hl hdead
  rw [mem_pending_iff hs, and_iff_right hm, and_iff_left hx, Heap.isDoomed_iff, and_iff_left hn]
  exact hlabel.finalizable_iff hl

theorem count_called_collect (script : finalize.Script) (hs : h.heap.Sound)
    (hlabel : h.heap.Labelled past) (hx : h.heap.get? r = some x) (hdead : h.swept.isLive r = false) :
    (h.called finalize [.collect]).count r =
      if Heap.declared past r && HeapObject.finalizable x && !h.dispatcher.hasFinalized r
        then 1 else 0 := by
  have hnodup : (h.called finalize [.collect]).Nodup := by
    rw [called_collect script hs]
    exact (nodup_pending hs).sublist (List.filter_sublist.map _)
  have hmem : r ∈ h.called finalize [.collect] ↔
      Heap.declared past r && HeapObject.finalizable x && !h.dispatcher.hasFinalized r := by
    rw [called_collect script hs, List.mem_map, Bool.and_assoc, Bool.and_eq_true,
      ← mem_pending_iff_declared hs hlabel hx hdead]
    constructor
    · rintro ⟨⟨r, y⟩, hp, rfl⟩
      obtain ⟨hp, ha⟩ := List.mem_filter.1 hp
      have hy := ((mem_pending_iff hs r y).1 hp).2.2
      obtain rfl := Option.some.inj (hx.symm.trans hy)
      exact ⟨hp, ha⟩
    · rintro ⟨hp, ha⟩
      exact ⟨⟨r, x⟩, List.mem_filter.2 ⟨hp, ha⟩, rfl⟩
  rw [hnodup.count, if_congr hmem rfl rfl]

/-- How a collection that starts in the host `h` treats what objects declare: `past` is the
history of the heap. -/
structure HonoursDeclarations (finalize : Finalizer α σ) (h : Host α σ)
    (past : List (Heap.Event α)) : Prop where
  /-- What the sweep reclaims is handed out as it is by then, if it asked for a finalizer when it
  was stored.  Otherwise it is dropped. -/
  mem_pending_iff : ∀ r x, h.heap.get? r = some x → h.swept.isLive r = false →
    (⟨r, x⟩ ∈ h.pending ↔ Heap.declared past r)
  /-- Nothing is handed out twice, and nothing else is. -/
  nodup_pending : (h.pending.map Heap.Pending.ref).Nodup
  reclaimed : ∀ p ∈ h.pending, h.heap.get? p.ref = some p.object ∧ h.swept.isLive p.ref = false
  /-- The finalizer runs exactly once if the object asks for it by then, and did when it was
  stored, and if none ran for its reference before. -/
  count_called : ∀ r x, h.heap.get? r = some x → h.swept.isLive r = false →
    (h.called finalize [.collect]).count r =
      if Heap.declared past r && HeapObject.finalizable x && !h.dispatcher.hasFinalized r
        then 1 else 0
  /-- An object that does not ask for it any more is refused. -/
  refused : ∀ k p, h.pending[k]? = some p → HeapObject.finalizable p.object = false →
    (h.notified finalize k).dispatcher.dispatch finalize p (h.notified finalize k).state =
      .error (.notFinalizable p.ref)
  /-- As long as no slot was freed too often, no finalizer ran for the reference of a live
  object. -/
  not_finalized : Heap.Unwrapped past → ∀ r, h.heap.isLive r → h.dispatcher.hasFinalized r = false

/-- Collections treat an object by what it declared when it was stored, and finalizers run by what
it declares when it is reclaimed. -/
theorem honoursDeclarations_run (script : finalize.Script) (config : Heap.Config)
    (args : List String) (world : σ) (ops : List (Operation α)) :
    HonoursDeclarations finalize ((new config args world).run finalize ops)
      ((new config args world).heapHistory script ops) := by
  have hs := Reachable.sound_heap script.lawful ⟨config, args, world, ops, rfl⟩
  have hlabel : ((new config args world).run finalize ops).heap.Labelled
      ((new config args world).heapHistory script ops) := by
    rw [heap_run script]
    exact Heap.labelled_after config _
  have ho := orderly_run script (h := new config args world) (Dispatcher.orderly_empty config) ops
  generalize (new config args world).run finalize ops = h at hs hlabel ho ⊢
  refine
    { mem_pending_iff := fun r x hx hdead => mem_pending_iff_declared hs hlabel hx hdead
      nodup_pending := nodup_pending hs
      reclaimed := fun p hp => ?_
      count_called := fun r x hx hdead => count_called_collect script hs hlabel hx hdead
      refused := fun k p hp hfin => ?_
      not_finalized := fun hu r hl => ?_ }
  · exact ⟨((mem_pending_iff hs p.ref p.object).1 hp).2.2, not_isLive_of_mem_pending hs hp⟩
  · rw [Dispatcher.dispatch, hfin]
    rfl
  · rw [Bool.eq_false_iff, Ne, (ho hu).hasFinalized_iff]
    intro hlog
    have hspent := (ho hu).spent r (List.mem_append_left _ hlog)
    rw [(ho hu).traced.dated.not_isLive hspent] at hl
    exact Bool.false_ne_true hl

/-- A watched object that changes its mind after it was stored. -/
def switching (before after : Bool) : List (Operation (Session.Obj Unit)) :=
  [.alloc (.watched [] before () []), .heap (.update ⟨0, 1⟩ fun _ => .watched [] after () [])]

/-- It is not true that an object is finalized if it declares a finalizer by the time it is
reclaimed, nor that it is dropped without notice if it does not. -/
theorem not_collect_honours_last_declaration :
    (¬ ∀ (finalize : Finalizer (Session.Obj Unit) Unit) (h : Host (Session.Obj Unit) Unit),
      finalize.Quiet → h.Reachable finalize → ∀ r x, h.heap.get? r = some x →
      h.swept.isLive r = false → HeapObject.finalizable x = true →
        r ∈ h.pending.map Heap.Pending.ref ∧ (h.called finalize [.collect]).count r = 1) ∧
    ¬ ∀ (finalize : Finalizer (Session.Obj Unit) Unit) (h : Host (Session.Obj Unit) Unit),
      finalize.Quiet → h.Reachable finalize → ∀ r x, h.heap.get? r = some x →
      h.swept.isLive r = false → HeapObject.finalizable x = false →
        r ∉ h.pending.map Heap.Pending.ref := by
  have hr : ∀ before after, ((new {} [] ()).run idle (switching before after)).Reachable idle :=
    fun before after => ⟨{}, [], (), _, rfl⟩
  constructor
  · intro hall
    have hpending := (hall idle _ quiet_idle (hr false true) ⟨0, 1⟩ _ rfl rfl rfl).1
    exact absurd hpending (by decide)
  · intro hall
    have hpending := hall idle _ quiet_idle (hr true false) ⟨0, 1⟩ _ rfl rfl rfl
    exact absurd hpending (by decide)

end Host

end PinnedHeap
