import PinnedHeap.Proofs.Heap.History
import PinnedHeap.Proofs.Host.Run

/-!
# What a run does, step by step

A run of a host is a sequence of actions: operations on the heap, and calls of finalizers.
Operations on the heap come from the program, from collections of the host, and from the
finalizers, whose operations are listed by a `Script`.  `Host.actions` puts them in the order
in which they happen.

The actions tell all there is to know about the heap (`heap_run`): it is what their operations
on the heap make of the first heap.

The calls among them are the real ones.  A finalizer that also notes down its calls
(`Finalizer.noting`) leaves the run as it is, and its notes are the calls among the actions
(`run_noting`).
-/

namespace PinnedHeap

variable {α σ : Type} [HeapObject α]

/-- The operations by which a finalizer works on the heap. -/
structure Finalizer.Script (finalize : Finalizer α σ) where
  /-- The operations, in order. -/
  ops : α → Ref → Heap α × σ → List (Heap.Operation α)
  heap_eq : ∀ x r s, (finalize x r s).1 = s.1.after (ops x r s)

theorem Finalizer.Script.lawful {finalize : Finalizer α σ} (script : finalize.Script) :
    finalize.Lawful := by
  intro x r s
  exact ⟨script.ops x r s, fun _ _ => trivial, script.heap_eq x r s⟩

theorem Finalizer.Lawful.nonempty_script {finalize : Finalizer α σ} (hlawful : finalize.Lawful) :
    Nonempty finalize.Script :=
  ⟨fun x r s => Classical.choose (hlawful x r s),
    fun x r s => (Classical.choose_spec (hlawful x r s)).2⟩

/-- An action of a run. -/
inductive Action (α : Type) where
  /-- An operation on the heap. -/
  | heap (op : Heap.Operation α)
  /-- The finalizer is called for the object that had this reference. -/
  | finalize (r : Ref)

namespace Action

/-- The operation of an action on the heap. -/
def heap? {β : Type} : Action β → Option (Heap.Operation β)
  | .heap op => some op
  | .finalize _ => none

/-- The reference for which an action calls a finalizer. -/
def call? {β : Type} : Action β → Option Ref
  | .heap _ => none
  | .finalize r => some r

/-- The operations on the heap among some actions. -/
def heapOps {β : Type} (actions : List (Action β)) : List (Heap.Operation β) :=
  actions.filterMap heap?

/-- The references for which finalizers are called among some actions. -/
def calls {β : Type} (actions : List (Action β)) : List Ref := actions.filterMap call?

section Lists

variable {β : Type}

@[simp] theorem heapOps_append (a b : List (Action β)) :
    heapOps (a ++ b) = heapOps a ++ heapOps b := List.filterMap_append

@[simp] theorem calls_append (a b : List (Action β)) : calls (a ++ b) = calls a ++ calls b :=
  List.filterMap_append

@[simp] theorem calls_nil : calls ([] : List (Action β)) = [] := rfl

@[simp] theorem heapOps_heap (op : Heap.Operation β) (rest : List (Action β)) :
    heapOps (.heap op :: rest) = op :: heapOps rest := rfl

@[simp] theorem calls_heap (op : Heap.Operation β) (rest : List (Action β)) :
    calls (.heap op :: rest) = calls rest := rfl

@[simp] theorem heapOps_finalize (r : Ref) (rest : List (Action β)) :
    heapOps (.finalize r :: rest) = heapOps rest := rfl

@[simp] theorem calls_finalize (r : Ref) (rest : List (Action β)) :
    calls (.finalize r :: rest) = r :: calls rest := rfl

@[simp] theorem heapOps_map_heap (ops : List (Heap.Operation β)) :
    heapOps (ops.map .heap) = ops := by
  rw [heapOps, List.filterMap_map]
  exact List.filterMap_some

@[simp] theorem calls_map_heap (ops : List (Heap.Operation β)) : calls (ops.map .heap) = [] := by
  rw [calls, List.filterMap_map]
  exact List.filterMap_none ops

end Lists

end Action

open PinnedHeap.Action

/-! ## Notifications -/

namespace Dispatcher

variable {finalize : Finalizer α σ}

/-- Whether the dispatcher will run the finalizer of an object. -/
def Progress.accepts (s : Progress α σ) (p : Heap.Pending α) : Bool :=
  HeapObject.finalizable p.object && !s.dispatcher.hasFinalized p.ref

theorem Progress.next_of_accepts {s : Progress α σ} {p : Heap.Pending α} (ha : s.accepts p) :
    s.next finalize p = { dispatcher := ⟨s.dispatcher.finalized.insert p.ref⟩,
                          state := finalize p.object p.ref s.state
                          ran := s.ran + 1 } := by
  rw [accepts, Bool.and_eq_true, Bool.not_eq_true'] at ha
  rw [next, dispatch]
  simp [ha.1, ha.2]

theorem Progress.next_of_refuses {s : Progress α σ} {p : Heap.Pending α}
    (ha : s.accepts p = false) : s.next finalize p = s := by
  rw [next, dispatch]
  cases hfin : HeapObject.finalizable p.object with
  | false => rfl
  | true =>
    rw [accepts, hfin, Bool.true_and, Bool.not_eq_false'] at ha
    simp [ha]

/-- What happens when the dispatcher is notified of an object. -/
def Progress.notice (script : finalize.Script) (s : Progress α σ) (p : Heap.Pending α) :
    List (Action α) :=
  if s.accepts p then .finalize p.ref :: (script.ops p.object p.ref s.state).map .heap else []

/-- What happens when the dispatcher is notified of several objects. -/
def Progress.notices (script : finalize.Script) (s : Progress α σ) :
    List (Heap.Pending α) → List (Action α)
  | [] => []
  | p :: rest => s.notice script p ++ Progress.notices script (s.next finalize p) rest

theorem Progress.heap_next (script : finalize.Script) (s : Progress α σ) (p : Heap.Pending α) :
    (s.next finalize p).state.1 = s.state.1.after (heapOps (s.notice script p)) := by
  rw [notice]
  cases ha : s.accepts p with
  | true =>
    rw [next_of_accepts ha, if_pos rfl, heapOps_finalize, heapOps_map_heap]
    exact script.heap_eq p.object p.ref s.state
  | false =>
    rw [next_of_refuses ha]
    rfl

theorem Progress.heap_foldl (script : finalize.Script) (s : Progress α σ)
    (pending : List (Heap.Pending α)) :
    (pending.foldl (Progress.next finalize) s).state.1 =
      s.state.1.after (heapOps (s.notices script pending)) := by
  induction pending generalizing s with
  | nil => rfl
  | cons p rest ih =>
    rw [List.foldl_cons, ih, heap_next script, notices, heapOps_append, Heap.after_append]

theorem Progress.notices_append (script : finalize.Script) (s : Progress α σ)
    (done rest : List (Heap.Pending α)) :
    s.notices script (done ++ rest) = s.notices script done ++
      (done.foldl (Progress.next finalize) s).notices script rest := by
  induction done generalizing s with
  | nil => rfl
  | cons p done ih =>
    rw [List.cons_append, notices, notices, ih, List.append_assoc, List.foldl_cons]

end Dispatcher

/-! ## Runs -/

namespace Host

variable {finalize : Finalizer α σ}

/-- A collection, when its sweep is over. -/
def unnotified (h : Host α σ) : Dispatcher.Progress α σ :=
  { dispatcher := h.dispatcher, state := (h.swept, h.world) }

/-- What happens in a collection of the host. -/
def collectActions (script : finalize.Script) (h : Host α σ) : List (Action α) :=
  .heap (.collect h.providers) :: h.unnotified.notices script h.pending

/-- What happens in an operation of the host. -/
def actActions (script : finalize.Script) (h : Host α σ) : Operation α → List (Action α)
  | .alloc x =>
    (if h.heap.collectionDue then h.collectActions script else []) ++ [.heap (.store x)]
  | .collect => h.collectActions script
  | .heap op => [.heap op]
  | _ => []

theorem actActions_of_keepsHeap (script : finalize.Script) (h : Host α σ) {op : Operation α}
    (hop : op.keepsHeap) : h.actActions script op = [] := by
  cases op with
  | alloc x => cases hop
  | pin r | unpin t | unpinRef r | addRoot r | removeRoot r => rfl
  | collect => cases hop
  | heap op => cases hop

/-- What happens in a run. -/
def actions (script : finalize.Script) (h : Host α σ) : List (Operation α) → List (Action α)
  | [] => []
  | op :: ops => h.actActions script op ++ actions script (h.act finalize op) ops

theorem run_append (h : Host α σ) (ops more : List (Operation α)) :
    h.run finalize (ops ++ more) = (h.run finalize ops).run finalize more := List.foldl_append

theorem actions_append (script : finalize.Script) (h : Host α σ) (ops more : List (Operation α)) :
    h.actions script (ops ++ more) =
      h.actions script ops ++ (h.run finalize ops).actions script more := by
  induction ops generalizing h with
  | nil => rfl
  | cons op ops ih =>
    rw [List.cons_append, actions, actions, ih, List.append_assoc]
    rfl

theorem heap_collect_eq (script : finalize.Script) (h : Host α σ) :
    (h.collect finalize).2.heap = h.heap.after (heapOps (h.collectActions script)) :=
  Dispatcher.Progress.heap_foldl script h.unnotified h.pending

theorem heap_act (script : finalize.Script) (h : Host α σ) (op : Operation α) :
    (h.act finalize op).heap = h.heap.after (heapOps (h.actActions script op)) := by
  cases op with
  | alloc x =>
    rw [act, alloc_eq, actActions, heapOps_append, Heap.after_append, ready]
    split
    · rw [← heap_collect_eq]
      rfl
    · rfl
  | pin r | unpin t | unpinRef r | addRoot r | removeRoot r =>
    exact heap_act_of_keepsHeap finalize h rfl
  | collect => exact heap_collect_eq script h
  | heap op => rfl

/-- The heap is what the actions made of it. -/
theorem heap_run (script : finalize.Script) (h : Host α σ) (ops : List (Operation α)) :
    (h.run finalize ops).heap = h.heap.after (heapOps (h.actions script ops)) := by
  induction ops generalizing h with
  | nil => rfl
  | cons op ops ih =>
    rw [actions, heapOps_append, Heap.after_append, ← heap_act]
    exact ih (h.act finalize op)

end Host

/-! ## Notes of the calls -/

/-- The finalizer that also notes down for which reference it is called. -/
def Finalizer.noting (finalize : Finalizer α σ) : Finalizer α (σ × List Ref) := fun x r s =>
  let done := finalize x r (s.1, s.2.1)
  (done.1, done.2, s.2.2 ++ [r])

/-- A dispatch under way, with notes. -/
def Dispatcher.Progress.noting {β : Type} (s : Progress β σ) (notes : List Ref) :
    Progress β (σ × List Ref) :=
  { dispatcher := s.dispatcher, state := (s.state.1, s.state.2, notes), ran := s.ran }

/-- A host with notes. -/
def Host.noting {β : Type} (h : Host β σ) (notes : List Ref) : Host β (σ × List Ref) :=
  { heap := h.heap, registry := h.registry, roots := h.roots, dispatcher := h.dispatcher,
    args := h.args, world := (h.world, notes) }

section Noting

variable {finalize : Finalizer α σ}

theorem Dispatcher.Progress.next_noting (script : finalize.Script) (s : Progress α σ)
    (notes : List Ref) (p : Heap.Pending α) :
    (s.noting notes).next finalize.noting p =
      (s.next finalize p).noting (notes ++ calls (s.notice script p)) := by
  rw [notice]
  cases ha : s.accepts p with
  | true =>
    have ha' : (s.noting notes).accepts p = true := ha
    rw [next_of_accepts ha, next_of_accepts ha', if_pos rfl, calls_finalize, calls_map_heap]
    rfl
  | false =>
    have ha' : (s.noting notes).accepts p = false := ha
    rw [next_of_refuses ha, next_of_refuses ha', if_neg Bool.false_ne_true, calls_nil,
      List.append_nil]

theorem Dispatcher.Progress.foldl_noting (script : finalize.Script) (s : Progress α σ)
    (notes : List Ref) (pending : List (Heap.Pending α)) :
    pending.foldl (Progress.next finalize.noting) (s.noting notes) =
      (pending.foldl (Progress.next finalize) s).noting
        (notes ++ calls (s.notices script pending)) := by
  induction pending generalizing s notes with
  | nil =>
    rw [notices, calls_nil, List.append_nil]
    rfl
  | cons p rest ih =>
    rw [List.foldl_cons, List.foldl_cons, next_noting script, ih, notices, calls_append,
      List.append_assoc]

namespace Host

theorem collect_noting (script : finalize.Script) (h : Host α σ) (notes : List Ref) :
    ((h.noting notes).collect finalize.noting).2 =
      (h.collect finalize).2.noting (notes ++ calls (h.collectActions script)) := by
  have hdone := Dispatcher.Progress.foldl_noting script h.unnotified notes h.pending
  rw [collectActions, calls_heap]
  calc ((h.noting notes).collect finalize.noting).2
      = let done := h.pending.foldl (Dispatcher.Progress.next finalize.noting)
          (h.unnotified.noting notes)
        { h.noting notes with
          heap := done.state.1, world := done.state.2, dispatcher := done.dispatcher } := rfl
    _ = _ := by rw [hdone]; rfl

theorem act_noting_of_keepsHeap (h : Host α σ) (notes : List Ref) {op : Operation α}
    (hop : op.keepsHeap) :
    (h.noting notes).act finalize.noting op = (h.act finalize op).noting notes := by
  have hheap : (h.noting notes).heap = h.heap := rfl
  have hregistry : (h.noting notes).registry = h.registry := rfl
  have hroots : (h.noting notes).roots = h.roots := rfl
  cases op with
  | alloc x => cases hop
  | pin r =>
    rw [act, act, pin, pin, hheap, hregistry]
    split
    · cases h.registry.acquire r <;> rfl
    · rfl
  | unpin t =>
    rw [act, act, unpin, unpin, hregistry]
    cases h.registry.release t <;> rfl
  | unpinRef r =>
    rw [act, act, unpinRef, unpinRef, hregistry]
    cases h.registry.releaseHandle r <;> rfl
  | collect => cases hop
  | addRoot r => rfl
  | removeRoot r =>
    rw [act, act, removeRoot, removeRoot, hroots]
    cases h.roots.remove? r <;> rfl
  | heap op => cases hop

theorem act_noting (script : finalize.Script) (h : Host α σ) (notes : List Ref)
    (op : Operation α) :
    (h.noting notes).act finalize.noting op =
      (h.act finalize op).noting (notes ++ calls (h.actActions script op)) := by
  cases op with
  | alloc x =>
    rw [act, act, alloc_eq, alloc_eq, actActions, calls_append, calls_heap, calls_nil,
      List.append_nil]
    by_cases hdue : h.heap.collectionDue
    · have hready : (h.noting notes).ready finalize.noting =
          ((h.noting notes).collect finalize.noting).2 := if_pos hdue
      rw [hready, ready, if_pos hdue, if_pos hdue, collect_noting script]
      rfl
    · have hready : (h.noting notes).ready finalize.noting = h.noting notes := if_neg hdue
      rw [hready, ready, if_neg hdue, if_neg hdue, calls_nil, List.append_nil]
      rfl
  | pin r | unpin t | unpinRef r | addRoot r | removeRoot r =>
    rw [actActions_of_keepsHeap script h rfl, calls_nil, List.append_nil]
    exact act_noting_of_keepsHeap h notes rfl
  | collect => exact collect_noting script h notes
  | heap op =>
    rw [actActions, calls_heap, calls_nil, List.append_nil]
    rfl

/-- Noting down the calls leaves a run as it is, and the notes are the calls of the run. -/
theorem run_noting (script : finalize.Script) (h : Host α σ) (notes : List Ref)
    (ops : List (Operation α)) :
    (h.noting notes).run finalize.noting ops =
      (h.run finalize ops).noting (notes ++ calls (h.actions script ops)) := by
  induction ops generalizing h notes with
  | nil =>
    rw [actions, calls_nil, List.append_nil]
    rfl
  | cons op ops ih =>
    rw [actions, calls_append, ← List.append_assoc]
    exact (congrArg (run finalize.noting · ops) (act_noting script h notes op)).trans
      (ih (h.act finalize op) _)

end Host

end Noting

end PinnedHeap
