import PinnedHeap.Proofs.Heap.Effect
import PinnedHeap.Proofs.Heap.Lifetime
import PinnedHeap.Proofs.Host.Held
import PinnedHeap.Proofs.Host.Script

/-!
# Finalizers run once

The dispatcher remembers references, and a slot that was freed is used again.  So a
finalizer runs at most once because a reference is issued at most once, and it runs when it
is due because a reference that comes up for it is not remembered yet.

`Orderly` is the invariant.  What the dispatcher remembers is what it was called for, and all
of that is spent.  While a collection hands out objects, theirs are spent as well, and
they are distinct and not remembered.  The sweep establishes this, because what it
reclaims was live until then (`Host.orderly_swept`).  A notification keeps it, whatever the
finalizer does to the heap (`Orderly.notice`).  In particular no notification is refused for
an object that was finalized before.
-/

namespace PinnedHeap

open PinnedHeap.Action

variable {α σ : Type} [HeapObject α] {finalize : Finalizer α σ}

/-! ## What the dispatcher remembers -/

namespace Dispatcher

theorem hasFinalized_insert (d : Dispatcher) (r s : Ref) :
    hasFinalized ⟨d.finalized.insert r⟩ s ↔ d.hasFinalized s ∨ s = r := by
  rw [hasFinalized, Std.TreeSet.contains_insert, Bool.or_eq_true, beq_iff_eq,
    Std.LawfulEqCmp.compare_eq_iff_eq, or_comm, hasFinalized, @eq_comm _ r s]

theorem count_insert {d : Dispatcher} {r : Ref} (hnot : d.hasFinalized r = false) :
    count ⟨d.finalized.insert r⟩ = d.count + 1 := by
  rw [hasFinalized] at hnot
  rw [count, Std.TreeSet.size_insert, hnot, if_neg Bool.false_ne_true, count]

/-- The dispatcher remembers the calls `log`, and the objects that had the references `rest` are
handed out to it. -/
structure Orderly (d : Dispatcher) (heap : Heap α) (past : List (Heap.Event α))
    (log rest : List Ref) : Prop where
  traced : heap.Traced past
  hasFinalized_iff : ∀ r, d.hasFinalized r ↔ r ∈ log
  count_eq : d.count = log.length
  nodup : (log ++ rest).Nodup
  spent : ∀ r ∈ log ++ rest, Heap.Spent past r

section Orderly

variable {d : Dispatcher} {heap : Heap α} {past : List (Heap.Event α)} {log rest : List Ref}

theorem Orderly.after (ho : d.Orderly heap past log rest) (ops : List (Heap.Operation α))
    (hu : Heap.Unwrapped (heap.history past ops)) :
    d.Orderly (heap.after ops) (heap.history past ops) log rest where
  traced := ho.traced.after ops hu
  hasFinalized_iff := ho.hasFinalized_iff
  count_eq := ho.count_eq
  nodup := ho.nodup
  spent r hr := (ho.spent r hr).of_suffix (Heap.suffix_history heap past ops)

omit [HeapObject α] in
/-- What is handed out is not remembered. -/
theorem Orderly.hasFinalized_eq_false {r : Ref} (ho : d.Orderly heap past log rest)
    (hr : r ∈ rest) : d.hasFinalized r = false := by
  rw [Bool.eq_false_iff, Ne, ho.hasFinalized_iff]
  exact fun hlog => (List.nodup_append.1 ho.nodup).2.2 r hlog r hr rfl

omit [HeapObject α] in
theorem Orderly.insert {r : Ref} (ho : d.Orderly heap past log (r :: rest)) :
    Orderly ⟨d.finalized.insert r⟩ heap past (log ++ [r]) rest where
  traced := ho.traced
  hasFinalized_iff s := by
    rw [hasFinalized_insert, ho.hasFinalized_iff, List.mem_append, List.mem_singleton]
  count_eq := by
    rw [count_insert (ho.hasFinalized_eq_false List.mem_cons_self), ho.count_eq,
      List.length_append, List.length_singleton]
  nodup := by
    rw [List.append_assoc]
    exact ho.nodup
  spent := by
    rw [List.append_assoc]
    exact ho.spent

omit [HeapObject α] in
theorem Orderly.skip {r : Ref} (ho : d.Orderly heap past log (r :: rest)) :
    d.Orderly heap past log rest where
  traced := ho.traced
  hasFinalized_iff := ho.hasFinalized_iff
  count_eq := ho.count_eq
  nodup := ho.nodup.sublist ((List.sublist_cons_self r rest).append_left log)
  spent s hs := ho.spent s (((List.sublist_cons_self r rest).append_left log).subset hs)

end Orderly

omit [HeapObject α] in
theorem orderly_empty (config : Heap.Config) :
    Orderly {} (Heap.empty config : Heap α) [] [] [] where
  traced := Heap.traced_empty config
  hasFinalized_iff r := by
    rw [hasFinalized, Std.TreeSet.contains_emptyc]
    simp
  count_eq := Std.TreeSet.size_emptyc
  nodup := List.nodup_nil
  spent _ hr := absurd hr List.not_mem_nil

/-! ## Notifications -/

/-- The objects that ask for their finalizer, by the references that they had. -/
def due (pending : List (Heap.Pending α)) : List Ref :=
  (pending.filter fun p => HeapObject.finalizable p.object).map Heap.Pending.ref

/-- A notification finalizes the object if it asks for that. -/
theorem Orderly.notice (script : finalize.Script) {s : Progress α σ} {p : Heap.Pending α}
    {past : List (Heap.Event α)} {log rest : List Ref}
    (ho : s.dispatcher.Orderly s.state.1 past log (p.ref :: rest))
    (hu : Heap.Unwrapped (s.state.1.history past (heapOps (s.notice script p)))) :
    calls (s.notice script p) = due [p] ∧
      (s.next finalize p).dispatcher.Orderly (s.next finalize p).state.1
        (s.state.1.history past (heapOps (s.notice script p))) (log ++ due [p]) rest := by
  have hnew := ho.hasFinalized_eq_false List.mem_cons_self
  have hafter := ho.after _ hu
  rw [← Progress.heap_next script s p] at hafter
  cases hfin : HeapObject.finalizable p.object with
  | true =>
    have ha : s.accepts p = true := by rw [Progress.accepts, hfin, hnew]; rfl
    have hdue : due [p] = [p.ref] := by simp [due, hfin]
    rw [hdue]
    refine ⟨?_, ?_⟩
    · rw [Progress.notice, if_pos ha, calls_finalize, calls_map_heap]
    · have hdispatcher : (s.next finalize p).dispatcher = ⟨s.dispatcher.finalized.insert p.ref⟩ := by
        rw [Progress.next_of_accepts ha]
      rw [hdispatcher]
      exact hafter.insert
  | false =>
    have ha : s.accepts p = false := by rw [Progress.accepts, hfin]; rfl
    have hdue : due [p] = [] := by simp [due, hfin]
    have hdispatcher : (s.next finalize p).dispatcher = s.dispatcher := by
      rw [Progress.next_of_refuses ha]
    rw [hdue, List.append_nil, hdispatcher]
    refine ⟨?_, hafter.skip⟩
    rw [Progress.notice, ha]
    rfl

theorem due_cons (p : Heap.Pending α) (rest : List (Heap.Pending α)) :
    due (p :: rest) = due [p] ++ due rest := by
  cases hfin : HeapObject.finalizable p.object <;> simp [due, hfin]

/-- Notifications of several objects finalize those that ask for it. -/
theorem Orderly.notices (script : finalize.Script) {s : Progress α σ}
    {done : List (Heap.Pending α)} {past : List (Heap.Event α)} {log rest : List Ref}
    (ho : s.dispatcher.Orderly s.state.1 past log (done.map Heap.Pending.ref ++ rest))
    (hu : Heap.Unwrapped (s.state.1.history past (heapOps (s.notices script done)))) :
    calls (s.notices script done) = due done ∧
      (done.foldl (Progress.next finalize) s).dispatcher.Orderly
        (done.foldl (Progress.next finalize) s).state.1
        (s.state.1.history past (heapOps (s.notices script done))) (log ++ due done) rest := by
  induction done generalizing s past log with
  | nil =>
    refine ⟨rfl, ?_⟩
    rw [due, List.filter_nil, List.map_nil, List.append_nil]
    exact ho
  | cons p done ih =>
    rw [Progress.notices, heapOps_append, Heap.history_append, ← Progress.heap_next script] at hu ⊢
    obtain ⟨hcalls, hnext⟩ := ho.notice script (hu.of_suffix (Heap.suffix_history _ _ _))
    obtain ⟨hrest, hdone⟩ := ih hnext hu
    rw [calls_append, hcalls, hrest, due_cons p done, ← List.append_assoc]
    exact ⟨rfl, hdone⟩

end Dispatcher

/-! ## Collections of the host -/

namespace Host

variable {h : Host α σ} {past : List (Heap.Event α)} {log : List Ref}

theorem mem_pending_iff (hs : h.heap.Sound) (r : Ref) (x : α) :
    ⟨r, x⟩ ∈ h.pending ↔ h.heap.config.mode = .markSweep ∧
      h.heap.IsDoomed h.providers.flatten r ∧ h.heap.get? r = some x := by
  rw [pending]
  cases hm : h.heap.config.mode with
  | disabled =>
    rw [Heap.collect_of_disabled hm]
    simp
  | markSweep =>
    rw [Heap.mem_pending_collect_iff hs hm]
    simp

/-- What was handed out is not live after the sweep. -/
theorem not_isLive_of_mem_pending (hs : h.heap.Sound) {p : Heap.Pending α} (hp : p ∈ h.pending) :
    h.swept.isLive p.ref = false := by
  obtain ⟨hm, hd, -⟩ := (mem_pending_iff hs p.ref p.object).1 hp
  rw [Bool.eq_false_iff, Ne, swept, Heap.isLive_collect_iff hs hm]
  exact fun hsurvives => hsurvives.not_isDoomed hd

theorem nodup_pending (hs : h.heap.Sound) : (h.pending.map Heap.Pending.ref).Nodup := by
  rw [pending]
  cases hm : h.heap.config.mode with
  | disabled =>
    rw [Heap.collect_of_disabled hm]
    exact List.nodup_nil
  | markSweep =>
    rw [Heap.collect, hm, List.Nodup, List.pairwise_map]
    refine (Heap.pairwise_pending_sweep (Heap.size_survey hs _) h.heap.freeHead).imp ?_
    intro p q hlt heq
    rw [heq] at hlt
    exact Nat.lt_irrefl _ hlt

/-- What a sweep hands out was live until then. -/
theorem orderly_swept (ho : h.dispatcher.Orderly h.heap past log [])
    (hu : Heap.Unwrapped (h.heap.history past [.collect h.providers])) :
    h.dispatcher.Orderly h.swept (h.heap.history past [.collect h.providers]) log
      (h.pending.map Heap.Pending.ref) := by
  have hs := ho.traced.sound
  have hafter := ho.after _ hu
  have hlive : ∀ r ∈ h.pending.map Heap.Pending.ref, h.heap.isLive r ∧
      Heap.Spent (h.heap.history past [.collect h.providers]) r := by
    intro r hr
    obtain ⟨⟨r, x⟩, hp, rfl⟩ := List.mem_map.1 hr
    obtain ⟨hm, hdoomed, -⟩ := (mem_pending_iff hs r x).1 hp
    have hl := hdoomed.isLive
    exact ⟨hl, Heap.spent_collect hs ho.traced.dated hm hl ((Heap.isDoomed_iff _ r).1 hdoomed).2 hu⟩
  have hlog : ∀ r ∈ log, h.heap.isLive r = false := by
    intro r hr
    exact ho.traced.dated.not_isLive (ho.spent r (List.mem_append_left _ hr))
  refine ⟨hafter.traced, hafter.hasFinalized_iff, hafter.count_eq, ?_, ?_⟩
  · refine List.nodup_append.2 ⟨by simpa using ho.nodup, nodup_pending hs, ?_⟩
    rintro r hr s hs rfl
    have hl := (hlive r hs).1
    rw [hlog r hr] at hl
    exact Bool.false_ne_true hl
  · intro r hr
    rcases List.mem_append.1 hr with hr | hr
    · exact hafter.spent r (List.mem_append_left _ hr)
    · exact (hlive r hr).2

/-- A collection finalizes what it hands out and what asks for it. -/
theorem orderly_collect (script : finalize.Script)
    (ho : h.dispatcher.Orderly h.heap past log [])
    (hu : Heap.Unwrapped (h.heap.history past (heapOps (h.collectActions script)))) :
    calls (h.collectActions script) = Dispatcher.due h.pending ∧
      (h.collect finalize).2.dispatcher.Orderly (h.collect finalize).2.heap
        (h.heap.history past (heapOps (h.collectActions script)))
        (log ++ Dispatcher.due h.pending) [] := by
  have hswept := orderly_swept ho (hu.of_suffix (Heap.suffix_history _ _ _))
  rw [← List.append_nil (h.pending.map _)] at hswept
  exact Dispatcher.Orderly.notices (s := h.unnotified) script hswept hu

/-! ## Runs of the host -/

/-- Whether an operation collects, in a host. -/
def Operation.collects {β : Type} (h : Host β σ) : Operation β → Bool
  | .alloc _ => h.heap.collectionDue
  | .collect => true
  | _ => false

/-- An operation that collects does that first. -/
theorem actActions_of_collects (script : finalize.Script) {op : Operation α}
    (hop : op.collects h) : ∃ rest : List (Heap.Operation α),
      h.actActions script op = h.collectActions script ++ rest.map .heap := by
  cases op with
  | alloc x =>
    have hdue : h.heap.collectionDue := hop
    refine ⟨[.store x], ?_⟩
    rw [actActions, if_pos hdue]
    rfl
  | collect => exact ⟨[], (List.append_nil _).symm⟩
  | pin r | unpin t | unpinRef r | addRoot r | removeRoot r | heap op => cases hop

theorem dispatcher_act_of_keepsHeap (finalize : Finalizer α σ) (h : Host α σ) {op : Operation α}
    (hop : op.keepsHeap) : (h.act finalize op).dispatcher = h.dispatcher := by
  obtain ⟨registry, roots, hact⟩ := act_of_keepsHeap finalize h hop
  rw [hact]

theorem orderly_act (script : finalize.Script) (ho : h.dispatcher.Orderly h.heap past log [])
    (op : Operation α)
    (hu : Heap.Unwrapped (h.heap.history past (heapOps (h.actActions script op)))) :
    (h.act finalize op).dispatcher.Orderly (h.act finalize op).heap
      (h.heap.history past (heapOps (h.actActions script op)))
      (log ++ calls (h.actActions script op)) [] := by
  cases op with
  | alloc x =>
    rw [act, alloc_eq]
    by_cases hdue : h.heap.collectionDue
    · rw [actActions, if_pos hdue, heapOps_append, Heap.history_append,
        ← heap_collect_eq script] at hu ⊢
      obtain ⟨hcalls, hcollected⟩ :=
        orderly_collect script ho (hu.of_suffix (Heap.suffix_history _ _ _))
      rw [calls_append, hcalls, ready, if_pos hdue, calls_heap, calls_nil, List.append_nil]
      exact hcollected.after [.store x] hu
    · rw [actActions, if_neg hdue] at hu ⊢
      rw [ready, if_neg hdue, List.nil_append, calls_heap, calls_nil, List.append_nil]
      exact ho.after [.store x] hu
  | pin r | unpin t | unpinRef r | addRoot r | removeRoot r =>
    rw [heap_act_of_keepsHeap finalize h rfl, dispatcher_act_of_keepsHeap finalize h rfl,
      actActions_of_keepsHeap script h rfl, calls_nil, List.append_nil]
    exact ho
  | collect =>
    obtain ⟨hcalls, hcollected⟩ := orderly_collect script ho hu
    rw [actActions, hcalls]
    exact hcollected
  | heap op =>
    rw [actActions, calls_heap, calls_nil, List.append_nil]
    exact ho.after [op] hu

theorem orderly_run (script : finalize.Script) (ho : h.dispatcher.Orderly h.heap past log [])
    (ops : List (Operation α))
    (hu : Heap.Unwrapped (h.heap.history past (heapOps (h.actions script ops)))) :
    (h.run finalize ops).dispatcher.Orderly (h.run finalize ops).heap
      (h.heap.history past (heapOps (h.actions script ops)))
      (log ++ calls (h.actions script ops)) [] := by
  induction ops generalizing h past log with
  | nil =>
    rw [actions, calls_nil, List.append_nil]
    exact ho
  | cons op ops ih =>
    rw [actions, heapOps_append, Heap.history_append, ← heap_act] at hu ⊢
    rw [calls_append, ← List.append_assoc]
    exact ih (orderly_act script ho op (hu.of_suffix (Heap.suffix_history _ _ _))) hu

/-! ## Calls and histories -/

/-- The references for which finalizers are called in a run, in order. -/
def called (finalize : Finalizer α σ) (h : Host α σ) (ops : List (Operation α)) : List Ref :=
  ((h.noting []).run finalize.noting ops).world.2

theorem called_eq (script : finalize.Script) (h : Host α σ) (ops : List (Operation α)) :
    h.called finalize ops = calls (h.actions script ops) := by
  rw [called, run_noting script]
  rfl

theorem called_concat (script : finalize.Script) (h : Host α σ) (before : List (Operation α))
    (op : Operation α) : h.called finalize (before ++ [op]) =
      h.called finalize before ++ calls ((h.run finalize before).actActions script op) := by
  rw [called_eq script, called_eq script, actions_append, calls_append, actions, actions,
    List.append_nil]

/-- The history of the heap in a run. -/
def heapHistory (script : finalize.Script) (h : Host α σ) (ops : List (Operation α)) :
    List (Heap.Event α) :=
  h.heap.history [] (heapOps (h.actions script ops))

/-- A history goes on from operation to operation. -/
theorem suffix_heapHistory (script : finalize.Script) (h : Host α σ)
    (before later : List (Operation α)) (op : Operation α) :
    (h.run finalize before).heap.history (h.heapHistory script before)
        (heapOps ((h.run finalize before).actActions script op)) <:+
      h.heapHistory script (before ++ op :: later) := by
  rw [heapHistory, heapHistory, actions_append, actions, heapOps_append, heapOps_append,
    Heap.history_append, Heap.history_append, ← heap_run]
  exact Heap.suffix_history _ _ _

/-! ## What is due -/

/-- A collection after the first `k` notifications of the dispatcher. -/
def notified (finalize : Finalizer α σ) (h : Host α σ) (k : Nat) : Dispatcher.Progress α σ :=
  h.dispatcher.dispatchAll finalize (h.pending.take k) (h.swept, h.world)

/-- A notification is not refused on account of an earlier one. -/
theorem dispatch_notified_ne (script : finalize.Script)
    (ho : h.dispatcher.Orderly h.heap past log [])
    (hu : Heap.Unwrapped (h.heap.history past (heapOps (h.collectActions script))))
    {k : Nat} {p : Heap.Pending α} (hp : h.pending[k]? = some p) (r : Ref) :
    (h.notified finalize k).dispatcher.dispatch finalize p (h.notified finalize k).state ≠
      .error (.alreadyFinalized r) := by
  have hsplit : h.pending = h.pending.take k ++ p :: h.pending.drop (k + 1) := by
    obtain ⟨hk, rfl⟩ := List.getElem?_eq_some_iff.1 hp
    rw [List.getElem_cons_drop, List.take_append_drop]
  have hswept := orderly_swept ho (hu.of_suffix (Heap.suffix_history _ _ _))
  rw [collectActions, heapOps_heap, hsplit, Dispatcher.Progress.notices_append, heapOps_append,
    ← List.singleton_append, Heap.history_append, Heap.history_append] at hu
  rw [hsplit, List.map_append] at hswept
  obtain ⟨-, hdone⟩ := Dispatcher.Orderly.notices (s := h.unnotified) script hswept
    (hu.of_suffix (Heap.suffix_history _ _ _))
  have hnew : (h.notified finalize k).dispatcher.hasFinalized p.ref = false :=
    hdone.hasFinalized_eq_false List.mem_cons_self
  rw [Dispatcher.dispatch, hnew]
  cases HeapObject.finalizable p.object <;> simp

/-- How a collection that starts in the host `h` finalizes what it reclaims: `past` is the history
of the heap, `earlier` are the calls before the collection, and `now` those up to the end of
the operation that collects. -/
structure FinalizesDue (finalize : Finalizer α σ) (h : Host α σ) (past : List (Heap.Event α))
    (earlier now : List Ref) : Prop where
  /-- No object is refused as one that was finalized before. -/
  accepted : ∀ k p r, h.pending[k]? = some p →
    (h.notified finalize k).dispatcher.dispatch finalize p (h.notified finalize k).state ≠
      .error (.alreadyFinalized r)
  /-- What the sweep reclaims is finalized if it asked for that when it was stored and asks for
  it now. -/
  called_iff : ∀ r, h.heap.isLive r → h.swept.isLive r = false → r ∉ earlier ∧
    (r ∈ now ↔ (∃ x, (r, x) ∈ Heap.stores past ∧ HeapObject.finalizable x) ∧
      ∃ x, h.heap.get? r = some x ∧ HeapObject.finalizable x)

/-- What a sweep reclaims was live in a heap that is collected, and does not survive. -/
theorem not_survives_of_swept (hs : h.heap.Sound) {r : Ref} (hl : h.heap.isLive r)
    (hn : h.swept.isLive r = false) :
    h.heap.config.mode = .markSweep ∧ ¬ h.heap.Survives h.providers.flatten r := by
  rw [swept] at hn
  constructor
  · cases hm : h.heap.config.mode with
    | disabled =>
      rw [Heap.collect_of_disabled hm, hl] at hn
      cases hn
    | markSweep => rfl
  · intro hsurvives
    rw [Heap.isLive, Heap.entry?_collect_of_survives hs.plain hs.size_le hsurvives] at hn
    rw [Heap.isLive, hn] at hl
    cases hl

/-- A sweep hands out the objects that asked for a finalizer when they were stored. -/
theorem mem_due_pending_iff (ht : h.heap.Traced past) (hrec : h.heap.Recorded past) {r : Ref}
    (hl : h.heap.isLive r) (hn : h.swept.isLive r = false) :
    r ∈ Dispatcher.due h.pending ↔
      (∃ x, (r, x) ∈ Heap.stores past ∧ HeapObject.finalizable x) ∧
        ∃ x, h.heap.get? r = some x ∧ HeapObject.finalizable x := by
  obtain ⟨hm, hns⟩ := not_survives_of_swept ht.sound hl hn
  have hdoomed : h.heap.IsDoomed h.providers.flatten r ↔
      ∃ x, (r, x) ∈ Heap.stores past ∧ HeapObject.finalizable x := by
    rw [Heap.isDoomed_iff]
    constructor
    · rintro ⟨⟨header, hh, hfin⟩, -⟩
      obtain ⟨x, hx, rfl⟩ := hrec r header hh
      exact ⟨x, hx, hfin⟩
    · rintro ⟨x, hx, hfin⟩
      obtain ⟨header, y, hf⟩ := Heap.isLive_iff_find?.1 hl
      have hh := Heap.header?_eq_some_iff.2 ⟨y, hf⟩
      obtain ⟨x', hx', rfl⟩ := hrec r header hh
      obtain rfl := Heap.eq_of_mem_stores ht.nodup hx hx'
      exact ⟨⟨_, hh, hfin⟩, hns⟩
  rw [Dispatcher.due, List.mem_map]
  constructor
  · rintro ⟨⟨r, x⟩, hp, rfl⟩
    obtain ⟨hp, hfin⟩ := List.mem_filter.1 hp
    obtain ⟨-, hd, hx⟩ := (mem_pending_iff ht.sound r x).1 hp
    exact ⟨hdoomed.1 hd, x, hx, hfin⟩
  · rintro ⟨hflag, x, hx, hfin⟩
    have hp := (mem_pending_iff ht.sound r x).2 ⟨hm, hdoomed.2 hflag, hx⟩
    exact ⟨⟨r, x⟩, List.mem_filter.2 ⟨hp, hfin⟩, rfl⟩

/-- What a collection reclaims, it finalizes when that is due. -/
theorem finalizesDue_act (script : finalize.Script) (ho : h.dispatcher.Orderly h.heap past log [])
    (hrec : h.heap.Recorded past) {op : Operation α} (hop : op.collects h)
    (hu : Heap.Unwrapped (h.heap.history past (heapOps (h.actActions script op)))) :
    h.FinalizesDue finalize past log (log ++ calls (h.actActions script op)) := by
  obtain ⟨rest, hrest⟩ := actActions_of_collects script hop
  rw [hrest, heapOps_append, Heap.history_append] at hu
  have hu' := hu.of_suffix (Heap.suffix_history _ _ _)
  refine ⟨fun k p r hp => dispatch_notified_ne script ho hu' hp r, fun r hl hn => ?_⟩
  have hnot : r ∉ log := by
    intro hr
    rw [ho.traced.dated.not_isLive (ho.spent r (List.mem_append_left _ hr))] at hl
    exact Bool.false_ne_true hl
  refine ⟨hnot, ?_⟩
  rw [hrest, calls_append, calls_map_heap, List.append_nil, List.mem_append, or_iff_right hnot,
    (orderly_collect script ho hu').1]
  exact mem_due_pending_iff ho.traced hrec hl hn

/-! ## At most once, and once when due -/

/-- Finalizers in a run from the host `start`. -/
structure FinalizesOnce (script : finalize.Script) (start : Host α σ) (ops : List (Operation α)) :
    Prop where
  nodup : (start.called finalize ops).Nodup
  hasFinalized_iff : ∀ r,
    (start.run finalize ops).dispatcher.hasFinalized r ↔ r ∈ start.called finalize ops
  count_eq : (start.run finalize ops).dispatcher.count = (start.called finalize ops).length
  not_isLive : ∀ r, (start.run finalize ops).dispatcher.hasFinalized r →
    (start.run finalize ops).heap.isLive r = false
  due : ∀ before op later, ops = before ++ op :: later →
    op.collects (start.run finalize before) →
    (start.run finalize before).FinalizesDue finalize (start.heapHistory script before)
      (start.called finalize before) (start.called finalize (before ++ [op]))

/-- Finalizers run at most once for a reference, and exactly once when that is due. -/
theorem finalizesOnce_run (script : finalize.Script) (config : Heap.Config) (args : List String)
    (world : σ) (ops : List (Operation α))
    (hu : Heap.Unwrapped ((new config args world).heapHistory script ops)) :
    FinalizesOnce script (new config args world) ops := by
  have hrun : ∀ ops, Heap.Unwrapped ((new config args world).heapHistory script ops) →
      ((new config args world).run finalize ops).dispatcher.Orderly
        ((new config args world).run finalize ops).heap
        ((new config args world).heapHistory script ops)
        ((new config args world).called finalize ops) [] := by
    intro ops hu
    have ho := orderly_run script (h := new config args world)
      (Dispatcher.orderly_empty config) ops hu
    rw [called_eq script]
    exact ho
  have ho := hrun ops hu
  refine ⟨by simpa using ho.nodup, ho.hasFinalized_iff, ho.count_eq, ?_, ?_⟩
  · intro r hr
    have hlog := (ho.hasFinalized_iff r).1 hr
    exact ho.traced.dated.not_isLive (ho.spent r (List.mem_append_left _ hlog))
  · rintro before op later rfl hop
    have hu' := hu.of_suffix (suffix_heapHistory script _ before later op)
    rw [called_concat script]
    refine finalizesDue_act script (hrun before (hu'.of_suffix (Heap.suffix_history _ _ _))) ?_
      hop hu'
    rw [heap_run script]
    exact Heap.recorded_after config _

def storeLeafScript : storeLeaf.Script where
  ops _ _ _ := [.store .leaf]
  heap_eq _ _ _ := rfl

/-- A watched object is reclaimed, and its finalizer stores a leaf in its slot.  After the next
collection another watched object gets the slot. -/
def replanting : List (Operation (Session.Obj Unit)) :=
  [.alloc (.watched [] true () []), .collect, .collect, .alloc (.watched [] true () []), .collect]

theorem finalizesOnce_run_replanting :
    Heap.Unwrapped ((new {} [] ()).heapHistory storeLeafScript replanting) ∧
      (new {} [] ()).called storeLeaf replanting = [⟨0, 1⟩, ⟨0, 3⟩] ∧
      FinalizesOnce storeLeafScript (new {} [] ()) replanting :=
  have hu : Heap.Unwrapped ((new {} [] ()).heapHistory storeLeafScript replanting) :=
    Heap.unwrapped_history {} (by decide)
  ⟨hu, rfl, finalizesOnce_run storeLeafScript {} [] () replanting hu⟩

end Host

end PinnedHeap
