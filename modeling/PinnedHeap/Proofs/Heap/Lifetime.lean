import PinnedHeap.Proofs.Heap.Epoch
import PinnedHeap.Session.Object

/-!
# The lifetime of a reference

A reference is issued once, by an allocation.  From then on it names the object stored by
that allocation, with the changes made through the reference, until a collection reclaims
the object.  After that it names nothing, however often its slot is used again.

All of it is a comparison of two numbers.  An object is stored under the epoch of its slot,
which is one more than the number of times the slot was freed.  A reference is `Spent` if its
slot was freed at least as often as its generation says.  Then it is not live, and since
histories only grow it stays so.  A reference that is live stays live or is spent by the
collection that reclaims its object.  A new reference is neither, so it was never live
before (`not_isLive_before`).

The generations start again after the last one, so the runs considered are those in which no
slot was freed so often.
-/

namespace PinnedHeap.Heap

variable {α : Type}

/-! ## Spent references -/

/-- Freed at least as often as its generation says. -/
def Spent (past : List (Event α)) (r : Ref) : Prop :=
  r.generation.toNat ≤ frees r.index.toNat past

theorem Spent.of_suffix {past later : List (Event α)} {r : Ref} (hspent : Spent past r)
    (h : past <:+ later) : Spent later r :=
  Nat.le_trans hspent (frees_le h _)

section Dated

variable {h : Heap α} {past : List (Event α)} {r : Ref}

theorem Dated.generation_of_isLive (hd : h.Dated past) (hl : h.isLive r) :
    r.generation.toNat = frees r.index.toNat past + 1 := by
  rw [← epoch_of_isLive hl]
  exact hd _

theorem Dated.not_isLive (hd : h.Dated past) (hspent : Spent past r) : h.isLive r = false := by
  rw [Bool.eq_false_iff]
  intro hl
  have heq := hd.generation_of_isLive hl
  rw [Spent] at hspent
  omega

/-- A new reference is in the epoch of its slot. -/
theorem Dated.generation_of_alloc [HeapObject α] (hd : h.Dated past) (hs : h.Sound) {x : α}
    (ha : (h.alloc x).1 = .ok r) : r.generation.toNat = frees r.index.toNat past + 1 := by
  rw [← hd, ← epoch_alloc h x, epoch_of_isLive (isLive_of_alloc hs.size_le ha)]

end Dated

theorem not_isLive_of_alloc [HeapObject α] {h : Heap α} (hs : h.Sound) {x : α} {r : Ref}
    (ha : (h.alloc x).1 = .ok r) : h.isLive r = false := by
  rcases alloc_cases h x with ⟨v, hv, he⟩ | ⟨e, he⟩
  · rw [he] at ha
    obtain rfl := Except.ok.inj ha
    have hindex := UInt32.toNat_ofNat_of_lt' (index_lt_of_vacancy hs.size_le hv)
    rw [isLive, entry?_eq_find?, find?_eq_none_of_vacancy hv hindex]
    rfl
  · rw [he] at ha
    cases ha

/-! ## One operation -/

/-- What an operation makes of the object that a reference names. -/
def Operation.change (r : Ref) (x : α) : Operation α → α
  | .update s f => if s = r then f x else x
  | _ => x

/-- What operations make of the object that a reference names. -/
def changed (r : Ref) (x : α) (ops : List (Operation α)) : α := ops.foldl (Operation.change r) x

section Apply

variable [HeapObject α] {h : Heap α} {past : List (Event α)} {r : Ref}

/-- A reference names its object still, or a collection reclaimed that. -/
theorem entry?_apply_cases (hs : h.Sound) (op : Operation α) {header : Header} {x : α}
    (he : h.entry? r = some (header, x)) :
    entry? (op.apply h) r = some (header, op.change r x) ∨
      ∃ providers, op = .collect providers ∧ h.config.mode = .markSweep ∧
        ¬ h.Survives providers.flatten r := by
  cases op with
  | store y =>
    have hl : h.isLive r := by rw [isLive, he, Option.isSome_some]
    left
    rw [Operation.apply, entry?_alloc_of_isLive hs.size_le y hl, he]
    rfl
  | update s f =>
    left
    rw [entry?_eq_find?] at he
    rw [Operation.apply, entry?_eq_find?, find?_update, he, Operation.change]
    by_cases hr : r = s
    · rw [if_pos hr, if_pos hr.symm]
      rfl
    · rw [if_neg hr, if_neg (fun e => hr e.symm)]
  | collect providers =>
    cases hm : h.config.mode with
    | disabled =>
      left
      rw [Operation.apply, collect_of_disabled hm, he]
      rfl
    | markSweep =>
      by_cases hsurvives : h.Survives providers.flatten r
      · left
        rw [Operation.apply, entry?_collect_of_survives hs.plain hs.size_le hsurvives, he]
        rfl
      · exact Or.inr ⟨providers, rfl, rfl, hsurvives⟩

/-- What a collection reclaims is spent. -/
theorem spent_collect (hs : h.Sound) (hd : h.Dated past) (hm : h.config.mode = .markSweep)
    {providers : List (List Ref)} (hl : h.isLive r) (hn : ¬ h.Survives providers.flatten r)
    (hu : Unwrapped ((h.event? (.collect providers)).toList ++ past)) :
    Spent ((h.event? (.collect providers)).toList ++ past) r := by
  have hbefore := hd.generation_of_isLive hl
  have hafter := hd.apply hs.plain _ hu r.index.toNat
  have hle := frees_le (List.suffix_append (h.event? (.collect providers)).toList past)
    r.index.toNat
  -- The slot is in another epoch now, so it was freed more often than before.
  have hnext : epoch (h.collect providers).2 r.index.toNat = Generation.next r.generation := by
    rw [epoch, generationAt_collect hs hm hl hn, Option.getD_some]
  have hne : (Generation.next r.generation).toNat ≠ r.generation.toNat := by
    intro heq
    exact Generation.next_ne _ (UInt32.toNat_inj.1 heq)
  rw [Operation.apply, hnext] at hafter
  rw [Spent]
  omega

theorem isLive_apply_or_spent (hs : h.Sound) (hd : h.Dated past) (op : Operation α)
    (hu : Unwrapped ((h.event? op).toList ++ past)) (hl : h.isLive r) :
    (op.apply h).isLive r ∨ Spent ((h.event? op).toList ++ past) r := by
  obtain ⟨⟨header, x⟩, he⟩ := Option.isSome_iff_exists.1 hl
  rcases entry?_apply_cases hs op he with he' | ⟨providers, rfl, hm, hn⟩
  · left
    rw [isLive, he', Option.isSome_some]
  · exact Or.inr (spent_collect hs hd hm hl hn hu)

end Apply

/-! ## The references issued -/

section Issued

variable [HeapObject α] {h : Heap α} {past : List (Event α)}

/-- The references issued are distinct, and live or spent. -/
structure Traced (h : Heap α) (past : List (Event α)) : Prop where
  sound : h.Sound
  dated : h.Dated past
  nodup : (issued past).Nodup
  bits_ne_zero : ∀ r ∈ issued past, r.bits ≠ 0
  settled : ∀ r ∈ issued past, h.isLive r ∨ Spent past r

theorem Traced.not_mem_issued (ht : h.Traced past) {x : α} {r : Ref}
    (ha : (h.alloc x).1 = .ok r) : r ∉ issued past := by
  intro hr
  have hgeneration := ht.dated.generation_of_alloc ht.sound ha
  rcases ht.settled r hr with hl | hspent
  · rw [not_isLive_of_alloc ht.sound ha] at hl
    exact Bool.false_ne_true hl
  · rw [Spent] at hspent
    omega

theorem Traced.apply (ht : h.Traced past) (op : Operation α)
    (hu : Unwrapped ((h.event? op).toList ++ past)) :
    (op.apply h).Traced ((h.event? op).toList ++ past) := by
  have hsettled : ∀ r ∈ issued past,
      (op.apply h).isLive r ∨ Spent ((h.event? op).toList ++ past) r := by
    intro r hr
    rcases ht.settled r hr with hl | hspent
    · exact isLive_apply_or_spent ht.sound ht.dated op hu hl
    · exact Or.inr (hspent.of_suffix (List.suffix_append _ past))
  have hdated := ht.dated.apply ht.sound.plain op hu
  rcases issued_apply_cases h past op with ⟨x, r, rfl, ha, hissued⟩ | ⟨-, hissued⟩
  · have hbits : r.bits ≠ 0 := by
      have hgeneration := ht.dated.generation_of_alloc ht.sound ha
      rw [Ne, Ref.bits_eq_zero_iff]
      rintro rfl
      exact nomatch hgeneration
    refine ⟨ht.sound.apply _, hdated, ?_, ?_, ?_⟩ <;> rw [hissued]
    · exact List.nodup_cons.2 ⟨ht.not_mem_issued ha, ht.nodup⟩
    · exact List.forall_mem_cons.2 ⟨hbits, ht.bits_ne_zero⟩
    · exact List.forall_mem_cons.2 ⟨Or.inl (isLive_of_alloc ht.sound.size_le ha), hsettled⟩
  · refine ⟨ht.sound.apply _, hdated, ?_, ?_, ?_⟩ <;> rw [hissued]
    · exact ht.nodup
    · exact ht.bits_ne_zero
    · exact hsettled

omit [HeapObject α] in
theorem traced_empty (config : Config) : (empty config : Heap α).Traced [] where
  sound := sound_empty config
  dated := dated_empty config
  nodup := List.nodup_nil
  bits_ne_zero _ hr := absurd hr List.not_mem_nil
  settled _ hr := absurd hr List.not_mem_nil

theorem Traced.after (ht : h.Traced past) (ops : List (Operation α))
    (hu : Unwrapped (h.history past ops)) : (h.after ops).Traced (h.history past ops) :=
  history_induction (P := fun h past => Unwrapped past → h.Traced past)
    (fun _ _ op ih hu' => (ih (hu'.of_suffix (List.suffix_append _ _))).apply op hu')
    (fun _ => ht) ops hu

/-- What is live stays live or is spent. -/
theorem isLive_after_or_spent (ht : h.Traced past) (ops : List (Operation α))
    (hu : Unwrapped (h.history past ops)) {r : Ref} (hl : h.isLive r) :
    (h.after ops).isLive r ∨ Spent (h.history past ops) r := by
  induction ops generalizing h past with
  | nil => exact Or.inl hl
  | cons op ops ih =>
    have hu' := hu.of_suffix (suffix_history (op.apply h) _ ops)
    rcases isLive_apply_or_spent ht.sound ht.dated op hu' hl with hl' | hspent
    · exact ih (ht.apply op hu') hu hl'
    · exact Or.inr (hspent.of_suffix (suffix_history (op.apply h) _ ops))

/-- What is spent is not live later. -/
theorem Traced.not_isLive_after (ht : h.Traced past) {r : Ref} (hspent : Spent past r)
    (ops : List (Operation α)) (hu : Unwrapped (h.history past ops)) :
    (h.after ops).isLive r = false := by
  induction ops generalizing h past with
  | nil => exact ht.dated.not_isLive hspent
  | cons op ops ih =>
    have hu' := hu.of_suffix (suffix_history (op.apply h) _ ops)
    exact ih (ht.apply op hu') (hspent.of_suffix (List.suffix_append _ past)) hu

/-! ## What is recorded of an object -/

/-- A header says what the object was like when it was stored. -/
def Recorded (h : Heap α) (past : List (Event α)) : Prop :=
  ∀ r header, h.header? r = some header → ∃ x, (r, x) ∈ stores past ∧ header = headerOf x

/-- The object that was stored last under a reference. -/
def stored? {β : Type} (past : List (Event β)) (r : Ref) : Option β := (stores past).lookup r

/-- A header says what the object was like that was stored last under the reference. -/
def Labelled (h : Heap α) (past : List (Event α)) : Prop :=
  ∀ r header, h.header? r = some header → ∃ x, stored? past r = some x ∧ header = headerOf x

theorem stored?_stored {β : Type} (s : Ref) (x : β) (past : List (Event β)) (r : Ref) :
    stored? (.stored s x :: past) r = if r = s then some x else stored? past r := by
  rw [stored?, stores_stored, List.lookup_cons]
  by_cases hr : r = s
  · rw [if_pos hr, beq_iff_eq.2 hr]
  · rw [if_neg hr, beq_eq_false_iff_ne.2 hr]
    rfl

/-- Nothing is stored under the reference of a live object. -/
theorem stored?_of_isLive (hs : h.Sound) {r : Ref} (hl : h.isLive r) (op : Operation α) :
    stored? ((h.event? op).toList ++ past) r = stored? past r := by
  cases op with
  | store x =>
    rw [event?]
    cases ha : (h.alloc x).1 with
    | ok s =>
      have hne : r ≠ s := by
        rintro rfl
        rw [not_isLive_of_alloc hs ha] at hl
        exact Bool.false_ne_true hl
      exact (stored?_stored s x past r).trans (if_neg hne)
    | error e => rfl
  | update s f => rfl
  | collect providers =>
    rw [event?]
    cases h.config.mode <;> rfl

theorem labelled_empty (config : Config) : (empty config : Heap α).Labelled [] := by
  intro r header hh
  obtain ⟨x, hf⟩ := header?_eq_some_iff.1 hh
  exact nomatch hf

theorem Labelled.apply (hl : h.Labelled past) (hs : h.Sound) (op : Operation α) :
    (op.apply h).Labelled ((h.event? op).toList ++ past) := by
  intro r header hh
  rcases header?_apply_cases hs op hh with hh | ⟨x, rfl, ha, rfl⟩
  · obtain ⟨x, hf⟩ := header?_eq_some_iff.1 hh
    rw [stored?_of_isLive hs (isLive_iff_find?.2 ⟨header, x, hf⟩)]
    exact hl r header hh
  · refine ⟨x, ?_, rfl⟩
    rw [event?, ha]
    exact (stored?_stored r x past r).trans (if_pos rfl)

theorem labelled_after (config : Config) (ops : List (Operation α)) :
    ((empty config).after ops).Labelled ((empty config).history [] ops) :=
  (history_induction (P := fun h past => h.Sound ∧ h.Labelled past)
    (fun _ _ op ih => ⟨ih.1.apply op, ih.2.apply ih.1 op⟩)
    ⟨sound_empty config, labelled_empty config⟩ ops).2

theorem Labelled.recorded (hl : h.Labelled past) : h.Recorded past := by
  intro r header hh
  obtain ⟨x, hx, rfl⟩ := hl r header hh
  obtain ⟨later, earlier, hstores, -⟩ := List.lookup_eq_some_iff.1 hx
  refine ⟨x, ?_, rfl⟩
  rw [hstores]
  exact List.mem_append_right _ List.mem_cons_self

theorem recorded_after (config : Config) (ops : List (Operation α)) :
    ((empty config).after ops).Recorded ((empty config).history [] ops) :=
  (labelled_after config ops).recorded

omit [HeapObject α] in
/-- One object is stored under a reference. -/
theorem eq_of_mem_stores (hn : (issued past).Nodup) {r : Ref} {x y : α}
    (hx : (r, x) ∈ stores past) (hy : (r, y) ∈ stores past) : x = y :=
  (Prod.mk.inj (List.inj_on_of_nodup_map hn hx hy rfl)).2

end Issued

/-! ## Lifetimes -/

/-- A reference finds nothing, and nothing can be changed through it. -/
structure Gone {β : Type} (h : Heap β) (r : Ref) : Prop where
  isLive : h.isLive r = false
  header? : h.header? r = none
  get? : h.get? r = none
  /-- Not under any type either. -/
  view? : ∀ {γ : Type} (cast : β → Option γ), (h.get? r).bind cast = none
  update : ∀ f, h.update r f = h

theorem gone_of_not_isLive {h : Heap α} {r : Ref} (hn : h.isLive r = false) : h.Gone r := by
  have he : h.entry? r = none := Option.isNone_iff_eq_none.1 (Option.isSome_eq_false_iff.1 hn)
  have hget : h.get? r = none := by rw [get?, he, Option.map_none]
  refine ⟨hn, by rw [header?, he, Option.map_none], hget, fun cast => by rw [hget]; rfl, ?_⟩
  intro f
  have hslots : h.slots.modify r.index.toNat (Slot.update r.generation f) = h.slots := by
    apply Array.ext_getElem?
    intro i
    rw [Array.getElem?_modify]
    split
    next hi =>
      subst hi
      cases hs : h.slots[r.index.toNat]? with
      | none => rfl
      | some s =>
        rw [entry?_eq_find?, find?_of_getElem? hs] at he
        cases s with
        | live g header x =>
          have hg : g ≠ r.generation := by
            rintro rfl
            rw [Slot.named, if_pos rfl] at he
            cases he
          rw [Option.map_some, Slot.update, if_neg hg]
        | free g next => rfl
    next => rfl
  rw [update, hslots]

section Lifetime

variable [HeapObject α] {h : Heap α} {past : List (Event α)}

/-- From the heap `h` on a reference names an object through `m` of the operations `later`, and
nothing after the next one. -/
structure Lifetime (h : Heap α) (r : Ref) (e : Header × α) (later : List (Operation α)) (m : Nat) :
    Prop where
  le : m ≤ later.length
  /-- It names the object with the changes made through it. -/
  named : ∀ n ≤ m,
    Heap.entry? (h.after (later.take n)) r = some (e.1, changed r e.2 (later.take n))
  /-- It ends with a collection that does not keep the object. -/
  reclaimed : m < later.length → ∃ providers, later[m]? = some (.collect providers) ∧
    ¬ (h.after (later.take m)).Survives providers.flatten r
  gone : ∀ n, m < n → n ≤ later.length → (h.after (later.take n)).Gone r

/-- One operation more before a lifetime. -/
theorem Lifetime.cons {op : Operation α} {later : List (Operation α)} {r : Ref} {e : Header × α}
    {m : Nat} (he : h.entry? r = some e)
    (hlife : (op.apply h).Lifetime r (e.1, op.change r e.2) later m) :
    h.Lifetime r e (op :: later) (m + 1) where
  le := Nat.succ_le_succ hlife.le
  named n hn := by
    cases n with
    | zero => exact he
    | succ n => exact hlife.named n (Nat.le_of_succ_le_succ hn)
  reclaimed hm := hlife.reclaimed (Nat.lt_of_succ_lt_succ hm)
  gone n hm hn := by
    cases n with
    | zero => exact absurd hm (Nat.not_lt_zero _)
    | succ n => exact hlife.gone n (Nat.lt_of_succ_lt_succ hm) (Nat.le_of_succ_le_succ hn)

/-- What a reference names, it names until a collection reclaims it, and never again. -/
theorem exists_lifetime (ht : h.Traced past) (later : List (Operation α))
    (hu : Unwrapped (h.history past later)) {r : Ref} {e : Header × α}
    (he : h.entry? r = some e) : ∃ m, h.Lifetime r e later m := by
  induction later generalizing h past e with
  | nil =>
    refine ⟨0, Nat.le_refl 0, fun n _ => ?_, fun hm => absurd hm (Nat.lt_irrefl 0),
      fun n hm hn => absurd (Nat.lt_of_lt_of_le hm hn) (Nat.lt_irrefl 0)⟩
    rw [List.take_nil]
    exact he
  | cons op later ih =>
    have hu' := hu.of_suffix (suffix_history (op.apply h) _ later)
    have ht' := ht.apply op hu'
    rcases entry?_apply_cases ht.sound op he with he' | ⟨providers, rfl, hm, hn⟩
    · obtain ⟨m, hlife⟩ := ih ht' hu he'
      exact ⟨m + 1, hlife.cons he⟩
    · have hl : h.isLive r := by rw [isLive, he, Option.isSome_some]
      have hspent := spent_collect ht.sound ht.dated hm hl hn hu'
      refine ⟨0, Nat.zero_le _, fun n hn => ?_, fun _ => ⟨providers, rfl, hn⟩, fun n hpos _ => ?_⟩
      · obtain rfl := Nat.le_zero.1 hn
        exact he
      · obtain ⟨k, rfl⟩ : ∃ k, n = k + 1 := ⟨n - 1, by omega⟩
        exact gone_of_not_isLive (ht'.not_isLive_after hspent (later.take k)
          (hu.of_suffix (suffix_history_take _ _ later k)))

/-- A reference that is issued was never live before. -/
theorem not_isLive_before (config : Config) (before : List (Operation α))
    (hu : Unwrapped ((empty config).history [] before)) {x : α} {r : Ref}
    (ha : (((empty config).after before).alloc x).1 = .ok r) (n : Nat) :
    ((empty config).after (before.take n)).isLive r = false := by
  rw [Bool.eq_false_iff]
  intro hl
  have ht := (traced_empty config).after before hu
  have hsplit : (empty config).history [] before =
      ((empty config).after (before.take n)).history
        ((empty config).history [] (before.take n)) (before.drop n) := by
    rw [← history_append, List.take_append_drop]
  have htake := (traced_empty config).after (before.take n)
    (hu.of_suffix (suffix_history_take _ _ before n))
  rw [hsplit] at hu
  have hgeneration := ht.dated.generation_of_alloc ht.sound ha
  rcases isLive_after_or_spent htake (before.drop n) hu hl with hl' | hspent
  · rw [← after_append, List.take_append_drop, not_isLive_of_alloc ht.sound ha] at hl'
    exact Bool.false_ne_true hl'
  · rw [← hsplit, Spent] at hspent
    omega

/-- The references of a run have one lifetime each. -/
structure Lifetimes (config : Config) (ops : List (Operation α)) : Prop where
  mem_issued_iff : ∀ r, r ∈ issued ((empty config).history [] ops) ↔
    ∃ before x later, ops = before ++ .store x :: later ∧
      (((empty config).after before).alloc x).1 = .ok r
  nodup : (issued ((empty config).history [] ops)).Nodup
  bits_ne_zero : ∀ r ∈ issued ((empty config).history [] ops), r.bits ≠ 0
  /-- None before the allocation. -/
  not_before : ∀ before x later r, ops = before ++ .store x :: later →
    (((empty config).after before).alloc x).1 = .ok r →
    ∀ n, ((empty config).after (before.take n)).isLive r = false
  /-- One from the allocation on. -/
  lifetime : ∀ before x later r, ops = before ++ .store x :: later →
    (((empty config).after before).alloc x).1 = .ok r →
    ∃ m, Lifetime (((empty config).after before).alloc x).2 r (headerOf x, x) later m

/-- A stale reference never comes back to life, and it never names a newer object. -/
theorem lifetimes_of_unwrapped (config : Config) (ops : List (Operation α))
    (hu : Unwrapped ((empty config).history [] ops)) : Lifetimes config ops := by
  have ht := (traced_empty config).after ops hu
  refine ⟨fun r => ?_, ht.nodup, ht.bits_ne_zero, ?_, ?_⟩
  · rw [mem_issued_history_iff]
    exact or_iff_right List.not_mem_nil
  · rintro before x later r rfl ha n
    rw [history_append] at hu
    exact not_isLive_before config before (hu.of_suffix (suffix_history _ _ _)) ha n
  · rintro before x later r rfl ha
    rw [history_append] at hu
    have hbefore := (traced_empty config).after before (hu.of_suffix (suffix_history _ _ _))
    exact exists_lifetime (hbefore.apply (.store x) (hu.of_suffix (suffix_history _ _ _))) later hu
      (entry?_of_alloc hbefore.sound.size_le ha)

/-- A leaf, a collection that reclaims it, and a node in the slot that it leaves. -/
def reuse : List (Operation (Session.Obj Unit)) := [.store .leaf, .collect [], .store (.node [])]

theorem lifetimes_of_unwrapped_reuse :
    Unwrapped ((empty {}).history [] reuse) ∧
      issued ((empty {}).history [] reuse) = [⟨0, 2⟩, ⟨0, 1⟩] ∧ Lifetimes {} reuse :=
  have hu : Unwrapped ((empty {}).history [] reuse) := unwrapped_history {} (by decide)
  ⟨hu, rfl, lifetimes_of_unwrapped {} reuse hu⟩

end Lifetime

end PinnedHeap.Heap
