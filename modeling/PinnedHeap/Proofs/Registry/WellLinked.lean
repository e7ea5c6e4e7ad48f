import PinnedHeap.Proofs.Heap.FreeList
import PinnedHeap.Proofs.Peak
import PinnedHeap.Proofs.Registry.Turn

/-!
# Well-linked registries

The records of a registry are linked in two directions, the other slots wait in a third list,
and an index leads to the records.  `WellLinked` says how these fit together, in terms of the
registry alone.  A registry that represents a ledger is well linked (`Layout.wellLinked`), and
the check of the links accepts it (`Layout.verify_eq_ok`).

The defects that an operation may report are all but one excluded, since a ledger has no
links that could be wrong.  What is left is an arena that has used up its indices
(`Represents.defect_act`).

The arena grows only when no slot of it is free, so it is as large as the registry was at its
most (`intact_after`).
-/

namespace PinnedHeap.Registry

variable {H : Type} [Ord H]

/-! ## Links that fit together -/

/-- The link in a direction of the record in a slot, if there is a record. -/
def link? (r : Registry H) (d : Direction) (i : Nat) : Option (Option Nat) :=
  (r.record? i).map fun rec => rec.link d

/-- The link of a slot that waits for a record. -/
def spareLink? (r : Registry H) (i : Nat) : Option (Option Nat) :=
  match r.slots[i]? with
  | some (.vacant _ nextFree) => some nextFree
  | _ => none

/-- The slots of the records, in the order of their first hold: the links lead from the head
through all of them, and from the tail through all of them in the opposite order. -/
structure Ordered (r : Registry H) (order : List Nat) : Prop where
  forward : Heap.Visits (r.link? .forward) r.head order
  backward : Heap.Visits (r.link? .backward) r.tail order.reverse
  nodup : order.Nodup
  mem_iff : ∀ i, i ∈ order ↔ (r.record? i).isSome

/-- How the slots, the links and the index of a registry fit together. -/
structure WellLinked (r : Registry H) : Prop where
  ordered : ∃ order, r.Ordered order
  count_pos : ∀ i rec, r.record? i = some rec → 0 < rec.count
  /-- The slots without a record are visited from the head of the free list on, each one
  once, and no other slot is. -/
  hasSpareList : ∃ free, Heap.FreeList r.spareLink? r.freeHead free
  /-- The index leads from the handles of the records to their slots, and from no other
  handle anywhere. -/
  byHandle_iff : ∀ h i, r.byHandle[h]? = some i ↔ ∃ rec, r.record? i = some rec ∧ rec.handle = h

section Chains

variable {r : Registry H} {l : Ledger H}

theorem visits_forward_of_chained {prev : Option Nat} (hc : Chained r.slots prev none l) :
    Heap.Visits (r.link? .forward) (Ledger.first none l) (l.map Entry.index) := by
  induction l generalizing prev with
  | nil => rfl
  | cons e rest ih =>
    refine ⟨rfl, Ledger.first none rest, ?_, ih hc.2⟩
    rw [link?, record?_eq_some_iff.2 ⟨_, hc.1⟩]
    rfl

theorem visits_backward_of_chained {next : Option Nat} (hc : Chained r.slots none next l) :
    Heap.Visits (r.link? .backward) (Ledger.last none l) (l.map Entry.index).reverse := by
  induction l using List.reverseRecOn generalizing next with
  | nil => rfl
  | append_singleton init e ih =>
    obtain ⟨hinit, hslot, -⟩ := hc.split
    rw [Ledger.last_append, List.map_append, List.reverse_append]
    refine ⟨rfl, Ledger.last none init, ?_, ih hinit⟩
    rw [link?, record?_eq_some_iff.2 ⟨_, hslot⟩]
    rfl

theorem spareLink?_eq_some_iff {i : Nat} {nextFree : Option Nat} :
    r.spareLink? i = some nextFree ↔ ∃ g, r.slots[i]? = some (.vacant g nextFree) := by
  rw [spareLink?]
  cases r.slots[i]? with
  | none => simp
  | some slot => cases slot <;> simp

theorem visits_of_spare {head : Option Nat} {free : List Nat} (hf : Spare r.slots head free) :
    Heap.Visits r.spareLink? head free := by
  induction free generalizing head with
  | nil => exact hf
  | cons i rest ih =>
    obtain ⟨rfl, g, next, -, hi, hrest⟩ := hf
    exact ⟨rfl, next, spareLink?_eq_some_iff.2 ⟨g, hi⟩, ih hrest⟩

/-- A walk along links that visit a list of slots does not leave the arena. -/
theorem stray_walk_of_visits {d : Direction} {start : Option Nat} {order : List Nat}
    (hv : Heap.Visits (r.link? d) start order) (n : Nat) : (r.walk d n start).stray = none := by
  induction order generalizing start n with
  | nil =>
    obtain rfl : start = none := hv
    cases n <;> rfl
  | cons i rest ih =>
    obtain ⟨rfl, next, hlink, hrest⟩ := hv
    obtain ⟨rec, hrec, rfl⟩ := Option.map_eq_some_iff.1 hlink
    obtain ⟨g, hslot⟩ := record?_eq_some_iff.1 hrec
    cases n with
    | zero => rfl
    | succ n =>
      rw [walk, hslot]
      exact ih hrest n

end Chains

/-! ## Registries that represent ledgers -/

section Layout

variable [DecidableEq H] {r : Registry H} {l : Ledger H} {free : List Nat}

theorem Layout.mem_map_index_iff (hl : Layout r l free) (i : Nat) :
    i ∈ l.map Entry.index ↔ (r.record? i).isSome := by
  rw [Option.isSome_iff_exists]
  constructor
  · intro hi
    obtain ⟨e, he, rfl⟩ := List.mem_map.1 hi
    obtain ⟨prev, next, hslot⟩ := hl.chained.getElem? he
    exact ⟨_, record?_eq_some_iff.2 ⟨_, hslot⟩⟩
  · rintro ⟨rec, hrec⟩
    obtain ⟨g, hslot⟩ := record?_eq_some_iff.1 hrec
    rcases hl.mem_or_mem (Array.getElem?_eq_some_iff.1 hslot).1 with hi | hi
    · exact hi
    · obtain ⟨g', next, -, hvacant⟩ := hl.spare.getElem? hi
      rw [hslot] at hvacant
      exact nomatch hvacant

theorem Layout.mem_free_iff (hl : Layout r l free) (i : Nat) :
    i ∈ free ↔ (r.spareLink? i).isSome := by
  rw [Option.isSome_iff_exists]
  constructor
  · intro hi
    obtain ⟨g, next, -, hslot⟩ := hl.spare.getElem? hi
    exact ⟨next, spareLink?_eq_some_iff.2 ⟨g, hslot⟩⟩
  · rintro ⟨next, hlink⟩
    obtain ⟨g, hslot⟩ := spareLink?_eq_some_iff.1 hlink
    rcases hl.mem_or_mem (Array.getElem?_eq_some_iff.1 hslot).1 with hi | hi
    · obtain ⟨e, he, rfl⟩ := List.mem_map.1 hi
      obtain ⟨prev, next', hoccupied⟩ := hl.chained.getElem? he
      rw [hslot] at hoccupied
      exact nomatch hoccupied
    · exact hi

/-- A record is that of the entry with its slot. -/
theorem Layout.exists_of_record? (hl : Layout r l free) {i : Nat} {rec : Record H}
    (hrec : r.record? i = some rec) :
    ∃ e ∈ l, e.index = i ∧ rec.handle = e.handle ∧ rec.count = e.count := by
  obtain ⟨e, he, rfl⟩ := List.mem_map.1 ((hl.mem_map_index_iff i).2 (by rw [hrec]; rfl))
  obtain ⟨prev, next, hslot⟩ := hl.chained.getElem? he
  rw [record?_eq_some_iff.2 ⟨_, hslot⟩] at hrec
  obtain rfl := Option.some.inj hrec
  exact ⟨e, he, rfl, rfl, rfl⟩

theorem Layout.byHandle_of_mem (hl : Layout r l free) {e : Entry H} (he : e ∈ l) :
    r.byHandle[e.handle]? = some e.index := by
  obtain ⟨pre, post, rfl⟩ := List.append_of_mem he
  rw [hl.byHandle, Ledger.ofHandle?_split hl.proper]
  rfl

theorem Layout.wellLinked (hl : Layout r l free) : r.WellLinked where
  ordered := ⟨l.map Entry.index,
    { forward := by
        rw [hl.head]
        exact visits_forward_of_chained hl.chained
      backward := by
        rw [hl.tail]
        exact visits_backward_of_chained hl.chained
      nodup := hl.proper.indices
      mem_iff := hl.mem_map_index_iff }⟩
  count_pos i rec hrec := by
    obtain ⟨e, he, -, -, hcount⟩ := hl.exists_of_record? hrec
    rw [hcount]
    exact (hl.proper.counts e he).1
  hasSpareList := ⟨free, visits_of_spare hl.spare, hl.free_nodup, hl.mem_free_iff⟩
  byHandle_iff h i := by
    constructor
    · intro hi
      obtain ⟨pre, e, post, rfl, rfl, rfl⟩ := hl.split_of_byHandle hi
      exact ⟨_, record?_eq_some_iff.2 ⟨_, hl.chained.split.2.1⟩, rfl⟩
    · rintro ⟨rec, hrec, rfl⟩
      obtain ⟨e, he, rfl, hhandle, -⟩ := hl.exists_of_record? hrec
      rw [hhandle]
      exact hl.byHandle_of_mem he

/-! ## The check of the links -/

theorem Layout.coherent (hl : Layout r l free) : r.Coherent (l.map Entry.index) where
  threaded := hl.threaded
  nodup := hl.proper.indices
  tail_eq := hl.tail_eq
  count_pos i _ rec hrec := hl.wellLinked.count_pos i rec hrec
  byHandle_iff h i := by
    rw [hl.wellLinked.byHandle_iff, hl.mem_map_index_iff]
    constructor
    · intro ⟨rec, hrec, hhandle⟩
      exact ⟨by rw [hrec]; rfl, rec, hrec, hhandle⟩
    · exact And.right

theorem Layout.verify_eq_ok [Std.TransOrd H] [Std.LawfulEqOrd H] (hl : Layout r l free) :
    r.verify = .ok () :=
  verify_eq_ok_iff.2 ⟨_, hl.coherent⟩

end Layout

/-! ## Defects -/

/-- The defect of the registry that an answer reports. -/
def Answer.defect? {H : Type} : Answer H → Option Defect
  | .refused (.corruptLinks d) => some d
  | .violated ⟨.corruptLinks d⟩ => some d
  | _ => none

section Defects

variable [DecidableEq H] {r : Registry H} {l : Ledger H}

omit [Ord H] in
/-- A ledger has no links that could be wrong. -/
theorem Ledger.defect_act {fresh : Token} {op : Operation H} {d : Defect}
    (hd : (l.act fresh op).1.defect? = some d) : d = .exhausted ∧ indexLimit ≤ l.length := by
  cases op with
  | acquire h =>
    rw [Ledger.act, Ledger.acquire] at hd
    cases he : l.ofHandle? h with
    | some e =>
      simp only [he] at hd
      split at hd <;> cases hd
    | none =>
      simp only [he] at hd
      split at hd
      · cases hd
      · rename_i hlt
        exact ⟨(Option.some.inj hd).symm, Nat.le_of_not_lt hlt⟩
  | tryRelease t | release t =>
    rw [Ledger.act, Ledger.release] at hd
    cases he : l.ofToken? t <;> rw [he] at hd <;> cases hd
  | tryReleaseHandle h | releaseHandle h =>
    rw [Ledger.act, Ledger.releaseHandle] at hd
    cases he : l.ofHandle? h <;> rw [he] at hd <;> cases hd

/-- The only defect an operation can report is that all indices are in use. -/
theorem Represents.defect_act [Std.TransOrd H] [Std.LawfulEqOrd H] (hr : Represents r l)
    {op : Operation H} {d : Defect} (hd : (r.act op).1.defect? = some d) :
    d = .exhausted ∧ r.size = indexLimit := by
  obtain ⟨fresh, -, hanswer, -⟩ := hr.act op
  rw [hanswer] at hd
  obtain ⟨rfl, hle⟩ := Ledger.defect_act hd
  obtain ⟨free, hl⟩ := hr
  refine ⟨rfl, ?_⟩
  have hsize : r.size = l.length := hl.size
  have hslots := hl.slots_size
  have hlimit := hl.size_le
  omega

end Defects

/-! ## Runs -/

section Runs

variable [DecidableEq H] [Std.TransOrd H] {r : Registry H} {l : Ledger H} {free : List Nat}

omit [Std.TransOrd H] in
/-- Without a free slot there are as many slots as records. -/
theorem Layout.size_eq_of_freeHead (hl : Layout r l free) (hhead : r.freeHead = none) :
    r.size = r.slots.size := by
  have hspare := hl.spare
  rw [hhead] at hspare
  have hsize : r.size = l.length := hl.size
  cases free with
  | nil => rw [hsize, hl.slots_size, List.length_nil, Nat.add_zero]
  | cons i rest => exact nomatch hspare.1

variable [Std.LawfulEqOrd H]

theorem represents_act (r : Registry H) (op : Operation H) (hr : ∃ l, Represents r l) :
    ∃ l, Represents (r.act op).2 l := by
  obtain ⟨l, hr⟩ := hr
  obtain ⟨fresh, -, -, hr'⟩ := hr.act op
  exact ⟨_, hr'⟩

theorem represents_after (ops : List (Operation H)) :
    ∃ l, Represents (({} : Registry H).after ops) l :=
  ops.foldlRecOn _ ⟨[], represents_empty⟩ fun r hr op _ => represents_act r op hr

/-- The registry was never larger than the arena, and at some time it was as large. -/
theorem size_peak (ops : List (Operation H)) :
    (∀ n, (({} : Registry H).after (ops.take n)).size ≤ (({} : Registry H).after ops).slots.size) ∧
      ∃ n ≤ ops.length, (({} : Registry H).after (ops.take n)).size =
        (({} : Registry H).after ops).slots.size := by
  refine peak_foldl size (fun r : Registry H => r.slots.size) represents_act ?_ ?_
    ⟨[], represents_empty⟩ rfl ops
  · rintro r ⟨l, free, hl⟩
    have hsize : r.size = l.length := hl.size
    have hslots := hl.slots_size
    omega
  · rintro r op hr
    obtain ⟨l, free, hl⟩ := represents_act r op hr
    rcases (turned_act r op).size with hsame | ⟨hmore, hhead⟩
    · exact Or.inl hsame
    · exact Or.inr ⟨by omega, hl.size_eq_of_freeHead hhead⟩

end Runs

/-- A registry that nothing is wrong with, after some operations on an empty one. -/
structure Intact (ops : List (Operation H)) (r : Registry H) : Prop where
  wellLinked : r.WellLinked
  /-- The arena is as large as the registry was at its most. -/
  peak_le : ∀ n, (({} : Registry H).after (ops.take n)).size ≤ r.slots.size
  peak_eq : ∃ n ≤ ops.length, (({} : Registry H).after (ops.take n)).size = r.slots.size
  verify_eq_ok : r.verify = .ok ()
  /-- No walk leaves the arena. -/
  stray_forward : ∀ n, (r.walk .forward n r.head).stray = none
  stray_backward : ∀ n, (r.walk .backward n r.tail).stray = none
  /-- No operation finds anything wrong, as long as an index is left. -/
  defect_act : ∀ op d, (r.act op).1.defect? = some d → d = .exhausted ∧ r.size = indexLimit

/-- After any operations on an empty registry, failed ones among them, its slots, links and
index fit together. -/
theorem intact_after [DecidableEq H] [Std.TransOrd H] [Std.LawfulEqOrd H]
    (ops : List (Operation H)) : Intact ops (({} : Registry H).after ops) := by
  obtain ⟨l, hr⟩ := represents_after ops
  obtain ⟨hpeak_le, hpeak_eq⟩ := size_peak ops
  obtain ⟨free, hl⟩ := id hr
  obtain ⟨order, hordered⟩ := hl.wellLinked.ordered
  exact
    { wellLinked := hl.wellLinked
      peak_le := hpeak_le
      peak_eq := hpeak_eq
      verify_eq_ok := hl.verify_eq_ok
      stray_forward := stray_walk_of_visits hordered.forward
      stray_backward := stray_walk_of_visits hordered.backward
      defect_act := fun _ _ hd => hr.defect_act hd }

/-- Three handles, releases of the middle and of the first one, and a new handle in a slot
that was left. -/
theorem intact_after_nat :
    Std.TransOrd Nat ∧ Std.LawfulEqOrd Nat ∧
      Intact [.acquire 7, .acquire 8, .acquire 9, .releaseHandle 8, .tryRelease ⟨0, 1⟩,
          .release ⟨0, 1⟩, .acquire 5]
        (({} : Registry Nat).after [.acquire 7, .acquire 8, .acquire 9, .releaseHandle 8,
          .tryRelease ⟨0, 1⟩, .release ⟨0, 1⟩, .acquire 5]) :=
  ⟨inferInstance, inferInstance, intact_after _⟩

end PinnedHeap.Registry
