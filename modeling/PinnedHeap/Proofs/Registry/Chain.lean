import PinnedHeap.Proofs.Registry.Ledger

/-!
# Chains of records

The records of a registry are linked in both directions.  `Chained slots prev next l`
says that the entries of `l` lie in their slots, linked one to the next, with `prev`
before the first of them and `next` after the last.  A chain can be cut anywhere
(`chained_append`), and it only depends on the slots of its own entries
(`Chained.frame`).

So a change of the links at one end of a chain is a statement about this chain alone:
`linkForward_chained` and `linkBackward_chained` replace what comes after the last
entry and what comes before the first.

`Spare` is the corresponding chain of the slots that wait for a record.
-/

namespace PinnedHeap.Registry

variable {H : Type}

/-- What an entry looks like in its slot. -/
def Entry.slot (e : Entry H) (prev next : Option Nat) : Slot H :=
  .occupied e.token.generation ⟨e.handle, e.count, prev, next⟩

namespace Ledger

/-- The slot of the first entry. -/
def first (next : Option Nat) : Ledger H → Option Nat
  | [] => next
  | e :: _ => some e.index

/-- The slot of the last entry. -/
def last (prev : Option Nat) : Ledger H → Option Nat
  | [] => prev
  | e :: rest => last (some e.index) rest

theorem first_append (next : Option Nat) (l m : Ledger H) :
    first next (l ++ m) = first (first next m) l := by
  cases l <;> rfl

theorem last_append (prev : Option Nat) (l m : Ledger H) :
    last prev (l ++ m) = last (last prev l) m := by
  induction l generalizing prev with
  | nil => rfl
  | cons e rest ih => exact ih (some e.index)

theorem last_eq (prev : Option Nat) (l : Ledger H) :
    last prev l = (l.map Entry.index).getLast?.or prev := by
  induction l generalizing prev with
  | nil => rfl
  | cons e rest ih => simp [last, ih, List.getLast?_cons]

end Ledger

/-- The entries of a ledger lie in their slots and are linked. -/
def Chained (slots : Array (Slot H)) (prev next : Option Nat) : Ledger H → Prop
  | [] => True
  | e :: rest =>
    slots[e.index]? = some (e.slot prev (Ledger.first next rest)) ∧
      Chained slots (some e.index) next rest

section Chained

variable {slots slots' : Array (Slot H)} {prev next : Option Nat} {l m : Ledger H}
  {e : Entry H}

theorem chained_append : Chained slots prev next (l ++ m) ↔
    Chained slots prev (Ledger.first next m) l ∧ Chained slots (Ledger.last prev l) next m := by
  induction l generalizing prev with
  | nil => exact (and_iff_right trivial).symm
  | cons e rest ih =>
    rw [List.cons_append, Chained, Chained, ih, Ledger.first_append, Ledger.last, and_assoc]

theorem Chained.frame (hc : Chained slots prev next l)
    (hs : ∀ i ∈ l.map Entry.index, slots'[i]? = slots[i]?) : Chained slots' prev next l := by
  induction l generalizing prev with
  | nil => trivial
  | cons e rest ih =>
    rw [List.map_cons, List.forall_mem_cons] at hs
    exact ⟨hs.1 ▸ hc.1, ih hc.2 hs.2⟩

theorem Chained.getElem? (hc : Chained slots prev next l) (he : e ∈ l) :
    ∃ prev' next', slots[e.index]? = some (e.slot prev' next') := by
  obtain ⟨pre, post, rfl⟩ := List.append_of_mem he
  exact ⟨_, _, (chained_append.1 hc).2.1⟩

theorem Chained.lt_size (hc : Chained slots prev next l) (he : e ∈ l) :
    e.index < slots.size := by
  obtain ⟨prev', next', hi⟩ := hc.getElem? he
  exact (Array.getElem?_eq_some_iff.1 hi).1

/-- An entry stands in its slot between its neighbours. -/
theorem Chained.split {pre post : Ledger H} (hc : Chained slots prev next (pre ++ e :: post)) :
    Chained slots prev (some e.index) pre ∧
      slots[e.index]? = some (e.slot (Ledger.last prev pre) (Ledger.first next post)) ∧
      Chained slots (some e.index) next post := chained_append.1 hc

end Chained

/-! ## Changing the ends -/

section Links

variable [Ord H] {r : Registry H} {l : Ledger H} {prev next : Option Nat}

theorem getElem?_setRecord {i : Nat} (hi : i < r.slots.size) (g : Generation) (rec : Record H)
    (j : Nat) : (r.setRecord i g rec).slots[j]? =
      if j = i then some (.occupied g rec) else r.slots[j]? := by
  rw [setRecord, Array.getElem?_setIfInBounds]
  by_cases h : j = i
  · rw [if_pos h.symm, if_pos (h ▸ hi), if_pos h]
  · rw [if_neg (Ne.symm h), if_neg h]

/-- The last record of a chain can be made to point elsewhere.  Without a record it is
the head that points there. -/
theorem linkForward_chained (hc : Chained r.slots none next l)
    (hn : (l.map Entry.index).Nodup) (hhead : r.head = Ledger.first next l)
    (target : Option Nat) :
    ∃ slots, r.linkForward (Ledger.last none l) target =
        .ok { r with slots, head := Ledger.first target l } ∧
      Chained slots none target l ∧ slots.size = r.slots.size ∧
      ∀ i, i ∉ l.map Entry.index → slots[i]? = r.slots[i]? := by
  rcases List.eq_nil_or_concat l with rfl | ⟨init, e, rfl⟩
  · exact ⟨r.slots, rfl, trivial, rfl, fun _ _ => rfl⟩
  · rw [List.concat_eq_append] at *
    obtain ⟨hinit, hslot, -⟩ := hc.split
    have hlt := (Array.getElem?_eq_some_iff.1 hslot).1
    have hlast : Ledger.last none (init ++ [e]) = some e.index := Ledger.last_append _ _ _
    have hfirst : Ledger.first target (init ++ [e]) = r.head := by
      rw [hhead, Ledger.first_append, Ledger.first_append]
      rfl
    rw [List.map_append, List.map_singleton, List.nodup_append] at hn
    refine ⟨(r.setRecord e.index e.token.generation
      ⟨e.handle, e.count, Ledger.last none init, target⟩).slots, ?_, ?_, ?_, ?_⟩
    · rw [hlast, hfirst, linkForward, occupant, hslot]
      rfl
    · rw [chained_append]
      constructor
      · refine hinit.frame fun i hi => ?_
        rw [getElem?_setRecord hlt, if_neg (hn.2.2 i hi _ List.mem_cons_self)]
      · refine ⟨?_, trivial⟩
        rw [getElem?_setRecord hlt, if_pos rfl]
        rfl
    · exact Array.size_setIfInBounds
    · intro i hi
      rw [getElem?_setRecord hlt, if_neg]
      rintro rfl
      exact hi (List.mem_map_of_mem (List.mem_append_right _ List.mem_cons_self))

/-- The first record of a chain can be made to point back elsewhere.  Without a record
it is the tail that points there. -/
theorem linkBackward_chained (hc : Chained r.slots prev none l)
    (hn : (l.map Entry.index).Nodup) (htail : r.tail = Ledger.last prev l)
    (target : Option Nat) :
    ∃ slots, r.linkBackward (Ledger.first none l) target =
        .ok { r with slots, tail := Ledger.last target l } ∧
      Chained slots target none l ∧ slots.size = r.slots.size ∧
      ∀ i, i ∉ l.map Entry.index → slots[i]? = r.slots[i]? := by
  cases l with
  | nil => exact ⟨r.slots, rfl, trivial, rfl, fun _ _ => rfl⟩
  | cons e rest =>
    obtain ⟨hslot, hrest⟩ := hc
    have hlt := (Array.getElem?_eq_some_iff.1 hslot).1
    have hlast : Ledger.last target (e :: rest) = r.tail := htail.symm
    rw [List.map_cons, List.nodup_cons] at hn
    refine ⟨(r.setRecord e.index e.token.generation
      ⟨e.handle, e.count, target, Ledger.first none rest⟩).slots, ?_, ?_, ?_, ?_⟩
    · rw [hlast, Ledger.first, linkBackward, occupant, hslot]
      rfl
    · constructor
      · rw [getElem?_setRecord hlt, if_pos rfl]
        rfl
      · refine hrest.frame fun i hi => ?_
        rw [getElem?_setRecord hlt, if_neg]
        rintro rfl
        exact hn.1 hi
    · exact Array.size_setIfInBounds
    · intro i hi
      rw [getElem?_setRecord hlt, if_neg]
      rintro rfl
      exact hi List.mem_cons_self

/-- The neighbours of a record can be linked to each other, past the record. -/
theorem unlink_chained {pre post : Ledger H} {e : Entry H}
    (hc : Chained r.slots none none (pre ++ e :: post))
    (hn : ((pre ++ e :: post).map Entry.index).Nodup)
    (hhead : r.head = Ledger.first none (pre ++ e :: post))
    (htail : r.tail = Ledger.last none (pre ++ e :: post)) :
    ∃ slots, (r.linkForward (Ledger.last none pre) (Ledger.first none post) >>= fun ahead =>
        ahead.linkBackward (Ledger.first none post) (Ledger.last none pre)) =
          .ok { r with
            slots
            head := Ledger.first none (pre ++ post)
            tail := Ledger.last none (pre ++ post) } ∧
      Chained slots none none (pre ++ post) ∧ slots.size = r.slots.size ∧
      ∀ i, i ∉ (pre ++ post).map Entry.index → slots[i]? = r.slots[i]? := by
  rw [List.map_append, List.map_cons, List.nodup_append, List.nodup_cons] at hn
  obtain ⟨hpre_nodup, ⟨-, hpost_nodup⟩, hdisjoint⟩ := hn
  have hpost_pre : ∀ i ∈ post.map Entry.index, i ∉ pre.map Entry.index :=
    fun i hi hpre => hdisjoint i hpre i (List.mem_cons_of_mem _ hi) rfl
  rw [Ledger.first_append] at hhead ⊢
  rw [Ledger.last_append] at htail ⊢
  obtain ⟨hpre, -, hpost⟩ := hc.split
  obtain ⟨ahead, hahead, hpre', hahead_size, hahead_frame⟩ :=
    linkForward_chained hpre hpre_nodup hhead (Ledger.first none post)
  have hpost' : Chained ahead (some e.index) none post :=
    hpost.frame fun i hi => hahead_frame i (hpost_pre i hi)
  obtain ⟨both, hboth, hpost'', hboth_size, hboth_frame⟩ := linkBackward_chained
    (r := { r with slots := ahead, head := Ledger.first (Ledger.first none post) pre })
    hpost' hpost_nodup htail (Ledger.last none pre)
  refine ⟨both, ?_, ?_, hboth_size.trans hahead_size, fun i hi => ?_⟩
  · rw [hahead]
    exact hboth
  · rw [chained_append]
    exact ⟨hpre'.frame fun i hi => hboth_frame i fun hi' => hpost_pre i hi' hi, hpost''⟩
  · rw [List.map_append, List.mem_append, not_or] at hi
    exact (hboth_frame i hi.2).trans (hahead_frame i hi.1)

end Links

/-! ## Spare slots -/

/-- The slots of a list wait for a record, each leading to the next one. -/
def Spare (slots : Array (Slot H)) : Option Nat → List Nat → Prop
  | head, [] => head = none
  | head, i :: rest =>
    head = some i ∧ ∃ g next, g ≠ 0 ∧ slots[i]? = some (.vacant g next) ∧ Spare slots next rest

section Spare

variable {slots slots' : Array (Slot H)} {head : Option Nat} {free : List Nat}

theorem Spare.frame (hf : Spare slots head free) (hs : ∀ i ∈ free, slots'[i]? = slots[i]?) :
    Spare slots' head free := by
  induction free generalizing head with
  | nil => exact hf
  | cons i rest ih =>
    rw [List.forall_mem_cons] at hs
    obtain ⟨rfl, g, next, hg, hi, hrest⟩ := hf
    exact ⟨rfl, g, next, hg, hs.1 ▸ hi, ih hrest hs.2⟩

theorem Spare.getElem? (hf : Spare slots head free) {i : Nat} (hi : i ∈ free) :
    ∃ g next, g ≠ 0 ∧ slots[i]? = some (.vacant g next) := by
  induction free generalizing head with
  | nil => exact absurd hi List.not_mem_nil
  | cons j rest ih =>
    obtain ⟨-, g, next, hg, hj, hrest⟩ := hf
    rcases List.mem_cons.1 hi with rfl | hi
    · exact ⟨g, next, hg, hj⟩
    · exact ih hrest hi

theorem Chained.not_mem_spare {prev next : Option Nat} {l : Ledger H}
    (hc : Chained slots prev next l) (hf : Spare slots head free) {i : Nat}
    (hi : i ∈ l.map Entry.index) : i ∉ free := by
  intro hfree
  obtain ⟨e, he, rfl⟩ := List.mem_map.1 hi
  obtain ⟨prev', next', hslot⟩ := hc.getElem? he
  obtain ⟨g, nextFree, -, hvacant⟩ := hf.getElem? hfree
  rw [hslot] at hvacant
  exact nomatch hvacant

end Spare

end PinnedHeap.Registry
