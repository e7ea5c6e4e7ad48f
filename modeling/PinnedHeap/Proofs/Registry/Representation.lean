import Mathlib.Data.List.Perm.Subperm
import PinnedHeap.Proofs.Registry.Chain

/-!
# Registries represent ledgers

`Layout r l free` says how a registry stores a ledger: the entries are chained from
head to tail, the slots in `free` are chained from the head of the free list, there are
no other slots, and the index leads from each handle to the slot of its entry.

Each operation of a registry has one lemma here.  It follows the operation of the
ledger with the same name: both succeed and the results are related again, or both
fail for the same reason (`Agree`).
-/

namespace PinnedHeap.Registry

variable {H : Type} [Ord H] [DecidableEq H]

/-- How a registry stores a ledger. -/
structure Layout (r : Registry H) (l : Ledger H) (free : List Nat) : Prop where
  proper : l.Proper
  head : r.head = Ledger.first none l
  tail : r.tail = Ledger.last none l
  chained : Chained r.slots none none l
  spare : Spare r.slots r.freeHead free
  free_nodup : free.Nodup
  slots_size : r.slots.size = l.length + free.length
  size_le : r.slots.size ≤ indexLimit
  byHandle : ∀ h, r.byHandle[h]? = (l.ofHandle? h).map Entry.index
  size : r.byHandle.size = l.length

/-- A registry that stores a ledger. -/
def Represents (r : Registry H) (l : Ledger H) : Prop := ∃ free, Layout r l free

/-- Two results that are related, or one and the same failure. -/
inductive Agree {ε β γ : Type} (R : β → γ → Prop) : Except ε β → Except ε γ → Prop where
  | ok {b c} : R b c → Agree R (.ok b) (.ok c)
  | error (e) : Agree R (.error e) (.error e)

theorem represents_empty [Std.TransOrd H] : Represents ({} : Registry H) [] :=
  ⟨[], { proper := Ledger.proper_nil
         head := rfl
         tail := rfl
         chained := trivial
         spare := rfl
         free_nodup := List.nodup_nil
         slots_size := rfl
         size_le := Nat.zero_le _
         byHandle := fun _ => Std.TreeMap.getElem?_emptyc
         size := rfl }⟩

section Layout

variable {r : Registry H} {l pre post : Ledger H} {free : List Nat} {e : Entry H}

theorem Layout.occupant (hl : Layout r (pre ++ e :: post) free) :
    r.occupant e.index = .ok (e.token.generation,
      ⟨e.handle, e.count, Ledger.last none pre, Ledger.first none post⟩) := by
  rw [Registry.occupant, hl.chained.split.2.1]
  rfl

theorem Layout.index_lt (hl : Layout r l free) (he : e ∈ l) : e.index < r.slots.size :=
  hl.chained.lt_size he

/-! ## Counting -/

/-- A record may be given another positive count. -/
theorem Layout.recount (hl : Layout r (pre ++ e :: post) free) {n : Nat} (hn : 0 < n)
    (hlt : n < countLimit) :
    Layout (r.setRecord e.index e.token.generation
        ⟨e.handle, n, Ledger.last none pre, Ledger.first none post⟩)
      (pre ++ { e with count := n } :: post) free := by
  have hmem : e ∈ pre ++ e :: post := List.mem_append_right _ List.mem_cons_self
  have hsize := hl.index_lt hmem
  have hnodup := hl.proper.indices
  rw [List.map_append, List.map_cons, List.nodup_append, List.nodup_cons] at hnodup
  obtain ⟨hpre, hslot, hpost⟩ := hl.chained.split
  exact
    { proper := hl.proper.recount hn hlt
      head := by
        rw [show (r.setRecord _ _ _).head = r.head from rfl, hl.head, Ledger.first_append,
          Ledger.first_append]
        rfl
      tail := by
        rw [show (r.setRecord _ _ _).tail = r.tail from rfl, hl.tail, Ledger.last_append,
          Ledger.last_append]
        rfl
      chained := by
        rw [chained_append]
        refine ⟨hpre.frame fun i hi => ?_, ?_, hpost.frame fun i hi => ?_⟩
        · rw [getElem?_setRecord hsize, if_neg (hnodup.2.2 i hi _ List.mem_cons_self)]
        · rw [show Entry.index { e with count := n } = e.index from rfl,
            getElem?_setRecord hsize, if_pos rfl]
          rfl
        · rw [getElem?_setRecord hsize, if_neg]
          rintro rfl
          exact hnodup.2.1.1 hi
      spare := by
        refine hl.spare.frame fun i hi => ?_
        rw [getElem?_setRecord hsize, if_neg]
        rintro rfl
        exact hl.chained.not_mem_spare hl.spare (List.mem_map_of_mem hmem) hi
      free_nodup := hl.free_nodup
      slots_size := by
        rw [setRecord, Array.size_setIfInBounds, hl.slots_size, List.length_append,
          List.length_append, List.length_cons, List.length_cons]
      size_le := by
        rw [setRecord, Array.size_setIfInBounds]
        exact hl.size_le
      byHandle := by
        intro h
        rw [Ledger.ofHandle?_recount]
        exact hl.byHandle h
      size := by
        rw [show (r.setRecord _ _ _).byHandle = r.byHandle from rfl, hl.size,
          List.length_append, List.length_append, List.length_cons, List.length_cons] }

/-! ## Unlinking -/

theorem Layout.unlink [Std.TransOrd H] [Std.LawfulEqOrd H]
    (hl : Layout r (pre ++ e :: post) free) :
    ∃ r', r.unlink e.index e.token.generation
        ⟨e.handle, e.count, Ledger.last none pre, Ledger.first none post⟩ = .ok r' ∧
      Layout r' (pre ++ post) (e.index :: free) := by
  have hmem : e ∈ pre ++ e :: post := List.mem_append_right _ List.mem_cons_self
  have hperm : List.Perm (pre ++ e :: post) (e :: (pre ++ post)) := List.perm_middle
  have he : e.index ∉ (pre ++ post).map Entry.index := by
    have hnodup := (hperm.map Entry.index).nodup_iff.1 hl.proper.indices
    exact (List.nodup_cons.1 hnodup).1
  obtain ⟨slots, hlinks, hchained, hsize, hframe⟩ :=
    unlink_chained hl.chained hl.proper.indices hl.head hl.tail
  have hframe' : ∀ i, i ≠ e.index → (slots.setIfInBounds e.index
      (.vacant (Generation.next e.token.generation) r.freeHead))[i]? = slots[i]? := by
    intro i hi
    rw [Array.getElem?_setIfInBounds, if_neg (Ne.symm hi)]
  refine ⟨_, by rw [Registry.unlink, ← bind_assoc, hlinks]; rfl, ?_⟩
  exact
    { proper := hl.proper.sublist (List.Sublist.append_left (List.sublist_cons_self e post) pre)
      head := rfl
      tail := rfl
      chained := hchained.frame fun i hi => hframe' i fun heq => he (heq ▸ hi)
      spare := by
        refine ⟨rfl, Generation.next e.token.generation, r.freeHead,
          Generation.next_ne_zero _, ?_, ?_⟩
        · exact Array.getElem?_setIfInBounds_self_of_lt (hsize ▸ hl.index_lt hmem)
        · refine hl.spare.frame fun i hi => ?_
          have hocc : i ∉ (e :: (pre ++ post)).map Entry.index := by
            rw [← (hperm.map Entry.index).mem_iff]
            exact fun hi' => hl.chained.not_mem_spare hl.spare hi' hi
          rw [List.map_cons, List.mem_cons, not_or] at hocc
          rw [hframe' i hocc.1, hframe i hocc.2]
      free_nodup := List.nodup_cons.2
        ⟨hl.chained.not_mem_spare hl.spare (List.mem_map_of_mem hmem), hl.free_nodup⟩
      slots_size := by
        have hlength := hl.slots_size
        rw [hperm.length_eq, List.length_cons] at hlength
        rw [Array.size_setIfInBounds, hsize, List.length_cons]
        omega
      size_le := by
        rw [Array.size_setIfInBounds, hsize]
        exact hl.size_le
      byHandle := by
        intro h
        rw [Std.TreeMap.getElem?_erase, Ledger.ofHandle?_remove hl.proper, hl.byHandle]
        simp only [Std.LawfulEqOrd.compare_eq_iff_eq]
        split <;> rfl
      size := by
        rw [Std.TreeMap.size_erase, Std.TreeMap.contains_eq_isSome_getElem?, hl.byHandle,
          Ledger.ofHandle?_split hl.proper, hl.size, hperm.length_eq]
        rfl }

/-! ## Appending -/

/-- A record lies in a slot that held none, and the rest is as it was. -/
structure Placed (r : Registry H) (l : Ledger H) (rec : Record H) (t : Token)
    (slots : Array (Slot H)) (freeHead : Option Nat) (free : List Nat) : Prop where
  fresh : t.slot.toNat ∉ l.map Entry.index
  generation : t.generation ≠ 0
  slot : slots[t.slot.toNat]? = some (.occupied t.generation rec)
  frame : ∀ i ∈ l.map Entry.index, slots[i]? = r.slots[i]?
  spare : Spare slots freeHead free
  free_nodup : free.Nodup
  slots_size : slots.size = l.length + 1 + free.length
  size_le : slots.size ≤ indexLimit

theorem Layout.place_first (hl : Layout r l []) (hlt : l.length < indexLimit) (rec : Record H) :
    ∃ t : Token, ∃ slots, r.place rec = .ok (t.slot.toNat, t.generation, { r with slots }) ∧
      Placed r l rec t slots r.freeHead [] := by
  have hsize : r.slots.size = l.length := hl.slots_size
  have hnone : r.freeHead = none := hl.spare
  have htoNat : (UInt32.ofNat r.slots.size).toNat = r.slots.size :=
    UInt32.toNat_ofNat_of_lt' (hsize ▸ hlt)
  refine ⟨⟨UInt32.ofNat r.slots.size, Generation.first⟩,
    r.slots.push (.occupied Generation.first rec), ?_, ?_⟩
  · rw [Registry.place, hnone]
    simp only
    rw [if_pos (hsize ▸ hlt), htoNat]
  · exact
      { fresh := by
          rw [htoNat]
          intro hi
          obtain ⟨e, he, heq⟩ := List.mem_map.1 hi
          exact absurd (hl.index_lt he) (heq ▸ Nat.lt_irrefl _)
        generation := Generation.first_ne_zero
        slot := by rw [htoNat, Array.getElem?_push_size]
        frame := by
          intro i hi
          obtain ⟨e, he, rfl⟩ := List.mem_map.1 hi
          rw [Array.getElem?_push, if_neg (Nat.ne_of_lt (hl.index_lt he))]
        spare := hnone
        free_nodup := List.nodup_nil
        slots_size := by rw [Array.size_push, hsize]; rfl
        size_le := by rw [Array.size_push, hsize]; exact hlt }

theorem Layout.place_again {i : Nat} (hl : Layout r l (i :: free)) (rec : Record H) :
    ∃ t : Token, ∃ slots freeHead,
      r.place rec = .ok (t.slot.toNat, t.generation, { r with slots, freeHead }) ∧
        Placed r l rec t slots freeHead free := by
  obtain ⟨hhead, g, next, hg, hi, hrest⟩ := hl.spare
  have hilt := (Array.getElem?_eq_some_iff.1 hi).1
  have htoNat : (UInt32.ofNat i).toNat = i :=
    UInt32.toNat_ofNat_of_lt' (Nat.lt_of_lt_of_le hilt hl.size_le)
  have hnodup := List.nodup_cons.1 hl.free_nodup
  have hocc : i ∉ l.map Entry.index :=
    fun hocc => hl.chained.not_mem_spare hl.spare hocc List.mem_cons_self
  refine ⟨⟨UInt32.ofNat i, g⟩, (r.setRecord i g rec).slots, next, ?_, ?_⟩
  · rw [Registry.place, hhead]
    simp only
    rw [hi, htoNat]
    rfl
  · exact
      { fresh := by rw [htoNat]; exact hocc
        generation := hg
        slot := by rw [htoNat, getElem?_setRecord hilt, if_pos rfl]
        frame := by
          intro j hj
          rw [getElem?_setRecord hilt, if_neg]
          rintro rfl
          exact hocc hj
        spare := by
          refine hrest.frame fun j hj => ?_
          rw [getElem?_setRecord hilt, if_neg]
          rintro rfl
          exact hnodup.1 hj
        free_nodup := hnodup.2
        slots_size := by
          rw [setRecord, Array.size_setIfInBounds, hl.slots_size, List.length_cons]
          omega
        size_le := by
          rw [setRecord, Array.size_setIfInBounds]
          exact hl.size_le }

/-- As long as not all indices are in use, there is a slot for another record. -/
theorem Layout.place (hl : Layout r l free) (hlt : l.length < indexLimit) (rec : Record H) :
    ∃ t : Token, ∃ slots freeHead free',
      r.place rec = .ok (t.slot.toNat, t.generation, { r with slots, freeHead }) ∧
        Placed r l rec t slots freeHead free' := by
  cases free with
  | nil =>
    obtain ⟨t, slots, hplace, hplaced⟩ := hl.place_first hlt rec
    exact ⟨t, slots, r.freeHead, [], hplace, hplaced⟩
  | cons i free' =>
    obtain ⟨t, slots, freeHead, hplace, hplaced⟩ := hl.place_again rec
    exact ⟨t, slots, freeHead, free', hplace, hplaced⟩

theorem Layout.append [Std.TransOrd H] [Std.LawfulEqOrd H] (hl : Layout r l free)
    (hlt : l.length < indexLimit) {h : H} (hh : l.ofHandle? h = none) :
    ∃ t r' free', r.append h = .ok (t, r') ∧ t ∉ l.map Entry.token ∧
      Layout r' (l ++ [⟨h, 1, t⟩]) free' := by
  obtain ⟨t, slots, freeHead, free', hplace, hp⟩ :=
    hl.place hlt { handle := h, count := 1, prev := r.tail, next := none }
  have hchained : Chained slots none none l := hl.chained.frame hp.frame
  obtain ⟨slots', hlink, hchained', hsize', hframe'⟩ := linkForward_chained
    (r := { r with slots, freeHead }) hchained hl.proper.indices hl.head (some t.slot.toNat)
  have happend : r.append h = .ok (t,
      { slots := slots', freeHead, head := Ledger.first (some t.slot.toNat) l
        tail := some t.slot.toNat, byHandle := r.byHandle.insert h t.slot.toNat }) := by
    rw [← hl.tail] at hlink
    rw [Registry.append, hplace]
    simp only [bind, Except.bind]
    rw [hlink]
    simp only [UInt32.ofNat_toNat]
  refine ⟨t, _, free', happend, ?_, ?_⟩
  · intro hmem
    obtain ⟨e, he, rfl⟩ := List.mem_map.1 hmem
    exact hp.fresh (List.mem_map_of_mem he)
  · exact
      { proper := hl.proper.append (Ledger.ofHandle?_eq_none_iff.1 hh) hp.fresh hp.generation
        head := by
          rw [Ledger.first_append]
          rfl
        tail := by
          rw [Ledger.last_append]
          rfl
        chained := by
          rw [chained_append]
          refine ⟨hchained', ?_, trivial⟩
          rw [show Entry.index ⟨h, 1, t⟩ = t.slot.toNat from rfl, hframe' _ hp.fresh, ← hl.tail]
          exact hp.slot
        spare := hp.spare.frame fun i hi => hframe' i fun hocc =>
          hchained.not_mem_spare hp.spare hocc hi
        free_nodup := hp.free_nodup
        slots_size := by
          rw [hsize', List.length_append]
          exact hp.slots_size
        size_le := hsize' ▸ hp.size_le
        byHandle := by
          intro h'
          rw [Std.TreeMap.getElem?_insert, Ledger.ofHandle?_concat, hl.byHandle]
          simp only [Std.LawfulEqOrd.compare_eq_iff_eq]
          by_cases heq : h = h'
          · rw [if_pos heq, if_pos heq, ← heq, hh]
            rfl
          · rw [if_neg heq, if_neg heq, Option.or_none]
        size := by
          rw [Std.TreeMap.size_insert, Std.TreeMap.contains_eq_isSome_getElem?, hl.byHandle, hh,
            hl.size, List.length_append]
          rfl }

theorem Layout.append_exhausted (hl : Layout r l free) (hlt : ¬ l.length < indexLimit) (h : H) :
    r.append h = .error (.corruptLinks .exhausted) := by
  have hsize := hl.slots_size
  have hle := hl.size_le
  have hfree : free = [] := List.eq_nil_of_length_eq_zero (by omega)
  have hnone : r.freeHead = none := by
    have hspare := hl.spare
    rw [hfree] at hspare
    exact hspare
  rw [Registry.append, Registry.place, hnone]
  simp only
  rw [if_neg (by omega)]
  rfl

/-! ## The operations -/

theorem Layout.split_of_byHandle {h : H} {i : Nat} (hl : Layout r l free)
    (hi : r.byHandle[h]? = some i) :
    ∃ pre e post, l = pre ++ e :: post ∧ e.handle = h ∧ e.index = i := by
  rw [hl.byHandle, Option.map_eq_some_iff] at hi
  obtain ⟨e, he, hindex⟩ := hi
  obtain ⟨pre, post, hsplit⟩ := List.append_of_mem (List.mem_of_find?_eq_some he)
  exact ⟨pre, e, post, hsplit, by simpa using List.find?_some he, hindex⟩

theorem Layout.ofHandle?_eq_none {h : H} (hl : Layout r l free) (hi : r.byHandle[h]? = none) :
    l.ofHandle? h = none := by
  rw [hl.byHandle, Option.map_eq_none_iff] at hi
  exact hi

theorem Layout.countUp (hl : Layout r (pre ++ e :: post) free) (fresh : Token) :
    Agree (fun x y => x.1 = y.1 ∧ Represents x.2 y.2) (r.countUp e.handle e.index)
      (Ledger.acquire (pre ++ e :: post) fresh e.handle) := by
  rw [Registry.countUp, hl.occupant, Ledger.acquire, Ledger.ofHandle?_split hl.proper]
  simp only [bind, Except.bind]
  by_cases hlt : e.count + 1 < countLimit
  · rw [if_pos hlt, if_pos hlt, Ledger.adjust_split hl.proper.singles_handle]
    refine .ok ⟨?_, free, hl.recount (Nat.succ_pos _) hlt⟩
    rw [Entry.index, UInt32.ofNat_toNat]
  · rw [if_neg hlt, if_neg hlt]
    exact .error _

theorem Layout.countDown [Std.TransOrd H] [Std.LawfulEqOrd H]
    (hl : Layout r (pre ++ e :: post) free) :
    ∃ r', r.countDown e.index = .ok r' ∧ Represents r' (pre ++ (e.lower.toList ++ post)) := by
  have hmem : e ∈ pre ++ e :: post := List.mem_append_right _ List.mem_cons_self
  obtain ⟨hpos, hlt⟩ := hl.proper.counts e hmem
  rw [Registry.countDown, hl.occupant]
  simp only [bind, Except.bind]
  match hcount : e.count with
  | 0 => exact absurd hpos (hcount ▸ Nat.lt_irrefl 0)
  | 1 =>
    obtain ⟨r', hunlink, hl'⟩ := hl.unlink
    rw [hcount] at hunlink
    refine ⟨r', hunlink, e.index :: free, ?_⟩
    rw [Entry.lower, if_pos (Nat.le_of_eq hcount)]
    exact hl'
  | n + 2 =>
    refine ⟨_, rfl, free, ?_⟩
    rw [Entry.lower, if_neg (by omega), hcount]
    exact hl.recount (Nat.succ_pos n) (by omega)

theorem Layout.mem_or_mem (hl : Layout r l free) {i : Nat} (hi : i < r.slots.size) :
    i ∈ l.map Entry.index ∨ i ∈ free := by
  have hnodup : (l.map Entry.index ++ free).Nodup :=
    hl.proper.indices.append hl.free_nodup fun j hj => hl.chained.not_mem_spare hl.spare hj
  have hsub : (l.map Entry.index ++ free) ⊆ List.range r.slots.size := by
    intro j hj
    rw [List.mem_range]
    rcases List.mem_append.1 hj with hj | hj
    · obtain ⟨e, he, rfl⟩ := List.mem_map.1 hj
      exact hl.index_lt he
    · obtain ⟨g, next, -, hslot⟩ := hl.spare.getElem? hj
      exact (Array.getElem?_eq_some_iff.1 hslot).1
  have hlength : (List.range r.slots.size).length = (l.map Entry.index ++ free).length := by
    rw [List.length_range, List.length_append, List.length_map, hl.slots_size]
  have hperm := (List.subperm_of_subset hnodup hsub).perm_of_length_le (Nat.le_of_eq hlength)
  rw [← List.mem_append, hperm.mem_iff, List.mem_range]
  exact hi

/-- A token finds a record exactly if it is the token of an entry. -/
theorem Layout.occupied_iff (hl : Layout r l free) (t : Token) :
    (∃ rec, r.slots[t.slot.toNat]? = some (.occupied t.generation rec)) ↔
      t ∈ l.map Entry.token := by
  constructor
  · rintro ⟨rec, hslot⟩
    rcases hl.mem_or_mem (Array.getElem?_eq_some_iff.1 hslot).1 with hocc | hfree
    · obtain ⟨e, he, hindex⟩ := List.mem_map.1 hocc
      obtain ⟨prev, next, hslot'⟩ := hl.chained.getElem? he
      rw [hindex, hslot] at hslot'
      obtain ⟨hgen, -⟩ := Slot.occupied.inj (Option.some.inj hslot')
      have htoken : e.token = t := by
        obtain ⟨slot, generation⟩ := t
        obtain ⟨h, n, ⟨slot', generation'⟩⟩ := e
        exact congrArg₂ Token.mk (UInt32.toNat_inj.1 hindex) hgen.symm
      exact htoken ▸ List.mem_map_of_mem he
    · obtain ⟨g, next, -, hslot'⟩ := hl.spare.getElem? hfree
      rw [hslot] at hslot'
      exact nomatch hslot'
  · intro hmem
    obtain ⟨e, he, rfl⟩ := List.mem_map.1 hmem
    obtain ⟨prev, next, hslot⟩ := hl.chained.getElem? he
    exact ⟨_, hslot⟩

theorem Represents.proper (hr : Represents r l) : l.Proper := by
  obtain ⟨free, hl⟩ := hr
  exact hl.proper

theorem Represents.null_not_mem (hr : Represents r l) : Token.null ∉ l.map Entry.token := by
  obtain ⟨free, hl⟩ := hr
  intro hmem
  obtain ⟨e, he, heq⟩ := List.mem_map.1 hmem
  exact hl.proper.generations e he (heq ▸ rfl)

end Layout

section Operations

variable [Std.TransOrd H] [Std.LawfulEqOrd H] {r : Registry H} {l : Ledger H}

/-- A hold agrees with the ledger, for a token that no entry has. -/
theorem Represents.acquire (hr : Represents r l) (h : H) :
    ∃ fresh, fresh ∉ l.map Entry.token ∧
      Agree (fun x y => x.1 = y.1 ∧ Represents x.2 y.2) (r.acquire h) (l.acquire fresh h) := by
  have hnull := hr.null_not_mem
  obtain ⟨free, hl⟩ := hr
  cases hi : r.byHandle[h]? with
  | some i =>
    obtain ⟨pre, e, post, rfl, rfl, rfl⟩ := hl.split_of_byHandle hi
    refine ⟨Token.null, hnull, ?_⟩
    rw [Registry.acquire, hi]
    exact hl.countUp Token.null
  | none =>
    have hnone := hl.ofHandle?_eq_none hi
    by_cases hlt : l.length < indexLimit
    · obtain ⟨t, r', free', happend, hfresh, hl'⟩ := hl.append hlt hnone
      refine ⟨t, hfresh, ?_⟩
      rw [Registry.acquire, hi, Ledger.acquire, hnone]
      simp only
      rw [happend, if_pos hlt]
      exact .ok ⟨rfl, free', hl'⟩
    · refine ⟨Token.null, hnull, ?_⟩
      rw [Registry.acquire, hi, Ledger.acquire, hnone]
      simp only
      rw [hl.append_exhausted hlt, if_neg hlt]
      exact .error _

theorem Represents.releaseHandle (hr : Represents r l) (h : H) :
    Agree Represents (r.releaseHandle h) (l.releaseHandle h) := by
  obtain ⟨free, hl⟩ := hr
  cases hi : r.byHandle[h]? with
  | some i =>
    obtain ⟨pre, e, post, rfl, rfl, rfl⟩ := hl.split_of_byHandle hi
    obtain ⟨r', hdown, hr'⟩ := hl.countDown
    rw [Registry.releaseHandle, hi, Ledger.releaseHandle, Ledger.ofHandle?_split hl.proper]
    simp only
    rw [hdown, Ledger.adjust_split hl.proper.singles_handle]
    exact .ok hr'
  | none =>
    have hnone := hl.ofHandle?_eq_none hi
    rw [Registry.releaseHandle, hi, Ledger.releaseHandle, hnone]
    exact .error _

/-- A release by token agrees with the ledger, whatever the token. -/
theorem Represents.release (hr : Represents r l) (t : Token) :
    Agree Represents (r.release t) (l.release t) := by
  obtain ⟨free, hl⟩ := hr
  cases ht : l.ofToken? t with
  | some e =>
    obtain ⟨pre, post, rfl⟩ := List.append_of_mem (List.mem_of_find?_eq_some ht)
    obtain rfl : e.token = t := by simpa using List.find?_some ht
    obtain ⟨r', hdown, hr'⟩ := hl.countDown
    have hslot := hl.chained.split.2.1
    rw [Registry.release, ← Entry.index, hslot, Ledger.release, ht]
    simp only [Entry.slot, if_true]
    rw [hdown, Ledger.adjust_split hl.proper.singles_token]
    exact .ok hr'
  | none =>
    have hunknown : r.release t = .error (.unknownToken t) := by
      rw [Registry.release]
      split
      · rename_i g rec hslot
        rw [if_neg]
        rintro rfl
        have hmem := (hl.occupied_iff t).1 ⟨rec, hslot⟩
        rw [Ledger.ofToken?_eq_none_iff] at ht
        exact ht hmem
      · rfl
    rw [hunknown, Ledger.release, ht]
    exact .error _

end Operations

end PinnedHeap.Registry
