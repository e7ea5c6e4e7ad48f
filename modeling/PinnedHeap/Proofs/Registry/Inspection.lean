import Mathlib.Data.List.Nodup
import Mathlib.Data.List.Perm.Subperm
import PinnedHeap.Registry.Links

/-!
# What the check of the links decides

`verify` reads links that may lead anywhere, so nothing is assumed here about the registry: its
slots, its ends, its links and its index are arbitrary.  `Coherent r order` says that links and
index fit together, without mentioning the check.  The check accepts a registry exactly if there
is such an order (`verify_eq_ok_iff`), and what it reports otherwise is found by the forward walk
(`verify_error`).

Three facts carry the proof.

* A thread that ends repeats no slot (`Threaded.nodup`).  A slot determines the rest of its
  thread, so a slot that came twice would have a rest shorter than itself.
* The forward walk compares nothing but numbers of records with the index, yet no handle of the
  index can be missed.  Each record is filed under a slot of its own, so the records have
  different handles, and as many of them as the index holds are all of them
  (`coherent_of_length`).
* Along a thread that was followed forward the links lead back the same way
  (`Threaded.walk_backward`).  So the backward walk stays inside the arena and has the right
  length whenever it is reached (`Coherent.inspect_eq_ok`).
-/

namespace PinnedHeap.Registry

variable {H : Type} [Ord H] {r : Registry H} {prev cursor : Option Nat} {order : List Nat}

theorem record?_eq_some_iff {i : Nat} {rec : Record H} :
    r.record? i = some rec ↔ ∃ g, r.slots[i]? = some (.occupied g rec) := by
  rw [record?]
  cases r.slots[i]? with
  | none => simp
  | some slot => cases slot <;> simp

/-! ## Threads -/

/-- From `cursor` on the links lead forward through the slots of a list, and then they end.  Every
slot holds a record that points back at the slot before it, the first one at `prev`. -/
def Threaded (r : Registry H) : (prev cursor : Option Nat) → List Nat → Prop
  | _, cursor, [] => cursor = none
  | prev, cursor, i :: rest =>
    cursor = some i ∧ ∃ rec, r.record? i = some rec ∧ rec.prev = prev ∧
      r.Threaded (some i) rec.next rest

/-- The rest of a thread is a thread. -/
theorem Threaded.of_append {pre post : List Nat} (ht : r.Threaded prev cursor (pre ++ post)) :
    ∃ prev' cursor', r.Threaded prev' cursor' post := by
  induction pre generalizing prev cursor with
  | nil => exact ⟨prev, cursor, ht⟩
  | cons i pre ih =>
    obtain ⟨-, rec, -, -, hrest⟩ := ht
    exact ih hrest

/-- Where a thread begins determines all of it. -/
theorem Threaded.unique {prev' : Option Nat} {order' : List Nat}
    (ht : r.Threaded prev cursor order) (ht' : r.Threaded prev' cursor order') :
    order = order' := by
  induction order generalizing prev prev' cursor order' with
  | nil =>
    cases order' with
    | nil => rfl
    | cons i rest' =>
      cases ht
      exact nomatch ht'.1
  | cons i rest ih =>
    obtain ⟨rfl, rec, hrec, -, hrest⟩ := ht
    cases order' with
    | nil => exact nomatch ht'
    | cons i' rest' =>
      obtain ⟨hi, rec', hrec', -, hrest'⟩ := ht'
      cases hi
      rw [hrec] at hrec'
      cases hrec'
      rw [ih hrest hrest']

/-- A thread repeats no slot. -/
theorem Threaded.nodup (ht : r.Threaded prev cursor order) : order.Nodup := by
  induction order generalizing prev cursor with
  | nil => exact List.nodup_nil
  | cons i rest ih =>
    obtain ⟨rfl, rec, hrec, hprev, hrest⟩ := ht
    refine List.nodup_cons.2 ⟨?_, ih hrest⟩
    intro hi
    obtain ⟨pre, post, rfl⟩ := List.append_of_mem hi
    obtain ⟨prev', cursor', hpost⟩ := hrest.of_append
    obtain ⟨rfl, -⟩ := id hpost
    have hsame : i :: (pre ++ i :: post) = i :: post :=
      Threaded.unique ⟨rfl, rec, hrec, hprev, hrest⟩ hpost
    have hlength := congrArg List.length hsame
    simp only [List.length_cons, List.length_append] at hlength
    omega

theorem Threaded.lt_size (ht : r.Threaded prev cursor order) {i : Nat} (hi : i ∈ order) :
    i < r.slots.size := by
  obtain ⟨pre, post, rfl⟩ := List.append_of_mem hi
  obtain ⟨prev', cursor', -, rec, hrec, -⟩ := ht.of_append
  obtain ⟨g, hslot⟩ := record?_eq_some_iff.1 hrec
  exact (Array.getElem?_eq_some_iff.1 hslot).1

/-- A thread is no longer than the arena. -/
theorem Threaded.length_le (ht : r.Threaded prev cursor order) : order.length ≤ r.slots.size := by
  have hsub : order ⊆ List.range r.slots.size := fun i hi => List.mem_range.2 (ht.lt_size hi)
  calc order.length
      ≤ (List.range r.slots.size).length := (List.subperm_of_subset ht.nodup hsub).length_le
    _ = r.slots.size := List.length_range

/-! ## Walks along a thread -/

/-- The handles of the records in some slots. -/
def handlesAt (r : Registry H) (order : List Nat) : List H :=
  order.filterMap fun i => (r.record? i).map Record.handle

theorem handlesAt_cons {i : Nat} {rec : Record H} (hrec : r.record? i = some rec)
    (rest : List Nat) : r.handlesAt (i :: rest) = rec.handle :: r.handlesAt rest := by
  simp [handlesAt, hrec]

theorem mem_handlesAt_iff {h : H} :
    h ∈ r.handlesAt order ↔ ∃ i ∈ order, ∃ rec, r.record? i = some rec ∧ rec.handle = h := by
  simp [handlesAt]

theorem walk_of_record? {i : Nat} {rec : Record H} (hrec : r.record? i = some rec)
    (d : Direction) (n : Nat) :
    r.walk d (n + 1) (some i) =
      ⟨rec.handle :: (r.walk d n (rec.link d)).handles, (r.walk d n (rec.link d)).stray⟩ := by
  obtain ⟨g, hslot⟩ := record?_eq_some_iff.1 hrec
  rw [walk, hslot]

theorem walk_none (d : Direction) (n : Nat) : r.walk d n none = ⟨[], none⟩ := by
  cases n <;> rfl

theorem Threaded.walk_forward (ht : r.Threaded prev cursor order) {n : Nat}
    (hn : order.length ≤ n) : r.walk .forward n cursor = ⟨r.handlesAt order, none⟩ := by
  induction order generalizing prev cursor n with
  | nil =>
    cases ht
    exact walk_none _ n
  | cons i rest ih =>
    obtain ⟨rfl, rec, hrec, -, hrest⟩ := ht
    cases n with
    | zero => exact absurd hn (Nat.not_succ_le_zero _)
    | succ n =>
      rw [walk_of_record? hrec, Record.link, ih hrest (Nat.le_of_succ_le_succ hn),
        handlesAt_cons hrec]

/-- From its last slot a thread leads back to its first one, and then to what is before it. -/
theorem Threaded.walk_backward (ht : r.Threaded prev cursor order) (n : Nat) :
    r.walk .backward (order.length + n) (order.getLast?.or prev) =
      ⟨(r.handlesAt order).reverse ++ (r.walk .backward n prev).handles,
        (r.walk .backward n prev).stray⟩ := by
  induction order generalizing prev cursor n with
  | nil => simp [handlesAt]
  | cons i rest ih =>
    obtain ⟨-, rec, hrec, hprev, hrest⟩ := ht
    have hlast : (i :: rest).getLast?.or prev = rest.getLast?.or (some i) := by
      simp [List.getLast?_cons]
    have hstep := walk_of_record? hrec .backward n
    rw [Record.link, hprev] at hstep
    rw [hlast, List.length_cons, Nat.add_right_comm, Nat.add_assoc, ih hrest (n + 1), hstep,
      handlesAt_cons hrec]
    simp

/-- A thread that nothing comes before is passed backward, from its last slot on. -/
theorem Threaded.walk_backward_all (ht : r.Threaded none cursor order) {n : Nat}
    (hn : order.length ≤ n) :
    r.walk .backward n order.getLast? = ⟨(r.handlesAt order).reverse, none⟩ := by
  have hwalk := ht.walk_backward (n - order.length)
  rw [Nat.add_sub_cancel' hn, Option.or_none, walk_none] at hwalk
  simpa using hwalk

/-! ## Links and index -/

/-- The record in a slot has a hold, and the index leads from its handle to the slot. -/
def Filed (r : Registry H) (i : Nat) : Prop :=
  ∃ rec, r.record? i = some rec ∧ 0 < rec.count ∧ r.byHandle[rec.handle]? = some i

theorem Filed.of_record? {i : Nat} {rec : Record H} (hf : r.Filed i)
    (hrec : r.record? i = some rec) : 0 < rec.count ∧ r.byHandle[rec.handle]? = some i := by
  obtain ⟨rec', hrec', hcount, hindex⟩ := hf
  rw [hrec] at hrec'
  cases hrec'
  exact ⟨hcount, hindex⟩

/-- Links and index of a registry fit together, with the records in the slots of `order`. -/
structure Coherent (r : Registry H) (order : List Nat) : Prop where
  /-- The links lead from the head through the slots, and each record points back at the one
  before it. -/
  threaded : r.Threaded none r.head order
  nodup : order.Nodup
  tail_eq : r.tail = order.getLast?
  count_pos : ∀ i ∈ order, ∀ rec, r.record? i = some rec → 0 < rec.count
  /-- The index leads from the handles of the records to their slots, and from no other handle
  anywhere. -/
  byHandle_iff : ∀ h i, r.byHandle[h]? = some i ↔
    i ∈ order ∧ ∃ rec, r.record? i = some rec ∧ rec.handle = h

theorem Coherent.filed (hc : r.Coherent order) {i : Nat} (hi : i ∈ order) : r.Filed i := by
  obtain ⟨pre, post, rfl⟩ := List.append_of_mem hi
  obtain ⟨-, -, -, rec, hrec, -⟩ := hc.threaded.of_append
  exact ⟨rec, hrec, hc.count_pos i hi rec hrec, (hc.byHandle_iff _ i).2 ⟨hi, rec, hrec, rfl⟩⟩

/-- The index leads back from the handles of filed records to their slots. -/
theorem map_handlesAt (hfiled : ∀ i ∈ order, r.Filed i) :
    (r.handlesAt order).map (fun h => r.byHandle[h]?) = order.map some := by
  induction order with
  | nil => rfl
  | cons i rest ih =>
    rw [List.forall_mem_cons] at hfiled
    obtain ⟨⟨rec, hrec, -, hindex⟩, hrest⟩ := hfiled
    rw [handlesAt_cons hrec, List.map_cons, List.map_cons, ih hrest, hindex]

theorem length_handlesAt (hfiled : ∀ i ∈ order, r.Filed i) :
    (r.handlesAt order).length = order.length := by
  simpa using congrArg List.length (map_handlesAt hfiled)

theorem nodup_handlesAt (hfiled : ∀ i ∈ order, r.Filed i) (hnodup : order.Nodup) :
    (r.handlesAt order).Nodup := by
  apply List.Nodup.of_map fun h => r.byHandle[h]?
  rw [map_handlesAt hfiled]
  exact hnodup.map fun _ _ => Option.some.inj

section Lawful

variable [Std.TransOrd H] [Std.LawfulEqOrd H]

theorem mem_keys_iff {h : H} : h ∈ r.byHandle.keys ↔ ∃ i, r.byHandle[h]? = some i := by
  rw [Std.TreeMap.mem_keys, Std.TreeMap.mem_iff_isSome_getElem?, Option.isSome_iff_exists]

theorem handlesAt_subset (hfiled : ∀ i ∈ order, r.Filed i) :
    r.handlesAt order ⊆ r.byHandle.keys := by
  intro h hh
  obtain ⟨i, hi, rec, hrec, rfl⟩ := mem_handlesAt_iff.1 hh
  exact mem_keys_iff.2 ⟨i, ((hfiled i hi).of_record? hrec).2⟩

theorem Coherent.handlesAt_perm (hc : r.Coherent order) :
    (r.handlesAt order).Perm r.byHandle.keys := by
  have hkeys : r.byHandle.keys.Nodup := by
    refine Std.TreeMap.distinct_keys.imp ?_
    intro h h' hne heq
    exact hne (heq ▸ Std.ReflCmp.compare_self)
  have hfiled : ∀ i ∈ order, r.Filed i := fun i hi => hc.filed hi
  refine (List.perm_ext_iff_of_nodup (nodup_handlesAt hfiled hc.nodup) hkeys).2 fun h => ?_
  constructor
  · exact fun hh => handlesAt_subset hfiled hh
  · intro hh
    obtain ⟨i, hi⟩ := mem_keys_iff.1 hh
    exact mem_handlesAt_iff.2 ⟨i, (hc.byHandle_iff h i).1 hi⟩

theorem Coherent.length_eq (hc : r.Coherent order) : order.length = r.size := by
  rw [← length_handlesAt fun i hi => hc.filed hi, hc.handlesAt_perm.length_eq,
    Std.TreeMap.length_keys, size]

/-- Filed records along a thread are all records of the index if there are as many. -/
theorem coherent_of_length (ht : r.Threaded none r.head order)
    (hfiled : ∀ i ∈ order, r.Filed i) (htail : r.tail = order.getLast?)
    (hlength : order.length = r.size) : r.Coherent order where
  threaded := ht
  nodup := ht.nodup
  tail_eq := htail
  count_pos i hi rec hrec := ((hfiled i hi).of_record? hrec).1
  byHandle_iff h i := by
    have hsubperm := List.subperm_of_subset (nodup_handlesAt hfiled ht.nodup)
      (handlesAt_subset hfiled)
    have hperm := hsubperm.perm_of_length_le
      (by rw [Std.TreeMap.length_keys, length_handlesAt hfiled, hlength]; exact Nat.le_refl _)
    constructor
    · intro hi
      obtain ⟨j, hj, rec, hrec, rfl⟩ :=
        mem_handlesAt_iff.1 (hperm.mem_iff.2 (mem_keys_iff.2 ⟨i, hi⟩))
      have hindex := ((hfiled j hj).of_record? hrec).2
      rw [hi] at hindex
      cases hindex
      exact ⟨hj, rec, hrec, rfl⟩
    · intro ⟨hi, rec, hrec, hhandle⟩
      exact hhandle ▸ ((hfiled i hi).of_record? hrec).2

end Lawful

/-! ## The walks of the check -/

/-- One turn of the forward walk. -/
theorem checkForward_some_eq_ok_iff {left seen i : Nat} {found : Option Nat × Nat} :
    r.checkForward left seen prev (some i) = .ok found ↔
      ∃ rec, r.record? i = some rec ∧ rec.prev = prev ∧ 0 < rec.count ∧
        r.byHandle[rec.handle]? = some i ∧
        ∃ left', left = left' + 1 ∧
          r.checkForward left' (seen + 1) (some i) rec.next = .ok found := by
  rw [checkForward]
  cases hrec : r.record? i with
  | none => simp
  | some rec =>
    by_cases hprev : rec.prev = prev
    · by_cases hcount : rec.count = 0
      · simp [hprev, hcount]
      · by_cases hindex : r.byHandle[rec.handle]? = some i
        · cases left <;> simp [hprev, hcount, hindex, Nat.pos_of_ne_zero]
        · simp [hprev, hcount, hindex]
    · simp [hprev]

/-- What the forward walk finds is the end and the length of a thread of filed records. -/
theorem exists_of_checkForward {left seen : Nat} {found : Option Nat × Nat}
    (hok : r.checkForward left seen prev cursor = .ok found) :
    ∃ order, r.Threaded prev cursor order ∧ (∀ i ∈ order, r.Filed i) ∧
      found = (order.getLast?.or prev, seen + order.length) := by
  induction left generalizing seen prev cursor with
  | zero =>
    cases cursor with
    | none =>
      cases hok
      exact ⟨[], rfl, List.forall_mem_nil _, rfl⟩
    | some i =>
      obtain ⟨rec, -, -, -, -, left', hleft, -⟩ := checkForward_some_eq_ok_iff.1 hok
      exact nomatch hleft
  | succ left ih =>
    cases cursor with
    | none =>
      cases hok
      exact ⟨[], rfl, List.forall_mem_nil _, rfl⟩
    | some i =>
      obtain ⟨rec, hrec, hprev, hcount, hindex, left', hleft, hrest⟩ :=
        checkForward_some_eq_ok_iff.1 hok
      cases hleft
      obtain ⟨rest, ht, hfiled, rfl⟩ := ih hrest
      refine ⟨i :: rest, ⟨rfl, rec, hrec, hprev, ht⟩, ?_, ?_⟩
      · exact List.forall_mem_cons.2 ⟨⟨rec, hrec, hcount, hindex⟩, hfiled⟩
      · simp [List.getLast?_cons]
        omega

/-- The forward walk succeeds along a thread of filed records that is not too long. -/
theorem Threaded.checkForward_eq_ok (ht : r.Threaded prev cursor order)
    (hfiled : ∀ i ∈ order, r.Filed i) {left : Nat} (hleft : order.length ≤ left) (seen : Nat) :
    r.checkForward left seen prev cursor = .ok (order.getLast?.or prev, seen + order.length) := by
  induction order generalizing prev cursor left seen with
  | nil =>
    cases ht
    cases left <;> rfl
  | cons i rest ih =>
    rw [List.forall_mem_cons] at hfiled
    obtain ⟨rfl, rec, hrec, hprev, hrest⟩ := ht
    obtain ⟨hcount, hindex⟩ := hfiled.1.of_record? hrec
    cases left with
    | zero => exact absurd hleft (Nat.not_succ_le_zero _)
    | succ left =>
      refine checkForward_some_eq_ok_iff.2 ⟨rec, hrec, hprev, hcount, hindex, left, rfl, ?_⟩
      rw [ih hrest hfiled.2 (Nat.le_of_succ_le_succ hleft) (seen + 1)]
      simp [List.getLast?_cons]
      omega

/-- What the forward walk finds wrong is none of the two defects of the backward walk.  It looks up
every slot before it reads it. -/
theorem checkForward_error {left seen : Nat} {d : Defect}
    (herror : r.checkForward left seen prev cursor = .error d) :
    d ≠ .backwardLength ∧ ∀ i, d ≠ .outside i := by
  -- Only the turn that succeeds goes on, and each other one ends with a defect of its own.
  fun_induction checkForward r left seen prev cursor with
  | case7 _ _ _ _ _ _ _ _ _ ih => exact ih herror
  | case1 => exact nomatch herror
  | case2 | case3 | case4 | case5 | case6 => cases herror; simp

section Lawful

variable [Std.TransOrd H] [Std.LawfulEqOrd H]

theorem Coherent.inspect_eq_ok (hc : r.Coherent order) : r.inspect = .ok () := by
  have hfiled : ∀ i ∈ order, r.Filed i := fun i hi => hc.filed hi
  have hlength := hc.length_eq
  have hforward : r.checkForward r.size 0 none r.head = .ok (r.tail, r.size) := by
    rw [hc.threaded.checkForward_eq_ok hfiled (Nat.le_of_eq hlength), Option.or_none, hc.tail_eq,
      hlength, Nat.zero_add]
  have hbackward : r.checkBackward = .ok () := by
    rw [checkBackward, hc.tail_eq, hc.threaded.walk_backward_all (by omega)]
    simp [length_handlesAt hfiled, hlength]
  rw [inspect, hforward]
  show (if r.tail ≠ r.tail then .error _ else if r.size ≠ r.size then .error _ else
    r.checkBackward) = .ok ()
  rw [if_neg (not_not.2 rfl), if_neg (not_not.2 rfl), hbackward]

/-- The backward walk is only reached if links and index fit together. -/
theorem exists_coherent_or_defect (r : Registry H) :
    (∃ order, r.Coherent order) ∨
      ∃ d, r.inspect = .error d ∧ d ≠ .backwardLength ∧ ∀ i, d ≠ .outside i := by
  cases hforward : r.checkForward r.size 0 none r.head with
  | error d => exact Or.inr ⟨d, by rw [inspect, hforward]; rfl, checkForward_error hforward⟩
  | ok found =>
    obtain ⟨order, ht, hfiled, rfl⟩ := exists_of_checkForward hforward
    rw [Option.or_none, Nat.zero_add] at hforward
    by_cases htail : r.tail = order.getLast?
    · by_cases hlength : order.length = r.size
      · exact Or.inl ⟨order, coherent_of_length ht hfiled htail hlength⟩
      · refine Or.inr ⟨.tooShort order.length r.size, ?_, by simp, by simp⟩
        rw [inspect, hforward]
        simp [bind, Except.bind, htail, hlength]
    · refine Or.inr ⟨.wrongTail order.getLast? r.tail, ?_, by simp, by simp⟩
      rw [inspect, hforward]
      simp [bind, Except.bind, Ne.symm htail]

/-- The check accepts exactly the registries whose links and index fit together. -/
theorem verify_eq_ok_iff : r.verify = .ok () ↔ ∃ order, r.Coherent order := by
  constructor
  · intro hok
    cases exists_coherent_or_defect r with
    | inl hc => exact hc
    | inr hd =>
      obtain ⟨d, hd, -⟩ := hd
      rw [verify, hd] at hok
      exact nomatch hok
  · intro ⟨order, hc⟩
    rw [verify, hc.inspect_eq_ok]
    rfl

/-- What the check reports is found by the forward walk. -/
theorem verify_error {e : Error H} (herror : r.verify = .error e) :
    ∃ d, e = .corruptLinks d ∧ d ≠ .backwardLength ∧ ∀ i, d ≠ .outside i := by
  cases exists_coherent_or_defect r with
  | inl hc =>
    rw [verify_eq_ok_iff.2 hc] at herror
    exact nomatch herror
  | inr hd =>
    obtain ⟨d, hd, hne⟩ := hd
    rw [verify, hd] at herror
    cases herror
    exact ⟨d, rfl, hne⟩

end Lawful

/-! ## Listing the handles -/

/-- The walks that list the handles end by themselves, and list every handle of the index once. -/
structure Listed (r : Registry H) : Prop where
  walk_forward : ∀ n, r.size ≤ n → r.walk .forward n r.head = ⟨r.toList, none⟩
  walk_backward : ∀ n, r.size ≤ n → r.walk .backward n r.tail = ⟨r.toListRev, none⟩
  nodup : r.toList.Nodup
  mem_iff : ∀ h, h ∈ r.toList ↔ r.contains h
  toListRev_eq : r.toListRev = r.toList.reverse

theorem Coherent.listed [Std.TransOrd H] [Std.LawfulEqOrd H] (hc : r.Coherent order) :
    r.Listed := by
  have hforward : ∀ n, order.length ≤ n → r.walk .forward n r.head = ⟨r.handlesAt order, none⟩ :=
    fun n hn => hc.threaded.walk_forward hn
  have hbackward : ∀ n, order.length ≤ n →
      r.walk .backward n r.tail = ⟨(r.handlesAt order).reverse, none⟩ := by
    intro n hn
    rw [hc.tail_eq, hc.threaded.walk_backward_all hn]
  have htoList : r.toList = r.handlesAt order := by
    rw [toList, hforward _ hc.threaded.length_le]
  have htoListRev : r.toListRev = (r.handlesAt order).reverse := by
    rw [toListRev, hbackward _ hc.threaded.length_le]
  rw [hc.length_eq] at hforward hbackward
  exact
    { walk_forward := by rw [htoList]; exact hforward
      walk_backward := by rw [htoListRev]; exact hbackward
      nodup := by
        rw [htoList]
        exact nodup_handlesAt (fun i hi => hc.filed hi) hc.nodup
      mem_iff := by
        intro h
        rw [htoList, hc.handlesAt_perm.mem_iff, Std.TreeMap.mem_keys, contains,
          Std.TreeMap.contains_iff_mem]
      toListRev_eq := by rw [htoListRev, htoList] }

/-- What the check of the links says about a registry. -/
structure Inspected (r : Registry H) : Prop where
  /-- It accepts the registry exactly if links and index fit together. -/
  verify_iff : r.verify = .ok () ↔ ∃ order, r.Coherent order
  /-- It reports a defect that the forward walk found.  The backward walk finds none, and does not
  follow a link that leads out of the arena. -/
  verify_error : ∀ e, r.verify = .error e →
    ∃ d, e = .corruptLinks d ∧ d ≠ .backwardLength ∧ ∀ i, d ≠ .outside i
  /-- The handles of a registry that it accepts can be listed in both directions. -/
  listed : r.verify = .ok () → r.Listed

/-- The check of the links is right about every registry, however corrupt. -/
theorem inspected [Std.TransOrd H] [Std.LawfulEqOrd H] (r : Registry H) : r.Inspected where
  verify_iff := verify_eq_ok_iff
  verify_error _ herror := verify_error herror
  listed hok := by
    obtain ⟨order, hc⟩ := verify_eq_ok_iff.1 hok
    exact hc.listed

/-- Two records whose links run in a circle, with a tail outside the arena. -/
def circle : Registry Nat where
  slots := #[.occupied 1 ⟨7, 1, none, some 1⟩, .occupied 1 ⟨8, 2, some 0, some 0⟩]
  head := some 0
  tail := some 2
  byHandle := .ofList [(7, 0), (8, 1)]

/-- The circle is found when its first record comes again. -/
theorem inspected_circle :
    Std.TransOrd Nat ∧ Std.LawfulEqOrd Nat ∧ circle.Inspected ∧
      circle.verify = .error (.corruptLinks (.wrongPrevious 0 none (some 1))) :=
  ⟨inferInstance, inferInstance, inspected circle, by decide +kernel⟩

end PinnedHeap.Registry
