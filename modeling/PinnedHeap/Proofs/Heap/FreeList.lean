import PinnedHeap.Proofs.Heap.Operation

/-!
# The free list

A free slot links to the next one, and the heap holds the head.  `FreeList links head free`
says that the slots of `free` are visited in this order from `head` on, that the list ends,
and that it has every slot with a link exactly once.  It depends on the links alone, so
whatever leaves them as they are leaves the list as it is.

Two changes matter.  Storing an object takes the link of the first slot away
(`FreeList.pop`), and a sweep gives a link to each slot it reclaims and makes it the head
(`FreeList.push`).  In the middle of a sweep the slots before some point are swept and the
others are not.  The list of such a mixture is the invariant of `FreeList.sweepList`.

So the head is a free slot if there is a head, and an allocation never finds the list
corrupt (`HasFreeList.vacancy_cases`).  Without a head no slot is free, so an arena only
grows when it is full (`HasFreeList.full`).
-/

namespace PinnedHeap.Heap

variable {α : Type}

/-! ## Links -/

/-- The link of a free slot. -/
def Slot.link? : Slot α → Option (Option Nat)
  | .free _ next => some next
  | .live _ _ _ => none

/-- The link of the slot with an index, if that is free. -/
def links (slots : List (Slot α)) (i : Nat) : Option (Option Nat) := slots[i]?.bind Slot.link?

theorem links_eq_some_iff {slots : List (Slot α)} {i : Nat} {next : Option Nat} :
    links slots i = some next ↔ ∃ g, slots[i]? = some (.free g next) := by
  rw [links, Option.bind_eq_some_iff]
  constructor
  · rintro ⟨s, hs, hlink⟩
    cases s with
    | live g header x => exact nomatch hlink
    | free g next' => exact ⟨g, Option.some.inj hlink ▸ hs⟩
  · rintro ⟨g, hs⟩
    exact ⟨_, hs, rfl⟩

/-- A change of one slot is a change of one link. -/
theorem links_eq_update {slots slots' : List (Slot α)} {i : Nat} {s : Slot α}
    (hs : slots'[i]? = some s) (hne : ∀ j, j ≠ i → slots'[j]? = slots[j]?) :
    links slots' = Function.update (links slots) i s.link? := by
  funext j
  by_cases hj : j = i
  · subst hj
    rw [Function.update_self, links, hs, Option.bind_some]
  · rw [Function.update_of_ne hj, links, links, hne j hj]

/-- Slots with the same links one by one have the same links. -/
theorem links_map {f : Slot α → Slot α} (hf : ∀ s, (f s).link? = s.link?) (slots : List (Slot α)) :
    links (slots.map f) = links slots := by
  funext i
  rw [links, links, List.getElem?_map]
  cases slots[i]? with
  | none => rfl
  | some s => exact hf s

theorem links_of_plain {a b : Array (Slot α)} (hp : plain a = plain b) :
    links a.toList = links b.toList := by
  have key : ∀ slots : Array (Slot α), links (plain slots).toList = links slots.toList := by
    intro slots
    rw [plain, Array.toList_map]
    exact links_map (fun s => by cases s <;> rfl) _
  rw [← key a, hp, key b]

/-! ## Lists of free slots -/

/-- From `head` on the links lead through the slots of a list, and then they end. -/
def Visits (links : Nat → Option (Option Nat)) : Option Nat → List Nat → Prop
  | head, [] => head = none
  | head, i :: rest => head = some i ∧ ∃ next, links i = some next ∧ Visits links next rest

theorem Visits.frame {links links' : Nat → Option (Option Nat)} {head : Option Nat}
    {free : List Nat} (hv : Visits links head free) (hl : ∀ i ∈ free, links' i = links i) :
    Visits links' head free := by
  induction free generalizing head with
  | nil => exact hv
  | cons i rest ih =>
    rw [List.forall_mem_cons] at hl
    obtain ⟨rfl, next, hi, hrest⟩ := hv
    exact ⟨rfl, next, hl.1.trans hi, ih hrest hl.2⟩

/-- The slots visited from `head` on are the slots with a link, each one once. -/
structure FreeList (links : Nat → Option (Option Nat)) (head : Option Nat) (free : List Nat) :
    Prop where
  visits : Visits links head free
  nodup : free.Nodup
  mem_iff : ∀ i, i ∈ free ↔ (links i).isSome

namespace FreeList

variable {links : Nat → Option (Option Nat)} {head : Option Nat} {free : List Nat} {i : Nat}

theorem eq_nil (hf : FreeList links none free) : free = [] := by
  cases free with
  | nil => rfl
  | cons i rest => exact nomatch hf.visits.1

/-- The first slot is taken off the list. -/
theorem pop (hf : FreeList links (some i) free) :
    ∃ next rest, links i = some next ∧ FreeList (Function.update links i none) next rest := by
  obtain ⟨hvisits, hnodup, hmem⟩ := hf
  cases free with
  | nil => exact nomatch hvisits
  | cons j rest =>
    obtain ⟨hij, next, hnext, hrest⟩ := hvisits
    obtain rfl := Option.some.inj hij
    obtain ⟨hnot, hnodup⟩ := List.nodup_cons.1 hnodup
    refine ⟨next, rest, hnext, hrest.frame fun j hj => ?_, hnodup, fun j => ?_⟩
    · rw [Function.update_of_ne]
      rintro rfl
      exact hnot hj
    · by_cases hj : j = i
      · subst hj
        simp [hnot]
      · rw [Function.update_of_ne hj, ← hmem, List.mem_cons, or_iff_right hj]

/-- A slot without a link is put before the others. -/
theorem push (hf : FreeList links head free) (hi : links i = none) :
    FreeList (Function.update links i (some head)) (some i) (i :: free) := by
  have hnot : i ∉ free := by
    rw [hf.mem_iff, hi]
    exact Bool.false_ne_true
  refine ⟨⟨rfl, head, Function.update_self .., hf.visits.frame fun j hj => ?_⟩,
    List.nodup_cons.2 ⟨hnot, hf.nodup⟩, fun j => ?_⟩
  · rw [Function.update_of_ne]
    rintro rfl
    exact hnot hj
  · by_cases hj : j = i
    · subst hj
      simp
    · rw [Function.update_of_ne hj, List.mem_cons, or_iff_right hj, hf.mem_iff]

end FreeList

/-! ## Sweeping -/

theorem getElem?_middle (done todo : List (Slot α)) (s : Slot α) :
    (done ++ s :: todo)[done.length]? = some s := by
  rw [List.getElem?_append_right (Nat.le_refl _), Nat.sub_self, List.getElem?_cons_zero]

theorem links_middle (done todo : List (Slot α)) (s s' : Slot α) :
    links (done ++ s' :: todo) =
      Function.update (links (done ++ s :: todo)) done.length s'.link? := by
  refine links_eq_update (getElem?_middle done todo s') fun j hj => ?_
  rw [List.getElem?_append, List.getElem?_append]
  split
  · rfl
  · obtain ⟨k, hk⟩ : ∃ k, j - done.length = k + 1 := ⟨j - done.length - 1, by omega⟩
    rw [hk, List.getElem?_cons_succ, List.getElem?_cons_succ]

/-- Sweeping a slot puts it before the free ones if it holds garbage. -/
theorem FreeList.sweep_slot {done todo : List (Slot α)} {s : Slot α} {head : Option Nat}
    {free : List Nat} (hf : FreeList (links (done ++ s :: todo)) head free) :
    ∃ free', FreeList (links (done ++ s.swept head :: todo))
      (if s.isGarbage then some done.length else head) free' := by
  have hlink : links (done ++ s :: todo) done.length = s.link? := by
    rw [links, getElem?_middle, Option.bind_some]
  cases s with
  | live g header x =>
    rw [links_middle done todo (.live g header x), Slot.isGarbage, Slot.swept]
    cases hm : header.marked with
    | true =>
      refine ⟨free, ?_⟩
      simp only [if_true, Slot.link?, Bool.not_true, Bool.false_eq_true, if_false]
      rw [Function.update_eq_self_iff.2 hlink.symm]
      exact hf
    | false => exact ⟨done.length :: free, hf.push hlink⟩
  | free g next => exact ⟨free, hf⟩

/-- The list of an arena in which a sweep got to some point. -/
theorem FreeList.sweepList {done todo : List (Slot α)} {head : Option Nat} {free : List Nat}
    (hf : FreeList (links (done ++ todo)) head free) :
    ∃ free', FreeList (links ((sweepList head done).slots.toList ++ todo))
      (Heap.sweepList head done).freeHead free' := by
  induction done using List.reverseRecOn generalizing todo with
  | nil => exact ⟨free, hf⟩
  | append_singleton done s ih =>
    rw [List.append_assoc] at hf
    obtain ⟨free', hf'⟩ := ih hf
    rw [sweepList_concat, Sweep.visit_eq, Array.toList_push, List.append_assoc]
    rw [← Array.length_toList]
    exact hf'.sweep_slot

/-! ## The free list of a heap -/

/-- The free slots of a heap are visited from its head on. -/
def HasFreeList (h : Heap α) : Prop :=
  ∃ free, FreeList (links h.slots.toList) h.freeHead free

theorem hasFreeList_empty (config : Config) : (empty config : Heap α).HasFreeList :=
  ⟨[], rfl, List.nodup_nil, fun i => by simp [links, empty]⟩

theorem HasFreeList.update {h : Heap α} (hf : h.HasFreeList) (r : Ref) (f : α → α) :
    (h.update r f).HasFreeList := by
  obtain ⟨free, hf⟩ := hf
  refine ⟨free, ?_⟩
  have hlinks : links (h.update r f).slots.toList = links h.slots.toList := by
    funext i
    rw [links, links, Array.getElem?_toList, Array.getElem?_toList, Heap.update,
      Array.getElem?_modify]
    split
    · cases h.slots[i]? with
      | none => rfl
      | some s => cases s <;> rfl
    · rfl
  rw [hlinks]
  exact hf

/-- There is a vacancy, unless all slots hold objects and no index is left. -/
theorem HasFreeList.vacancy_cases {h : Heap α} (hf : h.HasFreeList) :
    (∃ v, h.vacancy = .ok v) ∨
      (h.vacancy = .error .exhausted ∧ h.freeHead = none ∧ indexLimit ≤ h.slots.size) := by
  obtain ⟨free, hf⟩ := hf
  rw [vacancy]
  cases hhead : h.freeHead with
  | none =>
    by_cases hlt : h.slots.size < indexLimit
    · exact Or.inl ⟨_, if_pos hlt⟩
    · exact Or.inr ⟨if_neg hlt, rfl, Nat.le_of_not_lt hlt⟩
  | some i =>
    rw [hhead] at hf
    obtain ⟨next, rest, hi, -⟩ := hf.pop
    obtain ⟨g, hs⟩ := links_eq_some_iff.1 hi
    rw [Array.getElem?_toList] at hs
    exact Or.inl ⟨⟨i, g, next⟩, by simp only [hs]⟩

/-- Without a first free slot every slot holds an object. -/
theorem HasFreeList.full {h : Heap α} (hf : h.HasFreeList) (hhead : h.freeHead = none) :
    (h.slots.toList.map Slot.objects).sum = h.slots.size := by
  obtain ⟨free, hf⟩ := hf
  rw [hhead] at hf
  obtain rfl := hf.eq_nil
  have hlive : ∀ s ∈ h.slots.toList, Slot.objects s = 1 := by
    intro s hs
    obtain ⟨i, hi⟩ := List.mem_iff_getElem?.1 hs
    cases s with
    | live g header x => rfl
    | free g next =>
      have hsome := links_eq_some_iff.2 ⟨g, hi⟩
      have hmem := (hf.mem_iff i).2 (by rw [hsome]; rfl)
      exact absurd hmem List.not_mem_nil
  rw [List.map_congr_left hlive, List.map_const', List.sum_replicate_nat, Nat.mul_one,
    Array.length_toList]

section Operations

variable [HeapObject α] {h : Heap α}

theorem HasFreeList.alloc (hf : h.HasFreeList) (x : α) : (h.alloc x).2.HasFreeList := by
  rcases alloc_cases h x with ⟨v, hv, he⟩ | ⟨e, he⟩
  · rw [he]
    obtain ⟨free, hf⟩ := hf
    have hlinks : links (h.store v x).slots.toList =
        Function.update (links h.slots.toList) v.index none := by
      refine links_eq_update (s := .live v.generation (headerOf x) x) ?_ fun j hj => ?_
      · rw [Array.getElem?_toList, getElem?_store hv, if_pos rfl]
      · rw [Array.getElem?_toList, Array.getElem?_toList, getElem?_store hv, if_neg hj]
    rw [HasFreeList, hlinks]
    rcases Heap.vacancy_cases hv with ⟨hhead, hs⟩ | ⟨hhead, -, rfl⟩
    · rw [hhead] at hf
      obtain ⟨next, rest, hi, hrest⟩ := hf.pop
      obtain ⟨g, hs'⟩ := links_eq_some_iff.1 hi
      rw [Array.getElem?_toList, hs] at hs'
      obtain ⟨-, rfl⟩ := Slot.free.inj (Option.some.inj hs')
      exact ⟨rest, hrest⟩
    · have hnone : links h.slots.toList h.slots.size = none := by
        rw [links, Array.getElem?_toList, Array.getElem?_eq_none (Nat.le_refl _), Option.bind_none]
      rw [hhead] at hf
      rw [Function.update_eq_self_iff.2 hnone.symm]
      exact ⟨free, hf⟩
  · rw [he]
    exact hf

theorem HasFreeList.collect (hf : h.HasFreeList) (hp : h.Plain) (providers : List (List Ref)) :
    (h.collect providers).2.HasFreeList := by
  cases hm : h.config.mode with
  | disabled =>
    rw [collect_of_disabled hm]
    exact hf
  | markSweep =>
    obtain ⟨free, hf⟩ := hf
    rw [← links_of_plain ((plain_survey providers.flatten hp).trans hp.symm)] at hf
    rw [← List.append_nil (survey _ _).slots.toList] at hf
    obtain ⟨free', hf'⟩ := hf.sweepList
    refine ⟨free', ?_⟩
    rw [Heap.collect, hm]
    simp only [sweep_eq_sweepList]
    rw [List.append_nil] at hf'
    exact hf'

end Operations

end PinnedHeap.Heap
