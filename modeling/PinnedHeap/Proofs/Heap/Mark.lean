import PinnedHeap.Proofs.Heap.Reach

/-!
# What a marking marks

A marking that has run to its end has marked exactly what it could reach from its
worklist through unmarked objects, besides what was marked before
(`marked_finish_iff`).  Objects and generations are as they were
(`plain_finish`), and nothing is left on the worklist (`worklist_finish`).

All three go by one step.  A step either drops a reference that names nothing
unmarked, or marks one object and puts its references on top (`step_cons`).  The
invariant is `Marking.Covers`: marked already, or reachable from the worklist
through unmarked objects.  No step changes which references it holds of
(`covers_step_iff`), and with an empty worklist it is the same as being marked.

A step lowers `Marking.bound` by one, since the references it adds are those it
no longer owes (`bound_step`).
-/

namespace PinnedHeap.Heap

variable {α : Type}

/-! ## Marked and unmarked -/

/-- The reference names an object that is marked. -/
def Marked (slots : Array (Slot α)) (r : Ref) : Prop :=
  ∃ header x, find? slots r = some (header, x) ∧ header.marked = true

/-- The reference names an object that is not marked. -/
def Unmarked (slots : Array (Slot α)) (r : Ref) : Prop :=
  ∃ header x, find? slots r = some (header, x) ∧ header.marked = false

theorem Marked.not_unmarked {slots : Array (Slot α)} {r : Ref} (h : Marked slots r) :
    ¬ Unmarked slots r := by
  rintro ⟨header, x, hf, hm⟩
  obtain ⟨header', x', hf', hm'⟩ := h
  rw [hf] at hf'
  obtain ⟨rfl, rfl⟩ := Prod.mk.inj (Option.some.inj hf')
  rw [hm] at hm'
  exact absurd hm' (by decide)

theorem marked_or_unmarked {slots : Array (Slot α)} {r : Ref} {e : Header × α}
    (h : find? slots r = some e) : Marked slots r ∨ Unmarked slots r := by
  cases hm : e.1.marked with
  | true => exact Or.inl ⟨e.1, e.2, h, hm⟩
  | false => exact Or.inr ⟨e.1, e.2, h, hm⟩

theorem not_marked_plain (slots : Array (Slot α)) (r : Ref) : ¬ Marked (plain slots) r := by
  rintro ⟨header, x, hf, hm⟩
  rw [find?_plain] at hf
  obtain ⟨e, -, he⟩ := Option.map_eq_some_iff.1 hf
  rw [← (Prod.mk.inj he).1] at hm
  exact Bool.false_ne_true hm

/-! ## One step -/

namespace Marking

variable [HeapObject α]

/-- The marking after a visit to an unmarked object: it is marked, and its
references are on top. -/
def visited (m : Marking α) (r : Ref) (rest : List Ref) (x : α) : Marking α where
  slots := m.slots.modify r.index.toNat (Slot.withMark true)
  worklist := push rest (HeapObject.refs x)
  traced := r :: m.traced

/-- A step drops a reference that names nothing unmarked, or visits an object. -/
theorem step_cons {m : Marking α} {r : Ref} {rest : List Ref} (hw : m.worklist = r :: rest) :
    (¬ Unmarked m.slots r ∧ m.step = { m with worklist := rest }) ∨
    (∃ header x, find? m.slots r = some (header, x) ∧ header.marked = false ∧
      m.step = m.visited r rest x) := by
  obtain ⟨slots, worklist, traced⟩ := m
  simp only at hw
  subst hw
  cases hs : slots[r.index.toNat]? with
  | none =>
    refine Or.inl ⟨?_, by simp [step, hs]⟩
    rintro ⟨header, x, hf, -⟩
    rw [find?, hs] at hf
    exact absurd hf (by simp)
  | some s =>
    cases s with
    | free g next =>
      refine Or.inl ⟨?_, by simp [step, hs]⟩
      rintro ⟨header, x, hf, -⟩
      rw [find?_of_getElem? hs] at hf
      exact absurd hf (by simp [Slot.named])
    | live g header x =>
      by_cases hc : g = r.generation ∧ header.marked = false
      · obtain ⟨rfl, hm⟩ := hc
        refine Or.inr ⟨header, x, find?_eq_some_iff.2 hs, hm, ?_⟩
        have hslots : slots.setIfInBounds r.index.toNat
              (.live r.generation { header with marked := true } x) =
            slots.modify r.index.toNat (Slot.withMark true) := by
          apply Array.ext_getElem?
          intro j
          rw [Array.getElem?_setIfInBounds, Array.getElem?_modify]
          by_cases hj : r.index.toNat = j
          · subst hj
            obtain ⟨hlt, -⟩ := Array.getElem?_eq_some_iff.1 hs
            rw [if_pos rfl, if_pos rfl, if_pos hlt, hs]
            rfl
          · rw [if_neg hj, if_neg hj]
        simp [step, hs, hm, visited, hslots]
      · refine Or.inl ⟨?_, by simp [step, hs, hc]⟩
        rintro ⟨header', x', hf, hm⟩
        rw [find?_eq_some_iff, hs] at hf
        obtain ⟨hg, hh, -⟩ := Slot.live.inj (Option.some.inj hf)
        exact hc ⟨hg, by rw [hh, hm]⟩

theorem plain_step (m : Marking α) : plain m.step.slots = plain m.slots := by
  cases hw : m.worklist with
  | nil =>
    obtain ⟨slots, worklist, traced⟩ := m
    simp only at hw
    subst hw
    rfl
  | cons r rest =>
    rcases step_cons hw with ⟨-, hs⟩ | ⟨header, x, -, -, hs⟩
    · rw [hs]
    · rw [hs]
      exact plain_modify_withMark true m.slots r.index.toNat

/-! ## The steps come to an end -/

/-- Marking an unmarked object settles the references it owes. -/
theorem sum_unmarkedRefs_modify {slots : Array (Slot α)} {r : Ref} {header : Header} {x : α}
    (hf : find? slots r = some (header, x)) (hm : header.marked = false) :
    ((slots.modify r.index.toNat (Slot.withMark true)).toList.map Slot.unmarkedRefs).sum +
      (HeapObject.refs x).length = (slots.toList.map Slot.unmarkedRefs).sum := by
  rw [find?_eq_some_iff] at hf
  have hl : slots.toList[r.index.toNat]? = some (.live r.generation header x) := by
    rw [Array.getElem?_toList]
    exact hf
  have hset : (slots.modify r.index.toNat (Slot.withMark true)).toList =
      slots.toList.set r.index.toNat (.live r.generation { header with marked := true } x) := by
    apply List.ext_getElem?
    intro j
    rw [Array.getElem?_toList, Array.getElem?_modify, List.getElem?_set]
    by_cases hj : r.index.toNat = j
    · subst hj
      obtain ⟨hlt, -⟩ := List.getElem?_eq_some_iff.1 hl
      rw [if_pos rfl, if_pos rfl, if_pos hlt, hf]
      rfl
    · rw [if_neg hj, if_neg hj, Array.getElem?_toList]
  have hsum := sum_map_set Slot.unmarkedRefs hl
    (.live r.generation { header with marked := true } x)
  rw [hset]
  simp only [Slot.unmarkedRefs, hm, if_true, Bool.false_eq_true, if_false] at hsum ⊢
  omega

theorem bound_eq (m : Marking α) :
    m.bound = m.worklist.length + (m.slots.toList.map Slot.unmarkedRefs).sum := by
  rw [bound, List.sum_eq_foldr, List.foldr_map]

theorem bound_step {m : Marking α} {r : Ref} {rest : List Ref} (hw : m.worklist = r :: rest) :
    m.step.bound + 1 = m.bound := by
  rcases step_cons hw with ⟨-, hs⟩ | ⟨header, x, hf, hm, hs⟩
  · rw [hs, bound_eq, bound_eq, hw]
    simp only [List.length_cons]
    omega
  · have hsum := sum_unmarkedRefs_modify hf hm
    rw [hs, bound_eq, bound_eq, hw]
    simp only [visited, push_eq, List.length_append, List.length_reverse, List.length_cons]
    omega

theorem run_of_worklist_nil {m : Marking α} (hw : m.worklist = []) (n : Nat) : m.run n = m := by
  cases n with
  | zero => rfl
  | succ n => simp [run, hw]

theorem run_succ_of_cons {m : Marking α} {r : Ref} {rest : List Ref} (hw : m.worklist = r :: rest)
    (n : Nat) : m.run (n + 1) = m.step.run n := by
  simp [run, hw]

/-! ## What a step keeps -/

/-- Marked, or reachable from the worklist through unmarked objects. -/
def Covers (m : Marking α) (r : Ref) : Prop :=
  Marked m.slots r ∨ ReachesBy m.slots (Unmarked m.slots) (· ∈ m.worklist) r

/-- With nothing left to visit, what is covered is what is marked. -/
theorem covers_iff_of_worklist_nil {m : Marking α} (hw : m.worklist = []) (r : Ref) :
    m.Covers r ↔ Marked m.slots r := by
  constructor
  · rintro (hm | hr)
    · exact hm
    · refine absurd hr (ReachesBy.not_of_empty ?_)
      rw [hw]
      simp
  · exact Or.inl

theorem covers_drop_iff {m : Marking α} {r : Ref} {rest : List Ref} (hw : m.worklist = r :: rest)
    (hr : ¬ Unmarked m.slots r) (s : Ref) :
    ({ m with worklist := rest } : Marking α).Covers s ↔ m.Covers s := by
  refine or_congr Iff.rfl ⟨fun h => ?_, fun h => ?_⟩
  · exact h.mono (fun _ ht => ht) (fun t ht _ => by rw [hw]; exact List.mem_cons_of_mem r ht)
  · refine h.mono (fun _ ht => ht) (fun t ht hthrough => ?_)
    rw [hw, List.mem_cons] at ht
    rcases ht with rfl | ht
    · exact absurd hthrough hr
    · exact ht

section Visit

variable {m : Marking α} {r : Ref} {rest : List Ref} {header : Header} {x : α}

theorem marked_visited_iff (hf : find? m.slots r = some (header, x)) (s : Ref) :
    Marked (m.visited r rest x).slots s ↔ s = r ∨ Marked m.slots s := by
  simp only [Marked, visited, find?_modify_withMark]
  by_cases hi : r.index.toNat = s.index.toNat
  · rw [if_pos hi]
    constructor
    · rintro ⟨header', x', hs, -⟩
      obtain ⟨e, he, -⟩ := Option.map_eq_some_iff.1 hs
      exact Or.inl (ref_eq_of_index he hf hi.symm)
    · rintro (rfl | ⟨header', x', hs, -⟩)
      · exact ⟨_, _, by rw [hf]; rfl, rfl⟩
      · exact ⟨_, _, by rw [hs]; rfl, rfl⟩
  · rw [if_neg hi]
    constructor
    · exact Or.inr
    · rintro (rfl | hs)
      · exact absurd rfl hi
      · exact hs

theorem unmarked_visited_iff (hf : find? m.slots r = some (header, x)) (s : Ref) :
    Unmarked (m.visited r rest x).slots s ↔ s ≠ r ∧ Unmarked m.slots s := by
  simp only [Unmarked, visited, find?_modify_withMark]
  by_cases hi : r.index.toNat = s.index.toNat
  · rw [if_pos hi]
    constructor
    · rintro ⟨header', x', hs, hm⟩
      obtain ⟨e, -, he⟩ := Option.map_eq_some_iff.1 hs
      rw [← (Prod.mk.inj he).1] at hm
      exact absurd hm.symm Bool.false_ne_true
    · rintro ⟨hne, header', x', hs, -⟩
      exact absurd (ref_eq_of_index hs hf hi.symm) hne
  · rw [if_neg hi]
    constructor
    · intro hs
      refine ⟨?_, hs⟩
      rintro rfl
      exact hi rfl
    · exact And.right

/-- A visit moves its object from the worklist to the marked ones, and everything
that could be reached through it stays reachable. -/
theorem covers_visited_iff (hw : m.worklist = r :: rest)
    (hf : find? m.slots r = some (header, x)) (hm : header.marked = false) (s : Ref) :
    (m.visited r rest x).Covers s ↔ m.Covers s := by
  have hr : ReachesBy m.slots (Unmarked m.slots) (· ∈ m.worklist) r :=
    .origin (by simp [hw]) ⟨header, x, hf, hm⟩
  have hplain : plain (m.visited r rest x).slots = plain m.slots :=
    plain_modify_withMark true m.slots r.index.toNat
  constructor
  · rintro (hs | hs)
    · rcases (marked_visited_iff hf s).1 hs with rfl | hs
      · exact Or.inr hr
      · exact Or.inl hs
    · right
      replace hs := hs.of_plain hplain
      induction hs with
      | origin ho hu =>
        have hu := ((unmarked_visited_iff hf _).1 hu).2
        simp only [visited, push_eq, List.mem_append, List.mem_reverse] at ho
        rcases ho with ho | ho
        · exact .next hr hf ho hu
        · exact .origin (by simp [hw, ho]) hu
      | next _ hp href hu ih => exact .next ih hp href ((unmarked_visited_iff hf _).1 hu).2
  · rintro (hs | hs)
    · exact Or.inl ((marked_visited_iff hf s).2 (Or.inr hs))
    -- The path may pass through `r`, which is marked now.  What follows `r` on
    -- it starts at one of its references, and those are on the worklist.
    · have key : s = r ∨ ReachesBy m.slots (Unmarked (m.visited r rest x).slots)
          (· ∈ (m.visited r rest x).worklist) s := by
        induction hs with
        | @origin t ho hu =>
          by_cases ht : t = r
          · exact Or.inl ht
          · right
            rw [hw, List.mem_cons] at ho
            refine .origin ?_ ((unmarked_visited_iff hf t).2 ⟨ht, hu⟩)
            simp [visited, push_eq, ho.resolve_left ht]
        | @next p t _ _ _ hp href hu ih =>
          by_cases ht : t = r
          · exact Or.inl ht
          · right
            have hu' : Unmarked (m.visited r rest x).slots t :=
              (unmarked_visited_iff hf t).2 ⟨ht, hu⟩
            rcases ih with rfl | ih
            · rw [hp] at hf
              obtain ⟨-, rfl⟩ := Prod.mk.inj (Option.some.inj hf)
              refine .origin ?_ hu'
              simp [visited, push_eq, href]
            · exact .next ih hp href hu'
      rcases key with rfl | hs
      · exact Or.inl ((marked_visited_iff hf _).2 (Or.inl rfl))
      · exact Or.inr (hs.of_plain hplain.symm)

end Visit

/-- A step changes nothing about what is covered. -/
theorem covers_step_iff {m : Marking α} {r : Ref} {rest : List Ref} (hw : m.worklist = r :: rest)
    (s : Ref) : m.step.Covers s ↔ m.Covers s := by
  rcases step_cons hw with ⟨hr, hs⟩ | ⟨header, x, hf, hm, hs⟩
  · rw [hs]
    exact covers_drop_iff hw hr s
  · rw [hs]
    exact covers_visited_iff hw hf hm s

/-! ## A whole marking -/

/-- A marking with enough steps left empties its worklist, keeps the objects, and
marks what it covers. -/
theorem run_spec (n : Nat) (m : Marking α) (hn : m.bound ≤ n) :
    (m.run n).worklist = [] ∧ plain (m.run n).slots = plain m.slots ∧
      ∀ s, Marked (m.run n).slots s ↔ m.Covers s := by
  induction n generalizing m with
  | zero =>
    have hw : m.worklist = [] := List.eq_nil_of_length_eq_zero (by rw [bound_eq] at hn; omega)
    exact ⟨hw, rfl, fun s => (covers_iff_of_worklist_nil hw s).symm⟩
  | succ n ih =>
    cases hw : m.worklist with
    | nil =>
      rw [run_of_worklist_nil hw]
      exact ⟨hw, rfl, fun s => (covers_iff_of_worklist_nil hw s).symm⟩
    | cons r rest =>
      have hb := bound_step hw
      obtain ⟨hempty, hplain, hmarked⟩ := ih m.step (by omega)
      rw [run_succ_of_cons hw]
      exact ⟨hempty, hplain.trans (plain_step m),
        fun s => (hmarked s).trans (covers_step_iff hw s)⟩

theorem worklist_finish (m : Marking α) : m.finish.worklist = [] :=
  (run_spec m.bound m (Nat.le_refl _)).1

theorem plain_finish (m : Marking α) : plain m.finish.slots = plain m.slots :=
  (run_spec m.bound m (Nat.le_refl _)).2.1

/-- A marking marks exactly what can be reached from its worklist through unmarked
objects, besides what was marked before. -/
theorem marked_finish_iff (m : Marking α) (r : Ref) :
    Marked m.finish.slots r ↔
      Marked m.slots r ∨ ReachesBy m.slots (Unmarked m.slots) (· ∈ m.worklist) r :=
  (run_spec m.bound m (Nat.le_refl _)).2.2 r

end Marking

end PinnedHeap.Heap
