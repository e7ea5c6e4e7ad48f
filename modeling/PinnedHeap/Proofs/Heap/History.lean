import Mathlib.Data.List.Nodup
import PinnedHeap.Proofs.Heap.Operation

/-!
# Histories of a heap

A history lists what the operations on a heap brought about, the latest first: an object
was stored under a reference, or a collection freed some slots and left some bytes to the
live objects.  All of it can be seen from outside.  What fails, and what only changes an
object, leaves no trace.

What a run has to account for is read off its history and not off the heap: the references
issued (`issued`), the bytes left by the last collection (`bytesLeft`), and how often a slot
was freed (`frees`).  A run is `Unwrapped` if no slot was freed so often that its generations
start again.

A property of a heap and its history that every operation keeps holds after every run
(`history_induction`).
-/

namespace PinnedHeap.Heap

/-- Something that an operation brought about. -/
inductive Event (α : Type) where
  /-- An object was stored under a reference. -/
  | stored (r : Ref) (x : α)
  /-- A collection was completed.  It freed these slots, and so many bytes are left. -/
  | collected (freed : List Nat) (left : Nat)

variable {α : Type}

/-! ## What is read off a history -/

/-- The object of an event that stored one, with its reference. -/
def Event.store? : Event α → Option (Ref × α)
  | .stored r x => some (r, x)
  | .collected _ _ => none

/-- The objects that were stored, with their references. -/
def stores (past : List (Event α)) : List (Ref × α) := past.filterMap Event.store?

/-- The references that allocations returned. -/
def issued (past : List (Event α)) : List Ref := (stores past).map Prod.fst

/-- The bytes that the last collection left, or `0` if there was none. -/
def bytesLeft : List (Event α) → Nat
  | [] => 0
  | .collected _ left :: _ => left
  | .stored _ _ :: past => bytesLeft past

/-- How often a slot was freed. -/
def frees (i : Nat) : List (Event α) → Nat
  | [] => 0
  | .collected freed _ :: past => freed.count i + frees i past
  | .stored _ _ :: past => frees i past

/-- No slot was freed so often that its generations start again. -/
def Unwrapped (past : List (Event α)) : Prop := ∀ i, frees i past < Generation.last.toNat

@[simp] theorem stores_stored (r : Ref) (x : α) (past : List (Event α)) :
    stores (.stored r x :: past) = (r, x) :: stores past := rfl

@[simp] theorem stores_collected (freed : List Nat) (left : Nat) (past : List (Event α)) :
    stores (.collected freed left :: past) = stores past := rfl

theorem frees_append (i : Nat) (more past : List (Event α)) :
    frees i (more ++ past) = frees i more + frees i past := by
  induction more with
  | nil => exact (Nat.zero_add _).symm
  | cons event more ih =>
    cases event with
    | stored r x => exact ih
    | collected freed left =>
      rw [List.cons_append, frees, frees, ih, Nat.add_assoc]

theorem frees_le {past later : List (Event α)} (h : past <:+ later) (i : Nat) :
    frees i past ≤ frees i later := by
  obtain ⟨more, rfl⟩ := h
  rw [frees_append]
  exact Nat.le_add_left _ _

theorem Unwrapped.of_suffix {past later : List (Event α)} (hu : Unwrapped later)
    (h : past <:+ later) : Unwrapped past :=
  fun i => Nat.lt_of_le_of_lt (frees_le h i) (hu i)

/-! ## The history of a run -/

/-- Whether a slot holds an object. -/
def occupied (h : Heap α) (i : Nat) : Bool := (refAt? h.slots i).isSome

/-- The slots that hold an object in the first heap and none in the second. -/
def freedSlots (h h' : Heap α) : List Nat :=
  (List.range h.slots.size).filter fun i => h.occupied i && !h'.occupied i

theorem occupied_iff {h : Heap α} {i : Nat} :
    h.occupied i ↔ ∃ g header x, h.slots[i]? = some (.live g header x) := by
  rw [occupied, refAt?]
  cases h.slots[i]? with
  | none => simp
  | some s => cases s <;> simp

theorem count_freedSlots (h h' : Heap α) (i : Nat) :
    (h.freedSlots h').count i = if h.occupied i ∧ ¬ h'.occupied i then 1 else 0 := by
  rw [freedSlots, List.Nodup.count (List.nodup_range.filter _)]
  congr 1
  rw [List.mem_filter, List.mem_range, Bool.and_eq_true, Bool.not_eq_true', Bool.not_eq_true,
    eq_iff_iff, and_iff_right_iff_imp]
  rintro ⟨hi, -⟩
  obtain ⟨g, header, x, hs⟩ := occupied_iff.1 hi
  exact (Array.getElem?_eq_some_iff.1 hs).1

section History

variable [HeapObject α]

/-- What an operation adds to the history. -/
def event? (h : Heap α) : Operation α → Option (Event α)
  | .store x => (h.alloc x).1.toOption.map fun r => .stored r x
  | .update _ _ => none
  | .collect providers =>
    match h.config.mode with
    | .disabled => none
    | .markSweep =>
      let h' := (h.collect providers).2
      some (.collected (h.freedSlots h') h'.stats.liveBytes)

/-- The history after several operations, from a history before them. -/
def history (h : Heap α) (past : List (Event α)) : List (Operation α) → List (Event α)
  | [] => past
  | op :: ops => history (op.apply h) ((h.event? op).toList ++ past) ops

variable {h : Heap α} {past : List (Event α)}

theorem history_append (h : Heap α) (past : List (Event α)) (ops more : List (Operation α)) :
    h.history past (ops ++ more) = (h.after ops).history (h.history past ops) more := by
  induction ops generalizing h past with
  | nil => rfl
  | cons op ops ih => exact ih (op.apply h) ((h.event? op).toList ++ past)

theorem suffix_history (h : Heap α) (past : List (Event α)) (ops : List (Operation α)) :
    past <:+ h.history past ops := by
  induction ops generalizing h past with
  | nil => exact List.suffix_refl past
  | cons op ops ih => exact (List.suffix_append _ past).trans (ih (op.apply h) _)

theorem suffix_history_take (h : Heap α) (past : List (Event α)) (ops : List (Operation α))
    (n : Nat) : h.history past (ops.take n) <:+ h.history past ops := by
  conv => rhs; rw [← List.take_append_drop n ops, history_append]
  exact suffix_history _ _ _

/-- What every operation keeps holds after every run. -/
theorem history_induction {P : Heap α → List (Event α) → Prop}
    (hstep : ∀ h past op, P h past → P (Operation.apply h op) ((h.event? op).toList ++ past))
    (hinv : P h past) (ops : List (Operation α)) :
    P (h.after ops) (h.history past ops) := by
  induction ops generalizing h past with
  | nil => exact hinv
  | cons op ops ih => exact ih (hstep h past op hinv)

/-- An allocation that succeeds issues a reference, and nothing else does. -/
theorem issued_apply_cases (h : Heap α) (past : List (Event α)) (op : Operation α) :
    (∃ x r, op = .store x ∧ (h.alloc x).1 = .ok r ∧
      issued ((h.event? op).toList ++ past) = r :: issued past) ∨
    ((∀ x r, op = .store x → (h.alloc x).1 ≠ .ok r) ∧
      issued ((h.event? op).toList ++ past) = issued past) := by
  cases op with
  | store x =>
    rw [event?]
    cases ha : (h.alloc x).1 with
    | ok r => exact Or.inl ⟨x, r, rfl, ha, rfl⟩
    | error e =>
      refine Or.inr ⟨?_, rfl⟩
      rintro y r ⟨rfl⟩ hr
      exact nomatch ha.symm.trans hr
  | update s f => exact Or.inr ⟨fun x r hop => (nomatch hop), rfl⟩
  | collect providers =>
    refine Or.inr ⟨fun x r hop => (nomatch hop), ?_⟩
    rw [event?]
    cases h.config.mode with
    | disabled => rfl
    | markSweep => rfl

/-- The references issued are those that the allocations of the run returned. -/
theorem mem_issued_history_iff {r : Ref} (ops : List (Operation α)) :
    r ∈ issued (h.history past ops) ↔ r ∈ issued past ∨
      ∃ before x later, ops = before ++ .store x :: later ∧
        ((h.after before).alloc x).1 = .ok r := by
  induction ops generalizing h past with
  | nil => simp [history]
  | cons op ops ih =>
    rw [history, ih]
    constructor
    · rintro (hr | ⟨before, x, later, rfl, ha⟩)
      · rcases issued_apply_cases h past op with ⟨x, s, rfl, ha, hissued⟩ | ⟨-, hissued⟩
        · rw [hissued, List.mem_cons] at hr
          rcases hr with rfl | hr
          · exact Or.inr ⟨[], x, ops, rfl, ha⟩
          · exact Or.inl hr
        · rw [hissued] at hr
          exact Or.inl hr
      · exact Or.inr ⟨op :: before, x, later, rfl, ha⟩
    · rcases issued_apply_cases h past op with ⟨y, s, rfl, hs, hissued⟩ | ⟨hnone, hissued⟩
      · rw [hissued, List.mem_cons]
        rintro (hr | ⟨before, x, later, hops, ha⟩)
        · exact Or.inl (Or.inr hr)
        · cases before with
          | nil =>
            obtain ⟨hop, rfl⟩ := List.cons.inj hops
            obtain rfl := Operation.store.inj hop
            exact Or.inl (Or.inl (Except.ok.inj (ha.symm.trans hs)))
          | cons op' before =>
            obtain ⟨rfl, rfl⟩ := List.cons.inj hops
            exact Or.inr ⟨before, x, later, rfl, ha⟩
      · rw [hissued]
        rintro (hr | ⟨before, x, later, hops, ha⟩)
        · exact Or.inl hr
        · cases before with
          | nil =>
            obtain ⟨rfl, rfl⟩ := List.cons.inj hops
            exact absurd ha (hnone x r rfl)
          | cons op' before =>
            obtain ⟨rfl, rfl⟩ := List.cons.inj hops
            exact Or.inr ⟨before, x, later, rfl, ha⟩

/-- An operation frees a slot once at most. -/
theorem frees_history_le (h : Heap α) (past : List (Event α)) (ops : List (Operation α))
    (i : Nat) : frees i (h.history past ops) ≤ frees i past + ops.length := by
  induction ops generalizing h past with
  | nil => exact Nat.le_refl _
  | cons op ops ih =>
    have hstep : frees i (h.event? op).toList ≤ 1 := by
      cases op with
      | store x =>
        rw [event?]
        cases (h.alloc x).1 <;> exact Nat.zero_le 1
      | update r f => exact Nat.zero_le 1
      | collect providers =>
        rw [event?]
        cases h.config.mode with
        | disabled => exact Nat.zero_le 1
        | markSweep =>
          simp only [Option.toList_some, frees, count_freedSlots]
          split
          · exact Nat.le_refl 1
          · exact Nat.zero_le 1
    have hrest := ih (op.apply h) ((h.event? op).toList ++ past)
    rw [frees_append] at hrest
    rw [history, List.length_cons]
    omega

/-- A run needs as many operations as there are generations to use all those of a slot. -/
theorem unwrapped_history (config : Config) {ops : List (Operation α)}
    (hlen : ops.length < Generation.last.toNat) :
    Unwrapped ((empty config).history [] ops) := by
  intro i
  have hle := frees_history_le (empty config) [] ops i
  rw [frees, Nat.zero_add] at hle
  exact Nat.lt_of_le_of_lt hle hlen

end History

end PinnedHeap.Heap
