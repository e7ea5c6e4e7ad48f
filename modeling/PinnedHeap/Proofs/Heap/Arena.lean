import Mathlib.Algebra.GroupWithZero.Nat
import PinnedHeap.Heap.Collection

/-!
# Arenas seen through references

An arena is looked at through references: `find?` gives the header and the
object that a reference names, which is what `Heap.entry?` gives for a heap.

A collection writes marks into the arena before it reclaims anything.  `plain`
is an arena without its marks, so two arenas that differ in marks only are equal
when they are plain.  A look-up in a plain arena finds the same object
(`find?_plain`), and a look-up after one slot or several got a mark finds the
mark there and nothing else new (`find?_modify_withMark`, `find?_setMarks`).

Counters are sums over the slots of an arena.  `sum_map_set` says how such a sum
moves when one slot is replaced.
-/

namespace PinnedHeap.Heap

variable {α : Type}

/-! ## Looking up -/

/-- What a slot holds under a generation. -/
def Slot.named (g : Generation) : Slot α → Option (Header × α)
  | .live g' header x => if g' = g then some (header, x) else none
  | .free _ _ => none

/-- The header and the object that a reference names in an arena. -/
def find? (slots : Array (Slot α)) (r : Ref) : Option (Header × α) :=
  slots[r.index.toNat]?.bind (Slot.named r.generation)

theorem entry?_eq_find? (h : Heap α) (r : Ref) : h.entry? r = find? h.slots r := by
  unfold entry? find?
  cases hs : h.slots[r.index.toNat]? with
  | none => rfl
  | some slot => cases slot <;> rfl

theorem isLive_iff_find? {h : Heap α} {r : Ref} :
    h.isLive r ↔ ∃ header x, find? h.slots r = some (header, x) := by
  rw [isLive, entry?_eq_find?, Option.isSome_iff_exists]
  exact Prod.exists

theorem Slot.named_eq_some_iff {g : Generation} {s : Slot α} {header : Header} {x : α} :
    s.named g = some (header, x) ↔ s = .live g header x := by
  cases s with
  | live g' header' x' =>
    by_cases hg : g' = g
    · subst hg
      simp [named]
    · simp [named, hg]
  | free g' next => simp [named]

theorem find?_eq_some_iff {slots : Array (Slot α)} {r : Ref} {header : Header} {x : α} :
    find? slots r = some (header, x) ↔
      slots[r.index.toNat]? = some (.live r.generation header x) := by
  rw [find?, Option.bind_eq_some_iff]
  constructor
  · rintro ⟨s, hs, hn⟩
    rw [hs, Slot.named_eq_some_iff.1 hn]
  · intro hs
    exact ⟨_, hs, Slot.named_eq_some_iff.2 rfl⟩

theorem find?_of_getElem? {slots : Array (Slot α)} {r : Ref} {s : Slot α}
    (hs : slots[r.index.toNat]? = some s) : find? slots r = s.named r.generation := by
  rw [find?, hs, Option.bind_some]

theorem find?_mk {slots : Array (Slot α)} {i : Nat} {g : Generation} {header : Header} {x : α}
    (hi : i < indexLimit) (hs : slots[i]? = some (.live g header x)) :
    find? slots ⟨UInt32.ofNat i, g⟩ = some (header, x) := by
  rw [find?_eq_some_iff]
  have hi' : (UInt32.ofNat i).toNat = i := UInt32.toNat_ofNat_of_lt' hi
  rw [hi']
  exact hs

/-- References to the same slot that both name an object are equal. -/
theorem ref_eq_of_index {slots : Array (Slot α)} {r s : Ref} {e f : Header × α}
    (hr : find? slots r = some e) (hs : find? slots s = some f)
    (hi : r.index.toNat = s.index.toNat) : r = s := by
  rw [find?_eq_some_iff] at hr hs
  rw [hi, hs] at hr
  cases r
  cases s
  simp only [Option.some.injEq, Slot.live.injEq] at hr
  simp only [Ref.mk.injEq]
  exact ⟨UInt32.toNat_inj.1 hi, hr.1.symm⟩

/-! ## Marks -/

/-- An entry with its mark set as given. -/
def withMark (marked : Bool) (e : Header × α) : Header × α := ({ e.1 with marked }, e.2)

theorem Slot.named_withMark (marked : Bool) (g : Generation) (s : Slot α) :
    (s.withMark marked).named g = (s.named g).map (Heap.withMark marked) := by
  cases s with
  | live g' header x =>
    by_cases hg : g' = g
    · simp [Slot.withMark, named, hg, Heap.withMark]
    · simp [Slot.withMark, named, hg]
  | free g' next => rfl

theorem Slot.withMark_withMark (a b : Bool) (s : Slot α) :
    (s.withMark b).withMark a = s.withMark a := by
  cases s <;> rfl

/-- An arena without its marks. -/
def plain (slots : Array (Slot α)) : Array (Slot α) := slots.map (Slot.withMark false)

theorem getElem?_plain (slots : Array (Slot α)) (i : Nat) :
    (plain slots)[i]? = slots[i]?.map (Slot.withMark false) := by
  rw [plain, Array.getElem?_map]

theorem size_plain (slots : Array (Slot α)) : (plain slots).size = slots.size := by
  rw [plain, Array.size_map]

theorem find?_plain (slots : Array (Slot α)) (r : Ref) :
    find? (plain slots) r = (find? slots r).map (withMark false) := by
  rw [find?, find?, getElem?_plain]
  cases slots[r.index.toNat]? with
  | none => rfl
  | some s => exact Slot.named_withMark false r.generation s

/-- Arenas that differ in marks only have the same entries but for the marks. -/
theorem find?_map_of_plain {a b : Array (Slot α)} (h : plain a = plain b) (r : Ref) :
    (find? a r).map (withMark false) = (find? b r).map (withMark false) := by
  rw [← find?_plain, ← find?_plain, h]

/-- An arena is plain if none of its slots carries a mark. -/
theorem plain_eq_self_iff {slots : Array (Slot α)} :
    plain slots = slots ↔ ∀ (i : Nat) (s : Slot α), slots[i]? = some s → s.withMark false = s := by
  constructor
  · intro hp i s hs
    have := getElem?_plain slots i
    rw [hp, hs] at this
    exact (Option.some.inj this).symm
  · intro hall
    apply Array.ext_getElem?
    intro i
    rw [getElem?_plain]
    cases hs : slots[i]? with
    | none => rfl
    | some s => rw [Option.map_some, hall i s hs]

theorem plain_modify_withMark (marked : Bool) (slots : Array (Slot α)) (i : Nat) :
    plain (slots.modify i (Slot.withMark marked)) = plain slots := by
  apply Array.ext_getElem?
  intro j
  rw [getElem?_plain, getElem?_plain, Array.getElem?_modify]
  by_cases hij : i = j
  · subst hij
    rw [if_pos rfl, Option.map_map]
    congr 1
    funext s
    exact Slot.withMark_withMark false marked s
  · rw [if_neg hij]

/-- Only references to the slot that got the mark see it. -/
theorem find?_modify_withMark (marked : Bool) (slots : Array (Slot α)) (i : Nat) (r : Ref) :
    find? (slots.modify i (Slot.withMark marked)) r =
      if i = r.index.toNat then (find? slots r).map (withMark marked) else find? slots r := by
  rw [find?, Array.getElem?_modify]
  by_cases hi : i = r.index.toNat
  · rw [if_pos hi, if_pos hi, find?]
    cases slots[r.index.toNat]? with
    | none => rfl
    | some s => exact Slot.named_withMark marked r.generation s
  · rw [if_neg hi, if_neg hi, find?]

theorem plain_setMarks (marked : Bool) (slots : Array (Slot α)) (indices : List Nat) :
    plain (setMarks marked slots indices) = plain slots := by
  induction indices generalizing slots with
  | nil => rfl
  | cons i rest ih =>
    rw [show setMarks marked slots (i :: rest) =
        setMarks marked (slots.modify i (Slot.withMark marked)) rest from rfl,
      ih, plain_modify_withMark]

theorem find?_setMarks (marked : Bool) (slots : Array (Slot α)) (indices : List Nat) (r : Ref) :
    find? (setMarks marked slots indices) r =
      if r.index.toNat ∈ indices then (find? slots r).map (withMark marked)
      else find? slots r := by
  induction indices generalizing slots with
  | nil => simp [setMarks]
  | cons i rest ih =>
    rw [show setMarks marked slots (i :: rest) =
        setMarks marked (slots.modify i (Slot.withMark marked)) rest from rfl,
      ih, find?_modify_withMark]
    by_cases hi : i = r.index.toNat
    · by_cases hr : r.index.toNat ∈ rest
      · cases hf : find? slots r <;> simp [hi, hr, withMark]
      · simp [hi, hr]
    · have hne : ¬ r.index.toNat = i := fun e => hi e.symm
      simp [hi, hne]

/-! ## Sums over the slots -/

/-- Replacing one item of a list moves a sum by the difference of the two items. -/
theorem sum_map_set {β : Type} (w : β → Nat) {l : List β} {i : Nat} {a : β}
    (ha : l[i]? = some a) (b : β) :
    ((l.set i b).map w).sum + w a = (l.map w).sum + w b := by
  induction l generalizing i with
  | nil => simp at ha
  | cons c rest ih =>
    cases i with
    | zero =>
      simp only [List.getElem?_cons_zero, Option.some.injEq] at ha
      subst ha
      simp only [List.set_cons_zero, List.map_cons, List.sum_cons]
      omega
    | succ i =>
      simp only [List.getElem?_cons_succ] at ha
      have := ih ha
      simp only [List.set_cons_succ, List.map_cons, List.sum_cons]
      omega

end PinnedHeap.Heap
