import Mathlib.Data.List.Induction
import PinnedHeap.Proofs.Heap.Mark

/-!
# What a sweep leaves

A sweep goes over the slots in ascending order, so what it has done so far is a
function of the slots it has seen.  `sweepList` is the sweep of a list of slots,
and every statement about it goes by induction from the right, where the last
slot is the one visited last.

Each slot is replaced by `Slot.swept`, which depends on the slot and on the head
of the free list at that moment (`getElem?_sweepList`).  So a reference names after a
sweep what it named before if that was marked, and nothing otherwise
(`find?_sweep`).

The objects reclaimed are listed by `garbageRefs` in ascending order.  The number
and the size of them is a sum over the slots that hold garbage (`garbageSum`),
and that sum is what is missing from the counters afterwards (`sum_sweep`).
-/

namespace PinnedHeap.Heap

variable {α : Type}

/-! ## One slot -/

/-- Whether a slot holds an object that is not marked. -/
def Slot.isGarbage : Slot α → Bool
  | .live _ header _ => !header.marked
  | .free _ _ => false

/-- What a sweep makes of a slot, when the free list starts at `link`. -/
def Slot.swept (link : Option Nat) : Slot α → Slot α
  | .live g header x =>
    if header.marked then .live g { header with marked := false } x else .free g.next link
  | .free g next => .free g next

/-- The pending object that a sweep finds in a slot, if there is one. -/
def Slot.pending? (i : Nat) : Slot α → Option (Pending α)
  | .live g header x =>
    if !header.marked && header.finalizable then some ⟨⟨UInt32.ofNat i, g⟩, x⟩ else none
  | .free _ _ => none

/-- The reference of the garbage in a slot, if there is some. -/
def Slot.garbageRef? (i : Nat) : Slot α → Option Ref
  | .live g header _ => if header.marked then none else some ⟨UInt32.ofNat i, g⟩
  | .free _ _ => none

/-- The number of objects in a slot. -/
def Slot.objects : Slot α → Nat
  | .live _ _ _ => 1
  | .free _ _ => 0

/-- The accounted size of the object in a slot. -/
def Slot.bytes : Slot α → Nat
  | .live _ header _ => header.size
  | .free _ _ => 0

/-- A measure of slots that free slots do not have, and that depends neither on the mark nor
on the content of an object. -/
structure Slot.Weight (w : Slot α → Nat) : Prop where
  free : ∀ g next, w (.free g next) = 0
  withMark : ∀ marked s, w (s.withMark marked) = w s
  update : ∀ g f s, w (s.update g f) = w s

theorem Slot.weight_objects : Slot.Weight (Slot.objects (α := α)) where
  free := fun _ _ => rfl
  withMark := fun _ s => by cases s <;> rfl
  update := fun _ _ s => by cases s <;> rfl

theorem Slot.weight_bytes : Slot.Weight (Slot.bytes (α := α)) where
  free := fun _ _ => rfl
  withMark := fun _ s => by cases s <;> rfl
  update := fun _ _ s => by cases s <;> rfl

/-- A measure of the garbage among some slots. -/
def garbageSum (w : Slot α → Nat) (slots : List (Slot α)) : Nat :=
  (slots.map fun s => if s.isGarbage then w s else 0).sum

/-- A visit replaces the slot, and counts its object if that is garbage. -/
theorem Sweep.visit_eq (s : Sweep α) (slot : Slot α) :
    s.visit slot =
      { slots := s.slots.push (slot.swept s.freeHead)
        freeHead := if slot.isGarbage then some s.slots.size else s.freeHead
        freed := s.freed + if slot.isGarbage then slot.objects else 0
        freedBytes := s.freedBytes + if slot.isGarbage then slot.bytes else 0
        pending := s.pending ++ (slot.pending? s.slots.size).toArray } := by
  cases slot with
  | live g header x =>
    cases hm : header.marked with
    | true => simp [visit, hm, Slot.swept, Slot.isGarbage, Slot.pending?]
    | false =>
      cases hf : header.finalizable <;>
        simp [visit, hm, hf, Slot.swept, Slot.isGarbage, Slot.pending?, Slot.objects, Slot.bytes]
  | free g next => simp [visit, Slot.swept, Slot.isGarbage, Slot.pending?]

/-! ## A list of slots -/

/-- The sweep of a list of slots. -/
def sweepList (freeHead : Option Nat) (slots : List (Slot α)) : Sweep α :=
  slots.foldl Sweep.visit { freeHead }

theorem sweep_eq_sweepList (slots : Array (Slot α)) (freeHead : Option Nat) :
    sweep slots freeHead = sweepList freeHead slots.toList := by
  rw [sweep, sweepList, Array.foldl_toList]

theorem sweepList_concat (freeHead : Option Nat) (slots : List (Slot α)) (slot : Slot α) :
    sweepList freeHead (slots ++ [slot]) = (sweepList freeHead slots).visit slot := by
  rw [sweepList, sweepList, List.foldl_append]
  rfl

section List

variable (freeHead : Option Nat) (slots : List (Slot α))

theorem size_sweepList : (sweepList freeHead slots).slots.size = slots.length := by
  induction slots using List.reverseRecOn with
  | nil => rfl
  | append_singleton slots slot ih =>
    rw [sweepList_concat, Sweep.visit_eq, Array.size_push, ih, List.length_append,
      List.length_singleton]

/-- A slot is replaced according to the free list after the slots before it. -/
theorem getElem?_sweepList (i : Nat) : (sweepList freeHead slots).slots[i]? =
    slots[i]?.map (Slot.swept (sweepList freeHead (slots.take i)).freeHead) := by
  induction slots using List.reverseRecOn with
  | nil => simp [sweepList]
  | append_singleton slots slot ih =>
    rw [sweepList_concat, Sweep.visit_eq, Array.getElem?_push, size_sweepList]
    by_cases hi : i = slots.length
    · subst hi
      simp
    · rw [if_neg hi, ih]
      by_cases hlt : i < slots.length
      · rw [List.getElem?_append_left hlt, List.take_append_of_le_length (Nat.le_of_lt hlt)]
      · have hge : slots.length + 1 ≤ i := by omega
        rw [List.getElem?_eq_none (by omega), List.getElem?_eq_none (by simpa using hge)]
        rfl

theorem freed_sweepList : (sweepList freeHead slots).freed = garbageSum Slot.objects slots := by
  induction slots using List.reverseRecOn with
  | nil => rfl
  | append_singleton slots slot ih =>
    rw [sweepList_concat, Sweep.visit_eq, ih, garbageSum, garbageSum, List.map_append,
      List.sum_append]
    simp

theorem freedBytes_sweepList :
    (sweepList freeHead slots).freedBytes = garbageSum Slot.bytes slots := by
  induction slots using List.reverseRecOn with
  | nil => rfl
  | append_singleton slots slot ih =>
    rw [sweepList_concat, Sweep.visit_eq, ih, garbageSum, garbageSum, List.map_append,
      List.sum_append]
    simp

theorem pending_sweepList : (sweepList freeHead slots).pending.toList =
    slots.zipIdx.filterMap fun p => p.1.pending? p.2 := by
  induction slots using List.reverseRecOn with
  | nil => rfl
  | append_singleton slots slot ih =>
    rw [sweepList_concat, Sweep.visit_eq, Array.toList_append, ih, size_sweepList,
      List.zipIdx_append, List.filterMap_append]
    cases hp : slot.pending? slots.length <;> simp [hp]

/-- What is not garbage is what is left. -/
theorem sum_sweepList {w : Slot α → Nat} (hw : Slot.Weight w) :
    ((sweepList freeHead slots).slots.toList.map w).sum + garbageSum w slots =
      (slots.map w).sum := by
  have hslot : ∀ (link : Option Nat) (s : Slot α),
      w (s.swept link) + (if s.isGarbage then w s else 0) = w s := by
    intro link s
    cases s with
    | live g header x =>
      cases hm : header.marked with
      | true =>
        have := hw.withMark false (.live g header x)
        simpa [Slot.swept, Slot.isGarbage, hm, Slot.withMark] using this
      | false => simp [Slot.swept, Slot.isGarbage, hm, hw.free]
    | free g next => simp [Slot.swept, Slot.isGarbage]
  induction slots using List.reverseRecOn with
  | nil => rfl
  | append_singleton slots slot ih =>
    have := hslot (sweepList freeHead slots).freeHead slot
    rw [sweepList_concat, Sweep.visit_eq, garbageSum, List.map_append, List.sum_append,
      Array.toList_push, List.map_append, List.sum_append, List.map_append, List.sum_append]
    rw [garbageSum] at ih
    simp only [List.map_cons, List.map_nil, List.sum_cons, List.sum_nil, Nat.add_zero] at this ⊢
    omega

end List

/-! ## The whole arena -/

section Arena

variable (slots : Array (Slot α)) (freeHead : Option Nat)

theorem size_sweep : (sweep slots freeHead).slots.size = slots.size := by
  rw [sweep_eq_sweepList, size_sweepList, Array.length_toList]

/-- A marked object is found after a sweep as before, without its mark.  No other
object is. -/
theorem find?_sweep (r : Ref) : find? (sweep slots freeHead).slots r =
    (find? slots r).bind fun e => if e.1.marked then some (withMark false e) else none := by
  rw [find?, find?, sweep_eq_sweepList, getElem?_sweepList, Array.getElem?_toList]
  cases slots[r.index.toNat]? with
  | none => rfl
  | some s =>
    cases s with
    | live g header x =>
      by_cases hg : g = r.generation <;> cases hm : header.marked <;>
        simp [Slot.swept, Slot.named, hm, hg, withMark]
    | free g next => rfl

theorem plain_sweep : plain (sweep slots freeHead).slots = (sweep slots freeHead).slots := by
  apply Array.ext_getElem?
  intro i
  rw [getElem?_plain, sweep_eq_sweepList, getElem?_sweepList, Option.map_map]
  congr 1
  funext s
  cases s with
  | live g header x =>
    cases hm : header.marked <;> simp [Slot.swept, hm, Slot.withMark]
  | free g next => rfl

/-! ## The garbage -/

/-- The references of the unmarked objects, in ascending order of their slots. -/
def garbageRefs : List Ref := slots.toList.zipIdx.filterMap fun p => p.1.garbageRef? p.2

variable {slots}

theorem mem_garbageRefs_iff (hsize : slots.size ≤ indexLimit) (r : Ref) :
    r ∈ garbageRefs slots ↔ Unmarked slots r := by
  rw [garbageRefs, List.mem_filterMap]
  constructor
  · rintro ⟨⟨s, i⟩, hi, hr⟩
    rw [List.mem_zipIdx_iff_getElem?, Array.getElem?_toList] at hi
    cases s with
    | live g header x =>
      have hlt : i < indexLimit := Nat.lt_of_lt_of_le (Array.getElem?_eq_some_iff.1 hi).1 hsize
      cases hm : header.marked with
      | true => simp [Slot.garbageRef?, hm] at hr
      | false =>
        simp only [Slot.garbageRef?, hm, Bool.false_eq_true, if_false, Option.some.injEq] at hr
        subst hr
        exact ⟨header, x, find?_mk hlt hi, hm⟩
    | free g next => simp [Slot.garbageRef?] at hr
  · rintro ⟨header, x, hf, hm⟩
    refine ⟨(.live r.generation header x, r.index.toNat), ?_, ?_⟩
    · rw [List.mem_zipIdx_iff_getElem?, Array.getElem?_toList]
      exact find?_eq_some_iff.1 hf
    · simp [Slot.garbageRef?, hm]

theorem index_of_garbageRef? {s : Slot α} {i : Nat} {r : Ref} (hi : i < indexLimit)
    (hr : s.garbageRef? i = some r) : r.index.toNat = i := by
  cases s with
  | live g header x =>
    cases hm : header.marked with
    | true => simp [Slot.garbageRef?, hm] at hr
    | false =>
      simp only [Slot.garbageRef?, hm, Bool.false_eq_true, if_false, Option.some.injEq] at hr
      subst hr
      exact UInt32.toNat_ofNat_of_lt' hi
  | free g next => simp [Slot.garbageRef?] at hr

theorem pairwise_zipIdx {β : Type} (l : List β) : l.zipIdx.Pairwise fun p q => p.2 < q.2 := by
  rw [← List.pairwise_map, List.zipIdx_map_snd]
  exact List.pairwise_lt_range'

theorem pairwise_garbageRefs (hsize : slots.size ≤ indexLimit) :
    (garbageRefs slots).Pairwise fun r s => r.index.toNat < s.index.toNat := by
  rw [garbageRefs, List.pairwise_filterMap]
  refine (pairwise_zipIdx slots.toList).imp_of_mem ?_
  intro p q hp hq hlt r hr s hs
  have hlen : slots.toList.length = slots.size := Array.length_toList
  have hpi := List.snd_lt_of_mem_zipIdx hp
  have hqi := List.snd_lt_of_mem_zipIdx hq
  rw [index_of_garbageRef? (by omega) hr, index_of_garbageRef? (by omega) hs]
  exact hlt

theorem sum_map_filterMap {β γ : Type} (g : β → Option γ) (f : γ → Nat) (l : List β) :
    ((l.filterMap g).map f).sum = (l.map fun b => (g b).elim 0 f).sum := by
  induction l with
  | nil => rfl
  | cons b rest ih =>
    cases hg : g b with
    | none => simp [hg, ih]
    | some c => simp [hg, ih]

/-- A measure of the garbage is the sum over the references of the garbage. -/
theorem garbageSum_eq_sum {w : Slot α → Nat} {f : Ref → Nat}
    (hf : ∀ i g header x, slots[i]? = some (.live g header x) →
      f ⟨UInt32.ofNat i, g⟩ = w (.live g header x)) :
    garbageSum w slots.toList = ((garbageRefs slots).map f).sum := by
  have hslot : ∀ p ∈ slots.toList.zipIdx,
      (if p.1.isGarbage then w p.1 else 0) = (p.1.garbageRef? p.2).elim 0 f := by
    rintro ⟨s, i⟩ hp
    rw [List.mem_zipIdx_iff_getElem?, Array.getElem?_toList] at hp
    cases s with
    | live g header x =>
      have hfi := hf i g header x hp
      cases hm : header.marked <;> simp [Slot.isGarbage, Slot.garbageRef?, hm, hfi]
    | free g next => rfl
  rw [garbageRefs, sum_map_filterMap, ← List.map_congr_left hslot, garbageSum]
  conv => lhs; rw [← List.zipIdx_map_fst 0 slots.toList, List.map_map]
  rfl

/-! ## The pending objects -/

theorem pending_sweep (freeHead : Option Nat) : (sweep slots freeHead).pending.toList =
    slots.toList.zipIdx.filterMap fun p => p.1.pending? p.2 := by
  rw [sweep_eq_sweepList, pending_sweepList]

theorem Slot.pending?_eq_some_iff {s : Slot α} {i : Nat} {p : Pending α} :
    s.pending? i = some p ↔ ∃ g header, s = .live g header p.object ∧
      p.ref = ⟨UInt32.ofNat i, g⟩ ∧ header.marked = false ∧ header.finalizable = true := by
  cases s with
  | live g header x =>
    simp only [pending?]
    constructor
    · intro hp
      split at hp
      next hc =>
        simp only [Bool.and_eq_true, Bool.not_eq_true'] at hc
        obtain rfl := Option.some.inj hp
        exact ⟨g, header, rfl, rfl, hc.1, hc.2⟩
      next => exact absurd hp (by simp)
    · rintro ⟨g', header', hs, href, hm, hf⟩
      obtain ⟨rfl, rfl, rfl⟩ := Slot.live.inj hs
      simp [hm, hf, ← href]
  | free g next => simp [pending?]

theorem mem_pending_sweep_iff (hsize : slots.size ≤ indexLimit) (freeHead : Option Nat)
    (p : Pending α) : p ∈ (sweep slots freeHead).pending.toList ↔
      ∃ header, find? slots p.ref = some (header, p.object) ∧ header.marked = false ∧
        header.finalizable = true := by
  rw [pending_sweep, List.mem_filterMap]
  constructor
  · rintro ⟨⟨s, i⟩, hi, hp⟩
    rw [List.mem_zipIdx_iff_getElem?, Array.getElem?_toList] at hi
    obtain ⟨g, header, rfl, href, hm, hf⟩ := Slot.pending?_eq_some_iff.1 hp
    have hlt : i < indexLimit := Nat.lt_of_lt_of_le (Array.getElem?_eq_some_iff.1 hi).1 hsize
    rw [href]
    exact ⟨header, find?_mk hlt hi, hm, hf⟩
  · rintro ⟨header, hfind, hm, hf⟩
    refine ⟨(.live p.ref.generation header p.object, p.ref.index.toNat), ?_, ?_⟩
    · rw [List.mem_zipIdx_iff_getElem?, Array.getElem?_toList]
      exact find?_eq_some_iff.1 hfind
    · exact Slot.pending?_eq_some_iff.2 ⟨_, header, rfl, by simp, hm, hf⟩

theorem pairwise_pending_sweep (hsize : slots.size ≤ indexLimit) (freeHead : Option Nat) :
    (sweep slots freeHead).pending.toList.Pairwise
      fun p q => p.ref.index.toNat < q.ref.index.toNat := by
  rw [pending_sweep, List.pairwise_filterMap]
  refine (pairwise_zipIdx slots.toList).imp_of_mem ?_
  intro p q hp hq hlt a ha b hb
  have hlen : slots.toList.length = slots.size := Array.length_toList
  have hpi := List.snd_lt_of_mem_zipIdx hp
  have hqi := List.snd_lt_of_mem_zipIdx hq
  obtain ⟨g, -, -, hra, -⟩ := Slot.pending?_eq_some_iff.1 ha
  obtain ⟨g', -, -, hrb, -⟩ := Slot.pending?_eq_some_iff.1 hb
  rw [hra, hrb]
  simp only
  rw [UInt32.toNat_ofNat_of_lt' (by omega : p.2 < indexLimit),
    UInt32.toNat_ofNat_of_lt' (by omega : q.2 < indexLimit)]
  exact hlt

end Arena

end PinnedHeap.Heap
