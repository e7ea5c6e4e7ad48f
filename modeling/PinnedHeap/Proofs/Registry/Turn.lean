import PinnedHeap.Proofs.Registry.Refinement

/-!
# What an operation does to a slot

An operation writes more slots than the one it is about, since it counts, and links the
neighbours of a record.  None of that concerns a token or the free list.  What does is the
*shape* of a slot: its generation, and the link to the next free slot if it waits for a record.

An operation leaves the shape of a slot as it is, or it changes it in one of three ways
(`Slot.Turn`): a free slot gets a record, a new slot gets one, or a record is taken out and
its slot goes to the next generation.  The arena keeps its size, or no slot of it is free
afterwards.  `turned_act` says so of every operation and every registry, well linked or not.
-/

namespace PinnedHeap.Registry

variable {H : Type}

/-! ## Shapes -/

/-- The generation of a slot, and its link if it waits for a record. -/
def Slot.shape : Slot H → Generation × Option (Option Nat)
  | .occupied g _ => (g, none)
  | .vacant g nextFree => (g, some nextFree)

/-- How the shape of a slot may change.  A slot that the arena does not have yet has none. -/
inductive Slot.Turn :
    Option (Generation × Option (Option Nat)) → Option (Generation × Option (Option Nat)) → Prop
  /-- The slot is left alone, or only its record changes. -/
  | kept (shape) : Turn shape shape
  /-- A free slot gets a record. -/
  | filled (g nextFree) : Turn (some (g, some nextFree)) (some (g, none))
  /-- A new slot gets a record. -/
  | opened : Turn none (some (Generation.first, none))
  /-- The record is taken out. -/
  | vacated (g nextFree) : Turn (some (g, none)) (some (Generation.next g, some nextFree))

variable [Ord H] {r r' r'' : Registry H} {i : Nat} {g : Generation} {rec : Record H}

/-- The shape of the slot with an index. -/
def shapeAt (r : Registry H) (i : Nat) : Option (Generation × Option (Option Nat)) :=
  r.slots[i]?.map Slot.shape

theorem shapeAt_eq_occupied_iff :
    r.shapeAt i = some (g, none) ↔ ∃ rec, r.slots[i]? = some (.occupied g rec) := by
  rw [shapeAt, Option.map_eq_some_iff]
  constructor
  · rintro ⟨slot, hslot, hshape⟩
    cases slot with
    | occupied g' rec =>
      obtain rfl := (Prod.mk.inj hshape).1
      exact ⟨rec, hslot⟩
    | vacant g' nextFree => exact nomatch (Prod.mk.inj hshape).2
  · rintro ⟨rec, hslot⟩
    exact ⟨_, hslot, rfl⟩

theorem occupant_eq_ok_iff :
    r.occupant i = .ok (g, rec) ↔ r.slots[i]? = some (.occupied g rec) := by
  rw [occupant]
  cases r.slots[i]? with
  | none => simp
  | some slot => cases slot <;> simp

/-! ## Links and counts -/

/-- The same slots, except for what the records in them say. -/
structure SameShape (r r' : Registry H) : Prop where
  freeHead : r'.freeHead = r.freeHead
  size : r'.slots.size = r.slots.size
  shapeAt : ∀ i, r'.shapeAt i = r.shapeAt i

theorem SameShape.trans (h : SameShape r r') (h' : SameShape r' r'') : SameShape r r'' :=
  ⟨h'.freeHead.trans h.freeHead, h'.size.trans h.size,
    fun i => (h'.shapeAt i).trans (h.shapeAt i)⟩

theorem sameShape_setRecord (h : r.slots[i]? = some (.occupied g rec)) (rec' : Record H) :
    SameShape r (r.setRecord i g rec') where
  freeHead := rfl
  size := Array.size_setIfInBounds
  shapeAt j := by
    rw [shapeAt, getElem?_setRecord (Array.getElem?_eq_some_iff.1 h).1]
    split
    · rename_i hj
      rw [shapeAt, hj, h]
      rfl
    · rfl

/-- A sequence of two operations succeeds if both do. -/
theorem exists_of_bind_eq_ok {ε β γ : Type} {x : Except ε β} {f : β → Except ε γ} {c : γ}
    (h : (x >>= f) = .ok c) : ∃ b, x = .ok b ∧ f b = .ok c := by
  cases x with
  | error e => exact nomatch h
  | ok b => exact ⟨b, rfl, h⟩

theorem sameShape_linkForward {place target : Option Nat}
    (h : r.linkForward place target = .ok r') : SameShape r r' := by
  cases place with
  | none =>
    rw [← Except.ok.inj h]
    exact ⟨rfl, rfl, fun _ => rfl⟩
  | some i =>
    obtain ⟨⟨g, rec⟩, hocc, h⟩ := exists_of_bind_eq_ok h
    rw [← Except.ok.inj h]
    exact sameShape_setRecord (occupant_eq_ok_iff.1 hocc) _

theorem sameShape_linkBackward {place target : Option Nat}
    (h : r.linkBackward place target = .ok r') : SameShape r r' := by
  cases place with
  | none =>
    rw [← Except.ok.inj h]
    exact ⟨rfl, rfl, fun _ => rfl⟩
  | some i =>
    obtain ⟨⟨g, rec⟩, hocc, h⟩ := exists_of_bind_eq_ok h
    rw [← Except.ok.inj h]
    exact sameShape_setRecord (occupant_eq_ok_iff.1 hocc) _

/-! ## Operations -/

/-- What an operation may do to the slots. -/
structure Turned (r r' : Registry H) : Prop where
  /-- The arena grows only if no slot of it is free. -/
  size : r'.slots.size = r.slots.size ∨
    (r'.slots.size = r.slots.size + 1 ∧ r'.freeHead = none)
  turn : ∀ i, Slot.Turn (r.shapeAt i) (r'.shapeAt i)

theorem SameShape.turned (h : SameShape r r') : Turned r r' where
  size := Or.inl h.size
  turn i := by
    rw [h.shapeAt]
    exact .kept _

theorem turned_refl (r : Registry H) : Turned r r := ⟨Or.inl rfl, fun _ => .kept _⟩

theorem Turned.trans_same (h : Turned r r') (h' : SameShape r' r'') : Turned r r'' where
  size := by
    rw [h'.size, h'.freeHead]
    exact h.size
  turn i := by
    rw [h'.shapeAt]
    exact h.turn i

theorem SameShape.trans_turned (h : SameShape r r') (h' : Turned r' r'') : Turned r r'' where
  size := by
    rw [← h.size]
    exact h'.size
  turn i := by
    rw [← h.shapeAt]
    exact h'.turn i

/-- A change of one slot is a turn of the arena if it is a turn of this slot. -/
theorem turned_setIfInBounds {slot : Slot H} (hlt : i < r.slots.size)
    (hslots : r'.slots = r.slots.setIfInBounds i slot)
    (hturn : Slot.Turn (r.shapeAt i) (some slot.shape)) : Turned r r' where
  size := Or.inl (by rw [hslots, Array.size_setIfInBounds])
  turn j := by
    rw [shapeAt.eq_def r', hslots, Array.getElem?_setIfInBounds]
    by_cases hj : i = j
    · rw [if_pos hj, if_pos hlt, ← hj]
      exact hturn
    · rw [if_neg hj]
      exact .kept _

theorem turned_place (h : r.place rec = .ok (i, g, r')) : Turned r r' := by
  rw [place] at h
  split at h
  · split at h
    · rename_i hslot
      obtain ⟨-, -, rfl⟩ := h
      refine turned_setIfInBounds (Array.getElem?_eq_some_iff.1 hslot).1 rfl ?_
      rw [shapeAt, hslot]
      exact .filled _ _
    · cases h
    · cases h
  · rename_i hhead
    split at h
    · obtain ⟨-, -, rfl⟩ := h
      refine ⟨Or.inr ⟨Array.size_push _, hhead⟩, fun j => ?_⟩
      rw [shapeAt, shapeAt, Array.getElem?_push]
      split
      · rename_i hj
        rw [hj, Array.getElem?_eq_none (Nat.le_refl _)]
        exact .opened
      · exact .kept _
    · cases h

theorem turned_acquire {h : H} {t : Token} (hr : r.acquire h = .ok (t, r')) : Turned r r' := by
  rw [acquire] at hr
  split at hr
  · obtain ⟨⟨g, rec⟩, hocc, hr⟩ := exists_of_bind_eq_ok hr
    simp only at hr
    split at hr
    · obtain ⟨-, rfl⟩ := hr
      exact (sameShape_setRecord (occupant_eq_ok_iff.1 hocc) _).turned
    · cases hr
  · obtain ⟨⟨i, g, placed⟩, hplace, hr⟩ := exists_of_bind_eq_ok hr
    obtain ⟨linked, hlink, hr⟩ := exists_of_bind_eq_ok hr
    obtain ⟨-, rfl⟩ := hr
    have hsame := sameShape_linkForward hlink
    exact (turned_place hplace).trans_same ⟨hsame.freeHead, hsame.size, hsame.shapeAt⟩

theorem turned_unlink (hslot : r.slots[i]? = some (.occupied g rec))
    (h : r.unlink i g rec = .ok r') : Turned r r' := by
  obtain ⟨ahead, hahead, h⟩ := exists_of_bind_eq_ok h
  obtain ⟨both, hboth, h⟩ := exists_of_bind_eq_ok h
  have hsame := (sameShape_linkForward hahead).trans (sameShape_linkBackward hboth)
  refine hsame.trans_turned ?_
  rw [← Except.ok.inj h]
  refine turned_setIfInBounds ?_ rfl ?_
  · rw [hsame.size]
    exact (Array.getElem?_eq_some_iff.1 hslot).1
  · rw [hsame.shapeAt, shapeAt_eq_occupied_iff.2 ⟨rec, hslot⟩]
    exact .vacated g both.freeHead

theorem turned_countDown (h : r.countDown i = .ok r') : Turned r r' := by
  obtain ⟨⟨g, rec⟩, hocc, h⟩ := exists_of_bind_eq_ok h
  have hslot := occupant_eq_ok_iff.1 hocc
  simp only at h
  split at h
  · exact nomatch h
  · exact turned_unlink hslot h
  · rw [← Except.ok.inj h]
    exact (sameShape_setRecord hslot _).turned

theorem countDown_of_release {t : Token} (h : r.release t = .ok r') :
    r.countDown t.slot.toNat = .ok r' := by
  rw [release] at h
  split at h
  · split at h
    · exact h
    · cases h
  · cases h

theorem exists_countDown_of_releaseHandle {h : H} (hr : r.releaseHandle h = .ok r') :
    ∃ i, r.countDown i = .ok r' := by
  rw [releaseHandle] at hr
  split at hr
  · exact ⟨_, hr⟩
  · cases hr

/-- An operation changes nothing, or it is a hold, or it counts down one record. -/
theorem act_cases (r : Registry H) (op : Operation H) :
    (r.act op).2 = r ∨ (∃ h t, r.acquire h = .ok (t, (r.act op).2)) ∨
      ∃ i, r.countDown i = .ok (r.act op).2 := by
  cases op with
  | acquire h =>
    rw [act]
    cases hr : r.acquire h with
    | ok x => exact Or.inr (Or.inl ⟨h, x.1, hr⟩)
    | error e => exact Or.inl rfl
  | tryRelease t | release t =>
    rw [act]
    cases hr : r.release t with
    | ok r' => exact Or.inr (Or.inr ⟨_, countDown_of_release hr⟩)
    | error e => exact Or.inl rfl
  | tryReleaseHandle h | releaseHandle h =>
    rw [act]
    cases hr : r.releaseHandle h with
    | ok r' => exact Or.inr (Or.inr (exists_countDown_of_releaseHandle hr))
    | error e => exact Or.inl rfl

/-- What an operation does to the slots, on every registry. -/
theorem turned_act (r : Registry H) (op : Operation H) : Turned r (r.act op).2 := by
  rcases act_cases r op with hsame | ⟨h, t, hacquire⟩ | ⟨i, hdown⟩
  · rw [hsame]
    exact turned_refl r
  · exact turned_acquire hacquire
  · exact turned_countDown hdown

end PinnedHeap.Registry
