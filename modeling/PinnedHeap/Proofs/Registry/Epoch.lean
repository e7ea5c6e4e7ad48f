import PinnedHeap.Proofs.Registry.Turn

/-!
# The epochs of the slots of a registry

A slot is in the epoch of the record that it holds, or of the one it will hold next.  Each
operation leaves a slot in its epoch or takes it to the next one (`epoch_act_cases`), so epochs
only grow until the generations start again.

A token is *current* if its slot holds a record of its generation, and *spent* if its slot is in
a later epoch.  A token that is current stays so, or it is spent from then on
(`Current.act`, `Spent.after`), and a spent token is refused (`Spent.tryRelease`).
-/

namespace PinnedHeap.Registry

variable {H : Type} [Ord H]

/-! ## Epochs -/

/-- The generation of a slot.  One that the arena does not have yet is in the first. -/
def epoch (r : Registry H) (i : Nat) : Generation :=
  ((r.shapeAt i).map Prod.fst).getD Generation.first

/-- No slot goes from the last generation to the first one. -/
def Unwrapped : Registry H → List (Operation H) → Prop
  | _, [] => True
  | r, op :: ops =>
    (∀ i, ¬ (r.epoch i = Generation.last ∧ (r.act op).2.epoch i = Generation.first)) ∧
      Unwrapped (r.act op).2 ops

section Epoch

variable {r : Registry H} {op : Operation H} {i : Nat}

theorem epoch_act_cases (r : Registry H) (op : Operation H) (i : Nat) :
    (r.act op).2.epoch i = r.epoch i ∨ (r.act op).2.epoch i = Generation.next (r.epoch i) := by
  have hturn := (turned_act r op).turn i
  rw [epoch, epoch]
  generalize r.shapeAt i = before at hturn ⊢
  generalize (r.act op).2.shapeAt i = after at hturn ⊢
  cases hturn with
  | kept => exact Or.inl rfl
  | filled => exact Or.inl rfl
  | opened => exact Or.inl rfl
  | vacated => exact Or.inr rfl

/-- Before the generations of a slot start again, its epoch only grows. -/
theorem epoch_le_act
    (hu : ¬ (r.epoch i = Generation.last ∧ (r.act op).2.epoch i = Generation.first)) :
    (r.epoch i).toNat ≤ ((r.act op).2.epoch i).toNat := by
  rcases epoch_act_cases r op i with hsame | hnext
  · exact Nat.le_of_eq (congrArg UInt32.toNat hsame.symm)
  · by_cases hlast : r.epoch i = Generation.last
    · rw [hnext, Generation.next, if_pos hlast] at hu
      exact absurd ⟨hlast, rfl⟩ hu
    · rw [hnext, Generation.toNat_next hlast]
      exact Nat.le_succ _

theorem epoch_act_le (r : Registry H) (op : Operation H) (i : Nat) :
    ((r.act op).2.epoch i).toNat ≤ (r.epoch i).toNat + 1 := by
  rcases epoch_act_cases r op i with hsame | hnext
  · rw [hsame]
    exact Nat.le_succ _
  · by_cases hlast : r.epoch i = Generation.last
    · rw [hnext, Generation.next, if_pos hlast]
      exact Nat.succ_le_succ (Nat.zero_le _)
    · exact Nat.le_of_eq (by rw [hnext, Generation.toNat_next hlast])

theorem unwrapped_append_iff {ops more : List (Operation H)} :
    r.Unwrapped (ops ++ more) ↔ r.Unwrapped ops ∧ (r.after ops).Unwrapped more := by
  induction ops generalizing r with
  | nil => exact ⟨fun hu => ⟨trivial, hu⟩, And.right⟩
  | cons op ops ih =>
    rw [List.cons_append, Unwrapped, Unwrapped, ih, and_assoc]
    rfl

theorem Unwrapped.take {ops : List (Operation H)} (hu : r.Unwrapped ops) (n : Nat) :
    r.Unwrapped (ops.take n) := by
  rw [← List.take_append_drop n ops, unwrapped_append_iff] at hu
  exact hu.1

/-- A run needs as many operations as there are generations to use all those of a slot. -/
theorem unwrapped_of_epoch_add_length {ops : List (Operation H)}
    (hle : ∀ i, (r.epoch i).toNat + ops.length ≤ Generation.last.toNat) : r.Unwrapped ops := by
  induction ops generalizing r with
  | nil => trivial
  | cons op ops ih =>
    rw [List.length_cons] at hle
    refine ⟨fun i ⟨hlast, _⟩ => ?_, ih fun i => ?_⟩
    · have := hle i
      rw [hlast] at this
      omega
    · have := hle i
      have := epoch_act_le r op i
      omega

theorem unwrapped_of_length_lt {ops : List (Operation H)}
    (hlen : ops.length < Generation.last.toNat) : ({} : Registry H).Unwrapped ops :=
  unwrapped_of_epoch_add_length fun i => by
    have hfirst : (epoch ({} : Registry H) i).toNat = 1 := rfl
    omega

end Epoch

/-! ## Current and spent tokens -/

/-- The slot of the token holds a record of its generation. -/
def Current (r : Registry H) (t : Token) : Prop :=
  r.shapeAt t.slot.toNat = some (t.generation, none)

/-- The slot of the token is in a later epoch. -/
def Spent (r : Registry H) (t : Token) : Prop :=
  t.generation.toNat < (r.epoch t.slot.toNat).toNat

section Tokens

variable {r : Registry H} {op : Operation H} {ops : List (Operation H)} {t : Token}

theorem Current.epoch_eq (hc : r.Current t) : r.epoch t.slot.toNat = t.generation := by
  rw [epoch, hc]
  rfl

theorem Current.not_spent (hc : r.Current t) : ¬ r.Spent t := by
  rw [Spent, hc.epoch_eq]
  exact Nat.lt_irrefl _

theorem Current.act (hc : r.Current t) (hu : r.Unwrapped (op :: ops)) :
    (r.act op).2.Current t ∨ (r.act op).2.Spent t := by
  have hnowrap := hu.1 t.slot.toNat
  have hturn := (turned_act r op).turn t.slot.toNat
  rw [hc.epoch_eq] at hnowrap
  rw [Current, Spent, epoch] at *
  rw [hc] at hturn
  generalize (r.act op).2.shapeAt t.slot.toNat = after at hturn hnowrap ⊢
  cases hturn with
  | kept => exact Or.inl rfl
  | vacated g next =>
    have hne : t.generation ≠ Generation.last := by
      intro hlast
      refine hnowrap ⟨hlast, ?_⟩
      rw [hlast]
      rfl
    right
    rw [Option.map_some, Option.getD_some, Generation.toNat_next hne]
    exact Nat.lt_succ_self _

theorem Spent.act (hs : r.Spent t) (hu : r.Unwrapped (op :: ops)) : (r.act op).2.Spent t :=
  Nat.lt_of_lt_of_le hs (epoch_le_act (hu.1 t.slot.toNat))

theorem Spent.after (hs : r.Spent t) (hu : r.Unwrapped ops) : (r.after ops).Spent t := by
  induction ops generalizing r with
  | nil => exact hs
  | cons op ops ih => exact ih (hs.act hu) hu.2

/-- A spent token is refused, and nothing changes. -/
theorem Spent.tryRelease (hs : r.Spent t) :
    r.act (.tryRelease t) = (.refused (.unknownToken t), r) := by
  have hrelease : r.release t = .error (.unknownToken t) := by
    rw [release]
    split
    · rename_i g rec hslot
      have hne : g ≠ t.generation := by
        rintro rfl
        exact Current.not_spent (shapeAt_eq_occupied_iff.2 ⟨rec, hslot⟩) hs
      rw [if_neg hne]
    · rfl
  rw [Registry.act, hrelease]
  rfl

end Tokens

end PinnedHeap.Registry
