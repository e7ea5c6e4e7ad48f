import PinnedHeap.Proofs.Registry.Ledger

/-!
# Histories

A history lists the holds and releases that succeeded, the latest one first.  It only
records what a caller sees: the handle and the token of a hold, and the token or the
handle of a release.

A release by token is one of the handle that was held last with this token
(`holder?`).  So the holds and the releases of a handle can be counted in the history
alone.  `Accounted` says that a ledger agrees with a history, and every operation of
the ledger keeps it (`Accounted.acquire`, `Accounted.release`,
`Accounted.releaseHandle`).
-/

namespace PinnedHeap.Registry

/-- A hold or a release that succeeded. -/
inductive Event (H : Type) where
  /-- The handle was held and this token returned. -/
  | held (handle : H) (token : Token)
  /-- One hold with this token was released. -/
  | released (token : Token)
  /-- One hold of this handle was released. -/
  | releasedHandle (handle : H)
deriving DecidableEq

variable {H : Type}

/-- The handle that was held last with a token. -/
def holder? (t : Token) : List (Event H) → Option H
  | [] => none
  | .held h t' :: past => if t' = t then some h else holder? t past
  | _ :: past => holder? t past

variable [DecidableEq H]

/-- How often a handle was held. -/
def holds (h : H) : List (Event H) → Nat
  | [] => 0
  | .held h' _ :: past => if h' = h then holds h past + 1 else holds h past
  | _ :: past => holds h past

/-- How often a handle was released, by itself or by a token. -/
def releases (h : H) : List (Event H) → Nat
  | [] => 0
  | .held _ _ :: past => releases h past
  | .released t :: past =>
    if holder? t past = some h then releases h past + 1 else releases h past
  | .releasedHandle h' :: past => if h' = h then releases h past + 1 else releases h past

namespace Ledger

/-! ## Counts after a change -/

section Count

variable {l pre post : Ledger H} {e : Entry H}

theorem count_split (hp : Ledger.Proper (pre ++ e :: post)) :
    Ledger.count (pre ++ e :: post) e.handle = e.count := by
  rw [count, ofHandle?_split hp]
  rfl

theorem count_of_ne {h : H} (hne : e.handle ≠ h) (rest : Ledger H) :
    Ledger.count (pre ++ e :: rest) h = Ledger.count (pre ++ rest) h := by
  rw [count, count, ofHandle?, ofHandle?, List.find?_append, List.find?_append,
    List.find?_cons_of_neg (by simpa using hne)]

theorem count_recount (hp : Ledger.Proper (pre ++ e :: post)) (n : Nat) (h : H) :
    Ledger.count (pre ++ { e with count := n } :: post) h =
      if e.handle = h then n else Ledger.count (pre ++ e :: post) h := by
  by_cases heq : e.handle = h
  · have hsingles := hp.singles_handle
    have hsingles' : Singles (fun x => x.handle = e.handle) pre { e with count := n } post :=
      ⟨decide_eq_true rfl, hsingles.before, hsingles.after⟩
    rw [if_pos heq, ← heq, count, ofHandle?, find?_split hsingles']
    rfl
  · rw [if_neg heq, count_of_ne heq, count_of_ne (e := { e with count := n }) heq]

theorem count_remove (hp : Ledger.Proper (pre ++ e :: post)) (h : H) :
    Ledger.count (pre ++ post) h =
      if e.handle = h then 0 else Ledger.count (pre ++ e :: post) h := by
  rw [count, ofHandle?_remove hp]
  split <;> rfl

theorem count_lower (hp : Ledger.Proper (pre ++ e :: post)) (h : H) :
    Ledger.count (pre ++ (e.lower.toList ++ post)) h =
      if e.handle = h then e.count - 1 else Ledger.count (pre ++ e :: post) h := by
  rw [Entry.lower]
  split
  · rename_i hle
    rw [show e.count - 1 = 0 by omega]
    exact count_remove hp h
  · exact count_recount hp (e.count - 1) h

theorem count_raise (hp : Ledger.Proper (pre ++ e :: post)) (h : H) :
    Ledger.count (pre ++ (e.raise.toList ++ post)) h =
      if e.handle = h then e.count + 1 else Ledger.count (pre ++ e :: post) h :=
  count_recount hp (e.count + 1) h

theorem count_concat {h : H} (hh : l.ofHandle? h = none) (t : Token) (h' : H) :
    Ledger.count (l ++ [⟨h, 1, t⟩]) h' = if h = h' then 1 else l.count h' := by
  rw [count, ofHandle?_concat, count]
  by_cases heq : h = h'
  · rw [if_pos heq, if_pos heq, ← heq, hh]
    rfl
  · rw [if_neg heq, if_neg heq, Option.or_none]

theorem count_pos_iff (hp : l.Proper) {h : H} : 0 < l.count h ↔ h ∈ l.map Entry.handle := by
  rw [count]
  cases he : l.ofHandle? h with
  | none =>
    exact ⟨fun hpos => absurd hpos (Nat.lt_irrefl 0),
      fun hmem => absurd hmem (ofHandle?_eq_none_iff.1 he)⟩
  | some e =>
    have hmem := List.mem_of_find?_eq_some he
    have hhandle : e.handle = h := by simpa using List.find?_some he
    exact ⟨fun _ => hhandle ▸ List.mem_map_of_mem hmem, fun _ => (hp.counts e hmem).1⟩

end Count

/-! ## Agreement with a history -/

/-- A ledger agrees with a history: each token was returned last for the handle of its
entry, and the holds of a handle that were not released are its count. -/
structure Accounted (l : Ledger H) (past : List (Event H)) : Prop where
  holder?_eq : ∀ e ∈ l, holder? e.token past = some e.handle
  balance : ∀ h, holds h past = l.count h + releases h past

theorem accounted_nil : Accounted ([] : Ledger H) [] where
  holder?_eq := fun _ he => absurd he List.not_mem_nil
  balance := fun _ => rfl

variable {l l' pre post : Ledger H} {e : Entry H} {past : List (Event H)} {h : H} {t : Token}

theorem Accounted.lower (ha : Accounted (pre ++ e :: post) past)
    (hp : Ledger.Proper (pre ++ e :: post)) {event : Event H}
    (hholder : ∀ t, holder? t (event :: past) = holder? t past)
    (hholds : ∀ h, holds h (event :: past) = holds h past)
    (hreleases : ∀ h, releases h (event :: past) =
      if e.handle = h then releases h past + 1 else releases h past) :
    Accounted (pre ++ (e.lower.toList ++ post)) (event :: past) where
  holder?_eq := by
    intro e' he'
    obtain ⟨x, hx, hhandle, htoken⟩ := exists_of_mem_replaced Entry.same_of_lower he'
    rw [hholder, ← htoken, ha.holder?_eq x hx, hhandle]
  balance := by
    intro h
    have hbalance := ha.balance h
    have hpos := (hp.counts e (List.mem_append_right _ List.mem_cons_self)).1
    rw [hholds, hreleases, count_lower hp]
    by_cases heq : e.handle = h
    · rw [← heq, count_split hp] at hbalance
      rw [if_pos heq, if_pos heq, ← heq]
      omega
    · rw [if_neg heq, if_neg heq]
      exact hbalance

theorem Accounted.releaseHandle (ha : Accounted l past) (hp : l.Proper)
    (hl : l.releaseHandle h = .ok l') : Accounted l' (.releasedHandle h :: past) := by
  rw [Ledger.releaseHandle] at hl
  cases he : l.ofHandle? h with
  | none =>
    rw [he] at hl
    exact nomatch hl
  | some e =>
    rw [he] at hl
    obtain ⟨pre, post, rfl⟩ := List.append_of_mem (List.mem_of_find?_eq_some he)
    obtain rfl : e.handle = h := by simpa using List.find?_some he
    rw [← Except.ok.inj hl, adjust_split hp.singles_handle]
    exact ha.lower hp (fun _ => rfl) (fun _ => rfl) fun _ => rfl

theorem Accounted.release (ha : Accounted l past) (hp : l.Proper)
    (hl : l.release t = .ok l') : Accounted l' (.released t :: past) := by
  rw [Ledger.release] at hl
  cases he : l.ofToken? t with
  | none =>
    rw [he] at hl
    exact nomatch hl
  | some e =>
    rw [he] at hl
    have hmem := List.mem_of_find?_eq_some he
    obtain ⟨pre, post, rfl⟩ := List.append_of_mem hmem
    obtain rfl : e.token = t := by simpa using List.find?_some he
    rw [← Except.ok.inj hl, adjust_split hp.singles_token]
    refine ha.lower hp (fun _ => rfl) (fun _ => rfl) fun h => ?_
    rw [releases, ha.holder?_eq e hmem]
    simp only [Option.some.injEq]

theorem Accounted.raise (ha : Accounted (pre ++ e :: post) past)
    (hp : Ledger.Proper (pre ++ e :: post)) :
    Accounted (pre ++ (e.raise.toList ++ post)) (.held e.handle e.token :: past) where
  holder?_eq := by
    intro e' he'
    obtain ⟨x, hx, hhandle, htoken⟩ := exists_of_mem_replaced Entry.same_of_raise he'
    have hmem : e ∈ pre ++ e :: post := List.mem_append_right _ List.mem_cons_self
    rw [holder?]
    split
    · rename_i heq
      rw [hp.eq_of_token hmem hx (heq.trans htoken.symm), hhandle]
    · rw [← htoken, ha.holder?_eq x hx, hhandle]
  balance := by
    intro h
    have hbalance := ha.balance h
    rw [holds, releases, count_raise hp]
    by_cases heq : e.handle = h
    · rw [← heq, count_split hp] at hbalance
      rw [if_pos heq, if_pos heq, ← heq, hbalance]
      exact Nat.add_right_comm _ _ _
    · rw [if_neg heq, if_neg heq]
      exact hbalance

theorem Accounted.append (ha : Accounted l past) (hh : l.ofHandle? h = none)
    (ht : t ∉ l.map Entry.token) : Accounted (l ++ [⟨h, 1, t⟩]) (.held h t :: past) where
  holder?_eq := by
    intro e' he'
    rw [holder?]
    rcases List.mem_append.1 he' with he' | he'
    · have hne : t ≠ e'.token := fun heq => ht (heq ▸ List.mem_map_of_mem he')
      rw [if_neg hne, ha.holder?_eq e' he']
    · rw [List.mem_singleton.1 he', if_pos rfl]
  balance := by
    intro h'
    have hbalance := ha.balance h'
    rw [holds, releases, count_concat hh]
    by_cases heq : h = h'
    · rw [← heq, count, hh] at hbalance
      rw [if_pos heq, if_pos heq, ← heq, hbalance]
      exact Nat.add_right_comm _ _ _
    · rw [if_neg heq, if_neg heq]
      exact hbalance

theorem Accounted.acquire (ha : Accounted l past) (hp : l.Proper) {fresh : Token}
    (hfresh : fresh ∉ l.map Entry.token) (hl : l.acquire fresh h = .ok (t, l')) :
    Accounted l' (.held h t :: past) := by
  rw [Ledger.acquire] at hl
  cases he : l.ofHandle? h with
  | some e =>
    rw [he] at hl
    obtain ⟨pre, post, rfl⟩ := List.append_of_mem (List.mem_of_find?_eq_some he)
    obtain rfl : e.handle = h := by simpa using List.find?_some he
    by_cases hlt : e.count + 1 < countLimit
    · simp only [if_pos hlt] at hl
      obtain ⟨rfl, rfl⟩ := Prod.mk.inj (Except.ok.inj hl)
      rw [adjust_split hp.singles_handle]
      exact ha.raise hp
    · simp only [if_neg hlt] at hl
      exact nomatch hl
  | none =>
    rw [he] at hl
    by_cases hlt : l.length < indexLimit
    · simp only [if_pos hlt] at hl
      obtain ⟨rfl, rfl⟩ := Prod.mk.inj (Except.ok.inj hl)
      exact ha.append he hfresh
    · simp only [if_neg hlt] at hl
      exact nomatch hl

end Ledger

end PinnedHeap.Registry
