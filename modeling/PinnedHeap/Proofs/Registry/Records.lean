import Mathlib.Algebra.Order.BigOperators.Group.List
import Mathlib.Algebra.Order.Group.Nat
import PinnedHeap.Proofs.Registry.Lifetime

/-!
# The records of a registry

`records` reads the ledger of a registry off its links, its index and its slots.  On a registry
that represents a ledger it is that ledger (`Represents.records_eq`), so an operation can be
described by what it does to `records`, without a ledger to be named first.

A hold fails for want of numbers only: the count of a record and the number of records are
bounded.  `HasRoom` says that neither bound is met, and `Represents.acquire_cases` that nothing
else matters.
-/

namespace PinnedHeap.Registry

variable {H : Type}

namespace Ledger

/-- In a proper ledger handles and tokens go together. -/
theorem Proper.handle_eq_iff {l : Ledger H} (hp : l.Proper) {e e' : Entry H} (he : e ∈ l)
    (he' : e' ∈ l) : e.handle = e'.handle ↔ e.token = e'.token :=
  ⟨fun heq => congrArg Entry.token (List.inj_on_of_nodup_map hp.handles he he' heq),
    fun heq => congrArg Entry.handle (hp.eq_of_token he he' heq)⟩

variable [DecidableEq H]

theorem mem_handles_of_ofHandle? {l : Ledger H} {h : H} {e : Entry H}
    (he : l.ofHandle? h = some e) : h ∈ l.map Entry.handle := by
  have hhandle : e.handle = h := by simpa using List.find?_some he
  exact hhandle ▸ List.mem_map_of_mem (List.mem_of_find?_eq_some he)

/-- One more hold of a handle can be counted. -/
def HasRoom (l : Ledger H) (h : H) : Prop :=
  l.count h + 1 < countLimit ∧ (h ∈ l.map Entry.handle ∨ l.length < indexLimit)

/-- A hold succeeds exactly if it can be counted.  Its token is as good as the fresh one. -/
theorem acquire_cases (l : Ledger H) (fresh : Token) (h : H) :
    (l.HasRoom h ∧ ∃ t l', l.acquire fresh h = .ok (t, l') ∧ l.acquire t h = .ok (t, l')) ∨
      (¬ l.HasRoom h ∧ ∃ e, l.acquire fresh h = .error e) := by
  simp only [HasRoom, count, acquire]
  cases he : l.ofHandle? h with
  | some e =>
    have hmem := mem_handles_of_ofHandle? he
    simp only [Option.map_some, Option.getD_some, hmem, true_or, and_true]
    by_cases hlt : e.count + 1 < countLimit
    · exact Or.inl ⟨hlt, e.token, _, if_pos hlt, if_pos hlt⟩
    · exact Or.inr ⟨hlt, _, if_neg hlt⟩
  | none =>
    have hnot := ofHandle?_eq_none_iff.1 he
    have hone : 0 + 1 < countLimit := by decide
    simp only [Option.map_none, Option.getD_none, hnot, hone, false_or, true_and]
    by_cases hlt : l.length < indexLimit
    · exact Or.inl ⟨hlt, fresh, _, if_pos hlt, if_pos hlt⟩
    · exact Or.inr ⟨hlt, _, if_neg hlt⟩

/-- A further hold of a handle raises its count, if the count is not full. -/
theorem acquire_split {pre post : Ledger H} {e : Entry H}
    (hp : Ledger.Proper (pre ++ e :: post)) (fresh : Token) :
    Ledger.acquire (pre ++ e :: post) fresh e.handle =
      if e.count + 1 < countLimit then
        .ok (e.token, pre ++ { e with count := e.count + 1 } :: post)
      else .error (.countOverflow e.handle) := by
  rw [acquire, ofHandle?_split hp, adjust_split hp.singles_handle]
  rfl

/-- Number of holds of all handles. -/
def holds (l : Ledger H) : Nat := (l.map Entry.count).sum

omit [DecidableEq H] in
/-- An operation adds one hold at most. -/
theorem Step.holds_le {fresh : Token} {l l' : Ledger H} {op : Operation H} {answer : Answer H}
    (hstep : Step fresh l op answer l') : l'.holds ≤ l.holds + 1 := by
  cases hstep with
  | failed => exact Nat.le_succ _
  | raised =>
    simp [holds, Entry.raise]
    omega
  | appended => simp [holds]
  | lowered =>
    rw [Entry.lower]
    split <;> simp [holds] <;> omega

/-- Each record is at least one hold, so few holds are few records. -/
theorem Proper.hasRoom {l : Ledger H} (hp : l.Proper) (hlt : l.holds + 1 < countLimit) (h : H) :
    l.HasRoom h := by
  have hlength : l.length ≤ l.holds := by
    have hcounts : ∀ n ∈ l.map Entry.count, 1 ≤ n :=
      List.forall_mem_map.2 fun e he => (hp.counts e he).1
    simpa [holds] using List.length_le_sum_of_one_le _ hcounts
  have hcount : l.count h ≤ l.holds := by
    rw [count]
    cases he : l.ofHandle? h with
    | none => exact Nat.zero_le _
    | some e => exact List.le_sum_of_mem (List.mem_map_of_mem (List.mem_of_find?_eq_some he))
  have hlimits : countLimit = indexLimit := rfl
  exact ⟨by omega, Or.inr (by omega)⟩

end Ledger

variable [Ord H]

/-- The record of a handle, with the token that names it. -/
def entryOf? (r : Registry H) (h : H) : Option (Entry H) :=
  r.byHandle[h]?.bind fun i =>
    match r.slots[i]? with
    | some (.occupied g rec) => some ⟨rec.handle, rec.count, ⟨UInt32.ofNat i, g⟩⟩
    | _ => none

/-- All records, in the order of the first holds of their handles. -/
def records (r : Registry H) : Ledger H := r.toList.filterMap r.entryOf?

variable [DecidableEq H] {r : Registry H} {l : Ledger H}

theorem Represents.entryOf?_eq (hr : Represents r l) {e : Entry H} (he : e ∈ l) :
    r.entryOf? e.handle = some e := by
  obtain ⟨free, hl⟩ := hr
  obtain ⟨prev, next, hslot⟩ := hl.chained.getElem? he
  rw [entryOf?, hl.byHandle_of_mem he, Option.bind_some, hslot]
  simp only [Entry.slot, Entry.index, UInt32.ofNat_toNat]

variable [Std.TransOrd H]

theorem Represents.records_eq (hr : Represents r l) : r.records = l := by
  calc r.records
      = (l.map Entry.handle).filterMap r.entryOf? := by rw [records, hr.observed.toList_eq]
    _ = l.filterMap fun e => r.entryOf? e.handle := List.filterMap_map
    _ = l.filterMap some := List.filterMap_congr fun e he => hr.entryOf?_eq he
    _ = l := List.filterMap_some

/-- An operation is a step of the ledger. -/
theorem Represents.step [Std.LawfulEqOrd H] (hr : Represents r l) (op : Operation H) :
    ∃ fresh l', Ledger.Step fresh l op (r.act op).1 l' ∧ Represents (r.act op).2 l' := by
  obtain ⟨fresh, -, hanswer, hr'⟩ := hr.act op
  have hstep := Ledger.step_act hr.proper fresh op
  rw [← hanswer] at hstep
  exact ⟨fresh, _, hstep, hr'⟩

omit [Std.TransOrd H] in
theorem Represents.bits_ne_zero (hr : Represents r l) {e : Entry H} (he : e ∈ l) :
    e.token.bits ≠ 0 := by
  rw [Ne, Token.bits_eq_zero_iff]
  intro hnull
  exact hr.proper.generations e he (by rw [hnull]; rfl)

/-- A token that a hold returns crosses the foreign interface as a token. -/
theorem Represents.bits_ne_zero_of_acquire [Std.LawfulEqOrd H] (hr : Represents r l) {h : H}
    {t : Token} {r' : Registry H} (hacquire : r.acquire h = .ok (t, r')) : t.bits ≠ 0 := by
  obtain ⟨fresh, l', hstep, hr'⟩ := hr.step (.acquire h)
  rw [Registry.act, hacquire] at hstep hr'
  obtain ⟨e, he, -, rfl⟩ := hstep.exists_of_held
  exact hr'.bits_ne_zero he

/-- A hold returns the token of its handle, and of no other. -/
theorem Represents.handle_eq_iff_of_acquire [Std.LawfulEqOrd H] (hr : Represents r l) {h : H}
    {t : Token} {r' : Registry H} (hacquire : r.acquire h = .ok (t, r')) {e : Entry H}
    (he : e ∈ l) : e.handle = h ↔ e.token = t := by
  obtain ⟨fresh, l', hstep, hr'⟩ := hr.step (.acquire h)
  rw [Registry.act, hacquire] at hstep hr'
  obtain ⟨x, hx, rfl, rfl⟩ := hstep.exists_of_held
  rcases hstep.kept_or_removed hr.proper he with ⟨y, hy, hhandle, htoken⟩ | ⟨-, hreleases, -⟩
  · rw [← hhandle, ← htoken]
    exact hr'.proper.handle_eq_iff hy hx
  · exact hreleases.elim

/-- A hold succeeds exactly if it can be counted. -/
theorem Represents.acquire_cases [Std.LawfulEqOrd H] (hr : Represents r l) (h : H) :
    (l.HasRoom h ∧ ∃ t r' l', r.acquire h = .ok (t, r') ∧ l.acquire t h = .ok (t, l') ∧
      Represents r' l') ∨
    (¬ l.HasRoom h ∧ ∃ e, r.acquire h = .error e) := by
  obtain ⟨fresh, -, hagree⟩ := hr.acquire h
  rcases l.acquire_cases fresh h with ⟨hroom, t, l', hfresh, hsame⟩ | ⟨hroom, e, herror⟩
  · left
    rw [hfresh] at hagree
    generalize r.acquire h = result at hagree
    cases hagree with
    | ok hrelated =>
      obtain ⟨rfl, hr'⟩ := hrelated
      exact ⟨hroom, _, _, l', rfl, hsame, hr'⟩
  · right
    rw [herror] at hagree
    generalize r.acquire h = result at hagree
    cases hagree with
    | error => exact ⟨hroom, e, rfl⟩

/-- The first hold of a handle appends an entry. -/
theorem Represents.acquire_new [Std.LawfulEqOrd H] (hr : Represents r l) {h : H}
    (hnew : h ∉ l.map Entry.handle) (hroom : l.holds + 1 < countLimit) :
    ∃ t r', r.acquire h = .ok (t, r') ∧ Represents r' (l ++ [⟨h, 1, t⟩]) := by
  rcases hr.acquire_cases h with ⟨-, t, r', l', hacquire, hl', hr'⟩ | ⟨hfull, -⟩
  · rw [Ledger.acquire, Ledger.ofHandle?_eq_none_iff.2 hnew] at hl'
    by_cases hlt : l.length < indexLimit
    · simp only [if_pos hlt] at hl'
      cases hl'
      exact ⟨t, r', hacquire, hr'⟩
    · simp only [if_neg hlt] at hl'
      cases hl'
  · exact absurd (hr.proper.hasRoom hroom h) hfull

/-- A further hold raises the count of the entry. -/
theorem Represents.acquire_again [Std.LawfulEqOrd H] {pre post : Ledger H} {e : Entry H}
    (hr : Represents r (pre ++ e :: post)) (hlt : e.count + 1 < countLimit) :
    ∃ r', r.acquire e.handle = .ok (e.token, r') ∧
      Represents r' (pre ++ { e with count := e.count + 1 } :: post) := by
  obtain ⟨fresh, -, hagree⟩ := hr.acquire e.handle
  rw [Ledger.acquire_split hr.proper, if_pos hlt] at hagree
  generalize r.acquire e.handle = result at hagree
  cases hagree with
  | @ok held _ hrelated =>
    obtain ⟨t, r'⟩ := held
    obtain ⟨rfl, hr'⟩ := hrelated
    exact ⟨r', rfl, hr'⟩

/-- An entry whose count is full cannot be held once more. -/
theorem Represents.acquire_full [Std.LawfulEqOrd H] {pre post : Ledger H} {e : Entry H}
    (hr : Represents r (pre ++ e :: post)) (hfull : countLimit ≤ e.count + 1) :
    r.acquire e.handle = .error (.countOverflow e.handle) := by
  obtain ⟨fresh, -, hagree⟩ := hr.acquire e.handle
  rw [Ledger.acquire_split hr.proper, if_neg (Nat.not_lt.2 hfull)] at hagree
  generalize r.acquire e.handle = result at hagree
  cases hagree with
  | error => rfl

/-- Only the token of a record can be released. -/
theorem Represents.release_of_not_mem [Std.LawfulEqOrd H] (hr : Represents r l) {t : Token}
    (ht : t ∉ l.map Entry.token) : r.release t = .error (.unknownToken t) := by
  have hagree := hr.release t
  rw [Ledger.release, Ledger.ofToken?_eq_none_iff.2 ht] at hagree
  generalize r.release t = result at hagree
  cases hagree with
  | error => rfl

/-- A release by handle succeeds exactly if the handle has a record. -/
theorem Represents.releaseHandle_cases [Std.LawfulEqOrd H] (hr : Represents r l) (h : H) :
    (h ∈ l.map Entry.handle ∧ ∃ r' l', r.releaseHandle h = .ok r' ∧ l.releaseHandle h = .ok l' ∧
      Represents r' l') ∨
    (h ∉ l.map Entry.handle ∧ r.releaseHandle h = .error (.unknownHandle h)) := by
  have hagree := hr.releaseHandle h
  rw [Ledger.releaseHandle] at hagree ⊢
  generalize r.releaseHandle h = result at hagree
  cases he : l.ofHandle? h with
  | some e =>
    left
    rw [he] at hagree
    cases hagree with
    | ok hr' => exact ⟨Ledger.mem_handles_of_ofHandle? he, _, _, rfl, rfl, hr'⟩
  | none =>
    right
    rw [he] at hagree
    cases hagree with
    | error => exact ⟨Ledger.ofHandle?_eq_none_iff.1 he, rfl⟩

end PinnedHeap.Registry
