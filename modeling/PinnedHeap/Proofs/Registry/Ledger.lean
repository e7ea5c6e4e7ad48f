import Mathlib.Data.List.Nodup
import PinnedHeap.Registry.Basic

/-!
# Ledgers

A ledger is what a registry is about, without slots, links and an index: the list of
the handles that are held, in the order of their first hold, each with its number of
holds and its token.  All operations are described on the list.  A token cannot be
computed from a ledger, so an operation that may need a new one is given it.

A ledger is *proper* if no handle and no slot occurs twice, if every entry is held at
least once and not more often than can be counted, and if no token has the generation
that is never issued.
-/

namespace PinnedHeap.Registry

/-- One handle that is held, with its number of holds. -/
structure Entry (H : Type) where
  /-- The handle. -/
  handle : H
  /-- Number of holds. -/
  count : Nat
  /-- The token of the holds. -/
  token : Token
deriving DecidableEq

/-- The handles that are held, in the order of their first hold. -/
abbrev Ledger (H : Type) := List (Entry H)

variable {H : Type}

/-- The slot that the token names. -/
def Entry.index (e : Entry H) : Nat := e.token.slot.toNat

/-- One hold more. -/
def Entry.raise (e : Entry H) : Option (Entry H) := some { e with count := e.count + 1 }

/-- One hold less.  Nothing is left of an entry with one hold. -/
def Entry.lower (e : Entry H) : Option (Entry H) :=
  if e.count ≤ 1 then none else some { e with count := e.count - 1 }

theorem Entry.same_of_raise {e : Entry H} :
    ∀ x ∈ e.raise, x.handle = e.handle ∧ x.token = e.token := by
  intro x hx
  rw [← Option.some.inj hx]
  exact ⟨rfl, rfl⟩

theorem Entry.same_of_lower {e : Entry H} :
    ∀ x ∈ e.lower, x.handle = e.handle ∧ x.token = e.token := by
  intro x hx
  rw [Entry.lower] at hx
  split at hx
  · exact nomatch hx
  · rw [← Option.some.inj hx]
    exact ⟨rfl, rfl⟩

namespace Ledger

/-! ## Operations -/

/-- Lets `f` replace or delete the entries that satisfy `p`, and keeps the others. -/
def adjust (l : Ledger H) (p : Entry H → Bool) (f : Entry H → Option (Entry H)) : Ledger H :=
  l.filterMap fun e => if p e then f e else some e

/-- The entry of a token. -/
def ofToken? (l : Ledger H) (t : Token) : Option (Entry H) := l.find? fun e => e.token = t

/-- Releases one hold by its token. -/
def release (l : Ledger H) (t : Token) : Except (Error H) (Ledger H) :=
  match l.ofToken? t with
  | some _ => .ok (l.adjust (fun e => e.token = t) Entry.lower)
  | none => .error (.unknownToken t)

section Operations

variable [DecidableEq H]

/-- The entry of a handle. -/
def ofHandle? (l : Ledger H) (h : H) : Option (Entry H) := l.find? fun e => e.handle = h

/-- Number of holds of a handle. -/
def count (l : Ledger H) (h : H) : Nat := ((l.ofHandle? h).map Entry.count).getD 0

/-- Holds a handle once more.  A handle without an entry gets the token `fresh`. -/
def acquire (l : Ledger H) (fresh : Token) (h : H) : Except (Error H) (Token × Ledger H) :=
  match l.ofHandle? h with
  | some e =>
    if e.count + 1 < countLimit then
      .ok (e.token, l.adjust (fun e => e.handle = h) Entry.raise)
    else .error (.countOverflow h)
  | none =>
    if l.length < indexLimit then .ok (fresh, l ++ [⟨h, 1, fresh⟩])
    else .error (.corruptLinks .exhausted)

/-- Releases one hold by its handle. -/
def releaseHandle (l : Ledger H) (h : H) : Except (Error H) (Ledger H) :=
  match l.ofHandle? h with
  | some _ => .ok (l.adjust (fun e => e.handle = h) Entry.lower)
  | none => .error (.unknownHandle h)

end Operations

/-! ## Proper ledgers -/

/-- No handle and no slot occurs twice, and all counts and generations are in range. -/
structure Proper (l : Ledger H) : Prop where
  handles : (l.map Entry.handle).Nodup
  indices : (l.map Entry.index).Nodup
  counts : ∀ e ∈ l, 0 < e.count ∧ e.count < countLimit
  generations : ∀ e ∈ l, e.token.generation ≠ 0

theorem proper_nil : Proper ([] : Ledger H) where
  handles := List.nodup_nil
  indices := List.nodup_nil
  counts := fun _ he => absurd he List.not_mem_nil
  generations := fun _ he => absurd he List.not_mem_nil

variable {l pre post : Ledger H} {e : Entry H}

theorem Proper.append (hp : l.Proper) {h : H} {t : Token} (hh : h ∉ l.map Entry.handle)
    (ht : t.slot.toNat ∉ l.map Entry.index) (hg : t.generation ≠ 0) :
    Ledger.Proper (l ++ [⟨h, 1, t⟩]) where
  handles := by
    rw [List.map_append]
    exact hp.handles.append (List.nodup_singleton h) (List.disjoint_singleton.2 hh)
  indices := by
    rw [List.map_append]
    exact hp.indices.append (List.nodup_singleton _) (List.disjoint_singleton.2 ht)
  counts := by
    intro e he
    rcases List.mem_append.1 he with he | he
    · exact hp.counts e he
    · rw [List.mem_singleton.1 he]
      exact ⟨Nat.one_pos, show 1 < countLimit by decide⟩
  generations := by
    intro e he
    rcases List.mem_append.1 he with he | he
    · exact hp.generations e he
    · rw [List.mem_singleton.1 he]
      exact hg

theorem Proper.recount (hp : Ledger.Proper (pre ++ e :: post)) {n : Nat} (hn : 0 < n)
    (hlt : n < countLimit) : Ledger.Proper (pre ++ { e with count := n } :: post) where
  handles := by simpa using hp.handles
  indices := by simpa [Entry.index] using hp.indices
  counts := by
    intro e' he'
    rcases List.mem_append.1 he' with he' | he'
    · exact hp.counts e' (List.mem_append_left _ he')
    · rcases List.mem_cons.1 he' with rfl | he'
      · exact ⟨hn, hlt⟩
      · exact hp.counts e' (List.mem_append_right _ (List.mem_cons_of_mem _ he'))
  generations := by
    intro e' he'
    rcases List.mem_append.1 he' with he' | he'
    · exact hp.generations e' (List.mem_append_left _ he')
    · rcases List.mem_cons.1 he' with rfl | he'
      · exact hp.generations e (List.mem_append_right _ List.mem_cons_self)
      · exact hp.generations e' (List.mem_append_right _ (List.mem_cons_of_mem _ he'))

theorem Proper.sublist {m : Ledger H} (hp : l.Proper) (hs : List.Sublist m l) : m.Proper where
  handles := hp.handles.sublist (hs.map _)
  indices := hp.indices.sublist (hs.map _)
  counts := fun e he => hp.counts e (hs.mem he)
  generations := fun e he => hp.generations e (hs.mem he)

/-! ## Changing one entry

Handles and tokens of a proper ledger name one entry each.  Where that entry stands,
the ledger splits in two parts that no change of the entry affects. -/

/-- `p` singles out the entry `e`. -/
structure Singles (p : Entry H → Bool) (pre : Ledger H) (e : Entry H) (post : Ledger H) :
    Prop where
  holds : p e = true
  before : ∀ x ∈ pre, p x = false
  after : ∀ x ∈ post, p x = false

theorem find?_split {p : Entry H → Bool} (hp : Singles p pre e post) :
    List.find? p (pre ++ e :: post) = some e := by
  rw [List.find?_append, List.find?_eq_none.2 fun x hx => by rw [hp.before x hx]; exact nofun]
  rw [Option.none_or, List.find?_cons_of_pos hp.holds]

theorem adjust_eq_self {p : Entry H → Bool} {f : Entry H → Option (Entry H)}
    (hp : ∀ x ∈ l, p x = false) : l.adjust p f = l := by
  rw [adjust, List.filterMap_congr (g := some) fun x hx => by rw [hp x hx]; rfl,
    List.filterMap_some]

theorem adjust_split {p : Entry H → Bool} {f : Entry H → Option (Entry H)}
    (hp : Singles p pre e post) :
    Ledger.adjust (pre ++ e :: post) p f = pre ++ ((f e).toList ++ post) := by
  have hpre := adjust_eq_self (f := f) hp.before
  have hpost := adjust_eq_self (f := f) hp.after
  rw [adjust] at hpre hpost ⊢
  rw [List.filterMap_append, hpre, List.filterMap_cons, if_pos hp.holds, hpost]
  cases f e <;> rfl

theorem Proper.singles_token (hp : Ledger.Proper (pre ++ e :: post)) :
    Singles (fun x => x.token = e.token) pre e post where
  holds := decide_eq_true rfl
  before := by
    intro x hx
    have hn := hp.indices
    rw [List.map_append, List.map_cons, List.nodup_append] at hn
    refine decide_eq_false fun heq => hn.2.2 _ (List.mem_map_of_mem hx) _ List.mem_cons_self ?_
    rw [Entry.index, heq, Entry.index]
  after := by
    intro x hx
    have hn := hp.indices
    rw [List.map_append, List.map_cons, List.nodup_append, List.nodup_cons] at hn
    refine decide_eq_false fun heq => hn.2.1.1 ?_
    rw [Entry.index, ← heq]
    exact List.mem_map_of_mem hx

theorem Proper.eq_of_token {e' : Entry H} (hp : l.Proper) (he : e ∈ l) (he' : e' ∈ l)
    (heq : e.token = e'.token) : e = e' := by
  refine List.inj_on_of_nodup_map hp.indices he he' ?_
  rw [Entry.index, heq, Entry.index]

theorem exists_of_mem_replaced {e' : Entry H} {o : Option (Entry H)}
    (ho : ∀ x ∈ o, x.handle = e.handle ∧ x.token = e.token)
    (he' : e' ∈ pre ++ (o.toList ++ post)) :
    ∃ x ∈ pre ++ e :: post, x.handle = e'.handle ∧ x.token = e'.token := by
  rw [List.mem_append, List.mem_append, Option.mem_toList] at he'
  rcases he' with he' | he' | he'
  · exact ⟨e', List.mem_append_left _ he', rfl, rfl⟩
  · obtain ⟨hhandle, htoken⟩ := ho e' he'
    exact ⟨e, List.mem_append_right _ List.mem_cons_self, hhandle.symm, htoken.symm⟩
  · exact ⟨e', List.mem_append_right _ (List.mem_cons_of_mem _ he'), rfl, rfl⟩

section Split

variable [DecidableEq H]

theorem Proper.singles_handle (hp : Ledger.Proper (pre ++ e :: post)) :
    Singles (fun x => x.handle = e.handle) pre e post where
  holds := decide_eq_true rfl
  before := by
    intro x hx
    have hn := hp.handles
    rw [List.map_append, List.map_cons, List.nodup_append] at hn
    exact decide_eq_false (hn.2.2 _ (List.mem_map_of_mem hx) _ List.mem_cons_self)
  after := by
    intro x hx
    have hn := hp.handles
    rw [List.map_append, List.map_cons, List.nodup_append, List.nodup_cons] at hn
    exact decide_eq_false fun heq => hn.2.1.1 (heq ▸ List.mem_map_of_mem hx)

theorem ofHandle?_eq_none_iff {h : H} : l.ofHandle? h = none ↔ h ∉ l.map Entry.handle := by
  simp [ofHandle?]

theorem ofHandle?_split (hp : Ledger.Proper (pre ++ e :: post)) :
    Ledger.ofHandle? (pre ++ e :: post) e.handle = some e := find?_split hp.singles_handle

/-- Without the entry of a handle, that handle has none, and the others keep theirs. -/
theorem ofHandle?_remove (hp : Ledger.Proper (pre ++ e :: post)) (h : H) :
    Ledger.ofHandle? (pre ++ post) h =
      if e.handle = h then none else Ledger.ofHandle? (pre ++ e :: post) h := by
  by_cases heq : e.handle = h
  · have hsingles := hp.singles_handle
    rw [if_pos heq, ← heq, ofHandle?, List.find?_eq_none]
    intro x hx
    rw [(List.mem_append.1 hx).elim (hsingles.before x) (hsingles.after x)]
    exact Bool.false_ne_true
  · rw [if_neg heq, ofHandle?, ofHandle?, List.find?_append, List.find?_append,
      List.find?_cons_of_neg (by simpa using heq)]

theorem ofHandle?_recount (n : Nat) (h : H) :
    (Ledger.ofHandle? (pre ++ { e with count := n } :: post) h).map Entry.index =
      (Ledger.ofHandle? (pre ++ e :: post) h).map Entry.index := by
  rw [ofHandle?, ofHandle?, List.find?_append, List.find?_append]
  cases List.find? (fun x => decide (x.handle = h)) pre with
  | some x => rfl
  | none => by_cases heq : e.handle = h <;> simp [heq, Entry.index]

theorem ofHandle?_concat (l : Ledger H) (e : Entry H) (h : H) :
    Ledger.ofHandle? (l ++ [e]) h =
      (l.ofHandle? h).or (if e.handle = h then some e else none) := by
  rw [ofHandle?, List.find?_append, List.find?_singleton]
  simp only [decide_eq_true_eq]
  rfl

end Split

theorem ofToken?_eq_none_iff {t : Token} : l.ofToken? t = none ↔ t ∉ l.map Entry.token := by
  simp [ofToken?]

end Ledger

end PinnedHeap.Registry
