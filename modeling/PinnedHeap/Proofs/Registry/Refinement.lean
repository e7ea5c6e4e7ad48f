import Mathlib.Data.List.Induction
import PinnedHeap.Proofs.Registry.History
import PinnedHeap.Proofs.Registry.Inspection
import PinnedHeap.Proofs.Registry.Representation

/-!
# A registry behaves like a ledger

Whatever can be asked of a registry can be answered from the ledger it represents
(`Represents.observed`).  Each operation of the registry gives the same answer as the
operation of the ledger and leads to a registry that represents the new ledger
(`Represents.act`).

By induction over the operations, a registry that starts empty cannot be told from a
ledger that starts empty (`act_refines_ledger`).  The run of the ledger is given the
tokens that it cannot compute, and they are new to it.  Tokens and handles of the
operations are arbitrary, and operations that fail are part of the runs.
-/

namespace PinnedHeap.Registry

variable {H : Type}

/-! ## Operations -/

/-- An operation on a registry. -/
inductive Operation (H : Type) where
  /-- Hold a handle. -/
  | acquire (handle : H)
  /-- Release a hold by its token. -/
  | tryRelease (token : Token)
  /-- Release a hold by its handle. -/
  | tryReleaseHandle (handle : H)
  /-- Release a hold by its token, where failure is ruled out. -/
  | release (token : Token)
  /-- Release a hold by its handle, where failure is ruled out. -/
  | releaseHandle (handle : H)
deriving DecidableEq

/-- What an operation answers. -/
inductive Answer (H : Type) where
  /-- The handle is held, with this token. -/
  | held (token : Token)
  /-- One hold was released. -/
  | released
  /-- The release is refused. -/
  | refused (cause : Error H)
  /-- The program ends. -/
  | violated (violation : Violation H)
deriving DecidableEq

/-- The answer to a hold, and the state after it. -/
def Answer.ofHold {S : Type} (s : S) : Except (Violation H) (Token × S) → Answer H × S
  | .ok (t, s') => (.held t, s')
  | .error v => (.violated v, s)

/-- The answer to a release, and the state after it. -/
def Answer.ofRelease {ε S : Type} (refusal : ε → Answer H) (s : S) :
    Except ε S → Answer H × S
  | .ok s' => (.released, s')
  | .error e => (refusal e, s)

/-- Performs an operation.  One that fails changes nothing. -/
def act [Ord H] (r : Registry H) : Operation H → Answer H × Registry H
  | .acquire h => Answer.ofHold r (demand (r.acquire h))
  | .tryRelease t => Answer.ofRelease .refused r (r.release t)
  | .tryReleaseHandle h => Answer.ofRelease .refused r (r.releaseHandle h)
  | .release t => Answer.ofRelease .violated r (demand (r.release t))
  | .releaseHandle h => Answer.ofRelease .violated r (demand (r.releaseHandle h))

/-- Performs an operation on a ledger, with a token for the entry it may make. -/
def Ledger.act [DecidableEq H] (fresh : Token) (l : Ledger H) :
    Operation H → Answer H × Ledger H
  | .acquire h => Answer.ofHold l (demand (l.acquire fresh h))
  | .tryRelease t => Answer.ofRelease .refused l (l.release t)
  | .tryReleaseHandle h => Answer.ofRelease .refused l (l.releaseHandle h)
  | .release t => Answer.ofRelease .violated l (demand (l.release t))
  | .releaseHandle h => Answer.ofRelease .violated l (demand (l.releaseHandle h))

/-- What an answer adds to a history. -/
def Operation.event? : Operation H → Answer H → Option (Event H)
  | .acquire h, .held t => some (.held h t)
  | .tryRelease t, .released => some (.released t)
  | .release t, .released => some (.released t)
  | .tryReleaseHandle h, .released => some (.releasedHandle h)
  | .releaseHandle h, .released => some (.releasedHandle h)
  | _, _ => none

/-! ## Runs -/

/-- The answers and the registries of a run. -/
def trace [Ord H] (r : Registry H) : List (Operation H) → List (Answer H × Registry H)
  | [] => []
  | op :: ops => r.act op :: trace (r.act op).2 ops

/-- The registry after a run. -/
def after [Ord H] (r : Registry H) (ops : List (Operation H)) : Registry H :=
  ops.foldl (fun r op => (r.act op).2) r

/-- The history after a run that starts with the history `past`. -/
def history [Ord H] (r : Registry H) (past : List (Event H)) : List (Operation H) → List (Event H)
  | [] => past
  | op :: ops => history (r.act op).2 ((op.event? (r.act op).1).toList ++ past) ops

/-- The runs of a ledger.  No entry has the token that a step is given for a new
one. -/
inductive Ledger.Run [DecidableEq H] :
    Ledger H → List (Operation H) → List (Answer H × Ledger H) → Prop where
  | nil (l) : Run l [] []
  | cons {l op ops steps} (fresh : Token) : fresh ∉ l.map Entry.token →
      Run (l.act fresh op).2 ops steps → Run l (op :: ops) (l.act fresh op :: steps)

/-! ## Observations -/

/-- Whatever can be asked of the registry `r` is answered by the ledger `l`. -/
structure Observed [Ord H] [DecidableEq H] (r : Registry H) (l : Ledger H) : Prop where
  count_eq : ∀ h, r.count h = l.count h
  contains_iff : ∀ h, r.contains h ↔ h ∈ l.map Entry.handle
  size_eq : r.size = l.length
  isEmpty_eq : r.isEmpty = l.isEmpty
  toList_eq : r.toList = l.map Entry.handle
  toListRev_eq : r.toListRev = (l.map Entry.handle).reverse
  /-- The walk from the head ends by itself behind the last handle. -/
  walk_forward : ∀ n, l.length ≤ n → r.walk .forward n r.head = ⟨l.map Entry.handle, none⟩
  /-- The walk from the tail ends by itself behind the first handle. -/
  walk_backward : ∀ n, l.length ≤ n →
    r.walk .backward n r.tail = ⟨(l.map Entry.handle).reverse, none⟩

section Observations

variable [Ord H] {r : Registry H} {l : Ledger H}

theorem threaded_of_chained {prev : Option Nat} (hc : Chained r.slots prev none l) :
    r.Threaded prev (Ledger.first none l) (l.map Entry.index) := by
  induction l generalizing prev with
  | nil => rfl
  | cons e rest ih => exact ⟨rfl, _, record?_eq_some_iff.2 ⟨_, hc.1⟩, rfl, ih hc.2⟩

theorem handlesAt_of_chained {prev next : Option Nat} (hc : Chained r.slots prev next l) :
    r.handlesAt (l.map Entry.index) = l.map Entry.handle := by
  induction l generalizing prev with
  | nil => rfl
  | cons e rest ih =>
    rw [List.map_cons, handlesAt_cons (record?_eq_some_iff.2 ⟨_, hc.1⟩), ih hc.2]
    rfl

variable [DecidableEq H]

theorem Layout.count_eq {free : List Nat} (hl : Layout r l free) (h : H) :
    r.count h = l.count h := by
  rw [Registry.count, Ledger.count, hl.byHandle]
  cases he : l.ofHandle? h with
  | none => rfl
  | some e =>
    obtain ⟨prev, next, hslot⟩ := hl.chained.getElem? (List.mem_of_find?_eq_some he)
    rw [Option.map_some, Option.bind_some, record?, hslot]
    rfl

theorem Layout.contains_iff [Std.TransOrd H] {free : List Nat} (hl : Layout r l free) (h : H) :
    r.contains h ↔ h ∈ l.map Entry.handle := by
  rw [Registry.contains, Std.TreeMap.contains_eq_isSome_getElem?, hl.byHandle,
    Option.isSome_map, Option.isSome_iff_ne_none, ne_eq, Ledger.ofHandle?_eq_none_iff, not_not]

theorem Layout.threaded {free : List Nat} (hl : Layout r l free) :
    r.Threaded none r.head (l.map Entry.index) := by
  rw [hl.head]
  exact threaded_of_chained hl.chained

theorem Layout.tail_eq {free : List Nat} (hl : Layout r l free) :
    r.tail = (l.map Entry.index).getLast? := by
  rw [hl.tail, Ledger.last_eq, Option.or_none]

theorem Represents.observed [Std.TransOrd H] (hr : Represents r l) : Observed r l := by
  obtain ⟨free, hl⟩ := hr
  have hsize : l.length ≤ r.slots.size := by
    rw [hl.slots_size]
    exact Nat.le_add_right _ _
  have hforward : ∀ n, l.length ≤ n →
      r.walk .forward n r.head = ⟨l.map Entry.handle, none⟩ := by
    intro n hn
    rw [hl.threaded.walk_forward (by simpa using hn), handlesAt_of_chained hl.chained]
  have hbackward : ∀ n, l.length ≤ n →
      r.walk .backward n r.tail = ⟨(l.map Entry.handle).reverse, none⟩ := by
    intro n hn
    rw [hl.tail_eq, hl.threaded.walk_backward_all (by simpa using hn),
      handlesAt_of_chained hl.chained]
  exact
    { count_eq := hl.count_eq
      contains_iff := hl.contains_iff
      size_eq := hl.size
      isEmpty_eq := by
        rw [Registry.isEmpty, Std.TreeMap.isEmpty_eq_size_eq_zero, hl.size]
        cases l <;> rfl
      toList_eq := by rw [toList, hforward _ hsize]
      toListRev_eq := by rw [toListRev, hbackward _ hsize]
      walk_forward := hforward
      walk_backward := hbackward }

end Observations

/-! ## Simulation -/

section Simulation

theorem Agree.demand {β γ : Type} {R : β → γ → Prop} {x : Except (Error H) β}
    {y : Except (Error H) γ} (h : Agree R x y) :
    Agree R (Registry.demand x) (Registry.demand y) := by
  cases h with
  | ok h => exact .ok h
  | error e => exact .error _

theorem Agree.ofRelease {ε S T : Type} {R : S → T → Prop} {s : S} {t : T} {x : Except ε S}
    {y : Except ε T} (h : Agree R x y) (refusal : ε → Answer H) (hst : R s t) :
    (Answer.ofRelease refusal s x).1 = (Answer.ofRelease refusal t y).1 ∧
      R (Answer.ofRelease refusal s x).2 (Answer.ofRelease refusal t y).2 := by
  cases h with
  | ok h => exact ⟨rfl, h⟩
  | error e => exact ⟨rfl, hst⟩

theorem Agree.ofHold {S T : Type} {R : S → T → Prop} {s : S} {t : T}
    {x : Except (Violation H) (Token × S)} {y : Except (Violation H) (Token × T)}
    (h : Agree (fun x y => x.1 = y.1 ∧ R x.2 y.2) x y) (hst : R s t) :
    (Answer.ofHold s x).1 = (Answer.ofHold t y).1 ∧
      R (Answer.ofHold s x).2 (Answer.ofHold t y).2 := by
  cases h with
  | ok h => exact ⟨congrArg Answer.held h.1, h.2⟩
  | error e => exact ⟨rfl, hst⟩

variable [Ord H] [DecidableEq H] [Std.TransOrd H] [Std.LawfulEqOrd H]
variable {r : Registry H} {l : Ledger H} {past : List (Event H)}

/-- A step of the registry is a step of the ledger. -/
theorem Represents.act (hr : Represents r l) (op : Operation H) :
    ∃ fresh, fresh ∉ l.map Entry.token ∧ (r.act op).1 = (l.act fresh op).1 ∧
      Represents (r.act op).2 (l.act fresh op).2 := by
  cases op with
  | acquire h =>
    obtain ⟨fresh, hfresh, hagree⟩ := hr.acquire h
    exact ⟨fresh, hfresh, hagree.demand.ofHold hr⟩
  | tryRelease t => exact ⟨Token.null, hr.null_not_mem, (hr.release t).ofRelease .refused hr⟩
  | tryReleaseHandle h =>
    exact ⟨Token.null, hr.null_not_mem, (hr.releaseHandle h).ofRelease .refused hr⟩
  | release t => exact ⟨Token.null, hr.null_not_mem, (hr.release t).demand.ofRelease .violated hr⟩
  | releaseHandle h =>
    exact ⟨Token.null, hr.null_not_mem, (hr.releaseHandle h).demand.ofRelease .violated hr⟩

/-- Two steps that give the same answer, and lead to a registry and to a proper ledger
that cannot be told apart. -/
structure Agrees (x : Answer H × Registry H) (y : Answer H × Ledger H) : Prop where
  answer_eq : x.1 = y.1
  proper : y.2.Proper
  observed : Observed x.2 y.2

theorem Represents.trace (hr : Represents r l) (ops : List (Operation H)) :
    ∃ steps, Ledger.Run l ops steps ∧ List.Forall₂ Agrees (r.trace ops) steps := by
  induction ops generalizing r l with
  | nil => exact ⟨[], .nil l, .nil⟩
  | cons op ops ih =>
    obtain ⟨fresh, hfresh, hanswer, hr'⟩ := hr.act op
    obtain ⟨steps, hrun, hagrees⟩ := ih hr'
    exact ⟨_, .cons fresh hfresh hrun, .cons ⟨hanswer, hr'.proper, hr'.observed⟩ hagrees⟩

end Simulation

/-! ## Histories of registries -/

section Kept

variable [Ord H] [DecidableEq H]

/-- The registry holds what its history says. -/
def Kept (r : Registry H) (past : List (Event H)) : Prop :=
  ∃ l, Represents r l ∧ l.Accounted past

theorem Agree.exists_of_ok {ε β γ : Type} {R : β → γ → Prop} {b : β} {y : Except ε γ}
    (h : Agree R (.ok b) y) : ∃ c, y = .ok c ∧ R b c := by
  cases h with
  | ok h => exact ⟨_, rfl, h⟩

variable [Std.TransOrd H] {r r' : Registry H} {past : List (Event H)} {h : H} {t : Token}

theorem kept_empty : Kept ({} : Registry H) [] := ⟨[], represents_empty, Ledger.accounted_nil⟩

theorem Kept.balance (hk : Kept r past) (h : H) : holds h past = r.count h + releases h past := by
  obtain ⟨l, hr, ha⟩ := hk
  rw [hr.observed.count_eq]
  exact ha.balance h

theorem Kept.contains_iff (hk : Kept r past) (h : H) :
    r.contains h ↔ releases h past < holds h past := by
  have hbalance := hk.balance h
  obtain ⟨l, hr, -⟩ := hk
  rw [hr.observed.count_eq] at hbalance
  rw [hr.observed.contains_iff, ← Ledger.count_pos_iff hr.proper]
  omega

theorem Kept.mem_toList_iff (hk : Kept r past) (h : H) : h ∈ r.toList ↔ r.contains h := by
  obtain ⟨l, hr, -⟩ := hk
  rw [hr.observed.toList_eq, hr.observed.contains_iff]

variable [Std.LawfulEqOrd H]

theorem Kept.acquire (hk : Kept r past) (hr' : r.acquire h = .ok (t, r')) :
    Kept r' (.held h t :: past) := by
  obtain ⟨l, hr, ha⟩ := hk
  obtain ⟨fresh, hfresh, hagree⟩ := hr.acquire h
  rw [hr'] at hagree
  obtain ⟨⟨t', l'⟩, hl', rfl, hrepr⟩ := hagree.exists_of_ok
  exact ⟨l', hrepr, ha.acquire hr.proper hfresh hl'⟩

theorem Kept.release (hk : Kept r past) (hr' : r.release t = .ok r') :
    Kept r' (.released t :: past) := by
  obtain ⟨l, hr, ha⟩ := hk
  have hagree := hr.release t
  rw [hr'] at hagree
  obtain ⟨l', hl', hrepr⟩ := hagree.exists_of_ok
  exact ⟨l', hrepr, ha.release hr.proper hl'⟩

theorem Kept.releaseHandle (hk : Kept r past) (hr' : r.releaseHandle h = .ok r') :
    Kept r' (.releasedHandle h :: past) := by
  obtain ⟨l, hr, ha⟩ := hk
  have hagree := hr.releaseHandle h
  rw [hr'] at hagree
  obtain ⟨l', hl', hrepr⟩ := hagree.exists_of_ok
  exact ⟨l', hrepr, ha.releaseHandle hr.proper hl'⟩

theorem Kept.act (hk : Kept r past) (op : Operation H) :
    Kept (r.act op).2 ((op.event? (r.act op).1).toList ++ past) := by
  cases op with
  | acquire h =>
    rw [Registry.act]
    cases hr' : r.acquire h with
    | ok x => exact hk.acquire hr'
    | error e => exact hk
  | tryRelease t =>
    rw [Registry.act]
    cases hr' : r.release t with
    | ok x => exact hk.release hr'
    | error e => exact hk
  | tryReleaseHandle h =>
    rw [Registry.act]
    cases hr' : r.releaseHandle h with
    | ok x => exact hk.releaseHandle hr'
    | error e => exact hk
  | release t =>
    rw [Registry.act]
    cases hr' : r.release t with
    | ok x => exact hk.release hr'
    | error e => exact hk
  | releaseHandle h =>
    rw [Registry.act]
    cases hr' : r.releaseHandle h with
    | ok x => exact hk.releaseHandle hr'
    | error e => exact hk

theorem Kept.after (hk : Kept r past) (ops : List (Operation H)) :
    Kept (r.after ops) (r.history past ops) := by
  induction ops generalizing r past with
  | nil => exact hk
  | cons op ops ih => exact ih (hk.act op)

end Kept

/-! ## Refinement -/

/-- A registry that starts empty cannot be told from a ledger that starts empty: all
answers and all observations are the same, after any operations.  In particular the
count of a handle is the number of its holds that were not released. -/
theorem act_refines_ledger [Ord H] [DecidableEq H] [Std.TransOrd H] [Std.LawfulEqOrd H]
    (ops : List (Operation H)) :
    Observed ({} : Registry H) [] ∧
      (∃ steps, Ledger.Run [] ops steps ∧
        List.Forall₂ Agrees (({} : Registry H).trace ops) steps) ∧
      ∀ h, holds h (({} : Registry H).history [] ops) =
        (({} : Registry H).after ops).count h + releases h (({} : Registry H).history [] ops) :=
  ⟨represents_empty.observed, represents_empty.trace ops, (kept_empty.after ops).balance⟩

/-- Two handles, a second hold of the first one, releases of all kinds, a stale token
and the use of a slot for another handle. -/
theorem act_refines_ledger_nat :
    Std.TransOrd Nat ∧ Std.LawfulEqOrd Nat ∧
      ∃ steps, Ledger.Run []
        [.acquire 7, .acquire 8, .acquire 7, .tryRelease ⟨0, 1⟩, .releaseHandle 7,
          .acquire 9, .release ⟨0, 1⟩, .tryReleaseHandle 7] steps ∧
        List.Forall₂ Agrees (({} : Registry Nat).trace
          [.acquire 7, .acquire 8, .acquire 7, .tryRelease ⟨0, 1⟩, .releaseHandle 7,
            .acquire 9, .release ⟨0, 1⟩, .tryReleaseHandle 7]) steps :=
  ⟨inferInstance, inferInstance, (act_refines_ledger _).2.1⟩

end PinnedHeap.Registry
