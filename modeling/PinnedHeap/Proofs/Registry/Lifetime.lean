import PinnedHeap.Proofs.Registry.Epoch
import PinnedHeap.Proofs.Registry.WellLinked

/-!
# The lifetime of a record

A record is made by the first hold of a handle and removed by the release of the last one.  Its
token names it from the one to the other, and nothing after that.

The ledger says which records there are, and the epochs of the slots say which tokens are spent.
`Ledger.Step` lists what an operation does to a ledger, and every other fact about a step is read
off it: entries are made by the operations that `made?` names, and an entry stays or its last hold
is released.  `Issued` couples the two descriptions.  The tokens of all records made so far are
distinct, and each is current or spent.  A new token is neither before it is issued, so it is not
one of them (`Issued.not_mem`).

The runs considered are those in which no slot goes from the last generation to the first one.
-/

namespace PinnedHeap.Registry

variable {H : Type}

/-! ## Steps of a ledger -/

/-- A release by the handle or by the token of a record. -/
def Operation.Releases (h : H) (t : Token) : Operation H → Prop
  | .acquire _ => False
  | .tryRelease t' | .release t' => t' = t
  | .tryReleaseHandle h' | .releaseHandle h' => h' = h

/-- The token that an answer returns. -/
def Answer.token? : Answer H → Option Token
  | .held t => some t
  | _ => none

namespace Ledger

/-- What an operation does to a ledger, and what it answers: it fails, it counts a hold of an
entry, it appends the entry of a handle held for the first time, or it releases a hold. -/
inductive Step (fresh : Token) : Ledger H → Operation H → Answer H → Ledger H → Prop
  | failed {l op answer} : answer.token? = none → Step fresh l op answer l
  | raised {pre e post} : Step fresh (pre ++ e :: post) (.acquire e.handle) (.held e.token)
      (pre ++ (e.raise.toList ++ post))
  | appended {l h} : h ∉ l.map Entry.handle →
      Step fresh l (.acquire h) (.held fresh) (l ++ [⟨h, 1, fresh⟩])
  | lowered {pre e post op} : op.Releases e.handle e.token →
      Step fresh (pre ++ e :: post) op .released (pre ++ (e.lower.toList ++ post))

variable {l l' : Ledger H} {fresh t : Token} {op : Operation H} {answer : Answer H} {e e' : Entry H}

theorem ofToken?_split {pre post : Ledger H} (hp : Ledger.Proper (pre ++ e :: post)) :
    Ledger.ofToken? (pre ++ e :: post) e.token = some e := find?_split hp.singles_token

/-- What stands after a step stood before it, or it was appended. -/
theorem Step.mem_cases (hs : Step fresh l op answer l') (he' : e' ∈ l') :
    (∃ e ∈ l, e.handle = e'.handle ∧ e.token = e'.token) ∨
      (op = .acquire e'.handle ∧ e'.handle ∉ l.map Entry.handle ∧ answer = .held e'.token ∧
        e'.token = fresh) := by
  cases hs with
  | failed => exact Or.inl ⟨e', he', rfl, rfl⟩
  | raised => exact Or.inl (exists_of_mem_replaced Entry.same_of_raise he')
  | appended hh =>
    rcases List.mem_append.1 he' with he' | he'
    · exact Or.inl ⟨e', he', rfl, rfl⟩
    · rw [List.mem_singleton.1 he']
      exact Or.inr ⟨rfl, hh, rfl, rfl⟩
  | lowered => exact Or.inl (exists_of_mem_replaced Entry.same_of_lower he')

/-- An entry stays, or its last hold is released. -/
theorem Step.kept_or_removed (hs : Step fresh l op answer l') (hp : l.Proper) (he : e ∈ l) :
    (∃ e' ∈ l', e'.handle = e.handle ∧ e'.token = e.token) ∨
      (e.count = 1 ∧ op.Releases e.handle e.token ∧ e.token ∉ l'.map Entry.token) := by
  cases hs with
  | failed => exact Or.inl ⟨e, he, rfl, rfl⟩
  | @raised pre e₀ post =>
    left
    rcases List.mem_append.1 he with he | he
    · exact ⟨e, List.mem_append_left _ he, rfl, rfl⟩
    · rcases List.mem_cons.1 he with rfl | he
      · exact ⟨_, List.mem_append_right _ List.mem_cons_self, rfl, rfl⟩
      · exact ⟨e, List.mem_append_right _ (List.mem_cons_of_mem _ he), rfl, rfl⟩
  | appended => exact Or.inl ⟨e, List.mem_append_left _ he, rfl, rfl⟩
  | @lowered pre e₀ post op hrel =>
    rcases List.mem_append.1 he with he | he
    · exact Or.inl ⟨e, List.mem_append_left _ he, rfl, rfl⟩
    · rcases List.mem_cons.1 he with rfl | he
      · rw [Entry.lower]
        split
        -- The last hold was released, and no other entry has the token.
        · rename_i hle
          have hpos := (hp.counts e (List.mem_append_right _ List.mem_cons_self)).1
          have hsingles := hp.singles_token
          refine Or.inr ⟨by omega, hrel, fun hmem => ?_⟩
          obtain ⟨x, hx, htoken⟩ := List.mem_map.1 hmem
          have hne := (List.mem_append.1 hx).elim (hsingles.before x) (hsingles.after x)
          exact of_decide_eq_false hne htoken
        · exact Or.inl ⟨_, List.mem_append_right _ List.mem_cons_self, rfl, rfl⟩
      · exact Or.inl ⟨e, List.mem_append_right _ (List.mem_append_right _ he), rfl, rfl⟩

theorem Step.exists_of_held {h : H} (hs : Step fresh l (.acquire h) (.held t) l') :
    ∃ e ∈ l', e.handle = h ∧ e.token = t := by
  cases hs with
  | failed hnone => exact nomatch hnone
  | raised => exact ⟨_, List.mem_append_right _ List.mem_cons_self, rfl, rfl⟩
  | appended => exact ⟨_, List.mem_append_right _ List.mem_cons_self, rfl, rfl⟩

variable [DecidableEq H]

theorem step_act (hp : l.Proper) (fresh : Token) (op : Operation H) :
    Step fresh l op (l.act fresh op).1 (l.act fresh op).2 := by
  cases op with
  | acquire h =>
    rw [act, acquire]
    cases he : l.ofHandle? h with
    | none =>
      by_cases hlt : l.length < indexLimit
      · simp only [if_pos hlt]
        exact .appended (ofHandle?_eq_none_iff.1 he)
      · simp only [if_neg hlt]
        exact .failed rfl
    | some e =>
      obtain ⟨pre, post, rfl⟩ := List.append_of_mem (List.mem_of_find?_eq_some he)
      obtain rfl : e.handle = h := by simpa using List.find?_some he
      by_cases hlt : e.count + 1 < countLimit
      · simp only [if_pos hlt, adjust_split hp.singles_handle]
        exact .raised
      · simp only [if_neg hlt]
        exact .failed rfl
  | tryRelease t | release t =>
    rw [act, release]
    cases he : l.ofToken? t with
    | none => exact .failed rfl
    | some e =>
      obtain ⟨pre, post, rfl⟩ := List.append_of_mem (List.mem_of_find?_eq_some he)
      obtain rfl : e.token = t := by simpa using List.find?_some he
      simp only [adjust_split hp.singles_token]
      exact .lowered rfl
  | tryReleaseHandle h | releaseHandle h =>
    rw [act, releaseHandle]
    cases he : l.ofHandle? h with
    | none => exact .failed rfl
    | some e =>
      obtain ⟨pre, post, rfl⟩ := List.append_of_mem (List.mem_of_find?_eq_some he)
      obtain rfl : e.handle = h := by simpa using List.find?_some he
      simp only [adjust_split hp.singles_handle]
      exact .lowered rfl

end Ledger

/-! ## Records that are made -/

variable [Ord H]

/-- The handle and the token of the record that an operation makes, if it makes one. -/
def made? (r : Registry H) : Operation H → Option (H × Token)
  | .acquire h =>
    if r.contains h then none else (r.act (.acquire h)).1.token?.map fun t => (h, t)
  | _ => none

/-- The handles and the tokens of the records that a run makes. -/
def made : Registry H → List (Operation H) → List (H × Token)
  | _, [] => []
  | r, op :: ops => (r.made? op).toList ++ made (r.act op).2 ops

theorem made_append (r : Registry H) (ops more : List (Operation H)) :
    r.made (ops ++ more) = r.made ops ++ (r.after ops).made more := by
  induction ops generalizing r with
  | nil => rfl
  | cons op ops ih =>
    rw [List.cons_append, made, made, ih, List.append_assoc]
    rfl

/-- The token names the record of the handle. -/
structure Names (r : Registry H) (t : Token) (h : H) : Prop where
  count_pos : 0 < r.count h
  /-- A further hold of the handle returns the token, unless it cannot be counted. -/
  held_eq : ∀ t', (r.act (.acquire h)).1 = .held t' → t' = t
  /-- A release by the token succeeds, and it is a release by the handle. -/
  released : (r.act (.tryRelease t)).1 = .released
  tryRelease_eq : r.act (.tryRelease t) = r.act (.tryReleaseHandle h)

section Step

variable [DecidableEq H] {r : Registry H} {l l' : Ledger H} {fresh t : Token} {h : H}
variable {op : Operation H} {e e' : Entry H}

theorem Represents.current_iff (hr : Represents r l) : r.Current t ↔ t ∈ l.map Entry.token := by
  obtain ⟨free, hl⟩ := hr
  rw [← hl.occupied_iff, Current, shapeAt_eq_occupied_iff]

/-- A release by the token of a record is one by its handle. -/
theorem Represents.release_eq (hr : Represents r l) (he : e ∈ l) :
    r.release e.token = r.releaseHandle e.handle := by
  obtain ⟨free, hl⟩ := hr
  obtain ⟨prev, next, hslot⟩ := hl.chained.getElem? he
  rw [Registry.release, ← Entry.index, hslot, Registry.releaseHandle, hl.byHandle_of_mem he]
  exact if_pos rfl

theorem Represents.names [Std.TransOrd H] [Std.LawfulEqOrd H] (hr : Represents r l) (he : e ∈ l) :
    r.Names e.token e.handle := by
  have heq := hr.release_eq he
  obtain ⟨pre, post, rfl⟩ := List.append_of_mem he
  have hp := hr.proper
  refine
    { count_pos := ?_
      held_eq := fun t ht => ?_
      released := ?_
      tryRelease_eq := by rw [Registry.act, heq, Registry.act] }
  · rw [hr.observed.count_eq, Ledger.count_pos_iff hp]
    exact List.mem_map_of_mem he
  · obtain ⟨fresh, -, hanswer, -⟩ := hr.act (.acquire e.handle)
    rw [ht, Ledger.act, Ledger.acquire, Ledger.ofHandle?_split hp] at hanswer
    by_cases hlt : e.count + 1 < countLimit
    · simp only [if_pos hlt] at hanswer
      exact Answer.held.inj hanswer
    · simp only [if_neg hlt] at hanswer
      cases hanswer
  · obtain ⟨fresh, -, hanswer, -⟩ := hr.act (.tryRelease e.token)
    rw [hanswer, Ledger.act, Ledger.release, Ledger.ofToken?_split hp]
    rfl

theorem Represents.contains_eq_false_iff [Std.TransOrd H] (hr : Represents r l) :
    r.contains h = false ↔ h ∉ l.map Entry.handle := by
  rw [← hr.observed.contains_iff, Bool.not_eq_true]

/-- An entry after a step was there before it, or its record was made. -/
theorem Represents.mem_cases [Std.TransOrd H] (hr : Represents r l)
    (hs : Ledger.Step fresh l op (r.act op).1 l') (he' : e' ∈ l') :
    (∃ e ∈ l, e.handle = e'.handle ∧ e.token = e'.token) ∨
      r.made? op = some (e'.handle, e'.token) := by
  rcases hs.mem_cases he' with hmem | ⟨rfl, hh, hanswer, -⟩
  · exact Or.inl hmem
  · right
    rw [made?, hr.contains_eq_false_iff.2 hh, hanswer]
    rfl

/-- The record that an operation makes has a new token. -/
theorem Represents.made?_eq_some [Std.TransOrd H] (hr : Represents r l)
    (hs : Ledger.Step fresh l op (r.act op).1 l') (hmade : r.made? op = some (h, t)) :
    t = fresh ∧ ∃ e ∈ l', e.handle = h ∧ e.token = t := by
  cases op with
  | acquire h' =>
    rw [made?] at hmade
    split at hmade
    · exact nomatch hmade
    · rename_i hnot
      obtain ⟨t', ht', heq⟩ := Option.map_eq_some_iff.1 hmade
      obtain ⟨rfl, rfl⟩ := Prod.mk.inj heq
      generalize (r.act (.acquire h')).1 = answer at hs ht'
      cases hs with
      | failed hnone => exact nomatch hnone.symm.trans ht'
      | @raised pre e post =>
        refine absurd ?_ hnot
        rw [hr.observed.contains_iff]
        exact List.mem_map_of_mem (List.mem_append_right _ List.mem_cons_self)
      | appended =>
        obtain rfl := Option.some.inj ht'
        exact ⟨rfl, _, List.mem_append_right _ List.mem_cons_self, rfl, rfl⟩
      | lowered => exact nomatch ht'
  | tryRelease | release | tryReleaseHandle | releaseHandle => exact nomatch hmade

end Step

/-! ## The tokens issued -/

section Issued

variable [DecidableEq H] {r : Registry H} {l : Ledger H} {past : List (H × Token)}
variable {op : Operation H}

/-- The records made so far have distinct tokens, which are current or spent. -/
structure Issued (r : Registry H) (l : Ledger H) (past : List (H × Token)) : Prop where
  represents : Represents r l
  recorded : ∀ e ∈ l, (e.handle, e.token) ∈ past
  nodup : (past.map Prod.snd).Nodup
  bits_ne_zero : ∀ t ∈ past.map Prod.snd, t.bits ≠ 0
  settled : ∀ t ∈ past.map Prod.snd, r.Current t ∨ r.Spent t

theorem issued_empty [Std.TransOrd H] : Issued ({} : Registry H) [] [] where
  represents := represents_empty
  recorded _ he := absurd he List.not_mem_nil
  nodup := List.nodup_nil
  bits_ne_zero _ ht := absurd ht List.not_mem_nil
  settled _ ht := absurd ht List.not_mem_nil

/-- A token that is new after a step is not that of a record made before. -/
theorem Issued.not_mem (hi : Issued r l past) {ops : List (Operation H)}
    (hu : r.Unwrapped (op :: ops)) {t : Token} (ht : t ∉ l.map Entry.token)
    (hc : (r.act op).2.Current t) : t ∉ past.map Prod.snd := by
  intro hmem
  rcases hi.settled t hmem with hcurrent | hspent
  · exact ht (hi.represents.current_iff.1 hcurrent)
  · exact hc.not_spent (hspent.act hu)

variable [Std.TransOrd H] [Std.LawfulEqOrd H]

theorem Issued.act (hi : Issued r l past) {ops : List (Operation H)}
    (hu : r.Unwrapped (op :: ops)) :
    ∃ fresh l', Ledger.Step fresh l op (r.act op).1 l' ∧
      Issued (r.act op).2 l' (past ++ (r.made? op).toList) := by
  obtain ⟨fresh, hfresh, hanswer, hr'⟩ := hi.represents.act op
  have hstep := Ledger.step_act hi.represents.proper fresh op
  rw [← hanswer] at hstep
  generalize (l.act fresh op).2 = l' at hstep hr'
  -- What was issued before does not change sides but from current to spent.
  have hsettled : ∀ t ∈ past.map Prod.snd, (r.act op).2.Current t ∨ (r.act op).2.Spent t := by
    intro t ht
    rcases hi.settled t ht with hcurrent | hspent
    · exact hcurrent.act hu
    · exact Or.inr (hspent.act hu)
  have hrecorded : ∀ e ∈ l', (e.handle, e.token) ∈ past ++ (r.made? op).toList := by
    intro e' he'
    rcases hi.represents.mem_cases hstep he' with ⟨e, he, hhandle, htoken⟩ | hmade
    · rw [← hhandle, ← htoken]
      exact List.mem_append_left _ (hi.recorded e he)
    · exact List.mem_append_right _ (Option.mem_toList.2 hmade)
  refine ⟨fresh, l', hstep, ?_⟩
  cases hmade : r.made? op with
  | none =>
    rw [hmade, Option.toList_none, List.append_nil] at hrecorded
    rw [Option.toList_none, List.append_nil]
    exact ⟨hr', hrecorded, hi.nodup, hi.bits_ne_zero, hsettled⟩
  | some made =>
    obtain ⟨h, t⟩ := made
    obtain ⟨rfl, e, he, -, rfl⟩ := hi.represents.made?_eq_some hstep hmade
    have hcurrent : (r.act op).2.Current e.token :=
      hr'.current_iff.2 (List.mem_map_of_mem he)
    have hbits : e.token.bits ≠ 0 := by
      rw [Ne, Token.bits_eq_zero_iff]
      intro hnull
      exact hr'.proper.generations e he (by rw [hnull]; rfl)
    rw [hmade] at hrecorded
    refine ⟨hr', hrecorded, ?_, ?_, ?_⟩ <;>
      rw [Option.toList_some, List.map_append, List.map_singleton]
    · exact hi.nodup.append (List.nodup_singleton _)
        (List.disjoint_singleton.2 (hi.not_mem hu hfresh hcurrent))
    · exact List.forall_mem_append.2 ⟨hi.bits_ne_zero, List.forall_mem_singleton.2 hbits⟩
    · exact List.forall_mem_append.2
        ⟨hsettled, List.forall_mem_singleton.2 (Or.inl hcurrent)⟩

theorem Issued.after (hi : Issued r l past) {ops : List (Operation H)} (hu : r.Unwrapped ops) :
    ∃ l', Issued (r.after ops) l' (past ++ r.made ops) := by
  induction ops generalizing r l past with
  | nil =>
    rw [made, List.append_nil]
    exact ⟨l, hi⟩
  | cons op ops ih =>
    obtain ⟨fresh, l', -, hi'⟩ := hi.act hu
    rw [made, ← List.append_assoc]
    exact ih hi' hu.2

end Issued

/-! ## Lifetimes -/

/-- From the registry `r` on a token names the record of a handle through `m` of the operations
`later`, and nothing after the next one. -/
structure Lifetime (r : Registry H) (h : H) (t : Token) (later : List (Operation H)) (m : Nat) :
    Prop where
  le : m ≤ later.length
  names : ∀ n ≤ m, (r.after (later.take n)).Names t h
  /-- It ends with the release of the last hold. -/
  removed : m < later.length → ∃ op, later[m]? = some op ∧ op.Releases h t ∧
    (r.after (later.take m)).count h = 1
  /-- The token is refused from then on, and nothing changes. -/
  rejected : ∀ n, m < n → n ≤ later.length →
    (r.after (later.take n)).act (.tryRelease t) =
      (.refused (.unknownToken t), r.after (later.take n))

section Lifetime

variable {r : Registry H} {h : H} {t : Token} {op : Operation H} {later : List (Operation H)}

theorem Lifetime.cons {m : Nat} (hn : r.Names t h) (hlife : (r.act op).2.Lifetime h t later m) :
    r.Lifetime h t (op :: later) (m + 1) where
  le := Nat.succ_le_succ hlife.le
  names n hle := by
    cases n with
    | zero => exact hn
    | succ n => exact hlife.names n (Nat.le_of_succ_le_succ hle)
  removed hm := hlife.removed (Nat.lt_of_succ_lt_succ hm)
  rejected n hm hle := by
    cases n with
    | zero => exact absurd hm (Nat.not_lt_zero _)
    | succ n => exact hlife.rejected n (Nat.lt_of_succ_lt_succ hm) (Nat.le_of_succ_le_succ hle)

variable [DecidableEq H] [Std.TransOrd H] [Std.LawfulEqOrd H] {l : Ledger H}
variable {past : List (H × Token)} {e : Entry H}

/-- A record is there until its last hold is released, and its token is spent then. -/
theorem Issued.exists_lifetime (hi : Issued r l past) (hu : r.Unwrapped later) (he : e ∈ l) :
    ∃ m, r.Lifetime e.handle e.token later m := by
  have hnames := hi.represents.names he
  -- Induction on what is to come.  The entry is followed from ledger to ledger, since its count
  -- changes.
  induction later generalizing r l past e with
  | nil =>
    exact ⟨0, Nat.le_refl 0, fun n _ => by rw [List.take_nil]; exact hnames,
      fun hm => absurd hm (Nat.lt_irrefl 0),
      fun n hm hle => absurd (Nat.lt_of_lt_of_le hm hle) (Nat.lt_irrefl 0)⟩
  | cons op later ih =>
    obtain ⟨fresh, l', hstep, hi'⟩ := hi.act hu
    rcases hstep.kept_or_removed hi.represents.proper he with
      ⟨e', he', hhandle, htoken⟩ | ⟨hone, hreleases, hgone⟩
    · obtain ⟨m, hlife⟩ := ih hi' hu.2 he' (hi'.represents.names he')
      rw [hhandle, htoken] at hlife
      exact ⟨m + 1, hlife.cons hnames⟩
    · have hcurrent : r.Current e.token :=
        hi.represents.current_iff.2 (List.mem_map_of_mem he)
      have hspent : (r.act op).2.Spent e.token :=
        (hcurrent.act hu).resolve_left fun hc => hgone (hi'.represents.current_iff.1 hc)
      refine ⟨0, Nat.zero_le _, fun n hle => ?_, fun _ => ⟨op, rfl, hreleases, ?_⟩,
        fun n hm hle => ?_⟩
      · obtain rfl := Nat.le_zero.1 hle
        exact hnames
      · obtain ⟨pre, post, rfl⟩ := List.append_of_mem he
        have hcount := hi.represents.observed.count_eq e.handle
        rw [Ledger.count_split hi.represents.proper, hone] at hcount
        exact hcount
      · cases n with
        | zero => exact absurd hm (Nat.lt_irrefl 0)
        | succ n => exact (hspent.after (hu.2.take n)).tryRelease

end Lifetime

/-- The records that a run makes on an empty registry, and their tokens. -/
structure Tokens (ops : List (Operation H)) : Prop where
  nodup : ((({} : Registry H).made ops).map Prod.snd).Nodup
  bits_ne_zero : ∀ t ∈ (({} : Registry H).made ops).map Prod.snd, t.bits ≠ 0
  /-- No token is returned but those of the records made, each for its handle. -/
  held : ∀ before h t later, ops = before ++ .acquire h :: later →
    ((({} : Registry H).after before).act (.acquire h)).1 = .held t →
      (h, t) ∈ ({} : Registry H).made (before ++ [.acquire h])
  lifetime : ∀ before op h t later, ops = before ++ op :: later →
    (({} : Registry H).after before).made? op = some (h, t) →
      ∃ m, (({} : Registry H).after (before ++ [op])).Lifetime h t later m

/-- Records have different tokens.  The token of a record is refused for ever after the record is
removed, whatever its slot is used for. -/
theorem tokens_of_unwrapped [DecidableEq H] [Std.TransOrd H] [Std.LawfulEqOrd H]
    (ops : List (Operation H)) (hu : ({} : Registry H).Unwrapped ops) : Tokens ops := by
  obtain ⟨l, hi⟩ := issued_empty.after hu
  refine
    { nodup := hi.nodup
      bits_ne_zero := hi.bits_ne_zero
      held := fun before h t later hops ht => ?_
      lifetime := fun before op h t later hops hmade => ?_ }
  · rw [hops, unwrapped_append_iff] at hu
    obtain ⟨l₀, hi₀⟩ := issued_empty.after hu.1
    obtain ⟨fresh, l₁, hstep, hi₁⟩ := hi₀.act hu.2
    rw [ht] at hstep
    obtain ⟨e, he, rfl, rfl⟩ := hstep.exists_of_held
    rw [made_append, made, made, List.append_nil]
    exact hi₁.recorded e he
  · rw [hops, unwrapped_append_iff] at hu
    obtain ⟨l₀, hi₀⟩ := issued_empty.after hu.1
    obtain ⟨fresh, l₁, hstep, hi₁⟩ := hi₀.act hu.2
    obtain ⟨-, e, he, rfl, rfl⟩ := hi₀.represents.made?_eq_some hstep hmade
    rw [after, List.foldl_append]
    exact hi₁.exists_lifetime hu.2.2 he

/-- One slot for three records, two of them for one handle, with releases by a stale token. -/
def slotReuse : List (Operation Nat) :=
  [.acquire 7, .acquire 7, .tryRelease ⟨0, 1⟩, .releaseHandle 7, .tryRelease ⟨0, 1⟩, .acquire 8,
    .tryRelease ⟨0, 1⟩, .release ⟨0, 2⟩, .acquire 7]

theorem tokens_of_unwrapped_slotReuse :
    Std.TransOrd Nat ∧ Std.LawfulEqOrd Nat ∧ ({} : Registry Nat).Unwrapped slotReuse ∧
      ({} : Registry Nat).made slotReuse = [(7, ⟨0, 1⟩), (8, ⟨0, 2⟩), (7, ⟨0, 3⟩)] ∧
      Tokens slotReuse :=
  have hu : ({} : Registry Nat).Unwrapped slotReuse := unwrapped_of_length_lt (by decide)
  ⟨inferInstance, inferInstance, hu, by decide, tokens_of_unwrapped slotReuse hu⟩

end PinnedHeap.Registry
