import PinnedHeap.Foreign
import PinnedHeap.Proofs.Host.Allocation
import PinnedHeap.Proofs.Registry.Records

/-!
# Foreign calls with arbitrary words

Foreign code may pass any word to the interface: a reference that is out of date, a token of
another record, a number it made up.  The interface decodes the word, and what it then finds
decides: a hold needs a live object, and a release needs a record that is still pinned.

A caller knows records by what was returned to it.  `standing` is the list that a careful caller
keeps: each reference it was given a token for, with the word of the token, as long as the
reference stays pinned.  `Stands` says that this list and the records of the registry are the
same thing, and every step of a program keeps it (`Stands.run`).  So the list tells which words
can be released, and which word the next hold of a pinned object returns (`faithful_after`).

Two holds cannot be granted although the object is live: one too many of the same object, and
one of too many objects (`Registry.Ledger.HasRoom`).  They end the program, and it takes
2 ^ 32 - 1 steps to get there.  A leaf that is held as often as can be counted is live, but cannot
be held once more (`not_acquire_live`).
-/

namespace PinnedHeap.Foreign

open PinnedHeap.Registry (Represents Entry Ledger)

variable {α σ : Type}

/-! ## Calls -/

/-- A call of the foreign interface. -/
inductive Call where
  /-- Hold the object of a reference. -/
  | acquire (handle : UInt64)
  /-- Release a hold by its token. -/
  | release (token : UInt64)
  /-- Release a hold by its reference. -/
  | releaseHandle (handle : UInt64)
  /-- Collect. -/
  | collect
deriving DecidableEq

/-- How a call ends for its caller. -/
inductive Answer where
  /-- It returns a word. -/
  | word (w : UInt64)
  /-- It returns nothing. -/
  | done
  /-- It does not return. -/
  | aborted (cause : Abort)

/-- The answer of a release, and the host after it. -/
def Answer.ofRelease (host : Option (Host α σ)) :
    Except Abort (Option (Host α σ)) → Answer × Option (Host α σ)
  | .ok host => (.done, host)
  | .error a => (.aborted a, host)

section Calls

variable [HeapObject α] (finalize : Finalizer α σ)

/-- Performs a call.  One that aborts changes nothing. -/
def call (host : Option (Host α σ)) : Call → Answer × Option (Host α σ)
  | .acquire handle =>
    match acquire host handle with
    | .ok (w, host) => (.word w, host)
    | .error a => (.aborted a, host)
  | .release token => Answer.ofRelease host (release host token)
  | .releaseHandle handle => Answer.ofRelease host (releaseHandle host handle)
  | .collect => ((.word (collect finalize host).1), (collect finalize host).2)

/-- A step of a program that has a foreign part. -/
inductive Step (α : Type) where
  /-- The program itself works on the host. -/
  | program (op : Host.Operation α)
  /-- Foreign code calls. -/
  | foreign (c : Call)

/-- The host after a step. -/
def Step.run (h : Host α σ) : Step α → Host α σ
  | .program op => h.act finalize op
  | .foreign c => (call finalize (some h) c).2.getD h

/-- The host after several steps. -/
def after (h : Host α σ) (steps : List (Step α)) : Host α σ := steps.foldl (Step.run finalize) h

/-- The reference that a step pins, and the word of the token that it returns. -/
def Step.granted? (h : Host α σ) : Step α → Option (Ref × UInt64)
  | .program (.pin r) =>
    match h.pin r with
    | .ok (.ok t, _) => some (r, t.bits)
    | _ => none
  | .foreign (.acquire handle) =>
    match (call finalize (some h) (.acquire handle)).1 with
    | .word w => if w = 0 then none else some (Ref.ofBits handle, w)
    | _ => none
  | _ => none

/-- The references and words that were granted and whose reference stayed pinned ever since,
from those before the steps. -/
def standing (h : Host α σ) (past : List (Ref × UInt64)) : List (Step α) → List (Ref × UInt64)
  | [] => past
  | s :: steps =>
    let h' := s.run finalize h
    standing h' (((s.granted? finalize h).toList ++ past).filter fun p =>
      h'.registry.contains p.1) steps

end Calls

/-! ## What a call does to the registry -/

section Calls

variable [HeapObject α] (finalize : Finalizer α σ) (h : Host α σ)

theorem call_acquire_of_live {w : UInt64} (hl : h.heap.isLive (Ref.ofBits w)) :
    call finalize (some h) (.acquire w) =
      match h.registry.acquire (Ref.ofBits w) with
      | .ok (t, registry) => (.word t.bits, some { h with registry })
      | .error e => (.aborted (.violation ⟨e⟩), some h) := by
  rw [call, acquire, Host.pin, if_pos hl]
  cases h.registry.acquire (Ref.ofBits w) <;> rfl

theorem call_acquire_bits {r : Ref} (hl : h.heap.isLive r) :
    call finalize (some h) (.acquire r.bits) =
      match h.registry.acquire r with
      | .ok (t, registry) => (.word t.bits, some { h with registry })
      | .error e => (.aborted (.violation ⟨e⟩), some h) := by
  have hw : h.heap.isLive (Ref.ofBits r.bits) := (Ref.ofBits_bits r).symm ▸ hl
  rw [call_acquire_of_live finalize h hw, Ref.ofBits_bits]

theorem call_acquire_of_dead {w : UInt64} (hl : ¬ h.heap.isLive (Ref.ofBits w)) :
    call finalize (some h) (.acquire w) = (.word 0, some h) := by
  rw [call, acquire, Host.pin, if_neg hl]

theorem call_release_eq (w : UInt64) :
    call finalize (some h) (.release w) =
      match h.registry.release (Token.ofBits w) with
      | .ok registry => (.done, some { h with registry })
      | .error e => (.aborted (.violation ⟨e⟩), some h) := by
  rw [call, release, Host.unpin]
  cases h.registry.release (Token.ofBits w) <;> rfl

theorem call_releaseHandle_eq (w : UInt64) :
    call finalize (some h) (.releaseHandle w) =
      match h.registry.releaseHandle (Ref.ofBits w) with
      | .ok registry => (.done, some { h with registry })
      | .error e => (.aborted (.violation ⟨e⟩), some h) := by
  rw [call, releaseHandle, Host.unpinRef]
  cases h.registry.releaseHandle (Ref.ofBits w) <;> rfl

/-- The pair that an operation of the registry grants. -/
def grant? : Registry.Operation Ref → Registry.Answer Ref → Option (Ref × UInt64)
  | .acquire r, .held t => some (r, t.bits)
  | _, _ => none

/-- What a step does to the registry, and what it grants: it performs an operation of the
registry, or it leaves the registry alone. -/
theorem registry_run {l : Ledger Ref} (hr : Represents h.registry l) (s : Step α) :
    (∃ op, (s.run finalize h).registry = (h.registry.act op).2 ∧
      s.granted? finalize h = grant? op (h.registry.act op).1) ∨
    ((s.run finalize h).registry = h.registry ∧ s.granted? finalize h = none) := by
  cases s with
  | program op =>
    cases op with
    | alloc x => exact Or.inr ⟨(Host.ready_cases finalize h).1, rfl⟩
    | pin r =>
      rw [Step.run, Step.granted?, Host.act, Host.pin]
      by_cases hl : h.heap.isLive r
      · refine Or.inl ⟨.acquire r, ?_⟩
        rw [if_pos hl, Registry.act]
        cases h.registry.acquire r <;> exact ⟨rfl, rfl⟩
      · rw [if_neg hl]
        exact Or.inr ⟨rfl, rfl⟩
    | unpin t =>
      refine Or.inl ⟨.tryRelease t, ?_, rfl⟩
      rw [Step.run, Host.act, Host.unpin, Registry.act]
      cases h.registry.release t <;> rfl
    | unpinRef r =>
      refine Or.inl ⟨.tryReleaseHandle r, ?_, rfl⟩
      rw [Step.run, Host.act, Host.unpinRef, Registry.act]
      cases h.registry.releaseHandle r <;> rfl
    | removeRoot r =>
      refine Or.inr ⟨?_, rfl⟩
      rcases Host.act_removeRoot_cases finalize h r with ⟨roots, -, hact, -⟩ | ⟨hact, -⟩ <;>
        rw [Step.run, hact]
    | collect | addRoot r | heap op => exact Or.inr ⟨rfl, rfl⟩
  | foreign c =>
    cases c with
    | acquire w =>
      rw [Step.run, Step.granted?]
      by_cases hl : h.heap.isLive (Ref.ofBits w)
      · refine Or.inl ⟨.acquire (Ref.ofBits w), ?_⟩
        rw [call_acquire_of_live finalize h hl, Registry.act]
        cases hacquire : h.registry.acquire (Ref.ofBits w) with
        | ok x => exact ⟨rfl, if_neg (hr.bits_ne_zero_of_acquire hacquire)⟩
        | error e => exact ⟨rfl, rfl⟩
      · rw [call_acquire_of_dead finalize h hl]
        exact Or.inr ⟨rfl, rfl⟩
    | release w =>
      refine Or.inl ⟨.tryRelease (Token.ofBits w), ?_, rfl⟩
      rw [Step.run, call_release_eq, Registry.act]
      cases h.registry.release (Token.ofBits w) <;> rfl
    | releaseHandle w =>
      refine Or.inl ⟨.tryReleaseHandle (Ref.ofBits w), ?_, rfl⟩
      rw [Step.run, call_releaseHandle_eq, Registry.act]
      cases h.registry.releaseHandle (Ref.ofBits w) <;> rfl
    | collect => exact Or.inr ⟨rfl, rfl⟩

end Calls

/-! ## What a caller knows -/

section Stands

variable {h : Host α σ} {past : List (Ref × UInt64)} {l : Ledger Ref}

/-- The list of a caller and the records of the registry are the same thing. -/
structure Stands (h : Host α σ) (past : List (Ref × UInt64)) (l : Ledger Ref) : Prop where
  represents : Represents h.registry l
  mem_iff : ∀ r w, (r, w) ∈ past ↔ ∃ e ∈ l, e.handle = r ∧ e.token.bits = w

theorem stands_new (config : Heap.Config) (args : List String) (world : σ) :
    Stands (Host.new config args world : Host α σ) [] [] where
  represents := Registry.represents_empty
  mem_iff r w := by simp

theorem Stands.contains_iff (hs : Stands h past l) (r : Ref) :
    h.registry.contains r ↔ ∃ w, (r, w) ∈ past := by
  rw [hs.represents.observed.contains_iff, List.mem_map]
  simp only [hs.mem_iff]
  exact ⟨fun ⟨e, he, hr⟩ => ⟨_, e, he, hr, rfl⟩, fun ⟨w, e, he, hr, _⟩ => ⟨e, he, hr⟩⟩

theorem grant?_eq_some {op : Registry.Operation Ref} {answer : Registry.Answer Ref} {r : Ref}
    {w : UInt64} (hgrant : grant? op answer = some (r, w)) :
    ∃ t, op = .acquire r ∧ answer = .held t ∧ t.bits = w := by
  cases op with
  | acquire s =>
    cases answer with
    | held t =>
      cases hgrant
      exact ⟨t, rfl, rfl, rfl⟩
    | released | refused | violated => cases hgrant
  | tryRelease | tryReleaseHandle | release | releaseHandle => cases hgrant

/-- A reference that stayed pinned kept its word. -/
theorem mem_iff_of_step {fresh : Token} {op : Registry.Operation Ref}
    {answer : Registry.Answer Ref} {l' : Ledger Ref} (hp : l.Proper)
    (hpast : ∀ r w, (r, w) ∈ past ↔ ∃ e ∈ l, e.handle = r ∧ e.token.bits = w)
    (hstep : Ledger.Step fresh l op answer l') (r : Ref) (w : UInt64) :
    ((r, w) ∈ (grant? op answer).toList ++ past ∧ r ∈ l'.map Entry.handle) ↔
      ∃ e ∈ l', e.handle = r ∧ e.token.bits = w := by
  constructor
  · rintro ⟨hmem, hr⟩
    rcases List.mem_append.1 hmem with hgrant | hmem
    · rw [Option.mem_toList] at hgrant
      obtain ⟨t, rfl, rfl, rfl⟩ := grant?_eq_some hgrant
      obtain ⟨e, he, hhandle, htoken⟩ := hstep.exists_of_held
      exact ⟨e, he, hhandle, by rw [htoken]⟩
    · obtain ⟨e, he, rfl, rfl⟩ := (hpast r w).1 hmem
      obtain ⟨e', he', hhandle⟩ := List.mem_map.1 hr
      rcases hstep.mem_cases he' with ⟨x, hx, hxhandle, hxtoken⟩ | ⟨-, hnew, -⟩
      · have hxe : x = e :=
          List.inj_on_of_nodup_map hp.handles hx he (hxhandle.trans hhandle)
        exact ⟨e', he', hhandle, by rw [← hxtoken, hxe]⟩
      · rw [hhandle] at hnew
        exact absurd (List.mem_map_of_mem he) hnew
  · rintro ⟨e', he', rfl, rfl⟩
    refine ⟨?_, List.mem_map_of_mem he'⟩
    rcases hstep.mem_cases he' with ⟨x, hx, hhandle, htoken⟩ | ⟨hop, -, hanswer, -⟩
    · exact List.mem_append_right _ ((hpast _ _).2 ⟨x, hx, hhandle, by rw [htoken]⟩)
    · rw [hop, hanswer]
      exact List.mem_append_left _ List.mem_cons_self

variable [HeapObject α]

theorem Stands.run (finalize : Finalizer α σ) (hs : Stands h past l) (s : Step α) :
    ∃ l', l'.holds ≤ l.holds + 1 ∧
      Stands (s.run finalize h) (((s.granted? finalize h).toList ++ past).filter fun p =>
        (s.run finalize h).registry.contains p.1) l' := by
  rcases registry_run finalize h hs.represents s with
    ⟨op, hregistry, hgranted⟩ | ⟨hregistry, hgranted⟩
  · obtain ⟨fresh, l', hstep, hr'⟩ := hs.represents.step op
    rw [← hregistry] at hr'
    refine ⟨l', hstep.holds_le, hr', fun r w => ?_⟩
    rw [List.mem_filter, hr'.observed.contains_iff, hgranted]
    exact mem_iff_of_step hs.represents.proper hs.mem_iff hstep r w
  · rw [hregistry, hgranted]
    refine ⟨l, Nat.le_succ _, hregistry ▸ hs.represents, fun r w => ?_⟩
    rw [List.mem_filter, hs.contains_iff]
    exact (and_iff_left_of_imp fun hmem => ⟨w, hmem⟩).trans (hs.mem_iff r w)

theorem Stands.after (finalize : Finalizer α σ) (hs : Stands h past l) (steps : List (Step α)) :
    ∃ l', l'.holds ≤ l.holds + steps.length ∧
      Stands (after finalize h steps) (standing finalize h past steps) l' := by
  induction steps generalizing h past l with
  | nil => exact ⟨l, Nat.le_refl _, hs⟩
  | cons s steps ih =>
    obtain ⟨l', hholds, hs'⟩ := hs.run finalize s
    obtain ⟨l'', hholds', hs''⟩ := ih hs'
    refine ⟨l'', ?_, hs''⟩
    rw [List.length_cons]
    omega

variable {finalize : Finalizer α σ}

/-! ## Faithfulness -/

/-- Every call does what its words say, to a host about which its callers have the list `known`. -/
structure Faithful (finalize : Finalizer α σ) (h : Host α σ) (known : List (Ref × UInt64)) :
    Prop where
  /-- The list has the pinned references, each with one word that no other has. -/
  pinned_iff : ∀ r, h.registry.contains r ↔ ∃ w, (r, w) ∈ known
  word_iff : ∀ r s v w, (r, v) ∈ known → (s, w) ∈ known → (r = s ↔ v = w)
  /-- All there is to see of the registry is in its records. -/
  observed : Registry.Observed h.registry h.registry.records
  /-- A live object can be held, unless the hold cannot be counted.  The word is not zero, and it
  is the one that is known for the reference, and for no other. -/
  acquire_live : ∀ r, h.heap.isLive r → h.registry.records.HasRoom r →
    ∃ w registry, call finalize (some h) (.acquire r.bits) = (.word w, some { h with registry }) ∧
      w ≠ 0 ∧ (∀ s v, (s, v) ∈ known → (s = r ↔ v = w)) ∧
      h.registry.records.acquire (Token.ofBits w) r = .ok (Token.ofBits w, registry.records)
  acquire_full : ∀ r, h.heap.isLive r → ¬ h.registry.records.HasRoom r →
    ∃ e, call finalize (some h) (.acquire r.bits) = (.aborted (.violation ⟨e⟩), some h)
  /-- Any other word is answered by zero. -/
  acquire_dead : ∀ w, (∀ r, h.heap.isLive r → r.bits ≠ w) →
    call finalize (some h) (.acquire w) = (.word 0, some h)
  /-- A known word takes one hold from its reference. -/
  release_known : ∀ r w, (r, w) ∈ known →
    ∃ registry, call finalize (some h) (.release w) = (.done, some { h with registry }) ∧
      h.registry.records.releaseHandle r = .ok registry.records
  release_unknown : ∀ w, (∀ r, (r, w) ∉ known) → call finalize (some h) (.release w) =
    (.aborted (.violation ⟨.unknownToken (Token.ofBits w)⟩), some h)
  /-- So does the word of a pinned reference. -/
  releaseHandle_pinned : ∀ r, h.registry.contains r →
    ∃ registry, call finalize (some h) (.releaseHandle r.bits) = (.done, some { h with registry }) ∧
      h.registry.records.releaseHandle r = .ok registry.records
  releaseHandle_unpinned : ∀ w, (∀ r, h.registry.contains r → r.bits ≠ w) →
    call finalize (some h) (.releaseHandle w) =
      (.aborted (.violation ⟨.unknownHandle (Ref.ofBits w)⟩), some h)
  /-- Without a host there is nothing to hold, to collect or to release. -/
  acquire_none : ∀ w, call finalize none (.acquire w) = (.word 0, none)
  collect_none : call finalize none .collect = (.word 0, none)
  release_none : ∀ w, ∃ f, call finalize none (.release w) = (.aborted (.noHost f), none)
  releaseHandle_none : ∀ w, ∃ f, call finalize none (.releaseHandle w) = (.aborted (.noHost f), none)

/-- A call that releases a hold of `r`, where the registry has a record of it. -/
theorem exists_of_releaseHandle (hr : Represents h.registry l) {c : Call} {r : Ref}
    (hmem : r ∈ l.map Entry.handle)
    (hcall : call finalize (some h) c = match h.registry.releaseHandle r with
      | .ok registry => (.done, some { h with registry })
      | .error e => (.aborted (.violation ⟨e⟩), some h)) :
    ∃ registry, call finalize (some h) c = (.done, some { h with registry }) ∧
      h.registry.records.releaseHandle r = .ok registry.records := by
  rcases hr.releaseHandle_cases r with ⟨-, registry, l', hrelease, hl', hr'⟩ | ⟨hnot, -⟩
  · refine ⟨registry, by rw [hcall, hrelease], ?_⟩
    rw [hr.records_eq, hr'.records_eq, hl']
  · exact absurd hmem hnot

theorem Stands.faithful (hs : Stands h past l) : Faithful finalize h past := by
  have hr := hs.represents
  have hrecords := hr.records_eq
  exact
    { pinned_iff := hs.contains_iff
      word_iff := by
        intro r s v w hv hw
        obtain ⟨e, he, rfl, rfl⟩ := (hs.mem_iff r v).1 hv
        obtain ⟨x, hx, rfl, rfl⟩ := (hs.mem_iff s w).1 hw
        rw [hr.proper.handle_eq_iff he hx, Token.bits_inj]
      observed := hrecords ▸ hr.observed
      acquire_live := by
        intro r hl hroom
        rw [hrecords] at hroom ⊢
        rcases hr.acquire_cases r with ⟨-, t, registry, l', hacquire, hl', hr'⟩ | ⟨hfull, -⟩
        · refine ⟨t.bits, registry, ?_, hr.bits_ne_zero_of_acquire hacquire, fun s v hv => ?_, ?_⟩
          · rw [call_acquire_bits finalize h hl, hacquire]
          · obtain ⟨e, he, rfl, rfl⟩ := (hs.mem_iff s v).1 hv
            rw [hr.handle_eq_iff_of_acquire hacquire he, Token.bits_inj]
          · rw [hr'.records_eq, Token.ofBits_bits, hl']
        · exact absurd hroom hfull
      acquire_full := by
        intro r hl hfull
        rw [hrecords] at hfull
        rcases hr.acquire_cases r with ⟨hroom, -⟩ | ⟨-, e, hacquire⟩
        · exact absurd hroom hfull
        · exact ⟨e, by rw [call_acquire_bits finalize h hl, hacquire]⟩
      acquire_dead := by
        intro w hdead
        exact call_acquire_of_dead finalize h fun hl => hdead _ hl (Ref.bits_ofBits w)
      release_known := by
        intro r w hmem
        obtain ⟨e, he, rfl, rfl⟩ := (hs.mem_iff r w).1 hmem
        refine exists_of_releaseHandle hr (List.mem_map_of_mem he) ?_
        rw [call_release_eq, Token.ofBits_bits, hr.release_eq he]
      release_unknown := by
        intro w hunknown
        have ht : Token.ofBits w ∉ l.map Entry.token := by
          intro hmem
          obtain ⟨e, he, htoken⟩ := List.mem_map.1 hmem
          refine hunknown e.handle ((hs.mem_iff _ _).2 ⟨e, he, rfl, ?_⟩)
          rw [htoken, Token.bits_ofBits]
        rw [call_release_eq, hr.release_of_not_mem ht]
      releaseHandle_pinned := by
        intro r hpinned
        rw [hr.observed.contains_iff] at hpinned
        refine exists_of_releaseHandle hr hpinned ?_
        rw [call_releaseHandle_eq, Ref.ofBits_bits]
      releaseHandle_unpinned := by
        intro w hunpinned
        rcases hr.releaseHandle_cases (Ref.ofBits w) with ⟨hmem, -⟩ | ⟨-, hrelease⟩
        · refine absurd (Ref.bits_ofBits w) (hunpinned _ ?_)
          rw [hr.observed.contains_iff]
          exact hmem
        · rw [call_releaseHandle_eq, hrelease]
      acquire_none := fun _ => rfl
      collect_none := rfl
      release_none := fun _ => ⟨_, rfl⟩
      releaseHandle_none := fun _ => ⟨_, rfl⟩ }

/-- Whatever the program did before, and whatever words foreign code passes, every call does what
its words say.  No hold is refused for want of numbers before 2 ^ 32 - 1 steps. -/
theorem faithful_after (finalize : Finalizer α σ) (config : Heap.Config) (args : List String)
    (world : σ) (steps : List (Step α)) :
    let h := Foreign.after finalize (Host.new config args world) steps
    Faithful finalize h (standing finalize (Host.new config args world) [] steps) ∧
      ((∀ r, h.registry.records.HasRoom r) ∨ Registry.countLimit ≤ steps.length + 1) := by
  obtain ⟨l, hholds, hs⟩ := (stands_new config args world).after finalize steps
  refine ⟨hs.faithful, ?_⟩
  rcases Nat.lt_or_ge (steps.length + 1) Registry.countLimit with hlt | hge
  · have hnew : Ledger.holds ([] : Ledger Ref) = 0 := rfl
    left
    rw [hs.represents.records_eq]
    exact hs.represents.proper.hasRoom (by omega)
  · exact Or.inr hge

end Stands

/-! ## Holds that cannot be counted -/

section Full

variable [HeapObject α] (finalize : Finalizer α σ) {h : Host α σ} {e : Entry Ref}

/-- Holding the only object that is held, as long as the holds can be counted. -/
theorem after_replicate_acquire (hl : h.heap.isLive e.handle) (hr : Represents h.registry [e])
    {n : Nat} (hlt : e.count + n < Registry.countLimit) :
    ∃ registry, Foreign.after finalize h
        (List.replicate n (.foreign (.acquire e.handle.bits))) = { h with registry } ∧
      Represents registry [{ e with count := e.count + n }] := by
  induction n generalizing h e with
  | zero => exact ⟨h.registry, rfl, hr⟩
  | succ n ih =>
    have hsplit : Represents h.registry ([] ++ e :: []) := hr
    obtain ⟨registry, hacquire, hr'⟩ := hsplit.acquire_again (by omega)
    have hstep : Step.run finalize h (.foreign (.acquire e.handle.bits)) = { h with registry } := by
      rw [Step.run, call_acquire_bits finalize h hl, hacquire]
      rfl
    obtain ⟨registry', hafter, hr''⟩ :=
      ih (h := { h with registry }) (e := { e with count := e.count + 1 }) hl hr' (by
        dsimp only
        omega)
    refine ⟨registry', ?_, ?_⟩
    · calc Foreign.after finalize h (List.replicate (n + 1) (.foreign (.acquire e.handle.bits)))
          = Foreign.after finalize (Step.run finalize h (.foreign (.acquire e.handle.bits)))
              (List.replicate n (.foreign (.acquire e.handle.bits))) := rfl
        _ = { h with registry := registry' } := by rw [hstep, hafter]
    · rw [Nat.add_comm n 1, ← Nat.add_assoc]
      exact hr''

/-- An object whose holds fill the count cannot be held once more. -/
theorem call_acquire_of_full (hl : h.heap.isLive e.handle) (hr : Represents h.registry [e])
    (hfull : Registry.countLimit ≤ e.count + 1) :
    call finalize (some h) (.acquire e.handle.bits) =
      (.aborted (.violation ⟨.countOverflow e.handle⟩), some h) := by
  have hsplit : Represents h.registry ([] ++ e :: []) := hr
  rw [call_acquire_bits finalize h hl, hsplit.acquire_full hfull]

end Full

/-- A program that stores a leaf, which foreign code then holds so many times. -/
def holdingLeaf (n : Nat) : List (Step (Session.Obj Unit)) :=
  .program (.alloc .leaf) :: List.replicate n (.foreign (.acquire (Ref.bits ⟨0, 1⟩)))

theorem after_holdingLeaf {n : Nat} (hlt : n + 1 < Registry.countLimit) :
    ∃ t registry, Foreign.after Host.idle (Host.new {} [] ()) (holdingLeaf (n + 1)) =
        { Host.leafHost {} with registry } ∧
      Represents registry [⟨⟨0, 1⟩, n + 1, t⟩] := by
  have hl : (Host.leafHost {}).heap.isLive ⟨0, 1⟩ := rfl
  have hempty : Represents (Host.leafHost {}).registry [] := Registry.represents_empty
  obtain ⟨t, registry, hacquire, hr⟩ :=
    hempty.acquire_new (h := ⟨0, 1⟩) List.not_mem_nil (by decide)
  have hfirst : Step.run Host.idle (Host.leafHost {}) (.foreign (.acquire (Ref.bits ⟨0, 1⟩))) =
      { Host.leafHost {} with registry } := by
    rw [Step.run, call_acquire_bits Host.idle _ hl, hacquire]
    rfl
  obtain ⟨registry', hafter, hr'⟩ := after_replicate_acquire Host.idle (n := n)
    (h := { Host.leafHost {} with registry }) (e := ⟨⟨0, 1⟩, 1, t⟩) hl hr (by
      dsimp only
      omega)
  refine ⟨t, registry', ?_, ?_⟩
  · calc Foreign.after Host.idle (Host.new {} [] ()) (holdingLeaf (n + 1))
        = Foreign.after Host.idle
            (Step.run Host.idle (Host.leafHost {}) (.foreign (.acquire (Ref.bits ⟨0, 1⟩))))
            (List.replicate n (.foreign (.acquire (Ref.bits ⟨0, 1⟩)))) := rfl
      _ = { Host.leafHost {} with registry := registry' } := by rw [hfirst, hafter]
  · rw [Nat.add_comm n 1]
    exact hr'

/-- It is not true that foreign code can hold every live object once more, nor that it can release
only what a call has returned to it.  A leaf with 2 ^ 32 - 1 holds cannot be held again, and the
record of a leaf that the program itself has pinned is released by whoever knows its word. -/
theorem not_acquire_live :
    let full := Foreign.after Host.idle (Host.new {} [] ()) (holdingLeaf 4294967295)
    let pinned := Foreign.after Host.idle (Host.new {} [] ())
      [.program (.alloc .leaf), .program (.pin ⟨0, 1⟩)]
    (full.heap.isLive ⟨0, 1⟩ ∧
      call Host.idle (some full) (.acquire (Ref.bits ⟨0, 1⟩)) =
        (.aborted (.violation ⟨.countOverflow ⟨0, 1⟩⟩), some full)) ∧
    (call Host.idle (some pinned) (.release (Token.bits ⟨0, 1⟩))).1 = .done := by
  intro full pinned
  obtain ⟨t, registry, hafter, hr⟩ := after_holdingLeaf (n := 4294967294) (by decide)
  have hfull : full = { Host.leafHost {} with registry } := hafter
  have hl : (Host.leafHost {}).heap.isLive ⟨0, 1⟩ := rfl
  refine ⟨?_, rfl⟩
  rw [hfull]
  exact ⟨hl, call_acquire_of_full Host.idle (e := ⟨⟨0, 1⟩, 4294967295, t⟩) hl hr
    (Nat.le_refl Registry.countLimit)⟩

end PinnedHeap.Foreign
