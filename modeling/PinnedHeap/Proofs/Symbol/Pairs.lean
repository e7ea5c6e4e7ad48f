import Mathlib.Data.List.Induction
import Mathlib.Data.List.Sort
import PinnedHeap.Proofs.Symbol.Lookup

/-!
# Tables of pairs

Pairs are read in order into a map, so what has been read so far is a map that has the pairs so far
and no others (`Reads`).  The next pair is in it already, or its raw name is new, or it is a
conflict.

* Pairs without a disagreement are read to the end (`Consistent.exists_reads`).
* Reading ends at the first pair that disagrees with one before it (`ofPairs_of_firstConflict`).
* One of the two is the case for every list of pairs (`consistent_or_firstConflict`).

Which conflict is reported depends on the order of the pairs.  The table does not: it lists its
pairs in the order of their raw names, and an ordered table is determined by what it lists
(`Ordered.eq_of_mem_iff`).
-/

namespace PinnedHeap.Symbol.Table

/-! ## Pairs that disagree -/

/-- No raw name has two qualified names. -/
def Consistent (pairs : List (String × String)) : Prop :=
  ∀ raw first second, (raw, first) ∈ pairs → (raw, second) ∈ pairs → first = second

/-- The conflict of the first pair that disagrees with one before it. -/
def FirstConflict (pairs : List (String × String)) (c : Conflict) : Prop :=
  ∃ before after, pairs = before ++ (c.raw, c.second) :: after ∧ Consistent before ∧
    (c.raw, c.first) ∈ before ∧ c.first ≠ c.second

variable {pairs pairs' : List (String × String)} {pair : String × String} {names : Names}

theorem Consistent.of_subset (hc : Consistent pairs) (hsub : ∀ p ∈ pairs', p ∈ pairs) :
    Consistent pairs' := fun raw first second hfirst hsecond =>
  hc raw first second (hsub _ hfirst) (hsub _ hsecond)

theorem FirstConflict.not_consistent {c : Conflict} (hf : FirstConflict pairs c) :
    ¬ Consistent pairs := by
  obtain ⟨before, after, rfl, -, hmem, hne⟩ := hf
  intro hc
  exact hne (hc c.raw c.first c.second (by simp [hmem]) (by simp))

/-- Pairs in a row do not disagree if neither part does and the parts agree. -/
theorem consistent_append_iff {xs ys : List (String × String)} :
    Consistent (xs ++ ys) ↔ (Consistent xs ∧ Consistent ys) ∧
      ∀ raw first second, (raw, first) ∈ xs → (raw, second) ∈ ys → first = second := by
  constructor
  · intro hc
    refine ⟨⟨hc.of_subset ?_, hc.of_subset ?_⟩, ?_⟩
    · exact fun p hp => List.mem_append_left _ hp
    · exact fun p hp => List.mem_append_right _ hp
    · intro raw first second hfirst hsecond
      exact hc raw first second (List.mem_append_left _ hfirst) (List.mem_append_right _ hsecond)
  · intro ⟨⟨hxs, hys⟩, hagree⟩ raw first second hfirst hsecond
    cases List.mem_append.1 hfirst with
    | inl hfirst =>
      cases List.mem_append.1 hsecond with
      | inl hsecond => exact hxs raw first second hfirst hsecond
      | inr hsecond => exact hagree raw first second hfirst hsecond
    | inr hfirst =>
      cases List.mem_append.1 hsecond with
      | inl hsecond => exact (hagree raw second first hsecond hfirst).symm
      | inr hsecond => exact hys raw first second hfirst hsecond

/-- The last pair repeats a pair, is new, or disagrees with one. -/
theorem Consistent.concat_cases (hc : Consistent pairs) (pair : String × String) :
    Consistent (pairs ++ [pair]) ∨
      ∃ first, (pair.1, first) ∈ pairs ∧ first ≠ pair.2 := by
  by_cases hagree : ∀ q, (pair.1, q) ∈ pairs → q = pair.2
  · have hsingle : Consistent [pair] := by
      intro raw first second hfirst hsecond
      cases List.mem_singleton.1 hfirst
      cases List.mem_singleton.1 hsecond
      rfl
    refine Or.inl (consistent_append_iff.2 ⟨⟨hc, hsingle⟩, ?_⟩)
    intro raw first second hfirst hsecond
    cases List.mem_singleton.1 hsecond
    exact hagree first hfirst
  · obtain ⟨first, hfirst⟩ := Classical.not_forall.1 hagree
    rw [Classical.not_imp] at hfirst
    exact Or.inr ⟨first, hfirst⟩

/-- If pairs disagree, then there is a first one that does. -/
theorem consistent_or_firstConflict (pairs : List (String × String)) :
    Consistent pairs ∨ ∃ c, FirstConflict pairs c := by
  induction pairs using List.reverseRecOn with
  | nil => exact Or.inl fun _ _ _ hfirst => absurd hfirst List.not_mem_nil
  | append_singleton pairs pair ih =>
    rcases ih with hc | ⟨c, before, after, rfl, hbefore⟩
    · rcases hc.concat_cases pair with hc' | ⟨first, hmem, hne⟩
      · exact Or.inl hc'
      · exact Or.inr ⟨⟨pair.1, first, pair.2⟩, pairs, [], rfl, hc, hmem, hne⟩
    · exact Or.inr ⟨c, before, after ++ [pair], by simp, hbefore⟩

/-! ## Reading pairs -/

/-- The names that have been read are those of the pairs. -/
def Reads (names : Names) (pairs : List (String × String)) : Prop :=
  ∀ raw qualified, names[raw]? = some qualified ↔ (raw, qualified) ∈ pairs

theorem reads_nil : Reads {} [] := by
  intro raw qualified
  simp

/-- A pair that is repeated changes nothing. -/
theorem Reads.addPair_of_mem (hr : Reads names pairs) (hmem : pair ∈ pairs) :
    addPair names pair = .ok names ∧ Reads names (pairs ++ [pair]) := by
  constructor
  · rw [addPair, (hr pair.1 pair.2).2 hmem]
    simp
  · intro raw qualified
    rw [hr raw qualified, List.mem_append, List.mem_singleton]
    constructor
    · exact Or.inl
    · rintro (hp | rfl)
      · exact hp
      · exact hmem

/-- A raw name that is new is added. -/
theorem Reads.addPair_of_new (hr : Reads names pairs) (hnew : ∀ q, (pair.1, q) ∉ pairs) :
    ∃ names', addPair names pair = .ok names' ∧ Reads names' (pairs ++ [pair]) := by
  have hnone : names[pair.1]? = none := by
    cases hget : names[pair.1]? with
    | none => rfl
    | some q => exact absurd ((hr pair.1 q).1 hget) (hnew q)
  refine ⟨names.insert pair.1 pair.2, by rw [addPair, hnone], fun raw qualified => ?_⟩
  rw [Std.TreeMap.getElem?_insert, List.mem_append, List.mem_singleton]
  by_cases hraw : pair.1 = raw
  · subst hraw
    have hnot := hnew qualified
    simp only [Std.ReflCmp.compare_self, if_true, Option.some.injEq, hnot, false_or]
    constructor
    · rintro rfl
      rfl
    · intro hpair
      exact (congrArg Prod.snd hpair).symm
  · have hne : byteOrder pair.1 raw ≠ .eq := fun he => hraw (Std.LawfulEqCmp.eq_of_compare he)
    rw [if_neg hne, hr raw qualified]
    constructor
    · exact Or.inl
    · rintro (hp | rfl)
      · exact hp
      · exact absurd rfl hraw

/-- Pairs that do not disagree are read to the end. -/
theorem Consistent.exists_reads (hc : Consistent pairs) :
    ∃ names, pairs.foldlM addPair {} = .ok names ∧ Reads names pairs := by
  induction pairs using List.reverseRecOn with
  | nil => exact ⟨{}, rfl, reads_nil⟩
  | append_singleton pairs pair ih =>
    obtain ⟨names, hfold, hr⟩ := ih (hc.of_subset fun p hp => by simp [hp])
    have hstep : (pairs ++ [pair]).foldlM addPair {} = addPair names pair := by
      rw [List.foldlM_append, hfold]
      exact bind_pure (addPair names pair)
    rw [hstep]
    by_cases hold : ∃ q, (pair.1, q) ∈ pairs
    · obtain ⟨q, hq⟩ := hold
      obtain rfl : q = pair.2 := hc pair.1 q pair.2 (by simp [hq]) (by simp)
      exact ⟨names, hr.addPair_of_mem hq⟩
    · exact hr.addPair_of_new fun q hq => hold ⟨q, hq⟩

/-- Reading ends at the first pair that disagrees with one before it. -/
theorem ofPairs_of_firstConflict {c : Conflict} (hf : FirstConflict pairs c) :
    ofPairs pairs = .error c := by
  obtain ⟨before, after, rfl, hc, hmem, hne⟩ := hf
  obtain ⟨names, hfold, hr⟩ := hc.exists_reads
  have hadd : addPair names (c.raw, c.second) = .error c := by
    rw [addPair, (hr c.raw c.first).2 hmem]
    exact if_neg hne
  rw [ofPairs, List.foldlM_append, hfold]
  change (List.foldlM addPair names ((c.raw, c.second) :: after)).map ofNames = .error c
  rw [List.foldlM_cons, hadd]
  rfl

/-! ## The table -/

theorem consistent_of_ofPairs {t : Table} (ht : ofPairs pairs = .ok t) : Consistent pairs := by
  rcases consistent_or_firstConflict pairs with hc | ⟨c, hf⟩
  · exact hc
  · rw [ofPairs_of_firstConflict hf] at ht
    exact nomatch ht

theorem mem_toPairs_ofNames {raw qualified : String} :
    (raw, qualified) ∈ (ofNames names).toPairs ↔ names[raw]? = some qualified := by
  rw [← Std.TreeMap.mem_toList_iff_getElem?_eq_some]
  simp [toPairs, ofNames]

/-- The table of pairs that do not disagree is in order and lists them. -/
theorem Consistent.exists_ofPairs (hc : Consistent pairs) :
    ∃ t, ofPairs pairs = .ok t ∧ t.Ordered ∧ ∀ p, p ∈ t.toPairs ↔ p ∈ pairs := by
  obtain ⟨names, hfold, hr⟩ := hc.exists_reads
  refine ⟨ofNames names, by rw [ofPairs, hfold]; rfl, ordered_ofNames names, ?_⟩
  rintro ⟨raw, qualified⟩
  rw [mem_toPairs_ofNames, hr]

/-- The error is the conflict of the first pair that disagrees with one before it. -/
theorem ofPairs_eq_error_iff {c : Conflict} :
    ofPairs pairs = .error c ↔ FirstConflict pairs c := by
  constructor
  · intro he
    rcases consistent_or_firstConflict pairs with hc | ⟨c', hf⟩
    · obtain ⟨t, ht, -⟩ := hc.exists_ofPairs
      rw [ht] at he
      exact nomatch he
    · rw [ofPairs_of_firstConflict hf] at he
      cases he
      exact hf
  · exact ofPairs_of_firstConflict

theorem mem_entries_iff {t : Table} {e : Entry} :
    e ∈ t.entries.toList ↔ (e.raw, e.qualified) ∈ t.toPairs := by
  rw [toPairs, List.mem_map]
  constructor
  · exact fun he => ⟨e, he, rfl⟩
  · rintro ⟨e', he', heq⟩
    cases e
    cases e'
    cases heq
    exact he'

/-- An ordered table is determined by the pairs that it lists. -/
theorem Ordered.eq_of_mem_iff {t u : Table} (ht : t.Ordered) (hu : u.Ordered)
    (hmem : ∀ p, p ∈ t.toPairs ↔ p ∈ u.toPairs) : t = u := by
  have hirrefl : Std.Irrefl fun a b : Entry => byteOrder a.raw b.raw = .lt :=
    ⟨fun e he => by simp [Std.ReflCmp.compare_self] at he⟩
  have hantisymm : Std.Antisymm fun a b : Entry => byteOrder a.raw b.raw = .lt :=
    ⟨fun a b hab hba => by simp [Std.OrientedCmp.gt_of_lt hab] at hba⟩
  have hentries : t.entries.toList = u.entries.toList :=
    List.Pairwise.eq_of_mem_iff ht hu fun e => by rw [mem_entries_iff, mem_entries_iff, hmem]
  cases t
  cases u
  exact congrArg Table.mk (Array.toList_inj.1 hentries)

/-- The table of some pairs is the ordered table that lists them, if they do not disagree. -/
theorem ofPairs_eq_ok_iff {t : Table} :
    ofPairs pairs = .ok t ↔
      Consistent pairs ∧ t.Ordered ∧ ∀ p, p ∈ t.toPairs ↔ p ∈ pairs := by
  constructor
  · intro ht
    have hc := consistent_of_ofPairs ht
    obtain ⟨t', ht', ho, hmem⟩ := hc.exists_ofPairs
    rw [ht'] at ht
    cases ht
    exact ⟨hc, ho, hmem⟩
  · intro ⟨hc, ho, hmem⟩
    obtain ⟨t', ht', ho', hmem'⟩ := hc.exists_ofPairs
    rw [ht', ho'.eq_of_mem_iff ho fun p => by rw [hmem', hmem]]

/-- What a table made of pairs is, and when there is none. -/
structure OfPairsSpec (pairs : List (String × String)) : Prop where
  /-- There is a table exactly if no raw name has two qualified names. -/
  isOk_iff : (∃ t, ofPairs pairs = .ok t) ↔ Consistent pairs
  /-- Otherwise the error is the conflict of the first pair that disagrees with one before it. -/
  error_iff : ∀ c, ofPairs pairs = .error c ↔ FirstConflict pairs c
  /-- The entries are in the strict order of the bytes of their raw names. -/
  ordered : ∀ t, ofPairs pairs = .ok t → t.Ordered
  /-- Every sequence of bytes is resolved to what the pairs say, and to nothing else. -/
  resolve?_iff : ∀ t, ofPairs pairs = .ok t → ∀ name qualified,
    t.resolve? name = some qualified ↔ ∃ raw, (raw, qualified) ∈ pairs ∧ Text.bytes raw = name
  /-- The order of the pairs and their repetitions make no difference to the table, nor to whether
  there is one. -/
  toOption_eq : ∀ pairs', (∀ p, p ∈ pairs' ↔ p ∈ pairs) →
    (ofPairs pairs').toOption = (ofPairs pairs).toOption

theorem ofPairsSpec (pairs : List (String × String)) : OfPairsSpec pairs where
  isOk_iff := by
    constructor
    · rintro ⟨t, ht⟩
      exact consistent_of_ofPairs ht
    · intro hc
      obtain ⟨t, ht, -⟩ := hc.exists_ofPairs
      exact ⟨t, ht⟩
  error_iff := fun _ => ofPairs_eq_error_iff
  ordered := fun t ht => ordered_of_ofPairs ht
  resolve?_iff := by
    intro t ht name qualified
    obtain ⟨-, ho, hmem⟩ := ofPairs_eq_ok_iff.1 ht
    simp only [ho.resolve?_eq_some_iff, hmem]
  toOption_eq := by
    intro pairs' hsame
    rcases consistent_or_firstConflict pairs with hc | ⟨c, hf⟩
    · have hc' : Consistent pairs' := hc.of_subset fun p hp => (hsame p).1 hp
      obtain ⟨t, ht, ho, hmem⟩ := hc.exists_ofPairs
      obtain ⟨t', ht', ho', hmem'⟩ := hc'.exists_ofPairs
      rw [ht, ht', ho'.eq_of_mem_iff ho fun p => by rw [hmem', hmem, hsame]]
    · rcases consistent_or_firstConflict pairs' with hc' | ⟨c', hf'⟩
      · exact absurd (hc'.of_subset fun p hp => (hsame p).2 hp) hf.not_consistent
      · rw [ofPairs_of_firstConflict hf, ofPairs_of_firstConflict hf']
        rfl

/-- Every list of pairs is made into a table as specified, and every table that is built in any of
the ways there are is in order. -/
theorem tables_spec :
    (∀ pairs, OfPairsSpec pairs) ∧ ∀ t : Table, t.Built → t.Ordered :=
  ⟨ofPairsSpec, fun _ ht => ht.ordered⟩

end PinnedHeap.Symbol.Table
