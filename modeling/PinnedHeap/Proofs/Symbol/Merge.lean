import PinnedHeap.Proofs.Symbol.Pairs

/-!
# Merging tables

Two tables can be merged if no raw name has different qualified names in them.  The result is the
ordered table that lists the pairs of both (`Ordered.merge_eq_ok_iff`).  So a merge is a union of
sets of pairs, as far as it is defined, and its laws are those of unions: it is commutative and
idempotent, the empty table is neutral, and both ways to merge three tables succeed for the same
tables with the same result (`Ordered.merge_assoc`).

A merge that fails reports the least raw name on which the tables disagree
(`Ordered.merge_eq_error_iff`).  The entries of the first table are read without a conflict, and
those of the second table come in order.  So the first conflict that is met is the least one.
-/

namespace PinnedHeap.Symbol.Table

variable {t u v w : Table} {c : Conflict}

/-! ## Tables that agree -/

/-- No raw name has different qualified names in two tables. -/
def Compatible (t u : Table) : Prop :=
  ∀ raw first second, (raw, first) ∈ t.toPairs → (raw, second) ∈ u.toPairs → first = second

theorem Compatible.symm (hc : t.Compatible u) : u.Compatible t := by
  intro raw first second hfirst hsecond
  exact (hc raw second first hsecond hfirst).symm

theorem compatible_comm : t.Compatible u ↔ u.Compatible t := ⟨Compatible.symm, Compatible.symm⟩

/-- A table with the pairs of two tables agrees with another one if both of them do. -/
theorem compatible_union_iff (hmem : ∀ p, p ∈ w.toPairs ↔ p ∈ t.toPairs ∨ p ∈ u.toPairs) :
    w.Compatible v ↔ t.Compatible v ∧ u.Compatible v := by
  constructor
  · intro hc
    constructor
    · intro raw first second hfirst hsecond
      exact hc raw first second ((hmem _).2 (Or.inl hfirst)) hsecond
    · intro raw first second hfirst hsecond
      exact hc raw first second ((hmem _).2 (Or.inr hfirst)) hsecond
  · intro ⟨ht, hu⟩ raw first second hfirst hsecond
    cases (hmem _).1 hfirst with
    | inl hfirst => exact ht raw first second hfirst hsecond
    | inr hfirst => exact hu raw first second hfirst hsecond

/-- An ordered table has one qualified name for each raw name. -/
theorem Ordered.consistent (ht : t.Ordered) : Consistent t.toPairs := by
  intro raw first second hfirst hsecond
  have hresolved := ht.resolve?_eq_some_iff.2 ⟨raw, hfirst, rfl⟩
  rw [ht.resolve?_eq_some_iff.2 ⟨raw, hsecond, rfl⟩] at hresolved
  exact (Option.some.inj hresolved).symm

theorem Ordered.consistent_toPairs_append_iff (ht : t.Ordered) (hu : u.Ordered) :
    Consistent (t.toPairs ++ u.toPairs) ↔ t.Compatible u := by
  rw [consistent_append_iff, and_iff_right ⟨ht.consistent, hu.consistent⟩, Compatible]

/-! ## Unions -/

/-- The merge of two tables is the ordered table with the pairs of both, if they agree. -/
theorem Ordered.merge_eq_ok_iff (ht : t.Ordered) (hu : u.Ordered) :
    t.merge u = .ok w ↔
      t.Compatible u ∧ w.Ordered ∧ ∀ p, p ∈ w.toPairs ↔ p ∈ t.toPairs ∨ p ∈ u.toPairs := by
  simp only [merge, ofPairs_eq_ok_iff, ht.consistent_toPairs_append_iff hu, List.mem_append]

theorem Ordered.isOk_merge_iff (ht : t.Ordered) (hu : u.Ordered) :
    (∃ w, t.merge u = .ok w) ↔ t.Compatible u := by
  constructor
  · intro ⟨w, hw⟩
    exact ((ht.merge_eq_ok_iff hu).1 hw).1
  · intro hc
    obtain ⟨w, hw, -⟩ := ((ht.consistent_toPairs_append_iff hu).2 hc).exists_ofPairs
    exact ⟨w, hw⟩

theorem Ordered.merge_comm (ht : t.Ordered) (hu : u.Ordered) :
    t.merge u = .ok w ↔ u.merge t = .ok w := by
  simp only [ht.merge_eq_ok_iff hu, hu.merge_eq_ok_iff ht, compatible_comm (t := t), or_comm]

theorem Ordered.merge_self (ht : t.Ordered) : t.merge t = .ok t :=
  (ht.merge_eq_ok_iff ht).2 ⟨ht.consistent, ht, fun _ => (or_self_iff).symm⟩

theorem ordered_empty : ({} : Table).Ordered := List.Pairwise.nil

theorem Ordered.merge_empty (ht : t.Ordered) : t.merge {} = .ok t := by
  refine (ht.merge_eq_ok_iff ordered_empty).2 ⟨?_, ht, ?_⟩
  · intro raw first second _ hsecond
    exact absurd hsecond List.not_mem_nil
  · intro p
    simp [toPairs]

theorem Ordered.empty_merge (ht : t.Ordered) : ({} : Table).merge t = .ok t :=
  (ht.merge_comm ordered_empty).1 ht.merge_empty

/-- Three tables, of which the first two are merged first. -/
theorem Ordered.merge_merge_iff (ht : t.Ordered) (hu : u.Ordered) (hv : v.Ordered) :
    (t.merge u >>= fun tu => tu.merge v) = .ok w ↔
      (t.Compatible u ∧ t.Compatible v ∧ u.Compatible v) ∧ w.Ordered ∧
        ∀ p, p ∈ w.toPairs ↔ p ∈ t.toPairs ∨ p ∈ u.toPairs ∨ p ∈ v.toPairs := by
  constructor
  · intro hw
    cases htu : t.merge u with
    | error c =>
      rw [htu] at hw
      exact nomatch hw
    | ok tu =>
      rw [htu] at hw
      obtain ⟨hc, ho, hmem⟩ := (ht.merge_eq_ok_iff hu).1 htu
      obtain ⟨hcv, how, hmemw⟩ := (ho.merge_eq_ok_iff hv).1 hw
      refine ⟨⟨hc, (compatible_union_iff hmem).1 hcv⟩, how, ?_⟩
      intro p
      rw [hmemw, hmem, or_assoc]
  · intro ⟨⟨hc, hcv⟩, how, hmemw⟩
    obtain ⟨tu, htu⟩ := (ht.isOk_merge_iff hu).2 hc
    obtain ⟨-, ho, hmem⟩ := (ht.merge_eq_ok_iff hu).1 htu
    rw [htu]
    refine (ho.merge_eq_ok_iff hv).2 ⟨(compatible_union_iff hmem).2 hcv, how, ?_⟩
    intro p
    rw [hmemw, hmem, or_assoc]

/-- It makes no difference which two of three tables are merged first. -/
theorem Ordered.merge_assoc (ht : t.Ordered) (hu : u.Ordered) (hv : v.Ordered) :
    (t.merge u >>= fun tu => tu.merge v) = .ok w ↔
      (u.merge v >>= fun uv => t.merge uv) = .ok w := by
  have hswap : (u.merge v >>= fun uv => t.merge uv) = .ok w ↔
      (u.merge v >>= fun uv => uv.merge t) = .ok w := by
    cases huv : u.merge v with
    | error c => exact Iff.rfl
    | ok uv => exact ht.merge_comm ((hu.merge_eq_ok_iff hv).1 huv).2.1
  rw [hswap, ht.merge_merge_iff hu hv, hu.merge_merge_iff hv ht]
  constructor
  · intro ⟨⟨htu, htv, huv⟩, how, hmem⟩
    exact ⟨⟨huv, htu.symm, htv.symm⟩, how, fun p => (hmem p).trans or_rotate⟩
  · intro ⟨⟨huv, hut, hvt⟩, how, hmem⟩
    exact ⟨⟨hut.symm, hvt.symm, huv⟩, how, fun p => (hmem p).trans or_rotate.symm⟩

/-! ## Conflicts -/

/-- The disagreement of two tables on the least raw name on which they disagree. -/
structure LeastConflict (t u : Table) (c : Conflict) : Prop where
  mem_left : (c.raw, c.first) ∈ t.toPairs
  mem_right : (c.raw, c.second) ∈ u.toPairs
  ne : c.first ≠ c.second
  /-- Every raw name on which the tables disagree is at least this one in the order of bytes. -/
  least : ∀ raw first second, (raw, first) ∈ t.toPairs → (raw, second) ∈ u.toPairs →
    first ≠ second → (byteOrder c.raw raw).isLE

theorem Ordered.pairwise_toPairs (ht : t.Ordered) :
    t.toPairs.Pairwise fun a b => byteOrder a.1 b.1 = .lt := List.pairwise_map.2 ht

/-- The pair that completes a conflict is one of the second table. -/
theorem Ordered.exists_split (ht : t.Ordered) {before after : List (String × String)}
    (hsplit : t.toPairs ++ u.toPairs = before ++ (c.raw, c.second) :: after)
    (hmem : (c.raw, c.first) ∈ before) (hne : c.first ≠ c.second) :
    ∃ pre, before = t.toPairs ++ pre ∧ u.toPairs = pre ++ (c.raw, c.second) :: after := by
  cases List.append_eq_append_iff.1 hsplit with
  | inl hlate => exact hlate
  | inr hearly =>
    obtain ⟨post, hpairs, hpost⟩ := hearly
    cases post with
    | nil => exact ⟨[], by simpa using hpairs.symm, hpost.symm⟩
    | cons p post =>
      cases hpost
      have hfirst : (c.raw, c.first) ∈ t.toPairs := by simp [hpairs, hmem]
      have hsecond : (c.raw, c.second) ∈ t.toPairs := by simp [hpairs]
      exact absurd (ht.consistent _ _ _ hfirst hsecond) hne

theorem Ordered.leastConflict_of_first (ht : t.Ordered) (hu : u.Ordered)
    (hf : FirstConflict (t.toPairs ++ u.toPairs) c) : LeastConflict t u c := by
  obtain ⟨before, after, hsplit, hbefore, hmem, hne⟩ := hf
  obtain ⟨pre, rfl, hpairs⟩ := ht.exists_split hsplit hmem hne
  have hsecond : (c.raw, c.second) ∈ u.toPairs := by simp [hpairs]
  constructor
  · cases List.mem_append.1 hmem with
    | inl hfirst => exact hfirst
    | inr hfirst =>
      have hfirst' : (c.raw, c.first) ∈ u.toPairs := by simp [hpairs, hfirst]
      exact absurd (hu.consistent _ _ _ hfirst' hsecond) hne
  · exact hsecond
  · exact hne
  · intro raw first second hfirst hother hdiffer
    rw [hpairs, List.mem_append, List.mem_cons] at hother
    obtain hearly | hhere | hlate := hother
    · exact absurd (hbefore raw first second (List.mem_append_left _ hfirst)
        (List.mem_append_right _ hearly)) hdiffer
    · cases hhere
      exact Ordering.isLE_of_eq_eq Std.ReflCmp.compare_self
    · have hpairwise := hu.pairwise_toPairs
      rw [hpairs] at hpairwise
      exact Ordering.isLE_of_eq_lt
        (List.rel_of_pairwise_cons (List.pairwise_append.1 hpairwise).2.1 hlate)

theorem LeastConflict.first (hl : LeastConflict t u c) (ht : t.Ordered) (hu : u.Ordered) :
    FirstConflict (t.toPairs ++ u.toPairs) c := by
  obtain ⟨pre, post, hpairs⟩ := List.append_of_mem hl.mem_right
  have hpre : ∀ p ∈ pre, p ∈ u.toPairs := fun p hp => by simp [hpairs, hp]
  -- A disagreement with an entry before the one of the conflict would be on a smaller name.
  have hagree : ∀ raw first second, (raw, first) ∈ t.toPairs → (raw, second) ∈ pre →
      first = second := by
    intro raw first second hfirst hsecond
    by_contra hdiffer
    have hle := hl.least raw first second hfirst (hpre _ hsecond) hdiffer
    have hpairwise := hu.pairwise_toPairs
    rw [hpairs] at hpairwise
    have hlt : byteOrder raw c.raw = .lt :=
      (List.pairwise_append.1 hpairwise).2.2 _ hsecond _ List.mem_cons_self
    rw [Std.OrientedCmp.gt_of_lt hlt] at hle
    exact nomatch hle
  have hbefore : Consistent (t.toPairs ++ pre) :=
    consistent_append_iff.2 ⟨⟨ht.consistent, hu.consistent.of_subset hpre⟩, hagree⟩
  exact ⟨t.toPairs ++ pre, post, by rw [hpairs, List.append_assoc], hbefore,
    List.mem_append_left _ hl.mem_left, hl.ne⟩

/-- A merge fails with the least conflict of the tables. -/
theorem Ordered.merge_eq_error_iff (ht : t.Ordered) (hu : u.Ordered) :
    t.merge u = .error c ↔ LeastConflict t u c := by
  rw [merge, ofPairs_eq_error_iff]
  exact ⟨ht.leastConflict_of_first hu, fun hl => hl.first ht hu⟩

/-! ## The laws of merging -/

/-- What merging two tables gives, and how it goes together with a third one. -/
structure MergeLaws (t u v : Table) : Prop where
  /-- Two tables can be merged exactly if no raw name has different qualified names in them. -/
  isOk_iff : (∃ w, t.merge u = .ok w) ↔ t.Compatible u
  /-- Otherwise the conflict is the one on the least raw name, with the name in the first table
  first. -/
  error_iff : ∀ c, t.merge u = .error c ↔ LeastConflict t u c
  /-- The result resolves what one of the tables resolves, to the same name, and nothing else. -/
  resolve?_iff : ∀ w, t.merge u = .ok w → ∀ name qualified,
    w.resolve? name = some qualified ↔
      t.resolve? name = some qualified ∨ u.resolve? name = some qualified
  comm : ∀ w, t.merge u = .ok w ↔ u.merge t = .ok w
  self : t.merge t = .ok t
  merge_empty : t.merge {} = .ok t
  empty_merge : ({} : Table).merge t = .ok t
  assoc : ∀ w, (t.merge u >>= fun tu => tu.merge v) = .ok w ↔
    (u.merge v >>= fun uv => t.merge uv) = .ok w

/-- Merging is a partial commutative and idempotent monoid on the tables that are built. -/
theorem mergeLaws (ht : t.Built) (hu : u.Built) (hv : v.Built) : MergeLaws t u v where
  isOk_iff := ht.ordered.isOk_merge_iff hu.ordered
  error_iff _ := ht.ordered.merge_eq_error_iff hu.ordered
  resolve?_iff w hw name qualified := by
    obtain ⟨-, how, hmem⟩ := (ht.ordered.merge_eq_ok_iff hu.ordered).1 hw
    simp only [how.resolve?_eq_some_iff, ht.ordered.resolve?_eq_some_iff,
      hu.ordered.resolve?_eq_some_iff, hmem, or_and_right, exists_or]
  comm _ := ht.ordered.merge_comm hu.ordered
  self := ht.ordered.merge_self
  merge_empty := ht.ordered.merge_empty
  empty_merge := ht.ordered.empty_merge
  assoc _ := ht.ordered.merge_assoc hu.ordered hv.ordered

/-- Two tables that disagree on two names, and the built-in one.  The conflict is that on the
smaller name. -/
theorem mergeLaws_builtIn :
    let t : Table := ⟨#[⟨"a", "A"⟩, ⟨"b", "B"⟩, ⟨"c", "C"⟩]⟩
    let u : Table := ⟨#[⟨"a", "A"⟩, ⟨"b", "D"⟩, ⟨"c", "E"⟩]⟩
    t.Built ∧ u.Built ∧ builtIn.Built ∧ MergeLaws t u builtIn ∧
      t.merge u = .error ⟨"b", "B", "D"⟩ := by
  intro t u
  have ht : ofPairs [("c", "C"), ("a", "A"), ("b", "B")] = .ok t := rfl
  have hu : ofPairs [("b", "D"), ("a", "A"), ("c", "E")] = .ok u := rfl
  exact ⟨.ofPairs ht, .ofPairs hu, .builtIn, mergeLaws (.ofPairs ht) (.ofPairs hu) .builtIn, rfl⟩

end PinnedHeap.Symbol.Table
