import Mathlib.Algebra.Group.Nat.Defs
import PinnedHeap.Symbol.Load

/-!
# Looking up a name

Every table that the operations build lists its entries in the order of the bytes of their raw
names (`Built.ordered`), whatever order the pairs came in.  In such a table the binary search
finds the entry of a name exactly if there is one (`resolve?_eq_some_iff`), so a lookup can be
read as membership in `toPairs`.

Finding needs no order: an entry that the search returns has the name.  The order is needed for
the other half.  It says on which side of the middle an entry lies, and the window that
remains still holds it.
-/

namespace PinnedHeap.Symbol.Table

/-- A table that the operations on tables build. -/
inductive Built : Table → Prop
  | builtIn : Built builtIn
  | ofPairs {pairs : List (String × String)} {t : Table} (h : ofPairs pairs = .ok t) : Built t
  | ofManifest {text : String} {t : Table} (h : ofManifest text = .ok t) : Built t
  | merge {t u v : Table} (ht : Built t) (hu : Built u) (h : t.merge u = .ok v) : Built v

/-- The entries are in the strict order of the bytes of their raw names. -/
def Ordered (t : Table) : Prop :=
  t.entries.toList.Pairwise fun a b => byteOrder a.raw b.raw = .lt

theorem ordered_ofNames (names : Names) : (ofNames names).Ordered :=
  List.pairwise_map.2 names.ordered_keys_toList

theorem ordered_of_ofPairs {pairs : List (String × String)} {t : Table}
    (h : Table.ofPairs pairs = .ok t) : t.Ordered := by
  rw [Table.ofPairs] at h
  cases hfold : pairs.foldlM addPair {} with
  | error c => rw [hfold] at h; exact nomatch h
  | ok names =>
    rw [hfold] at h
    cases h
    exact ordered_ofNames names

theorem Built.ordered {t : Table} (h : t.Built) : t.Ordered := by
  cases h with
  | builtIn => exact ordered_of_ofPairs ofPairs_builtInPairs
  | ofPairs h => exact ordered_of_ofPairs h
  | merge _ _ h => exact ordered_of_ofPairs h
  | ofManifest h =>
    obtain ⟨members, -, hpairs⟩ := ofManifest_eq_ok_iff.1 h
    exact ordered_of_ofPairs hpairs

/-! ## The search -/

/-- What the search returns is an entry of the name. -/
theorem search_sound {es : Array Entry} {name : List UInt8} {n lo hi : Nat} {e : Entry}
    (h : search es name n lo hi = some e) : e ∈ es ∧ Text.bytes e.raw = name := by
  induction n generalizing lo hi with
  | zero => exact nomatch h
  | succ n ih =>
    simp only [search] at h
    split at h
    · split at h
      · rename_i m hm
        split at h
        · exact ih h
        · rename_i hcmp
          cases h
          exact ⟨Array.mem_of_getElem? hm, Std.LawfulEqOrd.eq_of_compare hcmp⟩
        · exact ih h
      · exact nomatch h
    · exact nomatch h

/-- An entry inside the window is found in as many halvings as the window allows. -/
theorem search_complete {es : Array Entry} {n lo hi k : Nat}
    (ho : es.toList.Pairwise fun a b => byteOrder a.raw b.raw = .lt) (hwindow : hi - lo < 2 ^ n)
    (hsize : hi ≤ es.size) (hlo : lo ≤ k) (hk : k < hi) :
    search es (Text.bytes es[k].raw) n lo hi = some es[k] := by
  have hlt : ∀ i j (hi : i < es.size) (hj : j < es.size), i < j →
      compare (Text.bytes es[i].raw) (Text.bytes es[j].raw) = .lt := fun i j hi hj hij =>
    List.pairwise_iff_getElem.1 ho i j hi hj hij
  induction n generalizing lo hi with
  | zero => omega
  | succ n ih =>
    rw [Nat.pow_succ] at hwindow
    have hmid : lo + (hi - lo) / 2 < es.size := by omega
    simp only [search, if_pos (show lo < hi by omega), Array.getElem?_eq_getElem hmid]
    rcases Nat.lt_trichotomy (lo + (hi - lo) / 2) k with hright | hhere | hleft
    · simp only [hlt _ k hmid (by omega) hright]
      exact ih (by omega) hsize hright hk
    · simp only [hhere, Std.ReflOrd.compare_self]
    · simp only [Std.OrientedCmp.gt_of_lt (hlt k _ (by omega) hmid hleft)]
      exact ih (by omega) (by omega) hlo hleft

theorem Ordered.search_eq_some_iff {t : Table} (ho : t.Ordered) {name : List UInt8} {e : Entry} :
    search t.entries name (t.entries.size.log2 + 1) 0 t.entries.size = some e ↔
      e ∈ t.entries ∧ Text.bytes e.raw = name := by
  refine ⟨search_sound, fun ⟨hmem, hname⟩ => ?_⟩
  obtain ⟨k, hk, rfl⟩ := Array.mem_iff_getElem.1 hmem
  subst hname
  exact search_complete ho Nat.lt_log2_self (Nat.le_refl _) (Nat.zero_le k) hk

/-- A lookup finds the qualified name of the pair with the name, if there is one. -/
theorem Ordered.resolve?_eq_some_iff {t : Table} (ho : t.Ordered) {name : List UInt8}
    {qualified : String} :
    t.resolve? name = some qualified ↔
      ∃ raw, (raw, qualified) ∈ t.toPairs ∧ Text.bytes raw = name := by
  simp only [resolve?, Option.map_eq_some_iff, ho.search_eq_some_iff, toPairs, List.mem_map,
    Array.mem_toList_iff, Prod.mk.injEq]
  constructor
  · rintro ⟨e, ⟨hmem, hname⟩, rfl⟩
    exact ⟨e.raw, ⟨e, hmem, rfl, rfl⟩, hname⟩
  · rintro ⟨_, ⟨e, hmem, rfl, hqualified⟩, hname⟩
    exact ⟨e, ⟨hmem, hname⟩, hqualified⟩

/-- A lookup finds nothing exactly if no pair has the name. -/
theorem Ordered.resolve?_eq_none_iff {t : Table} (ho : t.Ordered) {name : List UInt8} :
    t.resolve? name = none ↔ ∀ p ∈ t.toPairs, Text.bytes p.1 ≠ name := by
  constructor
  · rintro hnone ⟨raw, qualified⟩ hmem hname
    rw [ho.resolve?_eq_some_iff.2 ⟨raw, hmem, hname⟩] at hnone
    exact nomatch hnone
  · intro hnot
    cases h : t.resolve? name with
    | none => rfl
    | some qualified =>
      obtain ⟨raw, hmem, hname⟩ := ho.resolve?_eq_some_iff.1 h
      exact absurd hname (hnot _ hmem)

end PinnedHeap.Symbol.Table
