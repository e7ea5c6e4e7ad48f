import PinnedHeap.Proofs.Manifest.Reader
import PinnedHeap.Proofs.Symbol.Extension

/-!
# Manifests and lists of pairs

A manifest and the list of its members are two sources of a table, and they are not treated alike.
The members of a manifest are put into a map first, where the last member of a key replaces those
before it.  Then the pairs of the map are read as any list of pairs is.  No two of these disagree,
so reading them never meets a conflict (`ofPairs_toList`), and every text that is an object of texts
gives a table.

So a manifest gives the table of its members as long as no key has two values.  If one has, then
the list of the members is a conflict.  The manifest is accepted, with a table that lacks one of the
two pairs (`exists_compared`).
-/

namespace PinnedHeap.Symbol.Table

open Manifest (ObjectText)

variable {members : List Manifest.Member} {key value value' : String} {t : Table}

theorem Assigns.mem (h : Assigns members key value) : (key, value) ∈ members := by
  obtain ⟨before, after, rfl, -⟩ := h
  exact List.mem_append_right _ List.mem_cons_self

theorem Assigns.unique (h : Assigns members key value) (h' : Assigns members key value') :
    value = value' := by
  rw [← getElem?_namesOf] at h h'
  rw [h] at h'
  exact Option.some.inj h'

/-- If no key has two values, then each member has the last one. -/
theorem Consistent.assigns_iff (hc : Consistent members) :
    Assigns members key value ↔ (key, value) ∈ members := by
  constructor
  · exact Assigns.mem
  · intro hmem
    obtain ⟨last, hlast⟩ := exists_assigns_iff.2 (List.mem_map_of_mem hmem)
    rwa [hc key value last hmem hlast.mem]

/-- How the table of a manifest compares with the list of its members. -/
structure Compared (members : List Manifest.Member) (t : Table) : Prop where
  ordered : t.Ordered
  /-- The table has the last value of each key. -/
  mem_iff : ∀ key value, (key, value) ∈ t.toPairs ↔ Assigns members key value
  /-- It is made of the pairs of a map. -/
  ofPairs_map : ofPairs (namesOf members).toList = .ok t
  /-- The list of members gives the same table exactly if no key has two values. -/
  ofPairs_iff : ofPairs members = .ok t ↔ Consistent members
  /-- Otherwise the list of members is a conflict, and the table lacks one of its two pairs. -/
  drops : ¬ Consistent members → ∃ c dropped, ofPairs members = .error c ∧
    (dropped = c.first ∨ dropped = c.second) ∧ (c.raw, dropped) ∈ members ∧
      (c.raw, dropped) ∉ t.toPairs

theorem compared_of_mem_iff (ho : t.Ordered) (hmap : ofPairs (namesOf members).toList = .ok t)
    (hmem : ∀ key value, (key, value) ∈ t.toPairs ↔ Assigns members key value) :
    Compared members t where
  ordered := ho
  mem_iff := hmem
  ofPairs_map := hmap
  ofPairs_iff := by
    constructor
    · exact consistent_of_ofPairs
    · intro hc
      refine ofPairs_eq_ok_iff.2 ⟨hc, ho, fun (key, value) => ?_⟩
      rw [hmem, hc.assigns_iff]
  drops := by
    intro hnot
    obtain ⟨c, hf⟩ := (consistent_or_firstConflict members).resolve_left hnot
    have herror := ofPairs_of_firstConflict hf
    obtain ⟨before, after, rfl, -, hfirst, hne⟩ := hf
    by_cases hkept : (c.raw, c.first) ∈ t.toPairs
    · refine ⟨c, c.second, herror, .inr rfl, by simp, fun hsecond => hne ?_⟩
      exact ((hmem _ _).1 hkept).unique ((hmem _ _).1 hsecond)
    · exact ⟨c, c.first, herror, .inl rfl, List.mem_append_left _ hfirst, hkept⟩

/-- Every object of texts is accepted as a manifest, also where its members are a conflict. -/
theorem exists_compared {text : String} (htext : ObjectText members text.toList) :
    ∃ t, ofManifest text = .ok t ∧ Compared members t := by
  have hmembers := Manifest.members_eq_ok_iff.2 htext
  have hmap := ofPairs_toList (namesOf members)
  have hresult := ofManifest_eq_ok_iff.2 ⟨members, hmembers, hmap⟩
  refine ⟨_, hresult, compared_of_mem_iff (ordered_ofNames _) hmap ?_⟩
  intro key value
  rw [mem_toPairs_ofNames, getElem?_namesOf]

/-- A manifest whose second key is an escaped form of the first one. -/
theorem exists_compared_escaped :
    let text := "\x7b\"f\": \"a\", \"\\u0066\": \"b\"\x7d"
    let members : List Manifest.Member := [("f", "a"), ("f", "b")]
    ObjectText members text.toList ∧ ∃ t, ofManifest text = .ok t ∧ Compared members t := by
  intro text members
  have htext : ObjectText members text.toList :=
    Manifest.members_eq_ok_iff.1 (by decide +kernel)
  exact ⟨htext, exists_compared htext⟩

/-- The pairs of a manifest are a conflict, but the manifest is accepted with one of them. -/
theorem ofManifest_conflicting :
    let text := "\x7b\"f\":\"a\",\"f\":\"b\"\x7d"
    let members : List Manifest.Member := [("f", "a"), ("f", "b")]
    ObjectText members text.toList ∧ ofPairs members = .error ⟨"f", "a", "b"⟩ ∧
      ofManifest text = .ok ⟨#[⟨"f", "b"⟩]⟩ := by
  intro text members
  have hmembers : Manifest.members text = .ok members := by decide +kernel
  have hpairs : ofPairs members = .error ⟨"f", "a", "b"⟩ := by decide +kernel
  have htable : ofManifest text = .ok ⟨#[⟨"f", "b"⟩]⟩ := by decide +kernel
  exact ⟨Manifest.members_eq_ok_iff.1 hmembers, hpairs, htable⟩

end PinnedHeap.Symbol.Table
