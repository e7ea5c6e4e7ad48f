import Mathlib.Data.List.Dedup
import PinnedHeap.Proofs.Symbol.Merge

/-!
# Loading a manifest

A manifest extends the built-in table.  Its members become a table in which each key has the value
given last (`exists_ofManifest`), and that table is merged with the built-in one.  So the manifest
can add names, and repeat names that are built in, but not change them: a member that tries is a
conflict, and the table is not loaded.

How the text is read is not looked into.  All that counts is that it has members, in some order.
-/

namespace PinnedHeap.Symbol.Table

variable {members : List Manifest.Member} {key value : String} {t u w : Table}

/-! ## The members of a manifest -/

/-- The value of a key is the one that the last member with this key has. -/
def Assigns (members : List Manifest.Member) (key value : String) : Prop :=
  ∃ before after, members = before ++ (key, value) :: after ∧ ∀ m ∈ after, m.1 ≠ key

theorem assigns_cons_iff {m : Manifest.Member} :
    Assigns (m :: members) key value ↔
      Assigns members key value ∨ m = (key, value) ∧ ∀ m' ∈ members, m'.1 ≠ key := by
  constructor
  · intro ⟨before, after, hsplit, hafter⟩
    cases before with
    | nil =>
      cases hsplit
      exact Or.inr ⟨rfl, hafter⟩
    | cons m' before =>
      cases hsplit
      exact Or.inl ⟨before, after, rfl, hafter⟩
  · intro hassigns
    cases hassigns with
    | inl hlater =>
      obtain ⟨before, after, rfl, hafter⟩ := hlater
      exact ⟨m :: before, after, rfl, hafter⟩
    | inr hhere =>
      obtain ⟨rfl, hafter⟩ := hhere
      exact ⟨[], members, rfl, hafter⟩

/-- Reading members changes a name to the last value that they give its key. -/
theorem getElem?_foldl_insert (names : Names) :
    (members.foldl (fun names m => names.insert m.1 m.2) names)[key]? = some value ↔
      Assigns members key value ∨ (∀ m ∈ members, m.1 ≠ key) ∧ names[key]? = some value := by
  induction members generalizing names with
  | nil => simp [Assigns]
  | cons m rest ih =>
    rw [List.foldl_cons, ih, assigns_cons_iff, Std.TreeMap.getElem?_insert, List.forall_mem_cons]
    by_cases hkey : m.1 = key
    · subst hkey
      obtain ⟨raw, qualified⟩ := m
      simp [Std.ReflCmp.compare_self, and_comm]
    · have hne : byteOrder m.1 key ≠ .eq := fun heq => hkey (Std.LawfulEqCmp.eq_of_compare heq)
      have hother : m ≠ (key, value) := fun heq => hkey (congrArg Prod.fst heq)
      simp [hkey, hne, hother]

theorem getElem?_namesOf : (namesOf members)[key]? = some value ↔ Assigns members key value := by
  rw [namesOf, getElem?_foldl_insert]
  simp

/-- The keys that have a value are those of the members. -/
theorem exists_assigns_iff : (∃ value, Assigns members key value) ↔ key ∈ members.map Prod.fst := by
  induction members with
  | nil => simp [Assigns]
  | cons m rest ih =>
    simp only [assigns_cons_iff, exists_or, ih, List.map_cons, List.mem_cons]
    constructor
    · intro hvalue
      cases hvalue with
      | inl hlater => exact Or.inr hlater
      | inr hhere =>
        obtain ⟨value, rfl, -⟩ := hhere
        exact Or.inl rfl
    · intro hkey
      by_cases hlater : key ∈ rest.map Prod.fst
      · exact Or.inl hlater
      · obtain rfl := hkey.resolve_right hlater
        refine Or.inr ⟨m.2, rfl, fun m' hm' heq => hlater ?_⟩
        exact heq ▸ List.mem_map_of_mem hm'

/-- The pairs of a map do not disagree. -/
theorem ofPairs_toList (names : Names) : ofPairs names.toList = .ok (ofNames names) := by
  have hmem (raw qualified : String) :
      (raw, qualified) ∈ names.toList ↔ names[raw]? = some qualified :=
    Std.TreeMap.mem_toList_iff_getElem?_eq_some
  refine ofPairs_eq_ok_iff.2 ⟨?_, ordered_ofNames names, ?_⟩
  · intro raw first second hfirst hsecond
    rw [hmem] at hfirst hsecond
    rw [hfirst] at hsecond
    exact Option.some.inj hsecond
  · intro (raw, qualified)
    rw [mem_toPairs_ofNames, hmem]

/-- The table of a manifest gives each key its value. -/
theorem exists_ofManifest {text : String} (hmembers : Manifest.members text = .ok members) :
    ∃ extra, Table.ofManifest text = .ok extra ∧ extra.Ordered ∧
      ∀ key value, (key, value) ∈ extra.toPairs ↔ Assigns members key value := by
  have hresult := ofManifest_eq_ok_iff.2 ⟨members, hmembers, ofPairs_toList (namesOf members)⟩
  refine ⟨ofNames (namesOf members), hresult, ordered_ofNames _, ?_⟩
  intro key value
  rw [mem_toPairs_ofNames, getElem?_namesOf]

/-! ## The number of entries -/

/-- The raw names of a table. -/
def rawNames (t : Table) : List String := t.toPairs.map Prod.fst

theorem mem_rawNames_iff {raw : String} :
    raw ∈ t.rawNames ↔ ∃ qualified, (raw, qualified) ∈ t.toPairs := by
  simp [rawNames]

theorem length_rawNames (t : Table) : t.rawNames.length = t.size := by
  simp [rawNames, toPairs, size]

theorem Ordered.nodup_rawNames (ht : t.Ordered) : t.rawNames.Nodup := by
  refine List.pairwise_map.2 (ht.pairwise_toPairs.imp ?_)
  intro a b hlt heq
  have hself : byteOrder b.1 b.1 = .eq := Std.ReflCmp.compare_self
  rw [heq, hself] at hlt
  exact nomatch hlt

/-- The raw names that some keys add to a table, each one once. -/
def newNames (t : Table) (keys : List String) : List String :=
  keys.dedup.filter (· ∉ t.rawNames)

/-- The entries of a merged table are those of the first one and the new ones. -/
theorem size_eq_of_union {keys : List String} (hw : w.Ordered) (ht : t.Ordered)
    (hmem : ∀ raw, raw ∈ w.rawNames ↔ raw ∈ t.rawNames ∨ raw ∈ keys) :
    w.size = t.size + (t.newNames keys).length := by
  have hnodup : (t.rawNames ++ t.newNames keys).Nodup := by
    refine List.nodup_append.2 ⟨ht.nodup_rawNames, (List.nodup_dedup keys).filter _, ?_⟩
    intro raw hraw new hnew heq
    rw [newNames, List.mem_filter, decide_eq_true_iff, ← heq] at hnew
    exact hnew.2 hraw
  have hperm : w.rawNames.Perm (t.rawNames ++ t.newNames keys) := by
    refine (List.perm_ext_iff_of_nodup hw.nodup_rawNames hnodup).2 fun raw => ?_
    simp only [hmem, newNames, List.mem_append, List.mem_filter, List.mem_dedup,
      decide_eq_true_iff]
    by_cases hraw : raw ∈ t.rawNames <;> simp [hraw]
  rw [← length_rawNames, hperm.length_eq, List.length_append, length_rawNames]

/-! ## Loading -/

/-- A member gives a raw name of the built-in table a different qualified name. -/
def Contradicts (members : List Manifest.Member) : Prop :=
  ∃ raw qualified given, (raw, qualified) ∈ builtIn.toPairs ∧ Assigns members raw given ∧
    qualified ≠ given

/-- A table consists of the built-in one and the members of a manifest. -/
structure Extends (members : List Manifest.Member) (t : Table) : Prop where
  ordered : t.Ordered
  /-- A name that is built in is resolved as it was. -/
  resolve?_builtIn : ∀ raw qualified, (raw, qualified) ∈ builtIn.toPairs →
    t.resolve? (Text.bytes raw) = some qualified
  /-- A key of the manifest is resolved to its value. -/
  resolve?_manifest : ∀ key value, Assigns members key value →
    t.resolve? (Text.bytes key) = some value
  /-- Every other sequence of bytes is resolved to nothing. -/
  resolve?_other : ∀ name, (∀ p ∈ builtIn.toPairs, Text.bytes p.1 ≠ name) →
    (∀ m ∈ members, Text.bytes m.1 ≠ name) → t.resolve? name = none
  /-- Each key that is not built in adds one entry. -/
  size_eq : t.size = builtIn.size + (builtIn.newNames (members.map Prod.fst)).length

/-- What loading a table gives, if the manifest has these members. -/
structure Loaded (members : List Manifest.Member) (result : Except LoadError Table) : Prop where
  /-- There is a conflict exactly if a member contradicts the built-in table. -/
  conflict_iff : (∃ c, result = .error (.conflict c)) ↔ Contradicts members
  /-- Otherwise the table is loaded. -/
  extends_of_not : ¬ Contradicts members → ∃ t, result = .ok t ∧ Extends members t

section Merged

variable {extra : Table}

theorem not_contradicts_iff
    (hextra : ∀ key value, (key, value) ∈ extra.toPairs ↔ Assigns members key value) :
    ¬ Contradicts members ↔ builtIn.Compatible extra := by
  constructor
  · intro hnot raw qualified given hbuiltIn hgiven
    by_contra hdiffer
    exact hnot ⟨raw, qualified, given, hbuiltIn, (hextra _ _).1 hgiven, hdiffer⟩
  · intro hc ⟨raw, qualified, given, hbuiltIn, hgiven, hdiffer⟩
    exact hdiffer (hc raw qualified given hbuiltIn ((hextra _ _).2 hgiven))

theorem extends_of_merge (ho : extra.Ordered)
    (hextra : ∀ key value, (key, value) ∈ extra.toPairs ↔ Assigns members key value)
    (hmerge : builtIn.merge extra = .ok t) : Extends members t := by
  obtain ⟨-, hordered, hmem⟩ := (Built.builtIn.ordered.merge_eq_ok_iff ho).1 hmerge
  constructor
  · exact hordered
  · intro raw qualified hbuiltIn
    exact hordered.resolve?_eq_some_iff.2 ⟨raw, (hmem _).2 (Or.inl hbuiltIn), rfl⟩
  · intro key value hassigns
    exact hordered.resolve?_eq_some_iff.2
      ⟨key, (hmem _).2 (Or.inr ((hextra _ _).2 hassigns)), rfl⟩
  · intro name hbuiltIn hmembers
    refine hordered.resolve?_eq_none_iff.2 fun p hp => ?_
    cases (hmem p).1 hp with
    | inl hp => exact hbuiltIn p hp
    | inr hp =>
      obtain ⟨m, hm, hkey⟩ := List.mem_map.1 (exists_assigns_iff.1 ⟨p.2, (hextra _ _).1 hp⟩)
      exact hkey ▸ hmembers m hm
  · refine size_eq_of_union hordered Built.builtIn.ordered fun raw => ?_
    simp only [mem_rawNames_iff, hmem, hextra, exists_or, exists_assigns_iff]

end Merged

/-- The built-in table is extended by a manifest that does not contradict it. -/
theorem loaded_extend {text : String} (hmembers : Manifest.members text = .ok members) :
    Loaded members (Table.extend text) := by
  obtain ⟨extra, hofManifest, ho, hextra⟩ := exists_ofManifest hmembers
  have hresult : Table.extend text = (builtIn.merge extra).mapError LoadError.conflict := by
    rw [Table.extend, hofManifest]
    rfl
  have hnot : ¬ Contradicts members ↔ ∃ t, builtIn.merge extra = .ok t := by
    rw [not_contradicts_iff hextra, Built.builtIn.ordered.isOk_merge_iff ho]
  rw [hresult]
  constructor
  · cases hmerge : builtIn.merge extra with
    | error c =>
      have hcontradicts : Contradicts members := by
        by_contra hfree
        obtain ⟨t, ht⟩ := hnot.1 hfree
        rw [hmerge] at ht
        exact nomatch ht
      exact ⟨fun _ => hcontradicts, fun _ => ⟨c, rfl⟩⟩
    | ok t =>
      constructor
      · intro ⟨c, hc⟩
        exact nomatch hc
      · exact fun hcontradicts => absurd hcontradicts (hnot.2 ⟨t, hmerge⟩)
  · intro hfree
    obtain ⟨t, ht⟩ := hnot.1 hfree
    exact ⟨t, by rw [ht]; rfl, extends_of_merge ho hextra ht⟩

/-- Loading the table of a program whose settings name a manifest. -/
theorem loaded_of_manifest {files : FileTree} {settings : Settings} {path text : String}
    (hpath : settings.symbolManifest = some path) (htext : files.readText path = .ok text)
    (hmembers : Manifest.members text = .ok members) :
    Loaded members (Table.load files settings) := by
  have hload : Table.load files settings = Table.extend text := by
    simp only [Table.load, hpath, htext]
    rfl
  rw [hload]
  exact loaded_extend hmembers

/-- A manifest with a new key that is repeated, and with an entry that is built in. -/
theorem loaded_of_manifest_repeated :
    let text := "\x7b\"f\": \"a\", \"tscl_demo_sys_run\": \"demo::Sys::run\", \"f\": \"b\"\x7d"
    let files : FileTree := fun _ => .ok (Text.bytes text)
    let settings : Settings := { symbolManifest := some "names.json" }
    let members : List Manifest.Member :=
      [("f", "a"), ("tscl_demo_sys_run", "demo::Sys::run"), ("f", "b")]
    settings.symbolManifest = some "names.json" ∧ files.readText "names.json" = .ok text ∧
      Manifest.members text = .ok members ∧ Loaded members (Table.load files settings) := by
  intro text files settings members
  have htext : files.readText "names.json" = .ok text := by
    simp only [FileTree.readText, files, Text.ofBytes?_bytes]
  have hmembers : Manifest.members text = .ok members := by decide +kernel
  exact ⟨rfl, htext, hmembers, loaded_of_manifest rfl htext hmembers⟩

end PinnedHeap.Symbol.Table
