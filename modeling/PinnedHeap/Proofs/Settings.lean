import Mathlib.Algebra.Group.Nat.Defs
import Mathlib.Data.List.Forall2
import PinnedHeap.Proofs.Text.Blank
import PinnedHeap.Proofs.Text.Numeral
import PinnedHeap.Settings

/-!
# The values that are understood

Two of the variables can be set to something that is not understood.  For each of them a relation
says what a value means, in terms of the text without the white space at its ends: the name of a
collector in any case of its letters (`NamesCollector`), or an unsigned numeral that fits a machine
word (`GivesThreshold`).  Both variables are read in the same way (`Reads`).  What is not set has
its default, and what is set to something without a meaning is a fault that shows the whole value.

So the settings exist exactly if each of the two is unset or has a meaning, they are what the
variables mean, and otherwise the fault is that of the first bad value (`understood`).  The other
two variables never have a fault.
-/

namespace PinnedHeap.Settings

open Text (Trims whiteSpace)
open Text.Numeral (IsDecimal IsUnsigned digitChar_digitValue isDecimal_iff isDecimal_zeros_append)

/-! ## Letters in lower case -/

/-- The capital letters of ASCII, each with its small letter. -/
def letters : List (Char × Char) :=
  [('A', 'a'), ('B', 'b'), ('C', 'c'), ('D', 'd'), ('E', 'e'), ('F', 'f'), ('G', 'g'), ('H', 'h'),
    ('I', 'i'), ('J', 'j'), ('K', 'k'), ('L', 'l'), ('M', 'm'), ('N', 'n'), ('O', 'o'), ('P', 'p'),
    ('Q', 'q'), ('R', 'r'), ('S', 's'), ('T', 't'), ('U', 'u'), ('V', 'v'), ('W', 'w'), ('X', 'x'),
    ('Y', 'y'), ('Z', 'z')]

/-- A character in lower case.  Only the capital letters of ASCII have another one. -/
inductive Lowers : Char → Char → Prop
  | capital {c d : Char} (h : (c, d) ∈ letters) : Lowers c d
  | other {c : Char} (h : ∀ d, (c, d) ∉ letters) : Lowers c c

theorem mem_letters_iff {c d : Char} :
    (c, d) ∈ letters ↔ ('A' ≤ c ∧ c ≤ 'Z') ∧ d = Char.ofNat (c.toNat + 32) := by
  constructor
  · intro h
    have hall : ∀ p ∈ letters, ('A' ≤ p.1 ∧ p.1 ≤ 'Z') ∧ p.2 = Char.ofNat (p.1.toNat + 32) := by
      decide
    exact hall _ h
  · rintro ⟨⟨hlo, hhi⟩, rfl⟩
    have hall : ∀ n < 91, 65 ≤ n → (Char.ofNat n, Char.ofNat (n + 32)) ∈ letters := by decide
    have hmem := hall c.toNat (Nat.lt_succ_of_le hhi) hlo
    rwa [Char.ofNat_toNat] at hmem

theorem lowerAscii_eq_iff {c d : Char} : lowerAscii c = d ↔ Lowers c d := by
  by_cases hc : 'A' ≤ c ∧ c ≤ 'Z'
  · have hmem (d : Char) : (c, d) ∈ letters ↔ d = Char.ofNat (c.toNat + 32) := by
      rw [mem_letters_iff, and_iff_right hc]
    rw [lowerAscii, if_pos hc]
    constructor
    · exact fun h => .capital ((hmem d).2 h.symm)
    · intro h
      cases h with
      | capital h => exact ((hmem d).1 h).symm
      | other h => exact absurd ((hmem _).2 rfl) (h _)
  · have hnot (d : Char) : (c, d) ∉ letters := fun h => hc (mem_letters_iff.1 h).1
    rw [lowerAscii, if_neg hc]
    constructor
    · rintro rfl
      exact .other hnot
    · intro h
      cases h with
      | capital h => exact absurd h (hnot d)
      | other => rfl

theorem map_lowerAscii_eq_iff {cs ds : List Char} :
    cs.map lowerAscii = ds ↔ List.Forall₂ Lowers cs ds := by
  have hlowers : Lowers = fun c d => lowerAscii c = d := by
    funext c d
    exact propext lowerAscii_eq_iff.symm
  rw [hlowers, ← List.forall₂_eq_eq_eq, List.forall₂_map_left_iff]

/-! ## Meanings -/

/-- The names of the collectors. -/
inductive CollectorName : String → Heap.Mode → Prop
  | markSweep : CollectorName "marksweep" .markSweep
  | hyphenated : CollectorName "mark-sweep" .markSweep
  | none : CollectorName "none" .disabled
  | disabled : CollectorName "disabled" .disabled

/-- A value names a collector, in letters of any case and with any white space around it. -/
inductive NamesCollector (value : String) (mode : Heap.Mode) : Prop
  | intro {core : List Char} {name : String} (htrim : Trims value.toList core)
      (hlower : List.Forall₂ Lowers core name.toList) (hname : CollectorName name mode)

/-- A value gives a threshold, with any white space around it. -/
inductive GivesThreshold (value : String) (n : Nat) : Prop
  | intro {core : List Char} (htrim : Trims value.toList core) (hnumeral : IsUnsigned core n)
      (hlt : n < 2 ^ 64)

theorem lookup_collectorNames_iff {name : String} {mode : Heap.Mode} :
    collectorNames.lookup name = some mode ↔ CollectorName name mode := by
  constructor
  · intro h
    obtain ⟨before, after, hsplit, -⟩ := List.lookup_eq_some_iff.1 h
    have hmem : (name, mode) ∈ collectorNames := by simp [hsplit]
    simp only [collectorNames, List.mem_cons, Prod.mk.injEq, List.not_mem_nil, or_false] at hmem
    rcases hmem with ⟨rfl, rfl⟩ | ⟨rfl, rfl⟩ | ⟨rfl, rfl⟩ | ⟨rfl, rfl⟩
    · exact .markSweep
    · exact .hyphenated
    · exact .none
    · exact .disabled
  · intro h
    cases h <;> rfl

theorem collector?_eq_some_iff {value : String} {mode : Heap.Mode} :
    collector? value = some mode ↔ NamesCollector value mode := by
  rw [collector?, lookup_collectorNames_iff]
  constructor
  · intro h
    refine .intro (Text.trim_eq_iff.1 rfl) (map_lowerAscii_eq_iff.1 ?_) h
    rw [String.toList_ofList]
  · rintro ⟨htrim, hlower, hname⟩
    rw [Text.trim_eq_iff.2 htrim, map_lowerAscii_eq_iff.2 hlower, String.ofList_toList]
    exact hname

theorem threshold?_eq_some_iff {value : String} {n : Nat} :
    threshold? value = some n ↔ GivesThreshold value n := by
  rw [threshold?, Text.Numeral.unsigned?_eq_some_iff]
  constructor
  · rintro ⟨hnumeral, hlt⟩
    exact .intro (Text.trim_eq_iff.1 rfl) hnumeral hlt
  · rintro ⟨htrim, hnumeral, hlt⟩
    rw [Text.trim_eq_iff.2 htrim]
    exact ⟨hnumeral, hlt⟩

/-! ## Variables -/

/-- What is chosen by a variable: what its value means, or the default if it is not set. -/
inductive Chosen {β : Type} (default : β) (Means : String → β → Prop) : Option String → β → Prop
  | unset : Chosen default Means none default
  | set {value : String} {b : β} (h : Means value b) : Chosen default Means (some value) b

/-- How a variable is read: what it chooses, or the fault of a value that means nothing. -/
structure Reads {β : Type} (read : Option String → Except Error β) (default : β)
    (Means : String → β → Prop) (fault : String → Error) : Prop where
  ok_iff : ∀ given b, read given = .ok b ↔ Chosen default Means given b
  error_iff : ∀ given e, read given = .error e ↔
    ∃ value, given = some value ∧ (∀ b, ¬ Means value b) ∧ e = fault value

section Reads

variable {β : Type} {read : Option String → Except Error β} {default : β}
  {meaning? : String → Option β} {Means : String → β → Prop} {fault : String → Error}

theorem reads_of_meaning? (hunset : read none = .ok default)
    (hgood : ∀ {value b}, meaning? value = some b → read (some value) = .ok b)
    (hbad : ∀ {value}, meaning? value = none → read (some value) = .error (fault value))
    (hmeaning : ∀ {value b}, meaning? value = some b ↔ Means value b) :
    Reads read default Means fault where
  ok_iff := by
    intro given b
    cases given with
    | none =>
      rw [hunset]
      constructor
      · rintro ⟨⟩
        exact .unset
      · rintro ⟨⟩
        rfl
    | some value =>
      constructor
      · intro h
        cases hvalue : meaning? value with
        | none => exact nomatch h.symm.trans (hbad hvalue)
        | some b' =>
          obtain rfl := Except.ok.inj (h.symm.trans (hgood hvalue))
          exact .set (hmeaning.1 hvalue)
      · intro h
        cases h with
        | set h => exact hgood (hmeaning.2 h)
  error_iff := by
    intro given e
    cases given with
    | none => simp [hunset]
    | some value =>
      constructor
      · intro h
        cases hvalue : meaning? value with
        | some b => exact nomatch h.symm.trans (hgood hvalue)
        | none =>
          refine ⟨value, rfl, fun b hb => ?_, Except.error.inj (h.symm.trans (hbad hvalue))⟩
          exact nomatch hvalue.symm.trans (hmeaning.2 hb)
      · rintro ⟨value', hvalue', hnone, rfl⟩
        obtain rfl := Option.some.inj hvalue'
        exact hbad (Option.eq_none_iff_forall_ne_some.2 fun b hb => hnone b (hmeaning.1 hb))

end Reads

theorem reads_collector :
    Reads readCollector .markSweep NamesCollector (.unknownCollector "TSCL_GC") := by
  refine reads_of_meaning? rfl ?_ ?_ collector?_eq_some_iff
  · intro value mode h
    rw [readCollector, h]
  · intro value h
    rw [readCollector, h]
    rfl

theorem reads_threshold :
    Reads readThreshold 786432 GivesThreshold (.invalidNumber "TSCL_GC_THRESHOLD") := by
  refine reads_of_meaning? rfl ?_ ?_ threshold?_eq_some_iff
  · intro value n h
    rw [readThreshold, h]
  · intro value h
    rw [readThreshold, h]
    rfl

/-! ## Settings -/

/-- The settings for a heap, with the variables that are never at fault. -/
def chosen (lookup : String → Option String) (heap : Heap.Config) : Settings where
  heap := heap
  stackTrace := (lookup noStackVariable).isNone
  symbolManifest := (lookup manifestVariable).filter (· ≠ "")

section Variables

variable {lookup : String → Option String}

/-- The two readers run one after the other, and the first fault ends the reading. -/
theorem ofVariables_eq (lookup : String → Option String) : ofVariables lookup =
    (readCollector (lookup collectorVariable)).bind fun mode =>
      (readThreshold (lookup thresholdVariable)).bind fun threshold =>
        .ok (chosen lookup { mode, threshold }) := rfl

theorem ofVariables_eq_ok_iff {s : Settings} : ofVariables lookup = .ok s ↔
    ∃ mode threshold, readCollector (lookup collectorVariable) = .ok mode ∧
      readThreshold (lookup thresholdVariable) = .ok threshold ∧
      s = chosen lookup { mode, threshold } := by
  rw [ofVariables_eq]
  cases readCollector (lookup collectorVariable) with
  | error e => simp [Except.bind]
  | ok mode =>
    cases readThreshold (lookup thresholdVariable) with
    | error e => simp [Except.bind]
    | ok threshold => simp [Except.bind, eq_comm]

theorem ofVariables_eq_error_iff {e : Error} : ofVariables lookup = .error e ↔
    readCollector (lookup collectorVariable) = .error e ∨
      (∃ mode, readCollector (lookup collectorVariable) = .ok mode) ∧
        readThreshold (lookup thresholdVariable) = .error e := by
  rw [ofVariables_eq]
  cases readCollector (lookup collectorVariable) with
  | error e' => simp [Except.bind]
  | ok mode =>
    cases readThreshold (lookup thresholdVariable) with
    | error e' => simp [Except.bind]
    | ok threshold => simp [Except.bind]

/-- The collector that the variables choose. -/
def ChoosesCollector (lookup : String → Option String) : Heap.Mode → Prop :=
  Chosen .markSweep NamesCollector (lookup "TSCL_GC")

/-- The threshold that the variables choose. -/
def ChoosesThreshold (lookup : String → Option String) : Nat → Prop :=
  Chosen 786432 GivesThreshold (lookup "TSCL_GC_THRESHOLD")

/-- The settings are what the variables say. -/
structure Described (lookup : String → Option String) (s : Settings) : Prop where
  mode : ChoosesCollector lookup s.heap.mode
  threshold : ChoosesThreshold lookup s.heap.threshold
  /-- Any value of the variable turns the report of a crash off. -/
  stackTrace_iff : s.stackTrace = false ↔ ∃ value, lookup "TSCL_NO_STACK" = some value
  /-- The path of a manifest is the value as it is given, unless that is empty. -/
  symbolManifest_iff : ∀ path, s.symbolManifest = some path ↔
    lookup "TSCL_SYMBOL_MANIFEST" = some path ∧ path ≠ ""
  /-- No variable says how many slots to reserve. -/
  initialSlots_eq : s.heap.initialSlots = 1024
  /-- No variable keeps the handlers from being installed. -/
  installHandlers_eq : s.installHandlers = true

theorem described_chosen {mode : Heap.Mode} {threshold : Nat} (hmode : ChoosesCollector lookup mode)
    (hthreshold : ChoosesThreshold lookup threshold) :
    Described lookup (chosen lookup { mode, threshold }) where
  mode := hmode
  threshold := hthreshold
  stackTrace_iff := by
    rw [chosen, ← Option.isSome_iff_exists, Option.isNone_eq_false_iff]
    rfl
  symbolManifest_iff := by
    intro path
    rw [chosen, Option.filter_eq_some_iff, decide_eq_true_iff]
    rfl
  initialSlots_eq := rfl
  installHandlers_eq := rfl

/-- The settings are determined by what the variables say. -/
theorem Described.eq_chosen {s : Settings} (h : Described lookup s) :
    s = chosen lookup { mode := s.heap.mode, threshold := s.heap.threshold } := by
  have hchosen := described_chosen h.mode h.threshold
  have hstack : s.stackTrace = (chosen lookup s.heap).stackTrace := by
    have hiff := h.stackTrace_iff.trans hchosen.stackTrace_iff.symm
    rwa [← Bool.not_eq_true, ← Bool.not_eq_true, not_iff_not, ← Bool.eq_iff_iff] at hiff
  have hmanifest : s.symbolManifest = (chosen lookup s.heap).symbolManifest :=
    Option.ext fun path =>
      (h.symbolManifest_iff path).trans (hchosen.symbolManifest_iff path).symm
  obtain ⟨⟨threshold, initialSlots, mode, reservable⟩, stackTrace, installHandlers, manifest⟩ := s
  obtain rfl : initialSlots = 1024 := h.initialSlots_eq
  obtain rfl : installHandlers = true := h.installHandlers_eq
  simp only at hstack hmanifest
  rw [hstack, hmanifest]
  rfl

theorem ofVariables_eq_ok_iff_described {s : Settings} :
    ofVariables lookup = .ok s ↔ Described lookup s := by
  rw [ofVariables_eq_ok_iff]
  constructor
  · rintro ⟨mode, threshold, hmode, hthreshold, rfl⟩
    exact described_chosen ((reads_collector.ok_iff _ _).1 hmode)
      ((reads_threshold.ok_iff _ _).1 hthreshold)
  · intro h
    exact ⟨_, _, (reads_collector.ok_iff _ _).2 h.mode, (reads_threshold.ok_iff _ _).2 h.threshold,
      h.eq_chosen⟩

/-- A number written out: perhaps with a plus sign, with leading zeros, and with white space around
it. -/
inductive Writes (n : Nat) (value : String) : Prop
  | intro {before sign after : List Char} {zeros : Nat}
      (hvalue : value.toList =
        before ++ (sign ++ (List.replicate zeros '0' ++ Nat.toDigits 10 n)) ++ after)
      (hbefore : ∀ c ∈ before, c ∈ whiteSpace) (hafter : ∀ c ∈ after, c ∈ whiteSpace)
      (hsign : sign = [] ∨ sign = ['+'])

theorem isBlank_of_isDecimal {cs : List Char} {n : Nat} (h : IsDecimal cs n) {c : Char}
    (hc : c ∈ cs) : Text.isBlank c = false := by
  have hall : ∀ d < 10, Text.isBlank (Nat.digitChar d) = false := by decide
  obtain ⟨hlt, hchar⟩ := digitChar_digitValue ((isDecimal_iff.1 h).2.1 c hc)
  rw [← hchar]
  exact hall _ hlt

/-- Neither digits nor a plus sign are white space. -/
theorem not_mem_whiteSpace_of_isUnsigned {cs : List Char} {n : Nat} (h : IsUnsigned cs n) {c : Char}
    (hc : c ∈ cs) : c ∉ whiteSpace := by
  rw [← Text.isBlank_eq_false_iff]
  cases h with
  | bare h => exact isBlank_of_isDecimal h hc
  | plus h =>
    rcases List.mem_cons.1 hc with rfl | hc
    · rfl
    · exact isBlank_of_isDecimal h hc

theorem Writes.givesThreshold {n : Nat} {value : String} (h : Writes n value) (hn : n < 2 ^ 64) :
    GivesThreshold value n := by
  cases h with
  | @intro before sign after zeros hvalue hbefore hafter hsign =>
    have hdecimal := isDecimal_zeros_append zeros n
    have hnumeral : IsUnsigned (sign ++ (List.replicate zeros '0' ++ Nat.toDigits 10 n)) n := by
      rcases hsign with rfl | rfl
      · exact .bare hdecimal
      · exact .plus hdecimal
    have hnot {c : Char} := not_mem_whiteSpace_of_isUnsigned hnumeral (c := c)
    refine .intro ⟨⟨before, after, hvalue, hbefore, hafter⟩, fun c hc => ?_, fun c hc => ?_⟩
      hnumeral hn
    · exact hnot (List.mem_of_mem_head? hc)
    · exact hnot (List.mem_of_getLast? hc)

/-- What the variables have to say for there to be settings, and what is at fault otherwise. -/
structure Understood (lookup : String → Option String) : Prop where
  /-- The settings are those that the variables describe. -/
  ok_iff : ∀ s, ofVariables lookup = .ok s ↔ Described lookup s
  /-- There are some exactly if a collector and a threshold are chosen. -/
  isOk_iff : (∃ s, ofVariables lookup = .ok s) ↔
    (∃ mode, ChoosesCollector lookup mode) ∧ ∃ threshold, ChoosesThreshold lookup threshold
  /-- A fault shows the value as it is given, and the collector comes first. -/
  error_iff : ∀ e, ofVariables lookup = .error e ↔
    (∃ value, lookup "TSCL_GC" = some value ∧ (∀ mode, ¬ NamesCollector value mode) ∧
      e = .unknownCollector "TSCL_GC" value) ∨
    ((∃ mode, ChoosesCollector lookup mode) ∧
      ∃ value, lookup "TSCL_GC_THRESHOLD" = some value ∧ (∀ n, ¬ GivesThreshold value n) ∧
        e = .invalidNumber "TSCL_GC_THRESHOLD" value)
  /-- Every number that fits a machine word is read back, in whatever way it is written. -/
  readBack : ∀ n value, n < 2 ^ 64 → Writes n value →
    lookup "TSCL_GC_THRESHOLD" = some value → (∃ mode, ChoosesCollector lookup mode) →
    ∃ s, ofVariables lookup = .ok s ∧ s.heap.threshold = n

/-- Variables that are unset or have a meaning give the settings that they describe, and any others
are at fault. -/
theorem understood (lookup : String → Option String) : Understood lookup where
  ok_iff := fun _ => ofVariables_eq_ok_iff_described
  isOk_iff := by
    constructor
    · rintro ⟨s, hs⟩
      have hdescribed := ofVariables_eq_ok_iff_described.1 hs
      exact ⟨⟨_, hdescribed.mode⟩, _, hdescribed.threshold⟩
    · rintro ⟨⟨mode, hmode⟩, threshold, hthreshold⟩
      exact ⟨_, ofVariables_eq_ok_iff_described.2 (described_chosen hmode hthreshold)⟩
  error_iff := by
    intro e
    rw [ofVariables_eq_error_iff, reads_collector.error_iff, reads_threshold.error_iff]
    refine or_congr Iff.rfl (and_congr_left fun _ => exists_congr fun mode => ?_)
    exact reads_collector.ok_iff _ mode
  readBack := by
    intro n value hn hwrites hvalue ⟨mode, hmode⟩
    have hthreshold : ChoosesThreshold lookup n := by
      rw [ChoosesThreshold, hvalue]
      exact .set (hwrites.givesThreshold hn)
    exact ⟨_, ofVariables_eq_ok_iff_described.2 (described_chosen hmode hthreshold), rfl⟩

end Variables

example : ofVariables (List.lookup · [("TSCL_GC", "\u3000Disabled\n"),
      ("TSCL_GC_THRESHOLD", " +007 ")]) =
    .ok { heap := { mode := .disabled, threshold := 7 } } := by cbv

end PinnedHeap.Settings
