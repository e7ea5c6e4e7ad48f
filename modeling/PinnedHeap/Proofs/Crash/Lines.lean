import Mathlib.Algebra.GroupWithZero.Nat
import PinnedHeap.Proofs.Crash.Rendering

/-!
# The lines of a trace

A trace has one record for each frame, and a record ends at a newline.  Nothing in a name is
escaped, so a name that contains a newline makes more than one line of its record, and the later
ones can be anything, even a closing line (`not_line_for_each_frame`).

How many lines there are is known all the same: each newline in a record adds one
(`Lined.length_eq`).  The lines are the records, and a reader who stops at the closing line finds
all of them, exactly if no name that is shown contains a newline in the part that is shown
(`Lined.framesRead_eq_iff`).  A record without a newline is never taken for the closing line,
since it begins with the mark.
-/

namespace PinnedHeap.Crash

variable {table : Option Symbol.Table} {f : Frame}

/-! ## Splitting -/

/-- What a split leaves between separators contains none. -/
theorem not_mem_of_mem_splitOn {a : UInt8} {l piece : List UInt8} (hpiece : piece ∈ l.splitOn a) :
    a ∉ piece := by
  induction l generalizing piece with
  | nil => simp_all
  | cons b l ih =>
    obtain ⟨first, others, hsplit⟩ := List.exists_cons_of_ne_nil (List.splitOn_ne_nil a l)
    rw [hsplit] at ih
    rw [List.splitOn_cons_eq_if_modifyHead, hsplit] at hpiece
    split at hpiece
    · cases hpiece with
      | head => exact List.not_mem_nil
      | tail _ hpiece => exact ih hpiece
    · rename_i hb
      cases hpiece with
      | head =>
        have hfirst : a ∉ first := ih List.mem_cons_self
        simpa [hfirst] using Ne.symm (by simpa using hb)
      | tail _ hpiece => exact ih (List.mem_cons_of_mem _ hpiece)

theorem length_splitOn (a : UInt8) (l : List UInt8) :
    (l.splitOn a).length = l.count a + 1 := by
  induction l with
  | nil => rfl
  | cons b l ih =>
    rw [List.splitOn_cons_eq_if_modifyHead, List.count_cons]
    split <;> simp [ih]

/-- Records that end in newlines are split one by one, and nothing is left over. -/
theorem splitOn_flatMap_ended (ls : List (List UInt8)) :
    (ls.flatMap (· ++ [Text.newline])).splitOn Text.newline =
      ls.flatMap (List.splitOn Text.newline) ++ [[]] := by
  induction ls with
  | nil => rfl
  | cons l ls ih =>
    simp [List.flatMap_cons, List.splitOn_append_cons_self, ih]

/-- A record without a newline is one line. -/
theorem flatMap_splitOn_of_not_mem {ls : List (List UInt8)} (h : ∀ l ∈ ls, Text.newline ∉ l) :
    ls.flatMap (List.splitOn Text.newline) = ls := by
  induction ls with
  | nil => rfl
  | cons l ls ih =>
    obtain ⟨hl, hls⟩ := List.forall_mem_cons.1 h
    rw [List.flatMap_cons, List.splitOn_eq_singleton hl, ih hls, List.singleton_append]

/-- Each newline in a record adds a line. -/
theorem length_flatMap_splitOn (ls : List (List UInt8)) :
    (ls.flatMap (List.splitOn Text.newline)).length =
      ls.length + (ls.map (List.count Text.newline)).sum := by
  induction ls with
  | nil => rfl
  | cons l ls ih =>
    rw [List.flatMap_cons, List.length_append, length_splitOn, ih, List.map_cons, List.sum_cons,
      List.length_cons]
    omega

theorem sum_count_eq_zero_iff (ls : List (List UInt8)) :
    (ls.map (List.count Text.newline)).sum = 0 ↔ ∀ l ∈ ls, Text.newline ∉ l := by
  induction ls with
  | nil => simp
  | cons l ls ih => simp [ih, List.count_eq_zero]

/-! ## Names with newlines -/

/-- The part of a name that the line of a frame shows contains a newline. -/
inductive Breaks (table : Option Symbol.Table) (f : Frame) : Prop
  | qualified {t : Symbol.Table} {raw name : String} (ht : table = some t)
      (hname : f.name = some (Text.bytes raw)) (hpair : (raw, name) ∈ t.toPairs)
      (h : Text.newline ∈ (Text.bytes name).take 510)
  | raw {name : List UInt8} (hname : f.name = some name)
      (hnot : ∀ t, table = some t → ∀ p ∈ t.toPairs, Text.bytes p.1 ≠ name)
      (h : Text.newline ∈ name.take 99)

theorem newline_not_mem_mark : Text.newline ∉ mark := by decide

/-- An address is shown without a newline. -/
theorem newline_not_mem_address {digits : List Char} (h : ∀ c ∈ digits, c ∈ Text.Hex.digits) :
    Text.newline ∉ Text.bytes (String.ofList ('0' :: 'x' :: digits)) := by
  have hdigits : Text.newline ∉ Text.Hex.digits.flatMap String.utf8EncodeChar := by decide
  have hzero : Text.newline ∉ String.utf8EncodeChar '0' := by decide
  have hx : Text.newline ∉ String.utf8EncodeChar 'x' := by decide
  rw [Text.Hex.bytes_ofList, List.flatMap_cons, List.flatMap_cons]
  simp only [List.mem_append, List.mem_flatMap, not_or, not_exists, not_and] at hdigits ⊢
  exact ⟨hzero, hx, fun c hc => hdigits c (h c hc)⟩

theorem LineOf.mem_newline_iff (hbuilt : ∀ t, table = some t → t.Built) {l : List UInt8}
    (h : LineOf table f l) : Text.newline ∈ l ↔ Breaks table f := by
  constructor
  · intro hmem
    cases h with
    | qualified ht hname hpair =>
      exact .qualified ht hname hpair ((List.mem_append.1 hmem).resolve_left newline_not_mem_mark)
    | raw hname hnot =>
      exact .raw hname hnot ((List.mem_append.1 hmem).resolve_left newline_not_mem_mark)
    | address hname hdigits =>
      have haddress := (List.mem_append.1 hmem).resolve_left newline_not_mem_mark
      exact absurd haddress (newline_not_mem_address hdigits.lower)
  · intro hbreaks
    cases hbreaks with
    | qualified ht hname hpair hmem =>
      rw [h.unique hbuilt (.qualified ht hname hpair)]
      exact List.mem_append_right _ hmem
    | raw hname hnot hmem =>
      rw [h.unique hbuilt (.raw hname hnot)]
      exact List.mem_append_right _ hmem

/-- The line of a frame is not the closing line. -/
theorem LineOf.ne_rule {l : List UInt8} (h : LineOf table f l) : l ≠ Text.bytes rule := by
  have hmark : ∀ shown, mark ++ shown ≠ Text.bytes rule := by
    intro shown heq
    have hhead : some 96 = (Text.bytes rule).head? := congrArg List.head? heq
    exact absurd hhead (by decide)
  cases h with
  | qualified => exact hmark _
  | raw => exact hmark _
  | address => exact hmark _

theorem LineOf.mark_prefix {l : List UInt8} (h : LineOf table f l) : mark <+: l := by
  cases h <;> exact List.prefix_append _ _

/-! ## Reading a trace -/

namespace Trace

/-- The lines of an output.  Each of them ends at a newline. -/
def linesIn (out : List UInt8) : List (List UInt8) := (out.splitOn Text.newline).dropLast

/-- What a reader takes for the frames: the lines after the banner and before the next closing
line. -/
def framesRead (out : List UInt8) : List (List UInt8) :=
  ((linesIn out).drop 3).takeWhile (· ≠ Text.bytes rule)

theorem linesIn_flatMap_ended (ls : List (List UInt8)) :
    linesIn (ls.flatMap (· ++ [Text.newline])) = ls.flatMap (List.splitOn Text.newline) := by
  rw [linesIn, splitOn_flatMap_ended, List.dropLast_concat]

/-- The lines of a trace, given the records of its frames. -/
theorem flatMap_splitOn_linesOf (shown : List (List UInt8)) :
    (linesOf shown).flatMap (List.splitOn Text.newline) =
      linesOf (shown.flatMap (List.splitOn Text.newline)) := by
  have hbanner : [Text.bytes rule, Text.bytes title, Text.bytes rule].flatMap
      (List.splitOn Text.newline) = [Text.bytes rule, Text.bytes title, Text.bytes rule] :=
    flatMap_splitOn_of_not_mem (by decide)
  have hrule : [Text.bytes rule].flatMap (List.splitOn Text.newline) = [Text.bytes rule] :=
    flatMap_splitOn_of_not_mem (by decide)
  rw [linesOf, List.flatMap_append, List.flatMap_append, hbanner, hrule, linesOf]

theorem takeWhile_linesOf {shown : List (List UInt8)} (h : ∀ l ∈ shown, l ≠ Text.bytes rule) :
    ((linesOf shown).drop 3).takeWhile (· ≠ Text.bytes rule) = shown := by
  have hdrop : (linesOf shown).drop 3 = shown ++ [Text.bytes rule] := rfl
  rw [hdrop, List.takeWhile_append_of_pos (by simpa using h)]
  simp

/-- How the output of a trace falls into lines. -/
structure Lined (table : Option Symbol.Table) (frames : List Frame) (shown : List (List UInt8))
    (trace : Trace) : Prop where
  /-- There is one record for each of the first frames, and it begins with the mark. -/
  records : List.Forall₂ (LineOf table) (frames.take 128) shown ∧ ∀ l ∈ shown, mark <+: l
  written_eq : trace.written = shown.length
  /-- The output is split into the banner, the lines of each record, and the closing line, and
  nothing follows the last newline. -/
  splitOn_eq : trace.out.splitOn Text.newline =
    linesOf (shown.flatMap (List.splitOn Text.newline)) ++ [[]]
  /-- Each newline in a record adds a line. -/
  length_eq : (linesIn trace.out).length =
    trace.written + 4 + (shown.map (List.count Text.newline)).sum
  /-- There is one line for each frame exactly if no name breaks its line. -/
  length_eq_iff : (linesIn trace.out).length = trace.written + 4 ↔
    ∀ f ∈ frames.take 128, ¬ Breaks table f
  /-- Then the lines are the records. -/
  lines_eq : (∀ f ∈ frames.take 128, ¬ Breaks table f) → linesIn trace.out = linesOf shown
  /-- A reader finds the record of each frame, and nothing else, exactly then. -/
  framesRead_eq_iff : framesRead trace.out = shown ↔ ∀ f ∈ frames.take 128, ¬ Breaks table f

section Records

variable {frames : List Frame} {shown : List (List UInt8)}

theorem newline_not_mem_iff (hbuilt : ∀ t, table = some t → t.Built)
    (h : List.Forall₂ (LineOf table) frames shown) :
    (∀ l ∈ shown, Text.newline ∉ l) ↔ ∀ f ∈ frames, ¬ Breaks table f := by
  induction h with
  | nil => simp
  | cons hline _ ih => simp only [List.forall_mem_cons, hline.mem_newline_iff hbuilt, ih]

theorem mark_prefix_of_records (h : List.Forall₂ (LineOf table) frames shown) :
    ∀ l ∈ shown, mark <+: l ∧ l ≠ Text.bytes rule := by
  induction h with
  | nil => simp
  | cons hline _ ih => exact List.forall_mem_cons.2 ⟨⟨hline.mark_prefix, hline.ne_rule⟩, ih⟩

/-- A trace that is made of records falls into lines. -/
theorem lined_of_records {trace : Trace} (hbuilt : ∀ t, table = some t → t.Built)
    (hrecords : List.Forall₂ (LineOf table) (frames.take 128) shown)
    (hout : trace.out = (linesOf shown).flatMap (· ++ [Text.newline]))
    (hwritten : trace.written = shown.length) : Lined table frames shown trace := by
  have hlines : linesIn trace.out = linesOf (shown.flatMap (List.splitOn Text.newline)) := by
    rw [hout, linesIn_flatMap_ended, flatMap_splitOn_linesOf]
  have hplain : (∀ f ∈ frames.take 128, ¬ Breaks table f) → linesIn trace.out = linesOf shown := by
    intro hno
    rw [hlines, flatMap_splitOn_of_not_mem ((newline_not_mem_iff hbuilt hrecords).2 hno)]
  have hlength : (linesIn trace.out).length =
      trace.written + 4 + (shown.map (List.count Text.newline)).sum := by
    rw [hlines, hwritten, linesOf]
    simp only [List.length_append, length_flatMap_splitOn, List.length_cons, List.length_nil]
    omega
  constructor
  · exact ⟨hrecords, fun l hl => (mark_prefix_of_records hrecords l hl).1⟩
  · exact hwritten
  · rw [hout, splitOn_flatMap_ended, flatMap_splitOn_linesOf]
  · exact hlength
  · rw [hlength, Nat.add_eq_left, sum_count_eq_zero_iff, newline_not_mem_iff hbuilt hrecords]
  · exact hplain
  · constructor
    · intro hread
      refine (newline_not_mem_iff hbuilt hrecords).1 fun l hl => ?_
      rw [← hread] at hl
      -- What is read is part of what was split.
      have hline := List.mem_of_mem_drop ((List.takeWhile_sublist _).subset hl)
      exact not_mem_of_mem_splitOn ((List.dropLast_sublist _).subset hline)
    · intro hno
      rw [framesRead, hplain hno]
      exact takeWhile_linesOf fun l hl => (mark_prefix_of_records hrecords l hl).2

end Records

/-- The output of every trace falls into lines in this way. -/
theorem exists_lined (hbuilt : ∀ t, table = some t → t.Built) (source : Source) (line : Line) :
    ∃ shown, Lined table (source.frames none) shown (ofSource table source line []) := by
  have hrecords : List.Forall₂ (LineOf table) (shown source)
      ((shown source).map fun f => (frameLine table {} f).bytes) :=
    List.forall₂_map_right_iff.2 (List.forall₂_same.2 fun f _ => lineOf_frameLine hbuilt {} f)
  have hout : (ofSource table source line []).out =
      (linesOf ((shown source).map fun f => (frameLine table {} f).bytes)).flatMap
        (· ++ [Text.newline]) := by
    rw [out_ofSource]
    simp only [linesOf, banner, textLine, Line.ended, List.flatMap_append, List.flatMap_cons,
      List.flatMap_nil, List.flatMap_map, List.append_assoc, List.append_nil, List.nil_append]
  have hwritten : (ofSource table source line []).written =
      ((shown source).map fun f => (frameLine table {} f).bytes).length := by
    rw [written_ofSource, List.length_map, shown, List.length_take]
  generalize hframes : (shown source).map (fun f => (frameLine table {} f).bytes) = records
    at hrecords hout hwritten
  refine ⟨records, lined_of_records hbuilt hrecords hout hwritten⟩

/-- A manifest that gives a name with a newline, a frame that shows it, and one without a name. -/
theorem exists_lined_escaped :
    let manifest := "\x7b\"f\": \"a\\nb\"\x7d"
    let table : Symbol.Table := ⟨#[⟨"f", "a\nb"⟩]⟩
    let fs : List Frame := [{ name := some (Text.bytes "f") }, { ip := 57005 }]
    Symbol.Table.ofManifest manifest = .ok table ∧ (∀ t, some table = some t → t.Built) ∧
      Breaks (some table) { name := some (Text.bytes "f") } ∧
      ∃ shown, Lined (some table) fs shown (ofSource (some table) (.captured fs) {} []) := by
  intro manifest table fs
  have hmanifest : Symbol.Table.ofManifest manifest = .ok table := by decide +kernel
  have hbuilt : ∀ t, some table = some t → t.Built := by
    intro t ht
    cases ht
    exact .ofManifest hmanifest
  have hbreaks : Breaks (some table) { name := some (Text.bytes "f") } :=
    .qualified rfl rfl (show ("f", "a\nb") ∈ table.toPairs by decide) (by decide)
  have hlined := exists_lined hbuilt (.captured fs) {}
  rw [Source.frames_captured] at hlined
  exact ⟨hmanifest, hbuilt, hbreaks, hlined⟩

/-- A name with a newline and a closing line in it has a reader miss the frames after it. -/
theorem not_line_for_each_frame :
    ¬ ∀ (table : Option Symbol.Table), (∀ t, table = some t → t.Built) →
      ∀ (source : Source) (line : Line),
        let trace := ofSource table source line []
        (linesIn trace.out).length = trace.written + 4 ∧
          (framesRead trace.out).length = trace.written := by
  intro h
  let fs : List Frame :=
    [{ name := some (Text.bytes ("x\n" ++ rule)) }, { name := some (Text.bytes "main") }]
  have hread := (h none (fun t ht => nomatch ht) (.captured fs) {}).2
  exact absurd hread (by decide +kernel)

end Trace

end PinnedHeap.Crash
