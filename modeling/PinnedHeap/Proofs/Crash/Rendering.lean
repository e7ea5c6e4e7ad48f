import Mathlib.Data.List.Forall2
import PinnedHeap.Crash.Trace
import PinnedHeap.Proofs.Crash.Walk
import PinnedHeap.Proofs.Symbol.Lookup
import PinnedHeap.Proofs.Text.Hex

/-!
# What a trace holds

A trace of a source holds the lines of its first frames, as many as the limit allows, between a
banner and a closing line (`Trace.ofSource_rendered`).

Three limits meet.  The visitor counts frames.  As long as there is room, a walk is a fold over
the frames that there is room for (`visitAll_visit`), and the notes of the visitor say that it
asks for no frame beyond them (`noted_visit`).  A raw name is looked up in full, and cut only if
it is not found.  The buffer cuts what it is given, whatever it held before.

`LineOf` says what a line shows, in terms of the pairs of the table and of numerals.  There is one
such line for each frame (`LineOf.unique`).
-/

namespace PinnedHeap.Crash

variable {table : Option Symbol.Table}

/-! ## The buffer -/

/-- No sequence of changes makes a line grow beyond its buffer. -/
theorem Line.length_le_of_mem_changes {l l' : Line} {cs : List Change} (h : l.length ≤ capacity)
    (hl' : l' ∈ l.changes cs) : l'.length ≤ capacity := by
  induction cs generalizing l with
  | nil => exact nomatch hl'
  | cons c cs ih =>
    have hc : (l.change c).length ≤ capacity := by
      cases c with
      | clear => exact Nat.zero_le _
      | push bs => exact length_push_le h bs
      | write s => exact length_push_le h _
    rcases List.mem_cons.1 hl' with rfl | hl'
    · exact hc
    · exact ih hc hl'

/-- The changes of the buffer that put the line of a frame together. -/
def frameChanges (table : Option Symbol.Table) (f : Frame) : List Line.Change :=
  [.clear, .write "` ", .push (frameLabel table f)]

theorem getLast?_changes_frameChanges (l : Line) (f : Frame) :
    (l.changes (frameChanges table f)).getLast? = some (frameLine table l f) := rfl

/-- What the buffer held before does not matter, not even that it was in bounds. -/
theorem length_le_of_mem_frameChanges {l l' : Line} {f : Frame}
    (hl' : l' ∈ l.changes (frameChanges table f)) : l'.length ≤ Line.capacity := by
  rcases List.mem_cons.1 hl' with rfl | hl'
  · exact Nat.zero_le _
  · exact Line.length_le_of_mem_changes (Nat.zero_le _) hl'

/-! ## The line of a frame -/

/-- What the line of a frame begins with. -/
def mark : List UInt8 := Text.bytes "` "

/-- The line of a frame, without its newline. -/
inductive LineOf (table : Option Symbol.Table) (f : Frame) : List UInt8 → Prop
  | qualified {t : Symbol.Table} {raw name : String} (ht : table = some t)
      (hname : f.name = some (Text.bytes raw)) (hpair : (raw, name) ∈ t.toPairs) :
      LineOf table f (mark ++ (Text.bytes name).take 510)
  | raw {name : List UInt8} (hname : f.name = some name)
      (hnot : ∀ t, table = some t → ∀ p ∈ t.toPairs, Text.bytes p.1 ≠ name) :
      LineOf table f (mark ++ name.take 99)
  | address {digits : List Char} (hname : f.name = none)
      (hdigits : Text.Hex.IsNumeral digits f.ip.toNat) :
      LineOf table f (mark ++ Text.bytes (String.ofList ('0' :: 'x' :: digits)))

theorem LineOf.unique (hbuilt : ∀ t, table = some t → t.Built) {f : Frame} {l l' : List UInt8}
    (h : LineOf table f l) (h' : LineOf table f l') : l = l' := by
  cases h with
  | address hname hdigits =>
    cases h' with
    | address _ hdigits' => rw [hdigits.unique hdigits']
    | qualified _ hname' _ => exact nomatch hname.symm.trans hname'
    | raw hname' _ => exact nomatch hname.symm.trans hname'
  | raw hname hnot =>
    cases h' with
    | address hname' _ => exact nomatch hname.symm.trans hname'
    | qualified ht hname' hpair =>
      exact absurd (Option.some.inj (hname'.symm.trans hname)) (hnot _ ht _ hpair)
    | raw hname' _ => rw [Option.some.inj (hname.symm.trans hname')]
  | @qualified t raw name ht hname hpair =>
    cases h' with
    | address hname' _ => exact nomatch hname.symm.trans hname'
    | raw hname' hnot =>
      exact absurd (Option.some.inj (hname.symm.trans hname')) (hnot _ ht _ hpair)
    | @qualified t' raw' name' ht' hname' hpair' =>
      obtain rfl := Option.some.inj (ht.symm.trans ht')
      have ho := (hbuilt t ht).ordered
      have hfound := ho.resolve?_eq_some_iff.2 ⟨raw, hpair, rfl⟩
      have hfound' := ho.resolve?_eq_some_iff.2 ⟨raw', hpair', rfl⟩
      rw [Option.some.inj (hname.symm.trans hname'), hfound'] at hfound
      rw [Option.some.inj hfound]

theorem bytes_frameLine (l : Line) (f : Frame) :
    (frameLine table l f).bytes = mark ++ (frameLabel table f).take 510 := by
  have hmark : l.clear.write "` " = ⟨mark⟩ := by
    rw [Line.clear]
    decide
  have hroom : Line.capacity - (⟨mark⟩ : Line).length = 510 := by decide
  rw [frameLine, hmark, Line.push, hroom]

theorem length_frameLine_le (l : Line) (f : Frame) : (frameLine table l f).length ≤ 512 := by
  have hmark : mark.length = 2 := by decide
  have htake := List.length_take_le 510 (frameLabel table f)
  rw [Line.length, bytes_frameLine, List.length_append, hmark]
  omega

theorem lineOf_frameLine (hbuilt : ∀ t, table = some t → t.Built) (l : Line) (f : Frame) :
    LineOf table f (frameLine table l f).bytes := by
  rw [bytes_frameLine]
  cases hname : f.name with
  | none =>
    have hword := Text.Hex.length_word_le f.ip
    have hnumeral := Text.Hex.isNumeral_word f.ip
    have hlength := Text.Hex.length_bytes_ofList_le ('0' :: 'x' :: Text.Hex.word f.ip)
    simp only [frameLabel, hname]
    generalize Text.Hex.word f.ip = digits at hword hnumeral hlength ⊢
    simp only [List.length_cons] at hlength
    have hshort : (Text.bytes (String.ofList ('0' :: 'x' :: digits))).length ≤ 510 := by omega
    rw [List.take_of_length_le hshort]
    exact .address hname hnumeral
  | some raw =>
    cases hfound : table.bind (·.resolve? raw) with
    | some name =>
      obtain ⟨t, ht, hresolve⟩ := Option.bind_eq_some_iff.1 hfound
      obtain ⟨_, hpair, rfl⟩ := (hbuilt t ht).ordered.resolve?_eq_some_iff.1 hresolve
      simp only [frameLabel, hname, hfound]
      exact .qualified ht hname hpair
    | none =>
      have hcut : (raw.take rawNameLimit).take 510 = raw.take 99 := List.take_take
      simp only [frameLabel, hname, hfound, hcut]
      refine .raw hname fun t ht => ?_
      exact (hbuilt t ht).ordered.resolve?_eq_none_iff.1 (Option.bind_eq_none_iff.1 hfound t ht)

/-! ## The walk of a trace -/

/-- A trace with one more frame. -/
def Trace.next (table : Option Symbol.Table) (t : Trace) (f : Frame) : Trace :=
  { line := frameLine table t.line f
    out := t.out ++ (frameLine table t.line f).ended
    written := t.written + 1 }

@[simp] theorem Trace.written_next (t : Trace) (f : Frame) :
    (t.next table f).written = t.written + 1 := rfl

theorem Trace.visit_of_lt {t : Trace} (h : t.written < frameLimit) (f : Frame) :
    Trace.visit table t f = (t.next table f, decide (t.written + 1 < frameLimit)) := by
  rw [visit, if_neg (Nat.ne_of_lt h)]
  rfl

/-- A frame takes up one of the places that are left. -/
theorem Trace.room_eq (table : Option Symbol.Table) {t : Trace} (h : t.written < frameLimit)
    (f : Frame) :
    frameLimit - t.written = frameLimit - (t.next table f).written + 1 := by
  rw [written_next]
  omega

/-- As long as there is room, a walk is a fold. -/
theorem visitAll_visit (fs : List Frame) {t : Trace} (h : t.written ≤ frameLimit) :
    visitAll (Trace.visit table) fs t =
      (fs.take (frameLimit - t.written)).foldl (Trace.next table) t := by
  induction fs generalizing t with
  | nil => rw [List.take_nil]; rfl
  | cons f fs ih =>
    rcases Nat.lt_or_eq_of_le h with hlt | hfull
    · rw [visitAll, Trace.visit_of_lt hlt, Trace.room_eq table hlt f,
        List.take_succ_cons, List.foldl_cons, ← ih (t := t.next table f) hlt]
      by_cases hmore : t.written + 1 < frameLimit
      · rw [decide_eq_true hmore]
      · -- The frame was the last one.  A walk of the rest would stop at once.
        have hfull : frameLimit - (t.next table f).written = 0 :=
          Nat.sub_eq_zero_of_le (Nat.le_of_not_lt hmore)
        rw [decide_eq_false hmore, ih (t := t.next table f) hlt, hfull]
        rfl
    · rw [visitAll, Trace.visit, if_pos hfull, hfull, Nat.sub_self]
      rfl

/-- The visitor asks for as many frames as there is room for. -/
theorem noted_visit (fs : List Frame) {t : Trace} (h : t.written < frameLimit)
    (noted : List (Frame × Bool)) :
    (visitAll (Visitor.noting (Trace.visit table)) fs (t, noted)).2 =
      ((fs.take (frameLimit - t.written)).mapIdx fun i f =>
        (f, decide (t.written + (i + 1) < frameLimit))).reverse ++ noted := by
  induction fs generalizing t noted with
  | nil => rw [List.take_nil]; rfl
  | cons f fs ih =>
    simp only [visitAll, Visitor.noting, Trace.visit_of_lt h, Trace.room_eq table h f,
      List.take_succ_cons, List.mapIdx_cons, List.reverse_cons, List.append_assoc, Nat.zero_add]
    by_cases hmore : t.written + 1 < frameLimit
    · have hshift : ∀ i, t.written + (i + 1 + 1) = (t.next table f).written + (i + 1) := by
        intro i
        rw [Trace.written_next]
        omega
      simp only [decide_eq_true hmore, ih (t := t.next table f) hmore, hshift]
      rfl
    · have hfull : frameLimit - (t.next table f).written = 0 :=
        Nat.sub_eq_zero_of_le (Nat.le_of_not_lt hmore)
      simp only [decide_eq_false hmore, hfull, List.take_zero]
      rfl

theorem foldl_next_out (fs : List Frame) (t : Trace) :
    (fs.foldl (Trace.next table) t).out =
      t.out ++ fs.flatMap fun f => (frameLine table {} f).ended := by
  induction fs generalizing t with
  | nil => rw [List.foldl_nil, List.flatMap_nil, List.append_nil]
  | cons f fs ih =>
    rw [List.foldl_cons, ih, List.flatMap_cons, Trace.next, List.append_assoc]
    rfl

theorem foldl_next_written (fs : List Frame) (t : Trace) :
    (fs.foldl (Trace.next table) t).written = t.written + fs.length := by
  induction fs generalizing t with
  | nil => rfl
  | cons f fs ih =>
    rw [List.foldl_cons, ih, List.length_cons, Trace.written_next]
    omega

namespace Trace

/-- The frames that a trace of a source has room for. -/
def shown (source : Source) : List Frame := (source.frames none).take frameLimit

theorem out_ofSource (source : Source) (line : Line) (out : List UInt8) :
    (ofSource table source line out).out =
      out ++ banner ++ ((shown source).flatMap fun f => (frameLine table {} f).ended) ++
        textLine rule := by
  simp only [ofSource, Source.walk_eq]
  rw [visitAll_visit _ (Nat.zero_le _), foldl_next_out]
  rfl

theorem written_ofSource (source : Source) (line : Line) (out : List UInt8) :
    (ofSource table source line out).written = min frameLimit (source.frames none).length := by
  simp only [ofSource, Source.walk_eq]
  rw [visitAll_visit _ (Nat.zero_le _), foldl_next_written, List.length_take, Nat.zero_add]
  rfl

/-- What was written before, and what the buffer held, do not change what is added. -/
theorem out_ofSource_eq_append (source : Source) (line : Line) (out : List UInt8) :
    (ofSource table source line out).out = out ++ (ofSource table source {} []).out := by
  simp only [out_ofSource, List.nil_append, List.append_assoc]

/-- The lines of a trace, given those of its frames. -/
def linesOf (frames : List (List UInt8)) : List (List UInt8) :=
  [Text.bytes rule, Text.bytes title, Text.bytes rule] ++ frames ++ [Text.bytes rule]

/-- The output line by line, the number of frames, what the source was asked for, and the states
of the buffer.  The notes are those of the walk that writes the trace: each frame it was passed,
and whether it asked for another. -/
theorem ofSource_rendered (hbuilt : ∀ t, table = some t → t.Built) (source : Source)
    (line : Line) (out : List UInt8) :
    let trace := ofSource table source line out
    let noted := source.walk (Visitor.noting (visit table)) ({ line, out := out ++ banner }, [])
    (∃ frames, List.Forall₂ (LineOf table) ((source.frames none).take 128) frames ∧
      trace.out = out ++ (linesOf frames).flatMap (· ++ [Text.newline]) ∧
      ∀ l ∈ linesOf frames, l.length ≤ 512) ∧
    trace.written = min (source.frames none).length 128 ∧
    trace = { noted.1 with out := noted.1.out ++ textLine rule } ∧
    noted.2.reverse =
      (((source.frames none).take 128).mapIdx fun i f => (f, decide (i + 1 < 128))) ∧
    ∀ (f : Frame) (buffer : Line),
      (buffer.changes (frameChanges table f)).getLast? = some (frameLine table buffer f) ∧
      ∀ l ∈ buffer.changes (frameChanges table f), l.length ≤ 512 := by
  refine ⟨⟨(shown source).map fun f => (frameLine table {} f).bytes, ?_, ?_, ?_⟩, ?_, ?_, ?_, ?_⟩
  · exact List.forall₂_map_right_iff.2 (List.forall₂_same.2 fun f _ => lineOf_frameLine hbuilt {} f)
  · rw [out_ofSource]
    simp only [linesOf, banner, textLine, Line.ended, List.flatMap_append, List.flatMap_cons,
      List.flatMap_nil, List.flatMap_map, List.append_assoc, List.append_nil]
  · have hbanner : ∀ l ∈ [Text.bytes rule, Text.bytes title, Text.bytes rule], l.length ≤ 512 := by
      decide
    have hrule : ∀ l ∈ [Text.bytes rule], l.length ≤ 512 := by decide
    simp only [linesOf, List.forall_mem_append, List.forall_mem_map]
    exact ⟨⟨hbanner, fun f _ => length_frameLine_le {} f⟩, hrule⟩
  · rw [written_ofSource, Nat.min_comm]
    rfl
  · rw [Source.walk_eq, Visitor.visitAll_noting, ← Source.walk_eq]
    rfl
  · rw [Source.walk_eq, noted_visit _ (show 0 < frameLimit by decide), List.append_nil,
      List.reverse_reverse]
    simp only [Nat.zero_add]
    rfl
  · exact fun f buffer =>
      ⟨getLast?_changes_frameChanges buffer f, fun l => length_le_of_mem_frameChanges⟩

/-- A frame that the built-in table knows, and one without a name. -/
theorem ofSource_rendered_builtIn :
    let fs : List Frame := [{ name := some (Text.bytes "tscl_gc_collect") }, { ip := 57005 }]
    let trace := ofSource (some Symbol.Table.builtIn) (.captured fs) {} []
    (∃ frames, List.Forall₂ (LineOf (some Symbol.Table.builtIn)) fs frames ∧
      trace.out = (linesOf frames).flatMap (· ++ [Text.newline])) ∧ trace.written = 2 := by
  intro fs trace
  have hbuilt : ∀ t, some Symbol.Table.builtIn = some t → t.Built := by
    rintro t ⟨⟩
    exact .builtIn
  obtain ⟨⟨frames, hlines, hout, -⟩, hwritten, -⟩ :=
    ofSource_rendered hbuilt (.captured fs) {} []
  rw [Source.frames_captured] at hlines hwritten
  exact ⟨⟨frames, hlines, hout⟩, hwritten⟩

example : (frameLine none {} { ip := 57005 }).bytes = Text.bytes "` 0xdead" := by decide

end Trace

end PinnedHeap.Crash
