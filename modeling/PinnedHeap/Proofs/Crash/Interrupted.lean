import PinnedHeap.Proofs.Crash.Rendering

/-!
# The frames of interrupted code

A report starts at the code that a signal interrupted.  Its frames are those outside the frame of
the handler and the one just outside that (`Outside`).  Where the handler is not on the stack,
there is nothing to leave out.

A source that passes these frames and no others is, for every visitor, as good as a list of them
(`Passes.interrupted`).  The first walk ends at the handler, with the number of frames inside it
(`visitAll_seek_of_innermost`), or at the end of the stack with no handler found
(`visitAll_seek_of_absent`).  The second walk counts what it leaves out before the visitor is
called, so neither the visitor nor the limit of a trace notices the frames that are left out.

`Obeyed` says what it is to pass frames to a visitor, in terms of the calls alone: they follow the
list, and no call comes after one that wants no more.
-/

namespace PinnedHeap.Crash

variable {handler : UInt64} {f : Frame} {fs rest : List Frame} {k : Nat}

/-! ## Outside the handler -/

/-- The innermost frame of a function is at a position. -/
structure IsInnermost (function : UInt64) (fs : List Frame) (k : Nat) : Prop where
  /-- The frame is there. -/
  here : fs[k]?.map Frame.function = some function
  /-- No frame inside it is of the function. -/
  inside : ∀ i < k, fs[i]?.map Frame.function ≠ some function

/-- The frames of what a signal interrupted. -/
inductive Outside (handler : UInt64) (fs : List Frame) : List Frame → Prop
  | absent (h : ∀ f ∈ fs, f.function ≠ handler) : Outside handler fs fs
  | handled {k : Nat} (h : IsInnermost handler fs k) : Outside handler fs (fs.drop (k + 2))

theorem not_isInnermost_nil : ¬ IsInnermost handler [] k := by
  intro h
  cases h.here

theorem isInnermost_cons_zero_iff : IsInnermost handler (f :: fs) 0 ↔ f.function = handler := by
  constructor
  · intro h
    exact Option.some.inj h.here
  · intro h
    exact ⟨congrArg some h, fun i hi => absurd hi (Nat.not_lt_zero i)⟩

theorem isInnermost_cons_succ_iff :
    IsInnermost handler (f :: fs) (k + 1) ↔ f.function ≠ handler ∧ IsInnermost handler fs k := by
  constructor
  · intro h
    refine ⟨fun hf => h.inside 0 (Nat.succ_pos k) (congrArg some hf), h.here, fun i hi => ?_⟩
    exact h.inside (i + 1) (Nat.succ_lt_succ hi)
  · intro ⟨hf, h⟩
    refine ⟨h.here, fun i hi => ?_⟩
    cases i with
    | zero => exact fun hsome => hf (Option.some.inj hsome)
    | succ i => exact h.inside i (Nat.lt_of_succ_lt_succ hi)

/-- A stack either has an innermost frame of the handler or none at all. -/
theorem exists_outside (handler : UInt64) (fs : List Frame) : ∃ rest, Outside handler fs rest := by
  induction fs with
  | nil => exact ⟨[], .absent fun f hf => nomatch hf⟩
  | cons f fs ih =>
    by_cases hf : f.function = handler
    · exact ⟨_, .handled (isInnermost_cons_zero_iff.2 hf)⟩
    · obtain ⟨rest, hrest⟩ := ih
      cases hrest with
      | absent h => exact ⟨_, .absent (List.forall_mem_cons.2 ⟨hf, h⟩)⟩
      | handled h => exact ⟨_, .handled (isInnermost_cons_succ_iff.2 ⟨hf, h⟩)⟩

/-! ## Looking for the handler -/

theorem visitAll_seek_of_absent (n : Nat) (h : ∀ f ∈ fs, f.function ≠ handler) :
    visitAll (Source.seek handler) fs (n, false) = (n + fs.length, false) := by
  induction fs generalizing n with
  | nil => rfl
  | cons f fs ih =>
    obtain ⟨hf, hfs⟩ := List.forall_mem_cons.1 h
    simp only [visitAll, Source.seek, if_neg hf, ih (n + 1) hfs, List.length_cons]
    rw [Nat.add_assoc, Nat.add_comm 1]

theorem visitAll_seek_of_innermost (n : Nat) (h : IsInnermost handler fs k) :
    visitAll (Source.seek handler) fs (n, false) = (n + k, true) := by
  induction fs generalizing n k with
  | nil => exact absurd h not_isInnermost_nil
  | cons f fs ih =>
    cases k with
    | zero => simp [visitAll, Source.seek, isInnermost_cons_zero_iff.1 h]
    | succ k =>
      obtain ⟨hf, hfs⟩ := isInnermost_cons_succ_iff.1 h
      simp only [visitAll, Source.seek, if_neg hf, ih (n + 1) hfs]
      rw [Nat.add_assoc, Nat.add_comm 1]

/-! ## Sources that pass the frames of a list -/

namespace Source

variable {σ : Type} {inner source : Source}

/-- Every walk of a source passes the frames of one and the same list. -/
structure Passes (source : Source) (fs : List Frame) : Prop where
  walk_eq : ∀ {σ : Type} (visit : Visitor σ) (s : σ), source.walk visit s = visitAll visit fs s

theorem passes_captured (fs : List Frame) : (captured fs).Passes fs := ⟨fun _ _ => rfl⟩

/-- Around a source that passes a stack, one passes what the signal interrupted. -/
theorem Passes.interrupted (h : inner.Passes fs) (ho : Outside handler fs rest) :
    (interrupted handler inner).Passes rest := by
  have hskip : rest = fs.drop (skipCount (inner.walk (seek handler) (0, false))) := by
    rw [h.walk_eq]
    cases ho with
    | absent habsent =>
      rw [visitAll_seek_of_absent 0 habsent]
      exact List.drop_zero.symm
    | handled hinnermost =>
      rw [visitAll_seek_of_innermost 0 hinnermost, Nat.zero_add]
      rfl
  constructor
  intro σ visit s
  rw [walk, h.walk_eq, visitAll_skipping, ← hskip]

theorem Passes.frames_eq (h : source.Passes fs) : source.frames none = fs := by
  rw [frames, h.walk_eq, visitAll_collecting, List.append_nil, List.reverse_reverse]

/-- The calls of a visitor: the frames it is passed, with its answers. -/
def calls (source : Source) (visit : Visitor σ) (s : σ) : List (Frame × Bool) :=
  (source.walk visit.noting (s, [])).2.reverse

end Source

/-! ## The calls of a visitor -/

/-- The calls that a walk of a list makes. -/
structure Obeyed (fs : List Frame) (calls : List (Frame × Bool)) : Prop where
  /-- The frames are those of the list, from the first on. -/
  follows : calls.map Prod.fst <+: fs
  /-- After a call that wants no more there is none. -/
  stops : ∀ call ∈ calls.dropLast, call.2 = true
  /-- If every call wants more, then all frames are passed. -/
  finishes : (∀ call ∈ calls, call.2 = true) → calls.map Prod.fst = fs

theorem obeyed_nil : Obeyed [] [] where
  follows := List.prefix_refl _
  stops := fun _ hcall => nomatch hcall
  finishes := fun _ => rfl

theorem obeyed_stopped (f : Frame) (fs : List Frame) : Obeyed (f :: fs) [(f, false)] where
  follows := ⟨fs, rfl⟩
  stops := fun _ hcall => nomatch hcall
  finishes := fun hall => nomatch hall (f, false) (List.mem_singleton.2 rfl)

theorem Obeyed.cons {calls : List (Frame × Bool)} (h : Obeyed fs calls) (f : Frame) :
    Obeyed (f :: fs) ((f, true) :: calls) where
  follows := List.cons_prefix_cons.2 ⟨rfl, h.follows⟩
  stops := by
    cases calls with
    | nil => exact fun _ hcall => nomatch hcall
    | cons call calls => exact List.forall_mem_cons.2 ⟨rfl, h.stops⟩
  finishes := fun hall =>
    congrArg (f :: ·) (h.finishes fun call hcall => hall call (List.mem_cons_of_mem _ hcall))

/-- The notes of a visitor grow by the calls of the walk. -/
theorem exists_obeyed {σ : Type} (visit : Visitor σ) (fs : List Frame) (s : σ)
    (noted : List (Frame × Bool)) :
    ∃ calls, (visitAll visit.noting fs (s, noted)).2.reverse = noted.reverse ++ calls ∧
      Obeyed fs calls := by
  induction fs generalizing s noted with
  | nil => exact ⟨[], (List.append_nil _).symm, obeyed_nil⟩
  | cons f fs ih =>
    simp only [visitAll, Visitor.noting]
    rcases visit s f with ⟨s', on⟩
    cases on with
    | false => exact ⟨[(f, false)], List.reverse_cons, obeyed_stopped f fs⟩
    | true =>
      obtain ⟨calls, hcalls, hobeyed⟩ := ih s' ((f, true) :: noted)
      refine ⟨(f, true) :: calls, ?_, hobeyed.cons f⟩
      simp only [hcalls, List.reverse_cons, List.append_assoc, List.singleton_append]

namespace Source

variable {inner source : Source}

theorem Passes.obeyed {σ : Type} (h : source.Passes fs) (visit : Visitor σ) (s : σ) :
    Obeyed fs (source.calls visit s) := by
  obtain ⟨calls, hcalls, hobeyed⟩ := exists_obeyed visit fs s []
  rw [Source.calls, h.walk_eq, hcalls]
  exact hobeyed

/-- A source that cannot be told from a list of frames, neither by a visitor nor in a trace. -/
structure Mimics (source : Source) (fs : List Frame) : Prop where
  /-- A walk leaves every visitor in the state in which the list leaves it. -/
  walk_eq : ∀ {σ : Type} (visit : Visitor σ) (s : σ),
    source.walk visit s = (captured fs).walk visit s
  /-- It makes the same calls. -/
  calls_eq : ∀ {σ : Type} (visit : Visitor σ) (s : σ),
    source.calls visit s = (captured fs).calls visit s
  /-- These follow the list, and none comes after one that wants no more. -/
  obeyed : ∀ {σ : Type} (visit : Visitor σ) (s : σ), Obeyed fs (source.calls visit s)
  /-- A trace of the source is a trace of the list. -/
  trace_eq : ∀ (table : Option Symbol.Table) (line : Line) (out : List UInt8),
    Trace.ofSource table source line out = Trace.ofSource table (captured fs) line out
  /-- The limit of a trace counts the frames of the list and no others. -/
  written_eq : ∀ (table : Option Symbol.Table) (line : Line) (out : List UInt8),
    (Trace.ofSource table source line out).written = min fs.length 128

theorem Passes.mimics (h : source.Passes fs) : source.Mimics fs where
  walk_eq := fun visit s => h.walk_eq visit s
  calls_eq := fun visit s => by
    rw [calls, h.walk_eq, calls, (passes_captured fs).walk_eq]
  obeyed := fun visit s => h.obeyed visit s
  trace_eq := fun table line out => by
    rw [Trace.ofSource, h.walk_eq, Trace.ofSource, (passes_captured fs).walk_eq]
  written_eq := fun table line out => by
    rw [Trace.written_ofSource, h.frames_eq, Nat.min_comm]
    rfl

/-- The walk of a stack from what a signal interrupted.  The stack may be given by any source that
passes the same frames on each walk. -/
theorem interrupted_mimics (h : inner.Passes fs) (handler : UInt64) :
    (∃ rest, Outside handler fs rest) ∧
      (∀ rest, Outside handler fs rest → (interrupted handler inner).Mimics rest) ∧
      ∀ k, IsInnermost handler fs k → fs.length < k + 3 →
        ∀ {σ : Type} (visit : Visitor σ) (s : σ),
          (interrupted handler inner).calls visit s = [] := by
  refine ⟨exists_outside handler fs, fun rest ho => (h.interrupted ho).mimics, ?_⟩
  intro k hinnermost hshort σ visit s
  have hnil : fs.drop (k + 2) = [] := List.drop_eq_nil_of_le (Nat.le_of_lt_succ hshort)
  have hobeyed := (h.interrupted (.handled hinnermost)).obeyed visit s
  rw [hnil] at hobeyed
  exact List.map_eq_nil_iff.1 (List.prefix_nil.1 hobeyed.follows)

/-- A stack with two frames of the handler, where the inner one counts. -/
theorem interrupted_mimics_nested :
    let outer : List Frame := [{ function := 5 }, { function := 3 }, { function := 6 }]
    let stack : List Frame := { function := 1 } :: { function := 3 } :: { function := 4 } :: outer
    (captured stack).Passes stack ∧ Outside 3 stack outer ∧
      (interrupted 3 (captured stack)).Mimics outer := by
  intro outer stack
  have hpasses : (captured stack).Passes stack := passes_captured stack
  have hinnermost : IsInnermost 3 stack 1 := ⟨rfl, by decide⟩
  have ho : Outside 3 stack outer := .handled hinnermost
  obtain ⟨-, hmimics, -⟩ := interrupted_mimics hpasses 3
  exact ⟨hpasses, ho, hmimics outer ho⟩

end Source

end PinnedHeap.Crash
