import PinnedHeap.Crash.Frame

/-!
# Walks

Whatever a source is made of, to walk it is to pass its frames to the visitor one by one until
the visitor wants no more (`Source.walk_eq`).  So a fact about walks is proved by induction on a
list of frames.

The induction on the source has one case with content.  The source of interrupted code walks the
inner source with a visitor that counts down before it passes anything on, and the frames it
counts are the ones it drops.

`noting` also keeps what passes between a source and its visitor: each frame that the source was
asked for, and whether the visitor asked for another.
-/

namespace PinnedHeap.Crash

variable {σ : Type}

namespace Source

theorem visitAll_collecting (fs seen : List Frame) :
    visitAll (collecting none) fs seen = fs.reverse ++ seen := by
  induction fs generalizing seen with
  | nil => rfl
  | cons f fs ih => simp [visitAll, collecting, ih]

/-- The frames that are counted are not passed on. -/
theorem visitAll_skipping (visit : Visitor σ) (fs : List Frame) (n : Nat) (s : σ) :
    (visitAll (skipping visit) fs (n, s)).2 = visitAll visit (fs.drop n) s := by
  induction fs generalizing n s with
  | nil => rw [List.drop_nil]; rfl
  | cons f fs ih =>
    cases n with
    | succ n => exact ih n s
    | zero =>
      simp only [List.drop_zero, visitAll, skipping]
      rcases visit s f with ⟨s', on⟩
      cases on with
      | false => rfl
      | true => exact ih 0 s'

@[simp] theorem frames_captured (fs : List Frame) : (captured fs).frames none = fs := by
  simp [frames, walk, visitAll_collecting]

theorem walk_eq (source : Source) (visit : Visitor σ) (s : σ) :
    source.walk visit s = visitAll visit (source.frames none) s := by
  induction source generalizing σ with
  | captured fs => rw [frames_captured]; rfl
  | interrupted handler inner ih =>
    simp only [frames, walk, ih (skipping _), visitAll_skipping, visitAll_collecting,
      List.append_nil, List.reverse_reverse]

end Source

namespace Visitor

/-- A visitor that notes each frame it is passed with its answer, the last one first. -/
def noting (visit : Visitor σ) : Visitor (σ × List (Frame × Bool)) := fun s f =>
  let (s', on) := visit s.1 f
  ((s', (f, on) :: s.2), on)

/-- A visitor does the same when it takes notes. -/
theorem visitAll_noting (visit : Visitor σ) (fs : List Frame) (s : σ)
    (noted : List (Frame × Bool)) :
    (visitAll visit.noting fs (s, noted)).1 = visitAll visit fs s := by
  induction fs generalizing s noted with
  | nil => rfl
  | cons f fs ih =>
    simp only [visitAll, noting]
    rcases visit s f with ⟨s', on⟩
    cases on with
    | false => rfl
    | true => exact ih s' _

end Visitor

end PinnedHeap.Crash
