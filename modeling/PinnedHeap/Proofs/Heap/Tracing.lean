import Mathlib.Data.List.Nodup
import PinnedHeap.Proofs.Heap.Effect

/-!
# The work of a marking

A marking is a loop that takes references off its worklist until there are none left.  `Ends`
describes the loop, without a limit on the number of its rounds.  The objects that are marked on the
way are listed in the order of their visits (`Exhausts`).  Every object on the list adds its
references to the worklist, once, since it is no longer unmarked when the next reference to it comes
up.  So the number of rounds is the length of the worklist at the start plus the number of the
references of the objects on the list (`exists_exhausts`).

A collection reads references at three places: in the marking from the roots, for the doomed
objects, and in the marking from what these refer to.  The first one asks the reached objects, the
second the doomed and the third the kept.  No object is in two of these classes, so none is asked
twice (`asksOnce`).
-/

namespace PinnedHeap.Heap

variable {α : Type} [HeapObject α]

/-! ## References of an object -/

/-- The references of the object that a reference names. -/
def refsAt (slots : Array (Slot α)) (r : Ref) : List Ref :=
  ((find? slots r).map fun e => HeapObject.refs e.2).getD []

theorem refsAt_of_find? {slots : Array (Slot α)} {r : Ref} {header : Header} {x : α}
    (hf : find? slots r = some (header, x)) : refsAt slots r = HeapObject.refs x := by
  rw [refsAt, hf]
  rfl

/-- Marks do not matter for the references of an object. -/
theorem refsAt_of_plain {a b : Array (Slot α)} (h : plain a = plain b) : refsAt a = refsAt b := by
  funext r
  have hmap : ((find? a r).map (withMark false)).map (fun e => HeapObject.refs e.2) =
      ((find? b r).map (withMark false)).map fun e => HeapObject.refs e.2 := by
    rw [find?_map_of_plain h]
  rw [Option.map_map, Option.map_map] at hmap
  exact congrArg (Option.getD · []) hmap

/-- The number of references of several objects. -/
def countRefs (slots : Array (Slot α)) (rs : List Ref) : Nat :=
  (rs.map fun r => (refsAt slots r).length).sum

theorem countRefs_of_plain {a b : Array (Slot α)} (h : plain a = plain b) (rs : List Ref) :
    countRefs a rs = countRefs b rs := by
  rw [countRefs, countRefs, refsAt_of_plain h]

theorem countRefs_append (slots : Array (Slot α)) (rs ss : List Ref) :
    countRefs slots (rs ++ ss) = countRefs slots rs + countRefs slots ss := by
  rw [countRefs, List.map_append, List.sum_append]
  rfl

theorem countRefs_reverse (slots : Array (Slot α)) (rs : List Ref) :
    countRefs slots rs.reverse = countRefs slots rs := by
  rw [countRefs, List.map_reverse, List.sum_reverse]
  rfl

/-! ## The loop -/

namespace Marking

/-- The loop takes so many references off the worklist until none is left, and the marking is `m'`
then. -/
inductive Ends : Marking α → Nat → Marking α → Prop
  | empty {m : Marking α} (hw : m.worklist = []) : Ends m 0 m
  | pop {m m' : Marking α} {n : Nat} (hw : m.worklist ≠ []) (h : Ends m.step n m') :
      Ends m (n + 1) m'

/-- A marking visits the objects of a list, in this order, and becomes `m'`. -/
structure Visits (m m' : Marking α) (fresh : List Ref) : Prop where
  /-- The worklist is empty after as many rounds as there are references on it at the start and in
  the objects on the list. -/
  ends : m.Ends (m.worklist.length + countRefs m.slots fresh) m'
  /-- Each object is visited once. -/
  nodup : fresh.Nodup
  /-- The objects on the list are not marked at the start. -/
  unmarked : ∀ r ∈ fresh, Unmarked m.slots r
  /-- They are marked at the end, besides what was marked before. -/
  marked_iff : ∀ r, Marked m'.slots r ↔ Marked m.slots r ∨ r ∈ fresh
  /-- Nothing else changes in the arena. -/
  slots_eq : m'.slots = setMarks true m.slots (fresh.map (·.index.toNat))
  /-- They are the ones whose references are read. -/
  traced_eq : m'.traced = fresh.reverse ++ m.traced

theorem visits_of_worklist_nil {m : Marking α} (hw : m.worklist = []) : m.Visits m [] where
  ends := by
    rw [hw]
    exact .empty hw
  nodup := .nil
  unmarked := by simp
  marked_iff := by simp
  slots_eq := rfl
  traced_eq := rfl

/-- A reference that names nothing unmarked costs one round. -/
theorem Visits.of_drop {m m' : Marking α} {r : Ref} {rest fresh : List Ref}
    (hw : m.worklist = r :: rest) (hs : m.step = { m with worklist := rest })
    (h : m.step.Visits m' fresh) : m.Visits m' fresh := by
  have hends := Ends.pop (hw ▸ List.cons_ne_nil r rest) h.ends
  rw [hs] at h hends
  refine { h with ends := ?_ }
  rw [hw, List.length_cons, Nat.add_right_comm]
  exact hends

/-- A visit costs one round, and as many as the object has references. -/
theorem Visits.of_visit {m m' : Marking α} {r : Ref} {rest fresh : List Ref} {header : Header}
    {x : α} (hw : m.worklist = r :: rest) (hf : find? m.slots r = some (header, x))
    (hm : header.marked = false) (hs : m.step = m.visited r rest x)
    (h : m.step.Visits m' fresh) : m.Visits m' (r :: fresh) := by
  have hends := Ends.pop (hw ▸ List.cons_ne_nil r rest) h.ends
  rw [hs] at h hends
  have hunmarked : ∀ s ∈ fresh, s ≠ r ∧ Unmarked m.slots s := fun s hmem =>
    (unmarked_visited_iff hf s).1 (h.unmarked s hmem)
  have hcount : countRefs (m.visited r rest x).slots fresh = countRefs m.slots fresh :=
    countRefs_of_plain (plain_modify_withMark true m.slots r.index.toNat) fresh
  have hrounds : (m.visited r rest x).worklist.length + countRefs (m.visited r rest x).slots fresh +
      1 = m.worklist.length + countRefs m.slots (r :: fresh) := by
    rw [hcount, hw, visited, push_eq, List.length_append, List.length_reverse, List.length_cons,
      countRefs, countRefs, List.map_cons, List.sum_cons, refsAt_of_find? hf]
    omega
  refine
    { ends := hrounds ▸ hends
      nodup := List.nodup_cons.2 ⟨fun hmem => (hunmarked r hmem).1 rfl, h.nodup⟩
      unmarked := List.forall_mem_cons.2 ⟨⟨header, x, hf, hm⟩, fun s hmem => (hunmarked s hmem).2⟩
      marked_iff := fun s => ?_
      slots_eq := h.slots_eq
      traced_eq := ?_ }
  · rw [h.marked_iff, marked_visited_iff hf, List.mem_cons, or_comm (a := s = r), or_assoc]
  · rw [h.traced_eq, visited, List.reverse_cons, List.append_assoc]
    rfl

/-- With enough rounds left, a marking visits whatever it comes across. -/
theorem exists_visits (n : Nat) (m : Marking α) (hn : m.bound ≤ n) :
    ∃ fresh, m.Visits (m.run n) fresh := by
  induction n generalizing m with
  | zero =>
    have hw : m.worklist = [] := List.eq_nil_of_length_eq_zero (by rw [bound_eq] at hn; omega)
    exact ⟨[], visits_of_worklist_nil hw⟩
  | succ n ih =>
    cases hw : m.worklist with
    | nil =>
      rw [run_of_worklist_nil hw]
      exact ⟨[], visits_of_worklist_nil hw⟩
    | cons r rest =>
      have hb := bound_step hw
      obtain ⟨fresh, h⟩ := ih m.step (by omega)
      rw [run_succ_of_cons hw]
      rcases step_cons hw with ⟨-, hs⟩ | ⟨header, x, hf, hm, hs⟩
      · exact ⟨fresh, h.of_drop hw hs⟩
      · exact ⟨r :: fresh, h.of_visit hw hf hm hs⟩

/-- What a marking does when it runs to its end: it visits what can be reached from the worklist
through objects that are not marked at the start. -/
structure Exhausts (m : Marking α) (fresh : List Ref) : Prop extends Visits m m.finish fresh where
  mem_iff : ∀ r, r ∈ fresh ↔ ReachesBy m.slots (Unmarked m.slots) (· ∈ m.worklist) r

theorem exists_exhausts (m : Marking α) : ∃ fresh, m.Exhausts fresh := by
  obtain ⟨fresh, h⟩ := exists_visits m.bound m (Nat.le_refl _)
  refine ⟨fresh, h, fun r => ?_⟩
  have hmarked := (h.marked_iff r).symm.trans (marked_finish_iff m r)
  constructor
  · intro hr
    exact (hmarked.1 (Or.inr hr)).resolve_left fun hm => hm.not_unmarked (h.unmarked r hr)
  · intro hr
    exact (hmarked.2 (Or.inr hr)).resolve_left fun hm => hm.not_unmarked hr.through_of

end Marking

/-! ## The doomed objects -/

omit [HeapObject α] in
/-- References to slots stand for the slots. -/
theorem map_filterMap_refAt? {β : Type} {slots : Array (Slot α)} {f : Nat → β} {g : Ref → β}
    {indices : List Nat} (h : ∀ i ∈ indices, ∃ r, refAt? slots i = some r ∧ g r = f i) :
    (indices.filterMap (refAt? slots)).map g = indices.map f := by
  induction indices with
  | nil => rfl
  | cons i rest ih =>
    obtain ⟨r, hr, hg⟩ := h i List.mem_cons_self
    rw [List.filterMap_cons_some hr, List.map_cons, List.map_cons, hg,
      ih fun j hj => h j (List.mem_cons_of_mem i hj)]

/-- References to the doomed objects, in ascending order of their slots. -/
def doomedRefs (slots : Array (Slot α)) (roots : List Ref) : List Ref :=
  (doomed (firstMarking slots roots).slots).filterMap (refAt? (firstMarking slots roots).slots)

/-- The references of the doomed objects are read before the second marking. -/
theorem traced_secondMarking (slots : Array (Slot α)) (roots : List Ref) :
    (secondMarking slots roots).traced =
      (doomedRefs slots roots).reverse ++ (firstMarking slots roots).traced := rfl

theorem survey_traced (slots : Array (Slot α)) (roots : List Ref) :
    (survey slots roots).traced = (secondMarking slots roots).finish.traced := by
  rw [survey, secondMarking, firstMarking]

section Collection

variable {h : Heap α} (roots : List Ref) (hp : h.Plain) (hsize : h.slots.size ≤ indexLimit)
include hp hsize

theorem mem_doomedRefs_iff (r : Ref) : r ∈ doomedRefs h.slots roots ↔ h.IsDoomed roots r := by
  rw [doomedRefs, List.mem_filterMap]
  constructor
  · rintro ⟨i, hi, hr⟩
    obtain ⟨s, -, -, hs, -, -, href⟩ := exists_ref_of_mem_doomed roots hp hsize hi
    rwa [← Option.some.inj (href.symm.trans hr)]
  · intro hr
    have hi := (index_mem_doomed_iff roots hp hr.isLive).2 hr
    obtain ⟨s, -, hindex, hs, -, -, href⟩ := exists_ref_of_mem_doomed roots hp hsize hi
    obtain ⟨header, x, hf⟩ := isLive_iff_find?.1 hr.isLive
    obtain ⟨header', x', hf'⟩ := isLive_iff_find?.1 hs.isLive
    rw [ref_eq_of_index hf hf' hindex.symm]
    exact ⟨_, hi, hindex ▸ href⟩

theorem nodup_doomedRefs : (doomedRefs h.slots roots).Nodup := by
  have hmap : (doomedRefs h.slots roots).map (·.index.toNat) =
      (doomed (firstMarking h.slots roots).slots).map id := by
    refine map_filterMap_refAt? fun i hi => ?_
    obtain ⟨r, -, hindex, -, -, -, href⟩ := exists_ref_of_mem_doomed roots hp hsize hi
    exact ⟨r, href, hindex⟩
  refine List.Nodup.of_map (·.index.toNat) ?_
  rw [hmap, List.map_id, doomed]
  exact List.nodup_range.filter _

/-- The second marking starts with the references of the doomed objects on its worklist. -/
theorem length_worklist_secondMarking : (secondMarking h.slots roots).worklist.length =
    countRefs h.slots (doomedRefs h.slots roots) := by
  have hempty : (firstMarking h.slots roots).worklist = [] := Marking.worklist_finish _
  have hmap : (doomedRefs h.slots roots).map (fun r => (refsAt h.slots r).length) =
      (doomed (firstMarking h.slots roots).slots).map fun i =>
        (((firstMarking h.slots roots).slots[i]?.map Slot.refs).getD []).length := by
    refine map_filterMap_refAt? fun i hi => ?_
    obtain ⟨r, x, -, -, hx, hrefs, href⟩ := exists_ref_of_mem_doomed roots hp hsize hi
    obtain ⟨header, hf⟩ := get?_eq_some_iff.1 hx
    exact ⟨r, href, by rw [refsAt_of_find? hf, hrefs, Option.getD_some]⟩
  rw [countRefs, hmap, secondMarking, Marking.ofDoomed, Marking.push_eq, hempty, List.append_nil,
    List.length_reverse, List.length_flatMap]

/-- What both markings find on their worklists at the start or add to them: the roots, and the
references of the doomed objects and of those that are visited. -/
theorem length_worklists_add (first second : List Ref) :
    (Marking.push [] roots).length + countRefs h.slots first +
      ((secondMarking h.slots roots).worklist.length +
        countRefs (secondMarking h.slots roots).slots second) =
    roots.length + countRefs h.slots
      (second.reverse ++ ((doomedRefs h.slots roots).reverse ++ first.reverse)) := by
  have hplain : plain (secondMarking h.slots roots).slots = plain h.slots :=
    (plain_secondMarking roots hp).trans hp.symm
  rw [countRefs_append, countRefs_append, countRefs_reverse, countRefs_reverse, countRefs_reverse,
    length_worklist_secondMarking roots hp hsize, countRefs_of_plain hplain, Marking.push_eq,
    List.append_nil, List.length_reverse]
  omega

/-! ## The two markings of a collection -/

omit hsize in
/-- The marking from the roots visits the reached objects. -/
theorem exists_exhausts_roots : ∃ fresh,
    Marking.Exhausts { slots := h.slots, worklist := Marking.push [] roots } fresh ∧
      ∀ r, r ∈ fresh ↔ h.Reached roots r := by
  obtain ⟨fresh, he⟩ :=
    Marking.exists_exhausts { slots := h.slots, worklist := Marking.push [] roots }
  refine ⟨fresh, he, fun r => ?_⟩
  have hno : ¬ Marked h.slots r := by
    rw [← hp]
    exact not_marked_plain h.slots r
  rw [← marked_firstMarking_iff roots hp, firstMarking, he.marked_iff, or_iff_right hno]

/-- The marking from the references of the doomed objects visits the kept objects. -/
theorem exists_exhausts_secondMarking :
    ∃ fresh, (secondMarking h.slots roots).Exhausts fresh ∧ ∀ r, r ∈ fresh ↔ h.IsKept roots r := by
  obtain ⟨fresh, he⟩ := Marking.exists_exhausts (secondMarking h.slots roots)
  refine ⟨fresh, he, fun r => ?_⟩
  have hmarked := he.marked_iff r
  rw [marked_finish_secondMarking_iff roots hp hsize, marked_secondMarking_iff roots hp] at hmarked
  constructor
  · intro hr
    refine (hmarked.2 (Or.inr hr)).resolve_left fun hclaimed => ?_
    exact ((marked_secondMarking_iff roots hp r).2 hclaimed).not_unmarked (he.unmarked r hr)
  · intro hk
    exact (hmarked.1 (Or.inr hk)).resolve_left fun hclaimed => hclaimed.elim hk.2.1 hk.2.2

end Collection

/-! ## A whole collection -/

/-- The objects whose references a collection reads, the latest first.  A heap that is never
collected reads none. -/
def asked (h : Heap α) (providers : List (List Ref)) : List Ref :=
  match h.config.mode with
  | .disabled => []
  | .markSweep => (survey h.slots providers.flatten).traced

/-- How often a collection reads references. -/
structure AsksOnce (h : Heap α) (providers : List (List Ref)) : Prop where
  /-- Each object is asked at most once. -/
  nodup : (h.asked providers).Nodup
  /-- Only live objects are asked. -/
  isLive : ∀ r ∈ h.asked providers, h.isLive r
  /-- These are all but the garbage that no doomed object leads to. -/
  mem_iff : h.config.mode = .markSweep → ∀ r, r ∈ h.asked providers ↔
    h.Reached providers.flatten r ∨ h.IsDoomed providers.flatten r ∨ h.IsKept providers.flatten r
  /-- The two markings take the roots and the references of these objects off their worklists, and
  no other references. -/
  ends : h.config.mode = .markSweep → ∃ first second,
    Marking.Ends { slots := h.slots, worklist := Marking.push [] providers.flatten } first
      (firstMarking h.slots providers.flatten) ∧
    (secondMarking h.slots providers.flatten).Ends second
      (secondMarking h.slots providers.flatten).finish ∧
    first + second = providers.flatten.length + countRefs h.slots (h.asked providers)

/-- What each of the two markings of a collection visits. -/
structure Rounds (h : Heap α) (roots first second : List Ref) : Prop where
  reached : Marking.Exhausts { slots := h.slots, worklist := Marking.push [] roots } first
  kept : (secondMarking h.slots roots).Exhausts second
  mem_first_iff : ∀ r, r ∈ first ↔ h.Reached roots r
  mem_second_iff : ∀ r, r ∈ second ↔ h.IsKept roots r

theorem exists_rounds {h : Heap α} (roots : List Ref) (hp : h.Plain)
    (hsize : h.slots.size ≤ indexLimit) : ∃ first second, h.Rounds roots first second := by
  obtain ⟨first, hfirst, hreached⟩ := exists_exhausts_roots roots hp
  obtain ⟨second, hsecond, hkept⟩ := exists_exhausts_secondMarking roots hp hsize
  exact ⟨first, second, hfirst, hsecond, hreached, hkept⟩

section Rounds

variable {h : Heap α} {providers : List (List Ref)} {first second : List Ref}
  (hr : h.Rounds providers.flatten first second)
include hr

/-- The doomed objects are asked between the two markings. -/
theorem Rounds.asked_eq (hm : h.config.mode = .markSweep) : h.asked providers =
    second.reverse ++ ((doomedRefs h.slots providers.flatten).reverse ++ first.reverse) := by
  have hroots : (firstMarking h.slots providers.flatten).traced = first.reverse := by
    rw [firstMarking, hr.reached.traced_eq, List.append_nil]
  rw [asked, hm, ← hroots, ← traced_secondMarking, ← hr.kept.traced_eq]
  exact survey_traced h.slots providers.flatten

theorem Rounds.mem_asked_iff (hs : h.Sound) (hm : h.config.mode = .markSweep) (r : Ref) :
    r ∈ h.asked providers ↔ h.Reached providers.flatten r ∨ h.IsDoomed providers.flatten r ∨
      h.IsKept providers.flatten r := by
  rw [hr.asked_eq hm, List.mem_append, List.mem_append, List.mem_reverse, List.mem_reverse,
    List.mem_reverse, hr.mem_first_iff, hr.mem_second_iff,
    mem_doomedRefs_iff providers.flatten hs.plain hs.size_le, or_comm,
    or_comm (b := h.Reached _ r), or_assoc]

/-- No object is reached and doomed, and a kept one is neither. -/
theorem Rounds.nodup (hs : h.Sound) : (second.reverse ++
    ((doomedRefs h.slots providers.flatten).reverse ++ first.reverse)).Nodup := by
  have hdoomed := mem_doomedRefs_iff providers.flatten hs.plain hs.size_le
  have hnodup := nodup_doomedRefs providers.flatten hs.plain hs.size_le
  have hclaimed : ((doomedRefs h.slots providers.flatten).reverse ++ first.reverse).Nodup := by
    refine List.Nodup.append (List.nodup_reverse.2 hnodup)
      (List.nodup_reverse.2 hr.reached.nodup) fun r hd hf => ?_
    rw [List.mem_reverse] at hd hf
    exact ((hdoomed r).1 hd).2 ((hr.mem_first_iff r).1 hf)
  refine List.Nodup.append (List.nodup_reverse.2 hr.kept.nodup) hclaimed fun r hk hc => ?_
  rw [List.mem_reverse, hr.mem_second_iff] at hk
  rw [List.mem_append, List.mem_reverse, List.mem_reverse, hdoomed, hr.mem_first_iff] at hc
  exact hc.elim hk.2.2 hk.2.1

end Rounds

theorem asksOnce_of_disabled {h : Heap α} (hm : h.config.mode = .disabled)
    (providers : List (List Ref)) : h.AsksOnce providers := by
  have hasked : h.asked providers = [] := by rw [asked, hm]
  have hnot : h.config.mode ≠ .markSweep := by simp [hm]
  refine ⟨?_, ?_, fun hm' => absurd hm' hnot, fun hm' => absurd hm' hnot⟩
  · rw [hasked]
    exact .nil
  · simp [hasked]

theorem asksOnce_of_markSweep {h : Heap α} (hs : h.Sound) (hm : h.config.mode = .markSweep)
    (providers : List (List Ref)) : h.AsksOnce providers := by
  obtain ⟨first, second, hr⟩ := exists_rounds providers.flatten hs.plain hs.size_le
  have hasked := hr.asked_eq hm
  have hmem := hr.mem_asked_iff hs hm
  refine ⟨hasked ▸ hr.nodup hs, fun r hr => ?_, fun _ => hmem, fun _ => ?_⟩
  · rcases (hmem r).1 hr with hr | hr | hr
    · exact hr.isLive
    · exact hr.isLive
    · exact hr.isLive
  · refine ⟨_, _, hr.reached.ends, hr.kept.ends, ?_⟩
    rw [hasked]
    exact length_worklists_add providers.flatten hs.plain hs.size_le first second

/-- A marking runs to its end and visits what it can reach, each object once, and a collection of a
reachable heap asks no object for its references twice. -/
theorem exhausts_and_asksOnce (m : Marking α) {h : Heap α} (hr : h.Reachable)
    (providers : List (List Ref)) : (∃ fresh, m.Exhausts fresh) ∧ h.AsksOnce providers := by
  refine ⟨m.exists_exhausts, ?_⟩
  cases hm : h.config.mode with
  | disabled => exact asksOnce_of_disabled hm providers
  | markSweep => exact asksOnce_of_markSweep hr.sound hm providers

/-- The owner refers to itself and to a leaf.  A marking from the owner and from a stale reference
visits the two.  A collection asks the node that is the root, then the owner, which is doomed, and
then the leaf. -/
theorem exhausts_and_asksOnce_ownerHeap :
    (ownerHeap {}).Reachable ∧
      (∃ fresh, Marking.Exhausts
        { slots := (ownerHeap {}).slots, worklist := [⟨1, 1⟩, ⟨9, 3⟩] } fresh) ∧
      (ownerHeap {}).AsksOnce [[⟨2, 1⟩]] ∧
      (ownerHeap {}).asked [[⟨2, 1⟩]] = [⟨0, 1⟩, ⟨1, 1⟩, ⟨2, 1⟩] :=
  have hr : (ownerHeap {}).Reachable := ⟨{}, _, rfl⟩
  have hboth := exhausts_and_asksOnce
    { slots := (ownerHeap {}).slots, worklist := [⟨1, 1⟩, ⟨9, 3⟩] } hr [[⟨2, 1⟩]]
  ⟨hr, hboth.1, hboth.2, by decide⟩

end PinnedHeap.Heap
