import PinnedHeap.Manifest.Reader
import PinnedHeap.Proofs.Manifest.Quoted

/-!
# The grammar of manifests

`ObjectText` builds a manifest from its members, in the order of the text.  White space may stand
before and after every token.  The members of a text are read exactly if the text is built from
them (`members_eq_ok_iff`), so a text has its members in one way only (`ObjectText.unique`).

As with quoted texts, each function of the reader takes a piece of the grammar off the front.  The
reader skips all white space before it looks at a token, and a token does not begin with white
space, so there is no choice of how much to skip (`skip_eq_cons_iff`).
-/

namespace PinnedHeap.Manifest

open Quoted (QuotedText)

/-! ## The grammar -/

/-- White space. -/
def Space (w : List Char) : Prop := ∀ c ∈ w, c ∈ [' ', '\t', '\n', '\r']

/-- A key and its value, with a colon between them. -/
inductive MemberText : Member → List Char → Prop
  | pair {key value : String} {k s s' v : List Char} (hkey : QuotedText key k) (hs : Space s)
      (hs' : Space s') (hvalue : QuotedText value v) :
      MemberText (key, value) (k ++ s ++ ':' :: (s' ++ v))

/-- At least one member, with commas between them. -/
inductive MembersText : List Member → List Char → Prop
  | last {m : Member} {w : List Char} (h : MemberText m w) : MembersText [m] w
  | cons {m : Member} {ms : List Member} {v s s' w : List Char} (hm : MemberText m v)
      (hs : Space s) (hs' : Space s') (h : MembersText ms w) :
      MembersText (m :: ms) (v ++ s ++ ',' :: (s' ++ w))

/-- What stands between the braces. -/
inductive BodyText : List Member → List Char → Prop
  | empty {s : List Char} (hs : Space s) : BodyText [] s
  | members {ms : List Member} {s w s' : List Char} (hs : Space s) (h : MembersText ms w)
      (hs' : Space s') : BodyText ms (s ++ w ++ s')

/-- An object with its members, and nothing else but white space. -/
inductive ObjectText : List Member → List Char → Prop
  | braces {ms : List Member} {s w s' : List Char} (hs : Space s) (h : BodyText ms w)
      (hs' : Space s') : ObjectText ms (s ++ '{' :: (w ++ '}' :: s'))

variable {c : Char} {cs w rest : List Char} {m : Member} {ms : List Member}

/-! ## White space -/

theorem isSpace_iff : isSpace c = true ↔ c ∈ [' ', '\t', '\n', '\r'] := by
  simp only [isSpace, Bool.or_eq_true, beq_iff_eq, List.mem_cons, List.not_mem_nil]
  tauto

theorem skip_append (hs : Space w) (rest : List Char) : skip (w ++ rest) = skip rest :=
  List.dropWhile_append_of_pos fun c hc => isSpace_iff.2 (hs c hc)

theorem exists_skip (cs : List Char) : ∃ s, Space s ∧ cs = s ++ skip cs := by
  refine ⟨cs.takeWhile isSpace, fun c hc => ?_, List.takeWhile_append_dropWhile.symm⟩
  exact isSpace_iff.1 (List.all_eq_true.1 List.all_takeWhile c hc)

/-- A token is found after all white space in front of it. -/
theorem skip_eq_cons_iff (hc : isSpace c = false) :
    skip cs = c :: rest ↔ ∃ s, Space s ∧ cs = s ++ c :: rest := by
  constructor
  · intro h
    obtain ⟨s, hs, hcs⟩ := exists_skip cs
    rw [h] at hcs
    exact ⟨s, hs, hcs⟩
  · intro ⟨s, hs, hcs⟩
    have hnot : ¬ isSpace c = true := by simp [hc]
    rw [hcs, skip_append hs, skip, List.dropWhile_cons_of_neg hnot]

theorem isEmpty_skip_iff : (skip cs).isEmpty = true ↔ Space cs := by
  rw [List.isEmpty_iff]
  constructor
  · intro h
    obtain ⟨s, hs, hcs⟩ := exists_skip cs
    rw [h, List.append_nil] at hcs
    rwa [hcs]
  · intro hs
    have hskip := skip_append hs []
    rwa [List.append_nil] at hskip

/-! ## Members -/

theorem exists_cons_of_quoted {text : String} (h : QuotedText text w) : ∃ w', w = '"' :: w' := by
  cases h
  exact ⟨_, rfl⟩

theorem readValue_eq_ok_iff {value : String} :
    readValue cs = .ok (value, rest) ↔
      ∃ s v, Space s ∧ QuotedText value v ∧ cs = s ++ (v ++ rest) := by
  constructor
  · intro h
    unfold readValue at h
    split at h
    · rename_i tail hskip
      obtain ⟨s, hs, rfl⟩ := (skip_eq_cons_iff rfl).1 hskip
      obtain ⟨v, hv, hcs⟩ := Quoted.read_eq_ok_iff.1 h
      exact ⟨s, v, hs, hv, by rw [hcs]⟩
    · exact nomatch h
  · intro ⟨s, v, hs, hv, hcs⟩
    obtain ⟨tail, htail⟩ := exists_cons_of_quoted hv
    rw [htail, List.cons_append] at hcs
    rw [readValue, (skip_eq_cons_iff rfl).2 ⟨s, hs, hcs⟩]
    exact Quoted.read_eq_ok_iff.2 ⟨v, hv, by rw [htail, List.cons_append]⟩

theorem readMember_eq_ok_iff :
    readMember cs = .ok (m, rest) ↔ ∃ w, MemberText m w ∧ '"' :: cs = w ++ rest := by
  rw [readMember, Quoted.bind_eq_ok_iff]
  constructor
  · intro ⟨⟨key, tail⟩, hkey, h⟩
    obtain ⟨k, hk, hcs⟩ := Quoted.read_eq_ok_iff.1 hkey
    dsimp only at h
    split at h
    · rename_i tail' hskip
      obtain ⟨s, hs, rfl⟩ := (skip_eq_cons_iff rfl).1 hskip
      rw [Quoted.bind_eq_ok_iff] at h
      obtain ⟨⟨value, rest⟩, hvalue, h⟩ := h
      cases h
      obtain ⟨s', v, hs', hv, rfl⟩ := readValue_eq_ok_iff.1 hvalue
      exact ⟨_, .pair hk hs hs' hv, by simp [hcs]⟩
    · exact nomatch h
  · intro ⟨_, h, hcs⟩
    cases h with
    | @pair key value k s s' v hk hs hs' hv =>
      simp only [List.append_assoc, List.cons_append] at hcs
      refine ⟨_, Quoted.read_eq_ok_iff.2 ⟨k, hk, hcs⟩, ?_⟩
      dsimp only
      rw [(skip_eq_cons_iff rfl).2 ⟨s, hs, rfl⟩]
      simp only [Quoted.bind_eq_ok_iff]
      exact ⟨_, readValue_eq_ok_iff.2 ⟨s', v, hs', hv, rfl⟩, rfl⟩

/-! ## Between members -/

/-- What stands after the opening brace, up to a member. -/
inductive OpeningText : Continuation → List Char → Prop
  | close {s : List Char} (hs : Space s) (rest : List Char) :
      OpeningText (.close rest) (s ++ '}' :: rest)
  | member {s : List Char} (hs : Space s) (rest : List Char) :
      OpeningText (.member rest) (s ++ '"' :: rest)

/-- What stands after a member, up to the next one. -/
inductive ContinuationText : Continuation → List Char → Prop
  | close {s : List Char} (hs : Space s) (rest : List Char) :
      ContinuationText (.close rest) (s ++ '}' :: rest)
  | member {s s' : List Char} (hs : Space s) (hs' : Space s') (rest : List Char) :
      ContinuationText (.member rest) (s ++ ',' :: (s' ++ '"' :: rest))

theorem readOpening_eq_ok_iff {k : Continuation} :
    readOpening cs = .ok k ↔ OpeningText k cs := by
  constructor
  · intro h
    unfold readOpening at h
    split at h
    · rename_i hskip
      cases h
      obtain ⟨s, hs, rfl⟩ := (skip_eq_cons_iff rfl).1 hskip
      exact .close hs _
    · rename_i hskip
      cases h
      obtain ⟨s, hs, rfl⟩ := (skip_eq_cons_iff rfl).1 hskip
      exact .member hs _
    · exact nomatch h
  · intro h
    cases h with
    | close hs rest =>
      rw [readOpening, (skip_eq_cons_iff rfl).2 ⟨_, hs, rfl⟩]
      rfl
    | member hs rest =>
      rw [readOpening, (skip_eq_cons_iff rfl).2 ⟨_, hs, rfl⟩]
      rfl

theorem readContinuation_eq_ok_iff {k : Continuation} :
    readContinuation cs = .ok k ↔ ContinuationText k cs := by
  constructor
  · intro h
    unfold readContinuation at h
    split at h
    · rename_i hskip
      cases h
      obtain ⟨s, hs, rfl⟩ := (skip_eq_cons_iff rfl).1 hskip
      exact .close hs _
    · rename_i hskip
      obtain ⟨s, hs, rfl⟩ := (skip_eq_cons_iff rfl).1 hskip
      split at h
      · rename_i hskip'
        cases h
        obtain ⟨s', hs', rfl⟩ := (skip_eq_cons_iff rfl).1 hskip'
        exact .member hs hs' _
      · exact nomatch h
    · exact nomatch h
  · intro h
    cases h with
    | close hs rest =>
      rw [readContinuation, (skip_eq_cons_iff rfl).2 ⟨_, hs, rfl⟩]
      rfl
    | member hs hs' rest =>
      have hskip := (skip_eq_cons_iff rfl).2 ⟨_, hs', Eq.refl (_ ++ '"' :: rest)⟩
      rw [readContinuation, (skip_eq_cons_iff rfl).2 ⟨_, hs, rfl⟩]
      simp only [hskip]

/-! ## All members -/

theorem exists_cons_of_members (h : MembersText ms w) : ∃ w', w = '"' :: w' := by
  have hmember {m : Member} {w : List Char} (h : MemberText m w) : ∃ w', w = '"' :: w' := by
    cases h with
    | pair hkey =>
      obtain ⟨k, rfl⟩ := exists_cons_of_quoted hkey
      exact ⟨_, rfl⟩
  cases h with
  | last h => exact hmember h
  | cons h =>
    obtain ⟨w', rfl⟩ := hmember h
    exact ⟨_, rfl⟩

section Steps

variable {taken : List Member} {tail : List Char}

theorem readMembers_of_close (hm : readMember cs = .ok (m, tail))
    (hk : readContinuation tail = .ok (.close rest)) (hs : Space rest) :
    readMembers taken cs = .ok (m :: taken).reverse := by
  have hempty : (skip rest).isEmpty = true := isEmpty_skip_iff.2 hs
  rw [readMembers]
  split
  · simp_all
  · split <;> simp_all

theorem readMembers_of_member (hm : readMember cs = .ok (m, tail))
    (hk : readContinuation tail = .ok (.member rest)) :
    readMembers taken cs = readMembers (m :: taken) rest := by
  rw [readMembers]
  split
  · simp_all
  · split <;> simp_all

end Steps

/-- The members that a text is built from are read in their order. -/
theorem readMembers_of_text {w s s' : List Char} (h : MembersText ms w) (hs : Space s)
    (hs' : Space s') (hcs : '"' :: cs = w ++ (s ++ '}' :: s')) (taken : List Member) :
    readMembers taken cs = .ok (taken.reverse ++ ms) := by
  induction h generalizing cs taken with
  | @last m w hm =>
    have hread := readMember_eq_ok_iff.2 ⟨w, hm, hcs⟩
    rw [readMembers_of_close hread (readContinuation_eq_ok_iff.2 (.close hs s')) hs',
      List.reverse_cons]
  | @cons m ms v t t' w hm ht ht' hms ih =>
    obtain ⟨w', rfl⟩ := exists_cons_of_members hms
    simp only [List.append_assoc, List.cons_append] at hcs
    have hread := readMember_eq_ok_iff.2 ⟨v, hm, hcs⟩
    rw [readMembers_of_member hread (readContinuation_eq_ok_iff.2 (.member ht ht' _))]
    have hrest := ih (List.cons_append ..).symm (m :: taken)
    rwa [List.reverse_cons, List.append_assoc, List.singleton_append] at hrest

theorem exists_of_readMembers {taken : List Member} (h : readMembers taken cs = .ok ms) :
    ∃ ms' w s s', MembersText ms' w ∧ Space s ∧ Space s' ∧ ms = taken.reverse ++ ms' ∧
      '"' :: cs = w ++ (s ++ '}' :: s') := by
  fun_induction readMembers taken cs with
  | case1 => exact nomatch h
  | case2 => exact nomatch h
  | case3 taken cs m tail hm rest hk hempty =>
    cases h
    obtain ⟨w, hw, hcs⟩ := readMember_eq_ok_iff.1 hm
    cases readContinuation_eq_ok_iff.1 hk with
    | close hs =>
      exact ⟨[m], w, _, rest, .last hw, hs, isEmpty_skip_iff.1 hempty, List.reverse_cons, hcs⟩
  | case4 => exact nomatch h
  | case5 taken cs m tail hm rest hk ih =>
    obtain ⟨w, hw, hcs⟩ := readMember_eq_ok_iff.1 hm
    obtain ⟨ms', w', s, s', hms, hs, hs', rfl, hrest⟩ := ih h
    cases readContinuation_eq_ok_iff.1 hk with
    | member ht ht' =>
      refine ⟨m :: ms', _, s, s', .cons hw ht ht' hms, hs, hs', by simp, ?_⟩
      simp [hcs, hrest]

/-- The members of a text are those that it is built from. -/
theorem members_eq_ok_iff {text : String} :
    members text = .ok ms ↔ ObjectText ms text.toList := by
  constructor
  · intro h
    unfold members at h
    split at h
    · rename_i tail hskip
      obtain ⟨s, hs, hcs⟩ := (skip_eq_cons_iff rfl).1 hskip
      rw [hcs]
      split at h
      · exact nomatch h
      · rename_i rest hk
        split at h
        · rename_i hempty
          cases h
          cases readOpening_eq_ok_iff.1 hk with
          | close ht => exact .braces hs (.empty ht) (isEmpty_skip_iff.1 hempty)
        · exact nomatch h
      · rename_i rest hk
        obtain ⟨ms, w, t', s', hms, ht', hs', rfl, hrest⟩ := exists_of_readMembers h
        cases readOpening_eq_ok_iff.1 hk with
        | @member t ht =>
          have htext : s ++ '{' :: (t ++ '"' :: rest) =
              s ++ '{' :: (t ++ w ++ t' ++ '}' :: s') := by simp [hrest]
          rw [htext]
          exact .braces hs (.members ht hms ht') hs'
    · exact nomatch h
  · intro h
    generalize htext : text.toList = cs at h
    cases h with
    | @braces s w s' hs h hs' =>
      have hskip := (skip_eq_cons_iff rfl).2 ⟨s, hs, Eq.refl (s ++ '{' :: (w ++ '}' :: s'))⟩
      simp only [members, htext, hskip]
      cases h with
      | empty ht =>
        rw [readOpening_eq_ok_iff.2 (.close ht s')]
        exact if_pos (isEmpty_skip_iff.2 hs')
      | members ht hms ht' =>
        obtain ⟨w', rfl⟩ := exists_cons_of_members hms
        simp only [List.append_assoc, List.cons_append]
        rw [readOpening_eq_ok_iff.2 (.member ht _)]
        exact readMembers_of_text hms ht' hs' (by simp) []

/-- A text has its members in one way. -/
theorem ObjectText.unique {ms' : List Member} (h : ObjectText ms cs) (h' : ObjectText ms' cs) :
    ms = ms' := by
  rw [← String.toList_ofList (l := cs), ← members_eq_ok_iff] at h h'
  rw [h] at h'
  exact Except.ok.inj h'

end PinnedHeap.Manifest
