import PinnedHeap.Manifest.Number
import PinnedHeap.Manifest.Quoted

/-!
# Reading manifests

A manifest is one JSON object whose members are texts.  Reading it gives the
members in the order of the text, so a key that is repeated occurs repeatedly.

White space is the space, the tab, the line feed and the carriage return.  It may
stand before and after every token.  Where something other than a text stands as a
value, it is read as far as is needed to tell whether it is well formed: a word,
a number and a text are read to their ends, and an array or an object is refused
at its first character.
-/

namespace PinnedHeap.Manifest

/-- A member of a manifest: its key and its value. -/
abbrev Member := String × String

/-- Whether a character may stand between tokens. -/
def isSpace (c : Char) : Bool := c == ' ' || c == '\n' || c == '\t' || c == '\r'

/-- A text without the white space at its front. -/
def skip (cs : List Char) : List Char := cs.dropWhile isSpace

theorem length_skip (cs : List Char) : (skip cs).length ≤ cs.length :=
  (List.dropWhile_sublist isSpace).length_le

/-! ## Values that are not texts -/

/-- What is wrong with a word, of which the given characters should follow. -/
def wordFault : (expected cs : List Char) → Fault
  | [], _ => .mistyped
  | _ :: _, [] => .truncated
  | e :: es, c :: cs => if c = e then wordFault es cs else .malformed

/-- What is wrong with a value that is not the one expected. -/
def valueFault : List Char → Fault
  | [] => .truncated
  | 'n' :: rest => wordFault ['u', 'l', 'l'] rest
  | 't' :: rest => wordFault ['r', 'u', 'e'] rest
  | 'f' :: rest => wordFault ['a', 'l', 's', 'e'] rest
  | '-' :: rest => Number.fault rest
  | '"' :: rest =>
    match Quoted.read rest with
    | .ok _ => .mistyped
    | .error f => f
  | '[' :: _ => .mistyped
  | '{' :: _ => .mistyped
  | c :: rest => if Text.Numeral.isDigit c then Number.fault (c :: rest) else .malformed

/-! ## Members -/

/-- What is wrong where another character was expected. -/
def tokenFault : List Char → Fault
  | [] => .truncated
  | _ :: _ => .malformed

/-- Reads a value, which has to be a text. -/
def readValue (cs : List Char) : Except Fault (String × List Char) :=
  match skip cs with
  | '"' :: rest => Quoted.read rest
  | other => .error (valueFault other)

/-- Reads a member whose first quotation mark is read already. -/
def readMember (cs : List Char) : Except Fault (Member × List Char) := do
  let (key, rest) ← Quoted.read cs
  match skip rest with
  | ':' :: rest =>
    let (value, rest) ← readValue rest
    .ok ((key, value), rest)
  | other => .error (tokenFault other)

theorem length_readValue {cs rest : List Char} {value : String}
    (h : readValue cs = .ok (value, rest)) : rest.length < cs.length := by
  have hs := length_skip cs
  unfold readValue at h
  split at h
  · rename_i r hr
    have := Quoted.length_read h
    rw [hr, List.length_cons] at hs
    omega
  · cases h

theorem length_readMember {cs rest : List Char} {m : Member}
    (h : readMember cs = .ok (m, rest)) : rest.length < cs.length := by
  unfold readMember at h
  cases hk : Quoted.read cs with
  | error f => simp [hk, bind, Except.bind] at h
  | ok p =>
    obtain ⟨key, r1⟩ := p
    have h1 := Quoted.length_read hk
    have h2 := length_skip r1
    simp only [hk, bind, Except.bind] at h
    split at h
    · rename_i r2 hr
      rw [hr, List.length_cons] at h2
      cases hv : readValue r2 with
      | error f => simp [hv] at h
      | ok q =>
        obtain ⟨value, r3⟩ := q
        have h3 := length_readValue hv
        simp only [hv, Except.ok.injEq, Prod.mk.injEq] at h
        rw [← h.2]
        omega
    · cases h

/-- What follows a member. -/
inductive Continuation where
  /-- The end of the object. -/
  | close (rest : List Char)
  /-- Another member, whose first quotation mark is read already. -/
  | member (rest : List Char)

/-- What follows a continuation. -/
def Continuation.rest : Continuation → List Char
  | .close rest => rest
  | .member rest => rest

/-- Reads what follows a member: the end, or a comma and another member. -/
def readContinuation (cs : List Char) : Except Fault Continuation :=
  match skip cs with
  | '}' :: rest => .ok (.close rest)
  | ',' :: rest =>
    match skip rest with
    | '"' :: rest => .ok (.member rest)
    | other => .error (tokenFault other)
  | other => .error (tokenFault other)

/-- Reads what follows the opening brace: the end, or a member. -/
def readOpening (cs : List Char) : Except Fault Continuation :=
  match skip cs with
  | '}' :: rest => .ok (.close rest)
  | '"' :: rest => .ok (.member rest)
  | other => .error (tokenFault other)

theorem length_readContinuation {cs : List Char} {k : Continuation}
    (h : readContinuation cs = .ok k) : k.rest.length < cs.length := by
  have hs := length_skip cs
  unfold readContinuation at h
  split at h
  · rename_i r hr
    rw [hr, List.length_cons] at hs
    cases h
    simp only [Continuation.rest]
    omega
  · rename_i r hr
    rw [hr, List.length_cons] at hs
    have hs2 := length_skip r
    split at h
    · rename_i r2 hr2
      rw [hr2, List.length_cons] at hs2
      cases h
      simp only [Continuation.rest]
      omega
    · cases h
  · cases h

/-! ## Manifests -/

/-- Reads members to the end of the text, the first of which begins here.  `taken`
holds the members so far, the last one first. -/
def readMembers (taken : List Member) (cs : List Char) : Except Fault (List Member) :=
  match _hm : readMember cs with
  | .error f => .error f
  | .ok (m, rest) =>
    match _hk : readContinuation rest with
    | .error f => .error f
    | .ok (.close rest) =>
      if (skip rest).isEmpty then .ok (m :: taken).reverse else .error .malformed
    | .ok (.member rest) => readMembers (m :: taken) rest
termination_by cs.length
decreasing_by
  have h1 := length_readMember _hm
  have h2 := length_readContinuation _hk
  simp only [Continuation.rest] at h2
  omega

/-- The members of a manifest in the order of its text. -/
def members (text : String) : Except Fault (List Member) :=
  match skip text.toList with
  | '{' :: rest =>
    match readOpening rest with
    | .error f => .error f
    | .ok (.close rest) => if (skip rest).isEmpty then .ok [] else .error .malformed
    | .ok (.member rest) => readMembers [] rest
  | other => .error (valueFault other)

end PinnedHeap.Manifest
