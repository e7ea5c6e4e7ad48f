import PinnedHeap.Manifest.Fault
import PinnedHeap.Text.Hex

/-!
# Quoted texts

A quoted text stands between quotation marks.  It contains any character but a
quotation mark, a backslash and the control characters below the space.  An
escape is a backslash and what it escapes: one of eight single characters, or
`u` and four hexadecimal digits.

Four digits give a UTF-16 unit.  A unit that leads a pair has to be followed by
the escape of one that trails, and both together give one character.  A unit that
trails may not stand elsewhere.
-/

namespace PinnedHeap.Manifest.Quoted

/-- What stands at the front of a quoted text, and what follows it. -/
inductive Item where
  /-- The quotation mark at the end. -/
  | close (rest : List Char)
  /-- A character. -/
  | char (c : Char) (rest : List Char)

/-- What follows an item. -/
def Item.rest : Item → List Char
  | .close rest => rest
  | .char _ rest => rest

/-! ## Escapes -/

/-- The escapes of single characters. -/
def escapes : List (Char × Char) :=
  [('"', '"'), ('\\', '\\'), ('/', '/'), ('b', '\x08'), ('f', '\x0c'), ('n', '\n'), ('r', '\r'),
    ('t', '\t')]

/-- Number of bytes of a text. -/
def byteLength (cs : List Char) : Nat := cs.foldl (fun n c => n + c.utf8Size) 0

/-- The UTF-16 unit given by four hexadecimal digits.  Where fewer than four bytes
are left the text is truncated. -/
def unit (cs : List Char) : Except Fault (Nat × List Char) :=
  match cs with
  | a :: b :: c :: d :: rest =>
    match [a, b, c, d].mapM Text.Hex.value? with
    | some values => .ok (values.foldl (fun n v => n * 16 + v) 0, rest)
    | none => .error .malformed
  | _ => if byteLength cs < 4 then .error .truncated else .error .malformed

/-- Whether a unit leads a pair. -/
def leads (n : Nat) : Bool := 0xd800 ≤ n && n ≤ 0xdbff

/-- Whether a unit trails in a pair. -/
def trails (n : Nat) : Bool := 0xdc00 ≤ n && n ≤ 0xdfff

/-- The text after a character that has to stand at its front. -/
def after (expected : Char) : List Char → Except Fault (List Char)
  | [] => .error .truncated
  | c :: rest => if c = expected then .ok rest else .error .malformed

/-- The character of an escape by its units. -/
def unitEscape (cs : List Char) : Except Fault Item := do
  let (n, rest) ← unit cs
  if trails n then .error .malformed
  else if leads n then
    let rest ← after '\\' rest
    let rest ← after 'u' rest
    let (m, rest) ← unit rest
    if trails m then
      .ok (.char (Char.ofNat (0x10000 + (n - 0xd800) * 0x400 + (m - 0xdc00))) rest)
    else .error .malformed
  else .ok (.char (Char.ofNat n) rest)

/-- The character of an escape. -/
def escape : List Char → Except Fault Item
  | [] => .error .truncated
  | c :: rest =>
    if c = 'u' then unitEscape rest
    else match escapes.lookup c with
      | some d => .ok (.char d rest)
      | none => .error .malformed

/-! ## Items and texts -/

/-- The item at the front of a text. -/
def item : List Char → Except Fault Item
  | [] => .error .truncated
  | c :: rest =>
    if c = '"' then .ok (.close rest)
    else if c = '\\' then escape rest
    else if c < ' ' then .error .malformed
    else .ok (.char c rest)

theorem length_after {e : Char} {cs rest : List Char} (h : after e cs = .ok rest) :
    rest.length < cs.length := by
  cases cs with
  | nil => simp [after] at h
  | cons c cs =>
    simp only [after] at h
    split at h
    · cases h
      simp
    · cases h

theorem length_unit {cs rest : List Char} {n : Nat} (h : unit cs = .ok (n, rest)) :
    rest.length < cs.length := by
  unfold unit at h
  split at h
  · split at h
    · cases h
      simp only [List.length_cons]
      omega
    · cases h
  · split at h <;> cases h

theorem length_unitEscape {cs : List Char} {i : Item} (h : unitEscape cs = .ok i) :
    i.rest.length < cs.length := by
  unfold unitEscape at h
  cases hu : unit cs with
  | error f => simp [hu, bind, Except.bind] at h
  | ok p =>
    obtain ⟨n, r1⟩ := p
    have h1 := length_unit hu
    simp only [hu, bind, Except.bind] at h
    split at h
    · cases h
    split at h
    · cases ha : after '\\' r1 with
      | error f => simp [ha] at h
      | ok r2 =>
        have h2 := length_after ha
        simp only [ha] at h
        cases hb : after 'u' r2 with
        | error f => simp [hb] at h
        | ok r3 =>
          have h3 := length_after hb
          simp only [hb] at h
          cases hv : unit r3 with
          | error f => simp [hv] at h
          | ok q =>
            obtain ⟨m, r4⟩ := q
            have h4 := length_unit hv
            simp only [hv] at h
            split at h
            · cases h
              simp only [Item.rest]
              omega
            · cases h
    · cases h
      exact h1

/-- An item takes at least one character. -/
theorem length_item {cs : List Char} {i : Item} (h : item cs = .ok i) :
    i.rest.length < cs.length := by
  cases cs with
  | nil => simp [item] at h
  | cons c rest =>
    simp only [item] at h
    split at h
    · cases h
      simp [Item.rest]
    split at h
    · cases rest with
      | nil => simp [escape] at h
      | cons d rest =>
        simp only [escape] at h
        split at h
        · have := length_unitEscape h
          simp only [List.length_cons]
          omega
        · split at h
          · cases h
            simp only [Item.rest, List.length_cons]
            omega
          · cases h
    split at h
    · cases h
    · cases h
      simp [Item.rest]

/-- Reads a quoted text whose opening quotation mark is read already.  `taken`
holds the characters so far, the last one first. -/
def readFrom (taken cs : List Char) : Except Fault (List Char × List Char) :=
  match _h : item cs with
  | .error f => .error f
  | .ok (.close rest) => .ok (taken.reverse, rest)
  | .ok (.char c rest) => readFrom (c :: taken) rest
termination_by cs.length
decreasing_by exact length_item _h

/-- A quoted text takes at least its closing quotation mark. -/
theorem length_readFrom {taken cs text rest : List Char}
    (h : readFrom taken cs = .ok (text, rest)) : rest.length < cs.length := by
  fun_induction readFrom taken cs with
  | case1 => simp at h
  | case2 taken cs r hi =>
    cases h
    exact length_item hi
  | case3 taken cs c r hi ih =>
    have := length_item hi
    simp only [Item.rest] at this
    exact Nat.lt_trans (ih h) this

/-- Reads a quoted text whose opening quotation mark is read already. -/
def read (cs : List Char) : Except Fault (String × List Char) :=
  (readFrom [] cs).map fun p => (String.ofList p.1, p.2)

theorem length_read {cs rest : List Char} {text : String} (h : read cs = .ok (text, rest)) :
    rest.length < cs.length := by
  unfold read at h
  cases hr : readFrom [] cs with
  | error f => simp [hr, Except.map] at h
  | ok p =>
    simp only [hr, Except.map, Except.ok.injEq, Prod.mk.injEq] at h
    rw [← h.2]
    exact length_readFrom hr

end PinnedHeap.Manifest.Quoted
