import PinnedHeap.Manifest.Quoted
import PinnedHeap.Proofs.Text.Hex

/-!
# The grammar of quoted texts

`QuotedText` builds a quoted text from the ways to write its characters.  A character may stand for
itself, or it is escaped by another character, or by its UTF-16 units (`UnitsText`): a character
below 2^16 has one unit, and any other has two.

The reader takes a quoted text off the front of what it reads, whatever follows, and nothing else
(`read_eq_ok_iff`).  The proof goes along the reader.  Each of its functions takes a certain piece
of the grammar off the front, and the pieces are put together in the same way as the functions.
A unit that does not lead or trail is a character of its own, and units that do come in pairs
(`joined_units`, `units_joined`), so the first unit tells whether there is a second one.
-/

namespace PinnedHeap.Manifest.Quoted

/-! ## The grammar -/

/-- Four hexadecimal digits, which give a unit. -/
inductive UnitText : Nat → List Char → Prop
  | digits {n : Nat} {c₁ c₂ c₃ c₄ : Char} (h : Text.Hex.number? [c₁, c₂, c₃, c₄] = some n) :
      UnitText n [c₁, c₂, c₃, c₄]

/-- The first unit of a character from 2^16 on, given its number. -/
def leadUnit (k : Nat) : Nat := 0xd800 + (k - 0x10000) / 0x400

/-- The second unit of such a character. -/
def trailUnit (k : Nat) : Nat := 0xdc00 + (k - 0x10000) % 0x400

/-- The units of a character, as they stand after the first `\u`. -/
inductive UnitsText : Char → List Char → Prop
  | one {c : Char} {w : List Char} (h : UnitText c.toNat w) : UnitsText c w
  | two {c : Char} {lead trail : List Char} (hc : 0x10000 ≤ c.toNat)
      (hlead : UnitText (leadUnit c.toNat) lead) (htrail : UnitText (trailUnit c.toNat) trail) :
      UnitsText c (lead ++ '\\' :: 'u' :: trail)

/-- The characters that escape another one, with what they escape. -/
def shortEscapes : List (Char × Char) :=
  [('"', '"'), ('\\', '\\'), ('/', '/'), ('b', '\x08'), ('f', '\x0c'), ('n', '\n'), ('r', '\r'),
    ('t', '\t')]

/-- The ways to write a character inside quotation marks. -/
inductive CharText : Char → List Char → Prop
  | plain {c : Char} (hquote : c ≠ '"') (hescape : c ≠ '\\') (hcontrol : ' ' ≤ c) : CharText c [c]
  | short {c e : Char} (h : (e, c) ∈ shortEscapes) : CharText c ['\\', e]
  | units {c : Char} {w : List Char} (h : UnitsText c w) : CharText c ('\\' :: 'u' :: w)

/-- Characters as they are written inside quotation marks, one after the other. -/
inductive CharsText : List Char → List Char → Prop
  | nil : CharsText [] []
  | cons {c : Char} {cs v w : List Char} (hc : CharText c v) (h : CharsText cs w) :
      CharsText (c :: cs) (v ++ w)

/-- A text in quotation marks. -/
inductive QuotedText : String → List Char → Prop
  | marks {cs w : List Char} (h : CharsText cs w) :
      QuotedText (String.ofList cs) ('"' :: (w ++ ['"']))

variable {c : Char} {cs w rest : List Char} {n : Nat} {text : String}

/-! ## Units -/

/-- A step of a reader comes before what it is followed by. -/
theorem bind_eq_ok_iff {ε α β : Type} {x : Except ε α} {f : α → Except ε β} {b : β} :
    x >>= f = .ok b ↔ ∃ a, x = .ok a ∧ f a = .ok b := by
  cases x with
  | error e => simp [bind, Except.bind]
  | ok a => simp [bind, Except.bind]

theorem UnitText.lt (h : UnitText n w) : n < 2 ^ 16 := by
  cases h with
  | digits h =>
    have hlt : n < 16 ^ 4 := Text.Hex.number?_lt h
    exact hlt

theorem unit_eq_ok_iff : unit cs = .ok (n, rest) ↔ ∃ w, UnitText n w ∧ cs = w ++ rest := by
  constructor
  · intro h
    unfold unit at h
    split at h
    · rename_i c₁ c₂ c₃ c₄ rest'
      split at h
      · rename_i values hvalues
        cases h
        have hvalue := Text.Hex.number?_eq_mapM [c₁, c₂, c₃, c₄]
        rw [hvalues, Option.map_some] at hvalue
        exact ⟨_, .digits hvalue, rfl⟩
      · exact nomatch h
    · split at h <;> exact nomatch h
  · intro ⟨w, h, hcs⟩
    cases h with
    | digits h =>
      rw [Text.Hex.number?_eq_mapM, Option.map_eq_some_iff] at h
      obtain ⟨values, hvalues, rfl⟩ := h
      rw [hcs]
      simp only [List.cons_append, List.nil_append, unit, hvalues]

theorem after_eq_ok_iff : after c cs = .ok rest ↔ cs = c :: rest := by
  cases cs with
  | nil => simp [after]
  | cons d cs => by_cases hd : d = c <;> simp [after, hd]

theorem leads_iff : leads n = true ↔ 0xd800 ≤ n ∧ n ≤ 0xdbff := by
  simp [leads]

theorem trails_iff : trails n = true ↔ 0xdc00 ≤ n ∧ n ≤ 0xdfff := by
  simp [trails]

theorem not_trails_of_leads (h : leads n = true) : ¬ trails n = true := by
  rw [leads_iff] at h
  rw [trails_iff]
  omega

/-- The number that two units give. -/
def joined (n m : Nat) : Nat := 0x10000 + (n - 0xd800) * 0x400 + (m - 0xdc00)

/-- A number from 2^16 on is given by its two units. -/
theorem joined_units {k : Nat} (hlo : 0x10000 ≤ k) (hhi : k < 0x110000) :
    leads (leadUnit k) = true ∧ trails (trailUnit k) = true ∧
      joined (leadUnit k) (trailUnit k) = k := by
  rw [leads_iff, trails_iff]
  unfold joined leadUnit trailUnit
  omega

/-- Two units that belong together are those of the number that they give. -/
theorem units_joined {m : Nat} (hn : leads n = true) (hm : trails m = true) :
    0x10000 ≤ joined n m ∧ joined n m < 0x110000 ∧ leadUnit (joined n m) = n ∧
      trailUnit (joined n m) = m := by
  rw [leads_iff] at hn
  rw [trails_iff] at hm
  unfold leadUnit trailUnit joined
  omega

/-! ## Characters -/

/-- No character has the number of a unit of a pair. -/
theorem toNat_range (c : Char) : c.toNat < 0xd800 ∨ 0xdfff < c.toNat ∧ c.toNat < 0x110000 :=
  c.valid

theorem toNat_ofNat (h : n < 0xd800 ∨ 0xdfff < n ∧ n < 0x110000) : (Char.ofNat n).toNat = n := by
  rw [Char.ofNat, dif_pos h]
  rfl

/-- The units of a character are read as that character. -/
theorem unitEscape_append (h : UnitsText c w) (rest : List Char) :
    unitEscape (w ++ rest) = .ok (.char c rest) := by
  have hrange := toNat_range c
  rw [unitEscape, bind_eq_ok_iff]
  cases h with
  | one h =>
    have hleads : ¬ leads c.toNat := by
      rw [leads_iff]
      omega
    have htrails : ¬ trails c.toNat := by
      rw [trails_iff]
      omega
    refine ⟨_, unit_eq_ok_iff.2 ⟨w, h, rfl⟩, ?_⟩
    dsimp only
    rw [if_neg htrails, if_neg hleads, Char.ofNat_toNat]
  | @two lead trail hc hlead htrail =>
    obtain ⟨hleads, htrails, hjoined⟩ := joined_units hc (by omega)
    refine ⟨_, unit_eq_ok_iff.2 ⟨lead, hlead, List.append_assoc ..⟩, ?_⟩
    dsimp only
    rw [if_neg (not_trails_of_leads hleads), if_pos hleads]
    simp only [bind_eq_ok_iff, after_eq_ok_iff]
    refine ⟨_, rfl, _, rfl, _, unit_eq_ok_iff.2 ⟨trail, htrail, rfl⟩, ?_⟩
    unfold joined at hjoined
    rw [if_pos htrails, hjoined, Char.ofNat_toNat]

/-- What is read is the units of a character. -/
theorem exists_of_unitEscape {i : Item} (h : unitEscape cs = .ok i) :
    ∃ c w rest, UnitsText c w ∧ i = .char c rest ∧ cs = w ++ rest := by
  rw [unitEscape, bind_eq_ok_iff] at h
  obtain ⟨⟨n, rest⟩, hunit, h⟩ := h
  obtain ⟨lead, hlead, rfl⟩ := unit_eq_ok_iff.1 hunit
  dsimp only at h
  split at h
  · exact nomatch h
  · rename_i htrails
    split at h
    · rename_i hleads
      simp only [bind_eq_ok_iff, after_eq_ok_iff] at h
      obtain ⟨_, rfl, _, rfl, ⟨m, rest⟩, hunit', h⟩ := h
      obtain ⟨trail, htrail, rfl⟩ := unit_eq_ok_iff.1 hunit'
      dsimp only at h
      split at h
      · rename_i htrails
        cases h
        obtain ⟨hlo, hhi, hn, hm⟩ := units_joined hleads htrails
        have hjoined : (Char.ofNat (joined n m)).toNat = joined n m := toNat_ofNat (by omega)
        refine ⟨_, lead ++ '\\' :: 'u' :: trail, rest, .two ?_ ?_ ?_, rfl, by simp⟩
        · exact hjoined.symm ▸ hlo
        · exact hjoined.symm ▸ hn.symm ▸ hlead
        · exact hjoined.symm ▸ hm.symm ▸ htrail
      · exact nomatch h
    · rename_i hleads
      have hlt := hlead.lt
      rw [trails_iff] at htrails
      rw [leads_iff] at hleads
      cases h
      have hn : (Char.ofNat n).toNat = n := toNat_ofNat (by omega)
      exact ⟨Char.ofNat n, lead, rest, .one (hn.symm ▸ hlead), rfl, rfl⟩

theorem lookup_escapes_iff {e : Char} : escapes.lookup e = some c ↔ (e, c) ∈ shortEscapes := by
  constructor
  · intro h
    obtain ⟨before, after, hsplit, -⟩ := List.lookup_eq_some_iff.1 h
    change (e, c) ∈ escapes
    rw [hsplit]
    exact List.mem_append_right _ List.mem_cons_self
  · intro h
    have hall : ∀ p ∈ shortEscapes, escapes.lookup p.1 = some p.2 := by decide
    exact hall _ h

/-- An escape is read as what it is written for. -/
theorem item_append (h : CharText c w) (rest : List Char) :
    item (w ++ rest) = .ok (.char c rest) := by
  cases h with
  | plain hquote hescape hcontrol =>
    have hcontrol : ¬ c < ' ' := Nat.not_lt_of_le hcontrol
    rw [List.singleton_append, item, if_neg hquote, if_neg hescape, if_neg hcontrol]
  | @short e h =>
    have hu : e ≠ 'u' := by
      rintro rfl
      have hnone : escapes.lookup 'u' = none := by decide
      rw [← lookup_escapes_iff, hnone] at h
      cases h
    change escape (e :: rest) = _
    rw [escape, if_neg hu, lookup_escapes_iff.2 h]
  | units h => exact unitEscape_append h rest

theorem exists_of_escape {i : Item} (h : escape cs = .ok i) :
    ∃ c w rest, CharText c ('\\' :: w) ∧ i = .char c rest ∧ cs = w ++ rest := by
  cases cs with
  | nil => cases h
  | cons e cs =>
    rw [escape] at h
    split at h
    · rename_i hu
      obtain ⟨c, w, rest, hw, hi, rfl⟩ := exists_of_unitEscape h
      exact ⟨c, 'u' :: w, rest, .units hw, hi, by rw [hu]; rfl⟩
    · split at h
      · rename_i c hlookup
        cases h
        exact ⟨c, [e], cs, .short (lookup_escapes_iff.1 hlookup), rfl, rfl⟩
      · cases h

/-- What is read is the quotation mark at the end or a character. -/
theorem exists_of_item {i : Item} (h : item cs = .ok i) :
    (∃ rest, i = .close rest ∧ cs = '"' :: rest) ∨
      ∃ c w rest, CharText c w ∧ i = .char c rest ∧ cs = w ++ rest := by
  cases cs with
  | nil => cases h
  | cons c cs =>
    rw [item] at h
    split at h
    · rename_i hquote
      cases h
      exact .inl ⟨cs, rfl, by rw [hquote]⟩
    · rename_i hquote
      right
      split at h
      · rename_i hescape
        obtain ⟨d, w, rest, hw, hi, rfl⟩ := exists_of_escape h
        exact ⟨d, '\\' :: w, rest, hw, hi, by rw [hescape]; rfl⟩
      · rename_i hescape
        split at h
        · cases h
        · rename_i hcontrol
          cases h
          exact ⟨c, [c], cs, .plain hquote hescape (Nat.le_of_not_lt hcontrol), rfl, rfl⟩

/-! ## Texts -/

theorem readFrom_of_close {taken : List Char} (h : item cs = .ok (.close rest)) :
    readFrom taken cs = .ok (taken.reverse, rest) := by
  rw [readFrom]
  split <;> simp_all

theorem readFrom_of_char {taken : List Char} (h : item cs = .ok (.char c rest)) :
    readFrom taken cs = readFrom (c :: taken) rest := by
  rw [readFrom]
  split <;> simp_all

theorem readFrom_append {chars : List Char} (h : CharsText chars w) (taken rest : List Char) :
    readFrom taken (w ++ '"' :: rest) = .ok (taken.reverse ++ chars, rest) := by
  induction h generalizing taken with
  | nil => rw [List.nil_append, List.append_nil, readFrom_of_close rfl]
  | cons hc _ ih =>
    rw [List.append_assoc, readFrom_of_char (item_append hc _), ih, List.reverse_cons,
      List.append_assoc, List.singleton_append]

theorem exists_of_readFrom {taken chars : List Char} (h : readFrom taken cs = .ok (chars, rest)) :
    ∃ chars' w, CharsText chars' w ∧ chars = taken.reverse ++ chars' ∧ cs = w ++ '"' :: rest := by
  fun_induction readFrom taken cs with
  | case1 => cases h
  | case2 taken cs r hitem =>
    cases h
    obtain ⟨_, heq, rfl⟩ | ⟨c, w, _, -, heq, -⟩ := exists_of_item hitem
    · cases heq
      exact ⟨[], [], .nil, (List.append_nil _).symm, rfl⟩
    · cases heq
  | case3 taken cs c r hitem ih =>
    obtain ⟨chars', w', hchars, rfl, rfl⟩ := ih h
    obtain ⟨_, heq, -⟩ | ⟨c, w, _, hc, heq, rfl⟩ := exists_of_item hitem
    · cases heq
    · cases heq
      exact ⟨c :: chars', w ++ w', .cons hc hchars, by simp, by simp⟩

/-- The reader takes a quoted text off the front of what it reads. -/
theorem read_eq_ok_iff :
    read cs = .ok (text, rest) ↔ ∃ w, QuotedText text w ∧ '"' :: cs = w ++ rest := by
  constructor
  · intro h
    cases hread : readFrom [] cs with
    | error f =>
      rw [read, hread] at h
      cases h
    | ok p =>
      obtain ⟨chars, tail⟩ := p
      rw [read, hread] at h
      cases h
      obtain ⟨_, w, hw, rfl, rfl⟩ := exists_of_readFrom hread
      exact ⟨_, .marks hw, by simp⟩
  · intro ⟨_, h, hcs⟩
    cases h with
    | marks h =>
      rw [List.cons_append, List.append_assoc, List.cons.injEq] at hcs
      rw [read, hcs.2, List.singleton_append, readFrom_append h]
      rfl

end PinnedHeap.Manifest.Quoted
