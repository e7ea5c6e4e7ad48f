import PinnedHeap.Proofs.Symbol.Pairs
import PinnedHeap.Proofs.Text.Hex
import PinnedHeap.Symbol.Digest

/-!
# Digests identify tables

The bytes that stand for a table determine its entries (`digestInput_inj`).  A name may consist of
any bytes, also of such as look like the length of a name, so no byte marks where a name ends.  But
every length takes eight bytes, so the front of the sequence says how long the first name is, and
what is left is a sequence of the same kind (`nameBytes_front`).  A code with this property is
*separable*, and a concatenation of its words determines the items (`Separable.flatMap_inj`).

Hexadecimal digits are another separable code.  So tables with the same digest have the same bytes,
or else they are two messages with the same SHA-256 digest.
-/

namespace PinnedHeap

/-! ## Separable codes -/

/-- The first item can be told from the front of any sequence of codes, whatever follows. -/
structure Separable {α β : Type} (code : α → List β) (P : α → Prop) : Prop where
  ne_nil : ∀ a, code a ≠ []
  front : ∀ {a b x y}, P a → P b → code a ++ x = code b ++ y → a = b ∧ x = y

/-- The codes of some items in a row determine the items. -/
theorem Separable.flatMap_inj {α β : Type} {code : α → List β} {P : α → Prop}
    (hs : Separable code P) {xs ys : List α} (hxs : ∀ a ∈ xs, P a) (hys : ∀ b ∈ ys, P b)
    (heq : xs.flatMap code = ys.flatMap code) : xs = ys := by
  induction xs generalizing ys with
  | nil =>
    cases ys with
    | nil => rfl
    | cons b ys =>
      rw [List.flatMap_nil, List.flatMap_cons] at heq
      exact absurd (List.append_eq_nil_iff.1 heq.symm).1 (hs.ne_nil b)
  | cons a xs ih =>
    rw [List.forall_mem_cons] at hxs
    cases ys with
    | nil =>
      rw [List.flatMap_nil, List.flatMap_cons] at heq
      exact absurd (List.append_eq_nil_iff.1 heq).1 (hs.ne_nil a)
    | cons b ys =>
      rw [List.forall_mem_cons] at hys
      rw [List.flatMap_cons, List.flatMap_cons] at heq
      obtain ⟨rfl, hrest⟩ := hs.front hxs.1 hys.1 heq
      rw [ih hxs.2 hys.2 hrest]

namespace Text.Hex

theorem fixed_two_inj {a b : UInt8} (heq : fixed 2 a.toNat = fixed 2 b.toNat) : a = b := by
  have hnumber := congrArg number? heq
  rw [number?_fixed, number?_fixed, Option.some.injEq] at hnumber
  have ha := a.toNat_lt
  have hb := b.toNat_lt
  exact UInt8.toNat_inj.1 (by omega)

/-- Every byte has two digits, so the first two digits belong to the first byte. -/
theorem separable_fixed_two : Separable (fun b : UInt8 => fixed 2 b.toNat) fun _ => True where
  ne_nil b := List.ne_nil_of_length_pos (by rw [length_fixed]; decide)
  front _ _ heq := by
    obtain ⟨hdigits, hrest⟩ := List.append_inj heq (by rw [length_fixed, length_fixed])
    exact ⟨fixed_two_inj hdigits, hrest⟩

theorem ofBytes_inj {as bs : List UInt8} (heq : ofBytes as = ofBytes bs) : as = bs :=
  separable_fixed_two.flatMap_inj (fun _ _ => trivial) (fun _ _ => trivial) heq

end Text.Hex

namespace Digest.Sha256

theorem length_bytesOf (k n : Nat) : (bytesOf k n).length = k := by
  induction k generalizing n with
  | zero => rfl
  | succ k ih => rw [bytesOf, List.length_append, ih, List.length_singleton]

/-- The lowest bytes of a number determine it if there are no others. -/
theorem bytesOf_inj {k n m : Nat} (hn : n < 256 ^ k) (hm : m < 256 ^ k)
    (heq : bytesOf k n = bytesOf k m) : n = m := by
  induction k generalizing n m with
  | zero => omega
  | succ k ih =>
    obtain ⟨hfront, hlast⟩ := List.append_inj' heq rfl
    have hlow : n % 256 = m % 256 := by
      simpa using congrArg UInt8.toNat (List.singleton_inj.1 hlast)
    rw [Nat.pow_succ] at hn hm
    have hhigh : n / 256 = m / 256 :=
      ih (Nat.div_lt_of_lt_mul (by omega)) (Nat.div_lt_of_lt_mul (by omega)) hfront
    omega

end Digest.Sha256

namespace Symbol.Table

/-! ## Names and entries -/

/-- The length of a name fits in 64 bits. -/
def IsShort (name : String) : Prop := (Text.bytes name).length < 2 ^ 64

instance (name : String) : Decidable (IsShort name) := inferInstanceAs (Decidable (_ < _))

/-- The length in front says where a name ends. -/
theorem nameBytes_front {a b : String} {x y : List UInt8} (ha : IsShort a) (hb : IsShort b)
    (heq : nameBytes a ++ x = nameBytes b ++ y) : a = b ∧ x = y := by
  simp only [nameBytes, lengthBytes, List.append_assoc] at heq
  obtain ⟨hnumber, hbytes⟩ := List.append_inj heq
    (by simp only [List.length_reverse, Digest.Sha256.length_bytesOf])
  have hlength : (Text.bytes a).length = (Text.bytes b).length :=
    Digest.Sha256.bytesOf_inj ha hb (List.reverse_inj.1 hnumber)
  obtain ⟨hname, hrest⟩ := List.append_inj hbytes hlength
  exact ⟨Text.bytes_inj.1 hname, hrest⟩

/-- The bytes of an entry, with both of its names. -/
theorem separable_entry : Separable (fun e : Entry => nameBytes e.raw ++ nameBytes e.qualified)
    fun e => IsShort e.raw ∧ IsShort e.qualified where
  ne_nil e := by
    apply List.ne_nil_of_length_pos
    simp only [nameBytes, lengthBytes, List.length_append, List.length_reverse,
      Digest.Sha256.length_bytesOf]
    omega
  front := by
    intro e f x y he hf heq
    simp only [List.append_assoc] at heq
    obtain ⟨hraw, hafter⟩ := nameBytes_front he.1 hf.1 heq
    obtain ⟨hqualified, hrest⟩ := nameBytes_front he.2 hf.2 hafter
    cases e
    cases f
    cases hraw
    cases hqualified
    exact ⟨rfl, hrest⟩

/-! ## Tables -/

/-- The lengths of all names of a table fit in 64 bits. -/
def HasShortNames (t : Table) : Prop :=
  ∀ e ∈ t.entries.toList, IsShort e.raw ∧ IsShort e.qualified

instance (t : Table) : Decidable t.HasShortNames := List.decidableBAll _ _

variable {t u : Table}

/-- The bytes that stand for a table determine it. -/
theorem digestInput_inj (ht : t.HasShortNames) (hu : u.HasShortNames)
    (heq : t.digestInput = u.digestInput) : t = u := by
  have hentries := separable_entry.flatMap_inj ht hu heq
  cases t
  cases u
  exact congrArg Table.mk (Array.toList_inj.1 hentries)

theorem sha256_eq_of_digest_eq (heq : t.digest = u.digest) :
    Digest.Sha256.digest t.digestInput = Digest.Sha256.digest u.digestInput :=
  Text.Hex.ofBytes_inj (String.ofList_injective heq)

/-- What the digests of two tables say about their entries. -/
structure Identified (t u : Table) : Prop where
  /-- The tables have the same bytes exactly if they have the same entries. -/
  digestInput_eq_iff : t.digestInput = u.digestInput ↔ ∀ p, p ∈ t.toPairs ↔ p ∈ u.toPairs
  /-- Tables with the same entries have the same digest. -/
  digest_eq : (∀ p, p ∈ t.toPairs ↔ p ∈ u.toPairs) → t.digest = u.digest
  /-- Different tables with the same digest are a collision of SHA-256. -/
  collision : t.digest = u.digest → t ≠ u → t.digestInput ≠ u.digestInput ∧
    Digest.Sha256.digest t.digestInput = Digest.Sha256.digest u.digestInput

/-- The digest of a table that is built, in whatever way, identifies its entries. -/
theorem identified (ht : t.Built) (hu : u.Built) (hshort : t.HasShortNames)
    (hshort' : u.HasShortNames) : Identified t u where
  digestInput_eq_iff := by
    constructor
    · intro heq p
      rw [digestInput_inj hshort hshort' heq]
    · intro hmem
      rw [ht.ordered.eq_of_mem_iff hu.ordered hmem]
  digest_eq hmem := by rw [ht.ordered.eq_of_mem_iff hu.ordered hmem]
  collision heq hne :=
    ⟨fun hinput => hne (digestInput_inj hshort hshort' hinput), sha256_eq_of_digest_eq heq⟩

/-- Two tables whose names have the same bytes in a row, cut at different places. -/
theorem identified_cut :
    let t : Table := ⟨#[⟨"a", "bc"⟩]⟩
    let u : Table := ⟨#[⟨"ab", "c"⟩]⟩
    t.Built ∧ u.Built ∧ t.HasShortNames ∧ u.HasShortNames ∧ Identified t u := by
  intro t u
  have ht : ofPairs [("a", "bc")] = .ok t := rfl
  have hu : ofPairs [("ab", "c")] = .ok u := rfl
  have hshort : t.HasShortNames := by decide
  have hshort' : u.HasShortNames := by decide
  exact ⟨.ofPairs ht, .ofPairs hu, hshort, hshort',
    identified (.ofPairs ht) (.ofPairs hu) hshort hshort'⟩

end Symbol.Table

end PinnedHeap
