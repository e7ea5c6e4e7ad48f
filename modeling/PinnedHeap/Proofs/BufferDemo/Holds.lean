import PinnedHeap.BufferDemo.Program
import PinnedHeap.Proofs.Registry.Records

/-!
# Holding and releasing several objects

`holdAll` and `releaseAll` run through a list, so each has a lemma about one item and then an
induction.  The lemmas speak of the ledger of the registry.  A hold of a new reference appends an
entry with one hold, and a release of the first entry takes it away again.  So after both nothing
is held.  The holds are of distinct live objects, and there are fewer than can be counted.
-/

namespace PinnedHeap

open Registry (Represents Entry Ledger)

/-! ## One item -/

namespace Registry

variable {H : Type} [Ord H] [DecidableEq H] [Std.TransOrd H] [Std.LawfulEqOrd H]
variable {r : Registry H} {l : Ledger H}

/-- The release of the only hold of the first entry removes the entry. -/
theorem Represents.release_first {e : Entry H} (hr : Represents r (e :: l)) (hone : e.count = 1) :
    ∃ r', r.release e.token = .ok r' ∧ Represents r' l := by
  have hproper : Ledger.Proper ([] ++ e :: l) := hr.proper
  have hledger : Ledger.release (e :: l) e.token = .ok l := by
    have hfound := Ledger.ofToken?_split hproper
    have hadjust := Ledger.adjust_split (f := Entry.lower) hproper.singles_token
    rw [Entry.lower, if_pos (Nat.le_of_eq hone)] at hadjust
    rw [List.nil_append] at hfound hadjust
    rw [Ledger.release, hfound]
    exact congrArg Except.ok hadjust
  have hagree := hr.release e.token
  rw [hledger] at hagree
  generalize r.release e.token = result at hagree
  cases hagree with
  | ok hr' => exact ⟨_, rfl, hr'⟩

end Registry

namespace Foreign

variable {α σ : Type} {h : Host α σ}

theorem acquire_of_live {r : Ref} (hl : h.heap.isLive r) {t : Token} {registry : Registry Ref}
    (hacquire : h.registry.acquire r = .ok (t, registry)) :
    acquire (some h) r.bits = .ok (t.bits, some { h with registry }) := by
  rw [acquire, Ref.ofBits_bits, Host.pin, if_pos hl, hacquire]
  rfl

theorem release_of_ok {t : Token} {registry : Registry Ref}
    (hrelease : h.registry.release t = .ok registry) :
    release (some h) t.bits = .ok (some { h with registry }) := by
  rw [release, Token.ofBits_bits, Host.unpin, hrelease]
  rfl

end Foreign

/-! ## Several items -/

namespace BufferDemo

theorem everyOther_sublist {β : Type} (l : List β) : (everyOther l).Sublist l := by
  induction l using everyOther.induct with
  | case1 => exact .slnil
  | case2 x => exact List.Sublist.refl [x]
  | case3 x y rest ih => exact (ih.cons y).cons_cons x

/-- The words of the tokens of some entries. -/
def words (l : Ledger Ref) : List UInt64 := l.map fun e => e.token.bits

/-- Live objects that are not held can all be held. -/
theorem holdAll_of_live {h : BufferHost} {l : Ledger Ref} {rs : List Ref}
    (hr : Represents h.registry l) (hlive : ∀ r ∈ rs, h.heap.isLive r)
    (hnodup : (l.map Entry.handle ++ rs).Nodup)
    (hroom : l.holds + rs.length < Registry.countLimit) :
    ∃ more registry, holdAll rs (some h) = .ok (words more, some { h with registry }) ∧
      Represents registry (l ++ more) ∧ more.map Entry.handle = rs ∧ ∀ e ∈ more, e.count = 1 := by
  -- The list is taken from its front while the ledger grows at its end.
  induction rs generalizing h l with
  | nil =>
    refine ⟨[], h.registry, rfl, ?_, rfl, fun _ he => absurd he List.not_mem_nil⟩
    rw [List.append_nil]
    exact hr
  | cons r rs ih =>
    rw [List.length_cons] at hroom
    have hnew : r ∉ l.map Entry.handle := fun hmem =>
      (List.nodup_append.1 hnodup).2.2 r hmem r List.mem_cons_self rfl
    obtain ⟨t, registry, hacquire, hr'⟩ := hr.acquire_new hnew (by omega)
    have hhandles : List.map Entry.handle (l ++ [Entry.mk r 1 t]) ++ rs =
        l.map Entry.handle ++ r :: rs := by simp
    have hholds : Ledger.holds (l ++ [Entry.mk r 1 t]) = l.holds + 1 := by simp [Ledger.holds]
    obtain ⟨more, registry', hhold, hr'', hmore, hone⟩ :=
      ih (h := { h with registry }) hr' (fun s hs => hlive s (List.mem_cons_of_mem r hs))
        (by rw [hhandles]; exact hnodup) (by omega)
    refine ⟨⟨r, 1, t⟩ :: more, registry', ?_, ?_, ?_, ?_⟩
    · rw [holdAll, Foreign.acquire_of_live (hlive r List.mem_cons_self) hacquire]
      simp only [bind, Except.bind, hhold]
      rfl
    · rw [List.append_assoc] at hr''
      exact hr''
    · rw [List.map_cons, hmore]
    · intro e he
      rcases List.mem_cons.1 he with rfl | he
      · rfl
      · exact hone e he

/-- What is held once can be released. -/
theorem releaseAll_of_one {h : BufferHost} {l : Ledger Ref} (hr : Represents h.registry l)
    (hone : ∀ e ∈ l, e.count = 1) :
    ∃ registry, releaseAll (words l) (some h) = .ok (some { h with registry }) ∧
      Represents registry [] := by
  induction l generalizing h with
  | nil => exact ⟨h.registry, rfl, hr⟩
  | cons e l ih =>
    obtain ⟨registry, hrelease, hr'⟩ := hr.release_first (hone e List.mem_cons_self)
    obtain ⟨registry', hall, hr''⟩ :=
      ih (h := { h with registry }) hr' fun x hx => hone x (List.mem_cons_of_mem e hx)
    refine ⟨registry', ?_, hr''⟩
    rw [words, List.map_cons, releaseAll, Foreign.release_of_ok hrelease]
    exact hall

end BufferDemo

end PinnedHeap
