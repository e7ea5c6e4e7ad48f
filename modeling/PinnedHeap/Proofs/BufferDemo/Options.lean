import Mathlib.Algebra.Group.Int.Defs
import Mathlib.Algebra.Group.Nat.Defs
import PinnedHeap.BufferDemo.Options
import PinnedHeap.Proofs.Text.Numeral

/-!
# The grammar of the command line

A command line is a list of groups, each of which is a flag with its value or the flag that takes
none (`GroupText`).  What it asks for is decided by the last group that gives a number of buffers
and the last one that gives an ending.

Reading goes group by group.  What is left to read is empty, or begins with a group, or is refused
for what stands at its front (`written_or_refused`).  A group changes the options in the way that
it means, and reading goes on after it (`readFrom_append`).  Where the front is refused, reading
ends with the complaint, and nothing after the front is looked at (`readFrom_of_refused`).  So the
arguments that are accepted are those that groups make up, and the complaint is about the first
place where there is no group (`parsed`).

A flag that takes a value takes the argument after it as its value.  That this looks like a flag
makes no difference, and it makes no group of its own.
-/

namespace PinnedHeap.BufferDemo.Options

open Text.Numeral

/-! ## Groups -/

/-- What a group of arguments asks for. -/
inductive Group where
  /-- So many buffers. -/
  | buffers (count : Nat)
  /-- To end in a certain way. -/
  | ending (e : Ending)

/-- The names of the fatal signals, with their numbers. -/
def fatalNames : List (String × Int) :=
  [("SIGABRT", 6), ("SIGFPE", 8), ("SIGILL", 4), ("SIGINT", 2), ("SIGTERM", 15), ("SIGSEGV", 11)]

/-- A flag that takes a value. -/
inductive Valued where
  /-- How many buffers. -/
  | buffers
  /-- Which signal to raise. -/
  | raise
  /-- Which status to exit with. -/
  | fatalExit

namespace Valued

/-- The argument that is the flag. -/
def text : Valued → String
  | .buffers => "--buffers"
  | .raise => "--raise"
  | .fatalExit => "--fatal-exit"

/-- What a value means for the flag before it. -/
inductive Means : Valued → String → Group → Prop
  | buffers {value : String} {n : Nat} (hvalue : IsUnsigned value.toList n) (hn : n < 2 ^ 64) :
      Means .buffers value (.buffers n)
  | raise {value : String} {signo : Int} (hvalue : (value, signo) ∈ fatalNames) :
      Means .raise value (.ending (.raise signo))
  | fatalExit {value : String} {status : Int} (hvalue : IsSigned value.toList status)
      (hlo : -2 ^ 31 ≤ status) (hhi : status < 2 ^ 31) :
      Means .fatalExit value (.ending (.fatalExit status))

/-- The complaint about a value that means nothing. -/
def complaint : Valued → String → String
  | .buffers, value => "--buffers: `" ++ value ++ "` is not a count"
  | .raise, value => "--raise: unsupported signal `" ++ value ++ "`"
  | .fatalExit, value => "--fatal-exit: `" ++ value ++ "` is not a status"

end Valued

/-- The arguments of a group. -/
inductive GroupText : Group → List String → Prop
  | valued {flag : Valued} {value : String} {g : Group} (h : flag.Means value g) :
      GroupText g [flag.text, value]
  | nullRelease : GroupText (.ending .nullRelease) ["--null-release"]

/-- The arguments of several groups, one after the other. -/
inductive GroupsText : List Group → List String → Prop
  | nil : GroupsText [] []
  | cons {g : Group} {gs : List Group} {group rest : List String} (hg : GroupText g group)
      (h : GroupsText gs rest) : GroupsText (g :: gs) (group ++ rest)

/-- Arguments with no group at their front, and the complaint about that. -/
inductive Refused : List String → String → Prop
  | unknown {argument : String} {rest : List String} (hvalued : ∀ flag, argument ≠ Valued.text flag)
      (hnull : argument ≠ "--null-release") :
      Refused (argument :: rest) ("unknown argument `" ++ argument ++ "`")
  | missing (flag : Valued) : Refused [flag.text] (flag.text ++ " needs a value")
  | invalid {flag : Valued} {value : String} {rest : List String}
      (hvalue : ∀ g, ¬ flag.Means value g) :
      Refused (flag.text :: value :: rest) (flag.complaint value)

/-- The options after a group. -/
def Group.apply (o : Options) : Group → Options
  | .buffers count => { o with buffers := count }
  | .ending e => { o with ending := e }

/-- The number of buffers that a group gives. -/
def Group.buffers? : Group → Option Nat
  | .buffers count => some count
  | .ending _ => none

/-- The ending that a group gives. -/
def Group.ending? : Group → Option Ending
  | .buffers _ => none
  | .ending e => some e

/-- The last group of each kind counts. -/
theorem foldl_apply (gs : List Group) (o : Options) :
    gs.foldl Group.apply o =
      { buffers := (gs.filterMap Group.buffers?).getLast?.getD o.buffers
        ending := (gs.filterMap Group.ending?).getLast?.getD o.ending } := by
  induction gs generalizing o with
  | nil => rfl
  | cons g gs ih =>
    rw [List.foldl_cons, ih]
    cases g <;> simp [Group.apply, Group.buffers?, Group.ending?, List.getLast?_cons]

/-! ## Values -/

theorem ofName?_eq_some_iff {value : String} {signo : Int} :
    Crash.Signal.ofName? value = some signo ↔ (value, signo) ∈ fatalNames := by
  constructor
  · intro h
    have hall : ∀ n ∈ Crash.Signal.fatal, (Crash.Signal.name n, n) ∈ fatalNames := by decide
    have hname := List.find?_some h
    rw [decide_eq_true_iff] at hname
    exact hname ▸ hall signo (List.mem_of_find?_eq_some h)
  · intro h
    have hall : ∀ p ∈ fatalNames, Crash.Signal.ofName? p.1 = some p.2 := by decide
    exact hall _ h

/-- How a flag uses its value: as it is meant, or with the complaint about it. -/
structure Uses (flag : Valued) (set : Options → String → Except Error Options) : Prop where
  means : ∀ o value g, flag.Means value g → set o value = .ok (g.apply o)
  complains : ∀ o value, (∀ g, ¬ flag.Means value g) →
    ∃ e, set o value = .error e ∧ e.message = flag.complaint value

theorem uses_setBuffers : Uses .buffers setBuffers where
  means := by
    intro o value g h
    cases h with
    | buffers hvalue hn =>
      have hsome : unsigned? wordBound value.toList = some _ :=
        unsigned?_eq_some_iff.2 ⟨hvalue, hn⟩
      rw [setBuffers, hsome]
      rfl
  complains := by
    intro o value h
    have hnone : unsigned? wordBound value.toList = none := by
      rw [Option.eq_none_iff_forall_ne_some]
      intro n hn
      obtain ⟨hvalue, hlt⟩ := unsigned?_eq_some_iff.1 hn
      exact h _ (.buffers hvalue hlt)
    exact ⟨.notCount value, by rw [setBuffers, hnone], rfl⟩

theorem uses_setSignal : Uses .raise setSignal where
  means := by
    intro o value g h
    cases h with
    | raise hvalue =>
      rw [setSignal, ofName?_eq_some_iff.2 hvalue]
      rfl
  complains := by
    intro o value h
    have hnone : Crash.Signal.ofName? value = none := by
      rw [Option.eq_none_iff_forall_ne_some]
      intro signo hsigno
      exact h _ (.raise (ofName?_eq_some_iff.1 hsigno))
    exact ⟨.unsupportedSignal value, by rw [setSignal, hnone], rfl⟩

theorem uses_setStatus : Uses .fatalExit setStatus where
  means := by
    intro o value g h
    cases h with
    | fatalExit hvalue hlo hhi =>
      have hsome : signed? halfBound value.toList = some _ :=
        (signed?_eq_some_iff (by decide)).2 ⟨hvalue, hlo, hhi⟩
      rw [setStatus, hsome]
      rfl
  complains := by
    intro o value h
    have hnone : signed? halfBound value.toList = none := by
      rw [Option.eq_none_iff_forall_ne_some]
      intro status hstatus
      obtain ⟨hvalue, hlo, hhi⟩ := (signed?_eq_some_iff (by decide)).1 hstatus
      exact h _ (.fatalExit hvalue hlo hhi)
    exact ⟨.notStatus value, by rw [setStatus, hnone], rfl⟩

theorem exists_uses (flag : Valued) :
    ∃ f set, flags.lookup flag.text = some f ∧ f.setter? = some set ∧ Uses flag set := by
  cases flag with
  | buffers => exact ⟨.buffers, setBuffers, rfl, rfl, uses_setBuffers⟩
  | raise => exact ⟨.raise, setSignal, rfl, rfl, uses_setSignal⟩
  | fatalExit => exact ⟨.fatalExit, setStatus, rfl, rfl, uses_setStatus⟩

/-- There are no other flags. -/
theorem lookup_eq_none {argument : String} (hvalued : ∀ flag, argument ≠ Valued.text flag)
    (hnull : argument ≠ "--null-release") : flags.lookup argument = none := by
  have hbuffers : argument ≠ "--buffers" := hvalued .buffers
  have hraise : argument ≠ "--raise" := hvalued .raise
  have hfatalExit : argument ≠ "--fatal-exit" := hvalued .fatalExit
  simp [flags, List.lookup_cons, beq_eq_false_iff_ne.2 hbuffers, beq_eq_false_iff_ne.2 hraise,
    beq_eq_false_iff_ne.2 hfatalExit, beq_eq_false_iff_ne.2 hnull]

/-! ## Reading groups -/

/-- A group is read, and what it means is done. -/
theorem readFrom_group {g : Group} {group : List String} (h : GroupText g group) (o : Options)
    (rest : List String) : readFrom o (group ++ rest) = readFrom (g.apply o) rest := by
  cases h with
  | nullRelease => rfl
  | @valued flag value g h =>
    obtain ⟨f, set, hlookup, hsetter, huses⟩ := exists_uses flag
    rw [List.cons_append, List.cons_append, List.nil_append, readFrom, hlookup]
    simp only [hsetter, huses.means o value g h]

theorem readFrom_append {gs : List Group} {front : List String} (h : GroupsText gs front)
    (o : Options) (rest : List String) :
    readFrom o (front ++ rest) = readFrom (gs.foldl Group.apply o) rest := by
  induction h generalizing o with
  | nil => rfl
  | cons hg _ ih => rw [List.append_assoc, readFrom_group hg, ih, List.foldl_cons]

/-- Reading ends where no group begins. -/
theorem readFrom_of_refused {rest : List String} {message : String} (h : Refused rest message)
    (o : Options) : ∃ e, readFrom o rest = .error e ∧ e.message = message := by
  cases h with
  | @unknown argument rest hvalued hnull =>
    exact ⟨.unknownArgument argument, by rw [readFrom, lookup_eq_none hvalued hnull], rfl⟩
  | missing flag =>
    obtain ⟨f, set, hlookup, hsetter, -⟩ := exists_uses flag
    refine ⟨.missingValue flag.text, ?_, rfl⟩
    rw [readFrom, hlookup]
    simp only [hsetter]
  | @invalid flag value rest hvalue =>
    obtain ⟨f, set, hlookup, hsetter, huses⟩ := exists_uses flag
    obtain ⟨e, hset, hmessage⟩ := huses.complains o value hvalue
    refine ⟨e, ?_, hmessage⟩
    rw [readFrom, hlookup]
    simp only [hsetter, hset]

/-! ## What is accepted -/

/-- What is left to read is empty, or begins with a group, or is refused. -/
theorem written_or_refused (arguments : List String) :
    arguments = [] ∨
      (∃ g group rest, GroupText g group ∧ arguments = group ++ rest ∧
        rest.length < arguments.length) ∨
      ∃ message, Refused arguments message := by
  cases arguments with
  | nil => exact .inl rfl
  | cons argument rest =>
    right
    by_cases hvalued : ∃ flag, argument = Valued.text flag
    · obtain ⟨flag, rfl⟩ := hvalued
      cases rest with
      | nil => exact .inr ⟨_, .missing flag⟩
      | cons value rest =>
        by_cases hvalue : ∃ g, flag.Means value g
        · obtain ⟨g, hg⟩ := hvalue
          have hlt : rest.length < (flag.text :: value :: rest).length :=
            Nat.lt_succ_of_lt (Nat.lt_succ_self _)
          exact .inl ⟨g, _, rest, .valued hg, rfl, hlt⟩
        · exact .inr ⟨_, .invalid (not_exists.1 hvalue)⟩
    · by_cases hnull : argument = "--null-release"
      · subst hnull
        exact .inl ⟨_, _, rest, .nullRelease, rfl, Nat.lt_succ_self _⟩
      · exact .inr ⟨_, .unknown (not_exists.1 hvalued) hnull⟩

/-- Arguments are groups, or are refused after some groups. -/
theorem groups_or_refused (arguments : List String) :
    (∃ gs, GroupsText gs arguments) ∨
      ∃ gs front rest message, GroupsText gs front ∧ arguments = front ++ rest ∧
        Refused rest message := by
  obtain hnil | ⟨g, group, rest, hg, harguments, hlt⟩ | hrefused := written_or_refused arguments
  · exact .inl ⟨[], hnil ▸ .nil⟩
  · rw [harguments]
    cases groups_or_refused rest with
    | inl h =>
      obtain ⟨gs, hgs⟩ := h
      exact .inl ⟨g :: gs, .cons hg hgs⟩
    | inr h =>
      obtain ⟨gs, front, left, message, hgs, hrest, hrefused⟩ := h
      refine .inr ⟨g :: gs, group ++ front, left, message, .cons hg hgs, ?_, hrefused⟩
      rw [hrest, List.append_assoc]
  · obtain ⟨message, hrefused⟩ := hrefused
    exact .inr ⟨[], [], arguments, message, .nil, rfl, hrefused⟩
termination_by arguments.length

/-- What groups ask for.  The last one of each kind counts, and without any there are eight buffers
and the demonstration ends normally. -/
def asked (gs : List Group) : Options where
  buffers := (gs.filterMap Group.buffers?).getLast?.getD 8
  ending := (gs.filterMap Group.ending?).getLast?.getD .normal

section Arguments

variable {arguments front rest : List String} {gs : List Group}

theorem ofArguments_append (h : GroupsText gs front)
    (harguments : arguments.drop 1 = front ++ rest) :
    ofArguments arguments = readFrom (asked gs) rest := by
  rw [ofArguments, harguments, readFrom_append h, foldl_apply]
  rfl

theorem ofArguments_of_groups (h : GroupsText gs (arguments.drop 1)) :
    ofArguments arguments = .ok (asked gs) :=
  ofArguments_append h (List.append_nil _).symm

theorem ofArguments_of_refused {message : String} (h : GroupsText gs front)
    (harguments : arguments.drop 1 = front ++ rest) (hrefused : Refused rest message) :
    ∃ e, ofArguments arguments = .error e ∧ e.message = message := by
  rw [ofArguments_append h harguments]
  exact readFrom_of_refused hrefused (asked gs)

end Arguments

/-- A command line is accepted where its arguments are groups, and gives what these ask for.
Otherwise the complaint is about the front of what is left after the groups that come first,
whatever follows it. -/
theorem parsed (arguments : List String) :
    (∀ o, ofArguments arguments = .ok o ↔
      ∃ gs, GroupsText gs (arguments.drop 1) ∧ o = asked gs) ∧
    ∀ message, (∃ e, ofArguments arguments = .error e ∧ e.message = message) ↔
      ∃ gs front rest, GroupsText gs front ∧ arguments.drop 1 = front ++ rest ∧
        Refused rest message := by
  refine ⟨fun o => ⟨fun ho => ?_, ?_⟩, fun message => ⟨fun ⟨e, he, hmessage⟩ => ?_, ?_⟩⟩
  · obtain ⟨gs, hgs⟩ | ⟨gs, front, rest, message, hgs, harguments, hrefused⟩ :=
      groups_or_refused (arguments.drop 1)
    · rw [ofArguments_of_groups hgs, Except.ok.injEq] at ho
      exact ⟨gs, hgs, ho.symm⟩
    · obtain ⟨e, he, -⟩ := ofArguments_of_refused hgs harguments hrefused
      rw [he] at ho
      exact nomatch ho
  · intro ⟨gs, hgs, ho⟩
    rw [ho, ofArguments_of_groups hgs]
  · obtain ⟨gs, hgs⟩ | ⟨gs, front, rest, message', hgs, harguments, hrefused⟩ :=
      groups_or_refused (arguments.drop 1)
    · rw [ofArguments_of_groups hgs] at he
      exact nomatch he
    · obtain ⟨e', he', hmessage'⟩ := ofArguments_of_refused hgs harguments hrefused
      rw [he', Except.error.injEq] at he
      rw [← hmessage, ← he, hmessage']
      exact ⟨gs, front, rest, hgs, harguments, hrefused⟩
  · intro ⟨gs, front, rest, hgs, harguments, hrefused⟩
    exact ofArguments_of_refused hgs harguments hrefused

example : ofArguments ["demo", "--buffers", "--null-release"] =
    .error (.notCount "--null-release") := by rfl

end PinnedHeap.BufferDemo.Options
