import Mathlib.Data.List.Induction
import PinnedHeap.Crash.Handler
import PinnedHeap.Proofs.Crash.Rendering

/-!
# One report for each arming

What a handler does next can be told from the calls made on it so far, and of these only the
latest arm counts and what came after it (`latestArm?`).  `standing` and `toggle` give the state
and the toggle that a history leads to, and `answer` what the next call answers.  Every call of
every run does what these three predict (`run_eq_answer`).

The handler itself remembers less: it knows its state and its toggle, and its buffer holds the
last line of the last report.  The buffer is cleared before each line, so no report shows what it
held (`write_fst`).
-/

namespace PinnedHeap.Crash

namespace Handler

/-! ## Histories -/

/-- Whether a call asks for a report. -/
def Call.isReport : Call → Bool
  | .report .. => true
  | _ => false

/-- The flag that a call arms the handler with. -/
def Call.flag? : Call → Option Bool
  | .arm flag => some flag
  | _ => none

/-- The flag of the latest arm, and the calls after it. -/
def latestArm? : List Call → Option (Bool × List Call)
  | [] => none
  | c :: cs => (latestArm? cs).or (c.flag?.map (·, cs))

/-- The state that a history leads to. -/
def standing (cs : List Call) : HandlerState :=
  match latestArm? cs with
  | none => .disarmed
  | some (flag, since) =>
    if since.any Call.isReport then if flag then .terminated else .suppressed else .armed

/-- The toggle that a history leads to. -/
def toggle (cs : List Call) : Bool := ((latestArm? cs).map Prod.fst).getD true

/-- A report is due: the latest arm turned reports on, and none was asked for since. -/
def Due (cs : List Call) : Prop :=
  ∃ since, latestArm? cs = some (true, since) ∧ ∀ c ∈ since, ¬ c.isReport

instance (cs : List Call) : Decidable (Due cs) :=
  match h : latestArm? cs with
  | some (true, since) =>
    decidable_of_iff (∀ c ∈ since, ¬ c.isReport) <| by simp [Due, h]
  | some (false, _) => .isFalse <| by simp [Due, h]
  | none => .isFalse <| by simp [Due, h]

/-- What a report writes. -/
def reportText (signo : Int) (table : Option Symbol.Table) (source : Source) : List UInt8 :=
  textLine ("Caught signal : " ++ Signal.description signo) ++
    (Trace.ofSource table source {} []).out

/-- What a call after a history answers. -/
def answer (before : List Call) : Call → Option Report
  | .report signo table source => some
    { ended := standing (before ++ [.report signo table source])
      out := if Due before then reportText signo table source else [] }
  | _ => none

/-- The handler after a history. -/
def after (cs : List Call) : Handler := cs.foldl (fun h c => (h.call c).2) {}

theorem latestArm?_eq_none_iff {cs : List Call} :
    latestArm? cs = none ↔ ∀ c ∈ cs, c.flag? = none := by
  induction cs with
  | nil => simp [latestArm?]
  | cons c cs ih => simp [latestArm?, ih, and_comm]

/-- The calls after the latest arm are those after an arm that no arm follows. -/
theorem latestArm?_eq_some_iff {cs since : List Call} {flag : Bool} :
    latestArm? cs = some (flag, since) ↔
      (∃ before, cs = before ++ .arm flag :: since) ∧ ∀ c ∈ since, c.flag? = none := by
  constructor
  · intro h
    induction cs with
    | nil => exact nomatch h
    | cons c cs ih =>
      rcases Option.or_eq_some_iff.1 h with hcs | ⟨hcs, hc⟩
      · obtain ⟨⟨before, rfl⟩, hsince⟩ := ih hcs
        exact ⟨⟨c :: before, rfl⟩, hsince⟩
      · cases c with
        | arm flag' =>
          cases hc
          exact ⟨⟨[], rfl⟩, latestArm?_eq_none_iff.1 hcs⟩
        | report => exact nomatch hc
        | look => exact nomatch hc
  · rintro ⟨⟨before, rfl⟩, hsince⟩
    induction before with
    | nil => rw [List.nil_append, latestArm?, latestArm?_eq_none_iff.2 hsince]; rfl
    | cons c before ih => rw [List.cons_append, latestArm?, ih]; rfl

theorem latestArm?_concat_arm (cs : List Call) (flag : Bool) :
    latestArm? (cs ++ [.arm flag]) = some (flag, []) :=
  latestArm?_eq_some_iff.2 ⟨⟨cs, rfl⟩, by simp⟩

theorem latestArm?_concat {c : Call} (hc : c.flag? = none) (cs : List Call) :
    latestArm? (cs ++ [c]) = (latestArm? cs).map fun latest => (latest.1, latest.2 ++ [c]) := by
  induction cs with
  | nil => simp [latestArm?, hc]
  | cons d cs ih =>
    rw [List.cons_append, latestArm?, ih, latestArm?]
    cases latestArm? cs <;> cases d <;> rfl

/-! ## What a report does -/

theorem length_description_le (signo : Int) :
    (Text.bytes (Signal.description signo)).length ≤ 32 := by
  have hknown : ∀ s ∈ Signal.known, (Text.bytes s.description).length ≤ 32 := by decide
  rw [Signal.description, Signal.info?]
  cases hs : Signal.known.find? fun s => s.number = signo with
  | none => exact show (Text.bytes "Unknown signal").length ≤ 32 by decide
  | some s => exact hknown s (List.mem_of_find?_eq_some hs)

/-- The line that names a signal always fits. -/
theorem bytes_signalLine (line : Line) (signo : Int) :
    (signalLine line signo).bytes = Text.bytes ("Caught signal : " ++ Signal.description signo) := by
  have hdescription := length_description_le signo
  have hstart : line.clear.write "Caught signal : " = ⟨Text.bytes "Caught signal : "⟩ := by
    rw [Line.clear]
    decide
  have hroom : Line.capacity - (⟨Text.bytes "Caught signal : "⟩ : Line).length = 496 := by decide
  rw [signalLine, hstart, Line.write, Line.push, hroom, List.take_of_length_le (by omega)]
  simp [Text.bytes]

/-- What the buffer held before does not show. -/
theorem write_fst (h : Handler) (signo : Int) (table : Option Symbol.Table) (source : Source) :
    (h.write signo table source).1 = reportText signo table source := by
  rw [write, Trace.out_ofSource_eq_append, reportText, Line.ended, bytes_signalLine, textLine]

theorem report_of_ne {h : Handler} (hstate : h.state ≠ .armed) (signo : Int)
    (table : Option Symbol.Table) (source : Source) :
    h.report signo table source = ({ ended := h.state }, h) := by
  have hclaim : h.claim? = none := by
    rw [claim?]
    cases hs : h.state with
    | armed => exact absurd hs hstate
    | _ => rfl
  rw [report, hclaim]

/-- A handler that is armed ends as its toggle says, and its toggle stays. -/
theorem report_of_armed {h : Handler} (hstate : h.state = .armed) (signo : Int)
    (table : Option Symbol.Table) (source : Source) :
    ∃ scratch, h.report signo table source =
      ({ ended := if h.stackTrace then .terminated else .suppressed
         out := if h.stackTrace then reportText signo table source else [] },
        { h with state := if h.stackTrace then .terminated else .suppressed, scratch }) := by
  have hclaim : h.claim? = some (h.setState .handling) := by rw [claim?, hstate]
  rw [report, hclaim, ← write_fst (h.setState .handling)]
  cases htoggle : h.stackTrace with
  | false => exact ⟨h.scratch, by simp [setState, htoggle]⟩
  | true =>
    refine ⟨((h.setState .handling).write signo table source).2.scratch, ?_⟩
    simp [setState, write, htoggle]

/-! ## Runs -/

theorem after_concat (cs : List Call) (c : Call) : after (cs ++ [c]) = ((after cs).call c).2 := by
  rw [after, List.foldl_append]
  rfl

theorem standing_ne_handling (cs : List Call) : standing cs ≠ .handling := by
  rw [standing]
  split
  · decide
  · split_ifs <;> decide

theorem toggle_concat {c : Call} (hc : c.flag? = none) (cs : List Call) :
    toggle (cs ++ [c]) = toggle cs := by
  rw [toggle, latestArm?_concat hc, toggle]
  cases latestArm? cs <;> rfl

theorem standing_concat_look (cs : List Call) : standing (cs ++ [.look]) = standing cs := by
  rw [standing, latestArm?_concat rfl, standing]
  cases latestArm? cs with
  | none => rfl
  | some latest => simp [Call.isReport]

theorem standing_concat_report (cs : List Call) (signo : Int) (table : Option Symbol.Table)
    (source : Source) :
    standing (cs ++ [.report signo table source]) =
      if standing cs = .armed then if toggle cs then .terminated else .suppressed
      else standing cs := by
  rw [standing, latestArm?_concat rfl, standing, toggle]
  cases latestArm? cs with
  | none => rfl
  | some latest =>
    obtain ⟨flag, since⟩ := latest
    cases hspent : since.any Call.isReport <;> cases flag <;> simp [Call.isReport, hspent]

/-- A report is due if the handler is armed and its toggle is on. -/
theorem due_iff {cs : List Call} : Due cs ↔ standing cs = .armed ∧ toggle cs = true := by
  rw [Due, standing, toggle]
  cases latestArm? cs with
  | none => simp
  | some latest =>
    obtain ⟨flag, since⟩ := latest
    cases hspent : since.any Call.isReport <;> cases flag <;> simp_all

theorem state_after (cs : List Call) :
    (after cs).state = standing cs ∧ (after cs).stackTrace = toggle cs := by
  induction cs using List.reverseRecOn with
  | nil => exact ⟨rfl, rfl⟩
  | append_singleton cs c ih =>
    obtain ⟨hstate, htoggle⟩ := ih
    rw [after_concat]
    cases c with
    | arm flag =>
      rw [standing, toggle, latestArm?_concat_arm]
      exact ⟨rfl, rfl⟩
    | look =>
      rw [standing_concat_look, toggle_concat rfl]
      exact ⟨hstate, htoggle⟩
    | report signo table source =>
      rw [standing_concat_report, toggle_concat rfl, ← hstate, ← htoggle]
      by_cases harmed : (after cs).state = .armed
      · obtain ⟨scratch, hreport⟩ := report_of_armed harmed signo table source
        simp [call, hreport, harmed]
      · simp [call, report_of_ne harmed, harmed]

theorem call_fst_after (before : List Call) (c : Call) :
    ((after before).call c).1 = answer before c := by
  obtain ⟨hstate, htoggle⟩ := state_after before
  cases c with
  | arm flag => rfl
  | look => rfl
  | report signo table source =>
    have hdue : Due before ↔ _ := due_iff
    rw [answer, standing_concat_report, ← hstate, ← htoggle]
    rw [← hstate, ← htoggle] at hdue
    by_cases harmed : (after before).state = .armed
    · obtain ⟨scratch, hreport⟩ := report_of_armed harmed signo table source
      simp [call, hreport, harmed, hdue]
    · simp [call, report_of_ne harmed, harmed, hdue]

theorem getElem?_run (h : Handler) (before : List Call) (c : Call) (later : List Call) :
    (run h (before ++ c :: later))[before.length]? =
      some ((before.foldl (fun h c => (h.call c).2) h).call c) := by
  induction before generalizing h with
  | nil => rfl
  | cons d before ih => exact ih (h.call d).2

theorem reportText_ne_nil (signo : Int) (table : Option Symbol.Table) (source : Source) :
    reportText signo table source ≠ [] := by
  simp [reportText, textLine]

/-- Every call of every run does what the history before it predicts. -/
theorem run_eq_answer (before : List Call) (c : Call) (later : List Call) :
    ∃ h, (run {} (before ++ c :: later))[before.length]? = some (answer before c, h) ∧
      h.state = standing (before ++ [c]) ∧ h.stackTrace = toggle (before ++ [c]) ∧
      h.state ≠ .handling ∧
      ∀ report ∈ answer before c,
        report.ended = h.state ∧ (report.out ≠ [] ↔ Due before) := by
  obtain ⟨hstate, htoggle⟩ := state_after (before ++ [c])
  rw [after_concat] at hstate htoggle
  refine ⟨((after before).call c).2, ?_, hstate, htoggle, ?_, ?_⟩
  · rw [getElem?_run, ← call_fst_after]
    rfl
  · rw [hstate]
    exact standing_ne_handling _
  · intro report hreport
    cases c with
    | arm flag => exact nomatch hreport
    | look => exact nomatch hreport
    | report signo table source =>
      cases hreport
      by_cases hdue : Due before <;> simp [hstate, hdue, reportText_ne_nil]

example : standing [.arm true, .report 11 none (.captured []), .arm false] = .armed := by decide

end Handler

end PinnedHeap.Crash
