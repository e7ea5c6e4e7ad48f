import PinnedHeap.Crash.Handler

/-!
# Calls that overlap

A handler is shared, so several calls can be under way on it at once: on several threads, or one
inside another where a signal interrupts a report.  `Shared` holds a handler and what is left to
do of each call, and a schedule says which call makes the next step.  A call that is not disturbed
does what `Handler.call` says (`finish_begin`).

A report has the buffer from the step that claims the handler to the step that sets the final
state.  To arm the handler does not wait for that.  So a handler that is armed again during a
report can be claimed a second time, and two reports write through the one buffer
(`two_writers`).

Nothing else goes wrong.  Each report beyond the first that has the buffer is paid for by a step
that armed the handler while a report had it, and there are never more of them than calls that arm
the handler (`holders_run_le`).  So a handler that is armed once has one report at a time.  The
invariant counts a handler that is armed as one more holder, since the next claim succeeds
(`load_step`, `load_add_arming_step_le`).
-/

namespace PinnedHeap.Crash

namespace Handler

/-- What a report is asked for with. -/
structure Request where
  /-- The signal. -/
  signo : Int
  /-- The symbol table, if there is one. -/
  table : Option Symbol.Table := none
  /-- The stack. -/
  source : Source

/-- The step that a call makes next. -/
inductive Stage where
  /-- Set the toggle, to arm the handler. -/
  | setToggle (stackTrace : Bool)
  /-- Set the state, to arm the handler. -/
  | setArmed
  /-- Claim the handler for a report. -/
  | claim (request : Request)
  /-- Read the state, after a claim that failed. -/
  | look
  /-- Read the toggle. -/
  | check (request : Request)
  /-- Write through the buffer. -/
  | write (request : Request)
  /-- Set the state in which the report ends. -/
  | close (report : Report)
  /-- The call has returned. -/
  | returned (report : Option Report)

namespace Stage

/-- Where a call begins. -/
def begin : Call → Stage
  | .arm stackTrace => .setToggle stackTrace
  | .report signo table source => .claim { signo, table, source }
  | .look => .returned none

/-- One step of a call. -/
def step (h : Handler) : Stage → Stage × Handler
  | .setToggle stackTrace => (.setArmed, h.setToggle stackTrace)
  | .setArmed => (.returned none, h.setState .armed)
  | .claim request =>
    match h.claim? with
    | some h => (.check request, h)
    | none => (.look, h)
  | .look => (.returned (some { ended := h.state }), h)
  | .check request =>
    if h.stackTrace then (.write request, h) else (.close { ended := .suppressed }, h)
  | .write request =>
    let (out, h) := h.write request.signo request.table request.source
    (.close { ended := .terminated, out }, h)
  | .close report => (.returned (some report), h.setState report.ended)
  | .returned report => (.returned report, h)

/-- Whether a call has claimed the handler and not yet set the final state. -/
def holds : Stage → Bool
  | .check _ | .write _ | .close _ => true
  | _ => false

/-- Whether a call writes through the buffer next. -/
def writes : Stage → Bool
  | .write _ => true
  | _ => false

/-- Whether a call arms the handler with its next step. -/
def stores : Stage → Bool
  | .setArmed => true
  | _ => false

/-- Whether a call is still to arm the handler. -/
def arms : Stage → Bool
  | .setToggle _ | .setArmed => true
  | _ => false

/-- Several steps of a call with nothing in between. -/
def finish : Nat → Handler → Stage → Stage × Handler
  | 0, h, s => (s, h)
  | n + 1, h, s => finish n (s.step h).2 (s.step h).1

/-- A call that is not disturbed takes four steps at most, and does what it does alone. -/
theorem finish_begin (h : Handler) (c : Call) :
    finish 4 h (begin c) = (.returned (h.call c).1, (h.call c).2) := by
  cases c with
  | arm stackTrace => rfl
  | look => rfl
  | report signo table source =>
    cases hclaim : h.claim? with
    | none => simp [begin, finish, step, call, Handler.report, hclaim]
    | some h' =>
      cases htoggle : h'.stackTrace <;>
        simp [begin, finish, step, call, Handler.report, hclaim, htoggle]

/-- A step lets in one more report only if it arms the handler. -/
theorem load_step_le (h : Handler) (s : Stage) :
    (s.step h).1.holds.toNat + ((s.step h).2.state == .armed).toNat ≤
      s.holds.toNat + (h.state == .armed).toNat + s.stores.toNat := by
  cases s with
  | setToggle stackTrace => exact Nat.le_refl _
  | setArmed => exact Nat.le_add_left _ _
  | claim request =>
    rw [step, claim?]
    cases hstate : h.state with
    | armed => exact Nat.le_refl _
    | _ => simp [hstate, holds, stores]
  | look => exact Nat.le_refl _
  | check request =>
    rw [step]
    cases h.stackTrace <;> exact Nat.le_refl _
  | write request => exact Nat.le_refl _
  | close report =>
    have hended := Bool.toNat_le (report.ended == HandlerState.armed)
    simp only [step, setState, holds, stores, Bool.toNat_false, Bool.toNat_true]
    omega
  | returned report => exact Nat.le_refl _

theorem arms_step (h : Handler) (s : Stage) :
    (s.step h).1.arms.toNat + s.stores.toNat = s.arms.toNat := by
  cases s with
  | claim request =>
    rw [step]
    cases h.claim? <;> rfl
  | check request =>
    rw [step]
    cases h.stackTrace <;> rfl
  | _ => rfl

end Stage

/-- A handler with the calls that are under way on it. -/
structure Shared where
  /-- The handler. -/
  handler : Handler := {}
  /-- What is left to do of each call. -/
  stages : List Stage

namespace Shared

/-- A new handler, with calls that have not begun. -/
def ofCalls (calls : List Call) : Shared := { stages := calls.map Stage.begin }

/-- One step of one of the calls. -/
def step (s : Shared) (i : Nat) : Shared :=
  match s.stages[i]? with
  | some stage =>
    { handler := (stage.step s.handler).2, stages := s.stages.set i (stage.step s.handler).1 }
  | none => s

/-- The steps that a schedule names, one after the other. -/
def run (s : Shared) (schedule : List Nat) : Shared := schedule.foldl step s

/-- Number of reports that have the buffer. -/
def holders (s : Shared) : Nat := s.stages.countP Stage.holds

/-- Whether the next step of a call arms the handler while a report has the buffer. -/
def rearms (s : Shared) (i : Nat) : Bool :=
  match s.stages[i]? with
  | some .setArmed => decide (0 < s.holders)
  | _ => false

/-- Number of steps of a schedule that arm the handler while a report has the buffer. -/
def rearmings (s : Shared) : List Nat → Nat
  | [] => 0
  | i :: schedule => (s.rearms i).toNat + (s.step i).rearmings schedule

/-- Two reports write at once: the handler is armed again after the first of them claimed it. -/
theorem two_writers :
    let s := (ofCalls [.arm true, .report 11 none (.captured []), .arm true,
      .report 6 none (.captured [])]).run [0, 0, 1, 1, 2, 2, 3, 3]
    s.holders = 2 ∧ s.stages.countP Stage.writes = 2 := by decide

/-- The reports that have the buffer, and one more if the next claim succeeds. -/
def load (s : Shared) : Nat := s.holders + (s.handler.state == .armed).toNat

/-- Number of calls that are still to arm the handler. -/
def arming (s : Shared) : Nat := s.stages.countP Stage.arms

theorem countP_set_add (p : Stage → Bool) {stages : List Stage} {i : Nat} {stage : Stage}
    (h : stages[i]? = some stage) (stage' : Stage) :
    (stages.set i stage').countP p + (p stage).toNat = stages.countP p + (p stage').toNat := by
  obtain ⟨hi, rfl⟩ := List.getElem?_eq_some_iff.1 h
  rw [List.countP_set hi]
  cases hp : p stages[i] with
  | false => cases p stage' <;> rfl
  | true =>
    have hpos : 0 < stages.countP p := List.countP_pos_iff.2 ⟨_, List.getElem_mem hi, hp⟩
    cases p stage' <;> simp <;> omega

theorem step_of_none {s : Shared} {i : Nat} (h : s.stages[i]? = none) : s.step i = s := by
  simp only [step, h]

theorem step_of_some {s : Shared} {i : Nat} {stage : Stage} (h : s.stages[i]? = some stage) :
    s.step i = { handler := (stage.step s.handler).2,
                 stages := s.stages.set i (stage.step s.handler).1 } := by
  simp only [step, h]

theorem holders_step {s : Shared} {i : Nat} {stage : Stage} (h : s.stages[i]? = some stage) :
    (s.step i).holders + stage.holds.toNat =
      s.holders + (stage.step s.handler).1.holds.toNat := by
  rw [step_of_some h]
  exact countP_set_add Stage.holds h _

theorem load_step_le {s : Shared} {i : Nat} {stage : Stage} (h : s.stages[i]? = some stage) :
    (s.step i).load ≤ s.load + stage.stores.toNat := by
  have hholders := holders_step h
  have hstage := stage.load_step_le s.handler
  have hhandler : (s.step i).handler = (stage.step s.handler).2 := by rw [step_of_some h]
  rw [load, load, hhandler]
  omega

/-- Where the handler is armed while no report has the buffer, it is as good as new. -/
theorem load_step {s : Shared} {n : Nat} (i : Nat) (h : s.load ≤ 1 + n) :
    (s.step i).load ≤ 1 + ((s.rearms i).toNat + n) := by
  cases hstage : s.stages[i]? with
  | none =>
    rw [step_of_none hstage]
    omega
  | some stage =>
    have hload := load_step_le hstage
    cases stage with
    | setArmed =>
      have hholders := holders_step hstage
      have harmed := Bool.toNat_le ((s.step i).handler.state == .armed)
      simp only [Stage.step, Stage.holds, Stage.stores, Bool.toNat_false, Bool.toNat_true]
        at hload hholders
      by_cases hfree : 0 < s.holders
      · have hrearms : s.rearms i = true := by rw [rearms, hstage]; exact decide_eq_true hfree
        rw [hrearms, Bool.toNat_true]
        omega
      · rw [load]
        omega
    | _ =>
      simp only [Stage.stores, Bool.toNat_false] at hload
      omega

theorem load_run {s : Shared} {n : Nat} (schedule : List Nat) (h : s.load ≤ 1 + n) :
    (s.run schedule).load ≤ 1 + (s.rearmings schedule + n) := by
  induction schedule generalizing s n with
  | nil => rwa [rearmings, Nat.zero_add]
  | cons i schedule ih =>
    have hrest := ih (load_step i h)
    rw [rearmings, run, List.foldl_cons]
    rw [run] at hrest
    omega

/-- What a call may let in, it does once. -/
theorem load_add_arming_step_le (s : Shared) (i : Nat) :
    (s.step i).load + (s.step i).arming ≤ s.load + s.arming := by
  cases hstage : s.stages[i]? with
  | none => simp only [step_of_none hstage, Nat.le_refl]
  | some stage =>
    have hload := load_step_le hstage
    have harms := stage.arms_step s.handler
    have hcount := countP_set_add Stage.arms hstage (stage.step s.handler).1
    have harming : (s.step i).arming =
        (s.stages.set i (stage.step s.handler).1).countP Stage.arms := by
      rw [arming, step_of_some hstage]
    rw [harming, arming]
    omega

theorem load_add_arming_run_le (s : Shared) (schedule : List Nat) :
    (s.run schedule).load + (s.run schedule).arming ≤ s.load + s.arming := by
  induction schedule generalizing s with
  | nil => exact Nat.le_refl _
  | cons i schedule ih => exact Nat.le_trans (ih (s.step i)) (load_add_arming_step_le s i)

theorem load_ofCalls (calls : List Call) : (ofCalls calls).load = 0 := by
  have hnone : ∀ stage ∈ calls.map Stage.begin, ¬ stage.holds := by
    simp only [List.forall_mem_map]
    intro c _
    cases c <;> exact Bool.false_ne_true
  rw [load, holders, ofCalls, List.countP_eq_zero.2 hnone]
  rfl

/-- A report has the buffer alone, but for the times that the handler was armed meanwhile.  One
arm is good for one report. -/
theorem holders_run_le (calls : List Call) (schedule : List Nat) :
    ((ofCalls calls).run schedule).holders ≤ 1 + (ofCalls calls).rearmings schedule ∧
      ((ofCalls calls).run schedule).holders ≤ (ofCalls calls).arming := by
  have hload := load_ofCalls calls
  have hrearmed := load_run (n := 0) schedule (show (ofCalls calls).load ≤ 1 + 0 by omega)
  have harmed := load_add_arming_run_le (ofCalls calls) schedule
  rw [load] at hrearmed harmed
  omega

end Shared

end Handler

end PinnedHeap.Crash
