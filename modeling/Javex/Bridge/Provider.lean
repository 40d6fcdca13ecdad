import Javex.Bridge.Correlation
import Javex.Native.Execution

/-!
# An instance of the provider

`invoke` and `step` of `native/javex_plugin/src/lib.rs` around the bridge. JavaScript runs while the
module is evaluated, between the completions that the bridge delivers, and in the pending jobs; a
call of the bridge may be made there at any time, and also within another one, while that
stringifies its argument. Any call into the engine may throw, and the instance may trap.

What the guest does is the choice of the labels; `serde` is `serde_json::from_str`. The field
`emitted` records the states that the bridge has returned.

* `Instance.Step`: what each label does.
* `Instance.step_fatal`: a fatal bridge stays fatal.

In each of the places where JavaScript runs the guest decides what happens. The labels are therefore
the guest's moves, and the phases say which of them are possible where. A trap leaves an instance
that has no further steps.

The flag of the bridge is set by a call and read by the report that ends a step. `Emitted` records
what was reported, so that a statement about what the host is told is one about the emitted states
and one about the flag is about the closure.
-/

namespace Javex.Bridge

open Codec Transition Callbacks

/-- How the root promise stands when `step` has run the jobs. -/
inductive Root
  | pending | fulfilled
  | rejected (message : Bytes)
  deriving DecidableEq

/-- `done` in `step`. -/
def Root.done : Root → Bool
  | pending => false
  | fulfilled | rejected _ => true

/-- Where an instance is: in `_start`, between two calls of the host, in the first call of the
bridge with some completions left, in the loop over the jobs, before the second call of the bridge,
at the end of `step` with its record, or trapped. A record is `normal` if neither call threw. -/
inductive Phase
  | evaluating
  | idle
  | delivering (values : List Json)
  | jobs
  | reporting (root : Root)
  | returned (normal : Bool) (record : ℕ × Bytes)
  | dead

/-- A state that the bridge has returned. -/
structure Emitted where
  done : Bool
  fatal : Bool
  requests : List Call
  deriving DecidableEq

/-- An instance. `inside` are the calls that stringify their argument, the innermost first, and
`rooted` is whether `ROOT` is set. -/
structure Instance where
  bridge : Closure
  inside : List (ℕ × Bytes)
  phase : Phase
  rooted : Bool
  emitted : List Emitted

/-- The instance as `_start` begins. -/
def Instance.start : Instance := ⟨.start, [], .evaluating, false, []⟩

/-- Code of the guest may run; without a root there is none. -/
def Instance.runs (i : Instance) : Bool :=
  match i.phase with
  | .evaluating => true
  | .delivering _ | .jobs => i.rooted
  | .idle | .reporting _ | .returned _ _ | .dead => false

/-- What an instance may do. A message is that of an exception, should there be one, and the length
of a name or a text is that which the bridge reads. -/
inductive Instance.Label
  | enter (name : Option Bytes) (measured : ℕ)
  | leave (json : Option Bytes) (measured : ℕ)
  | saved
  | step (completions message : Bytes)
  | settle (message : Bytes)
  | throw (removed : Bool) (message : Bytes)
  | deliver
  | root (root : Root)
  | report
  | take
  | trap

/-- The promise of a completion is removed. -/
def Closure.forget (b : Closure) (completion : Json) : Closure :=
  match completionId? completion with
  | some id => { b with pending := b.pending.erase id }
  | none => b

/-- The parser of JSON, for the one of `serde_json`. -/
def readJson (text : Bytes) : Except Bytes Json :=
  match Json.parse text with
  | some json => .ok json
  | none => .error []

namespace Instance

variable (cfg : Config) (serde : Bytes → Except Bytes Json) (i : Instance)

/-- The bridge has returned a state. -/
def emit (done : Bool) : Instance :=
  { i with
    bridge := { i.bridge with requests := [] }
    emitted := i.emitted ++ [⟨done, i.bridge.fatal, if done then [] else i.bridge.requests⟩] }

/-- The text of the state that the bridge returns. -/
def state (done : Bool) : Bytes :=
  frame done i.bridge.fatal (if done then [] else i.bridge.requests)

/-- The end of `step` after the second call of the bridge; `unwrap` aborts. -/
def report (root : Root) : Instance :=
  match serde (i.state root.done) with
  | .error _ => { i.emit root.done with phase := .dead }
  | .ok value =>
    match Native.isTrue value "fatal", root with
    | false, .rejected message => { i.emit root.done with phase := .returned true (1, message) }
    | _, _ => { i.emit root.done with phase := .returned true (0, i.state root.done) }

/-- One step. -/
def act : Label → Option Instance
  | .enter name measured =>
    if i.runs then
      match i.bridge.enter cfg name measured with
      | (bridge, some call) => some { i with bridge, inside := call :: i.inside }
      | (bridge, none) => some { i with bridge }
    else none
  | .leave json measured =>
    match i.runs, i.inside with
    | true, (id, name) :: inside =>
      some { i with bridge := i.bridge.leave cfg id name json measured, inside }
    | _, _ => none
  | .saved =>
    match i.phase, i.inside with
    | .evaluating, [] => some { i with phase := .idle, rooted := true }
    | _, _ => none
  | .step completions message =>
    match i.phase with
    | .idle =>
      match (Json.parse completions).map looped with
      | some (.ok values) => some { i with phase := .delivering values }
      | _ => some { i with phase := .returned false (1, message) }
    | _ => none
  | .settle message =>
    match i.phase, i.inside with
    | .delivering (value :: values), [] =>
      match i.bridge.settle value with
      | .ok bridge => some { i with bridge, phase := .delivering values }
      | .error _ => some { i with
          bridge := i.bridge.forget value, phase := .returned false (1, message) }
    | _, _ => none
  | .throw removed message =>
    match i.phase, i.inside with
    | .delivering (value :: _), [] => some { i with
        bridge := if removed then i.bridge.forget value else i.bridge
        phase := .returned false (1, message) }
    | .delivering [], [] | .reporting _, _ =>
      some { i with phase := .returned false (1, message) }
    | _, _ => none
  | .deliver =>
    match i.phase, i.inside with
    | .delivering [], [] =>
      if i.rooted then some { i with phase := .jobs }
      else some { i with phase := .returned true (0, frame true false []) }
    | _, _ => none
  | .root root =>
    match i.phase, i.inside with
    | .jobs, [] => some { i with phase := .reporting root }
    | _, _ => none
  | .report =>
    match i.phase with
    | .reporting root => some (i.report serde root)
    | _ => none
  | .take =>
    match i.phase with
    | .returned _ _ => some { i with phase := .idle }
    | _ => none
  | .trap =>
    match i.phase with
    | .idle | .returned _ _ => none
    | _ => some { i with phase := .dead }

/-- An instance on its own: one that evaluates a module, or whose `_start` does not `invoke`. -/
def system : System Instance Label :=
  .ofStep (fun i => i = .start ∨ i = { Instance.start with phase := .idle }) fun i l =>
    i.act cfg serde l

variable {cfg serde}

/-- What a label does to an instance. -/
inductive Step (cfg : Config) (serde : Bytes → Except Bytes Json) :
    Instance → Label → Instance → Prop
  | enter {i : Instance} {name : Option Bytes} {measured : ℕ} : i.runs = true →
      Step cfg serde i (.enter name measured) { i with
        bridge := (i.bridge.enter cfg name measured).1
        inside := (i.bridge.enter cfg name measured).2.toList ++ i.inside }
  | leave {i : Instance} {json : Option Bytes} {measured id : ℕ} {name : Bytes}
      {inside : List (ℕ × Bytes)} : i.runs = true → i.inside = (id, name) :: inside →
      Step cfg serde i (.leave json measured)
        { i with bridge := i.bridge.leave cfg id name json measured, inside }
  | saved {i : Instance} : i.phase = .evaluating → i.inside = [] →
      Step cfg serde i .saved { i with phase := .idle, rooted := true }
  | step {i : Instance} {completions message : Bytes} {values : List Json} : i.phase = .idle →
      (Json.parse completions).map looped = some (.ok values) →
      Step cfg serde i (.step completions message) { i with phase := .delivering values }
  | unread {i : Instance} {completions message : Bytes} : i.phase = .idle →
      Step cfg serde i (.step completions message)
        { i with phase := .returned false (1, message) }
  | settle {i : Instance} {message : Bytes} {value : Json} {values : List Json}
      {bridge : Closure} : i.phase = .delivering (value :: values) → i.inside = [] →
      i.bridge.settle value = .ok bridge →
      Step cfg serde i (.settle message) { i with bridge, phase := .delivering values }
  | unsettled {i : Instance} {message : Bytes} {value : Json} {values : List Json} :
      i.phase = .delivering (value :: values) → i.inside = [] →
      Step cfg serde i (.settle message) { i with
        bridge := i.bridge.forget value, phase := .returned false (1, message) }
  | thrown {i : Instance} {removed : Bool} {message : Bytes} {value : Json} {values : List Json} :
      i.phase = .delivering (value :: values) → i.inside = [] →
      Step cfg serde i (.throw removed message) { i with
        bridge := if removed then i.bridge.forget value else i.bridge
        phase := .returned false (1, message) }
  | failed {i : Instance} {removed : Bool} {message : Bytes} :
      (i.phase = .delivering [] ∧ i.inside = [] ∨ ∃ root, i.phase = .reporting root) →
      Step cfg serde i (.throw removed message) { i with phase := .returned false (1, message) }
  | delivered {i : Instance} : i.phase = .delivering [] → i.inside = [] → i.rooted = true →
      Step cfg serde i .deliver { i with phase := .jobs }
  | rootless {i : Instance} : i.phase = .delivering [] → i.inside = [] → i.rooted = false →
      Step cfg serde i .deliver { i with phase := .returned true (0, frame true false []) }
  | root {i : Instance} {root : Root} : i.phase = .jobs → i.inside = [] →
      Step cfg serde i (.root root) { i with phase := .reporting root }
  | report {i : Instance} {root : Root} : i.phase = .reporting root →
      Step cfg serde i .report (i.report serde root)
  | take {i : Instance} {normal : Bool} {record : ℕ × Bytes} :
      i.phase = .returned normal record → Step cfg serde i .take { i with phase := .idle }
  | trap {i : Instance} : Step cfg serde i .trap { i with phase := .dead }

theorem act_cases {i j : Instance} {l : Label} (h : i.act cfg serde l = some j) :
    Step cfg serde i l j := by
  cases l with
  | enter name measured =>
    simp only [act] at h
    split_ifs at h with hruns
    cases henter : i.bridge.enter cfg name measured with
    | mk bridge call =>
      have hstep : Step cfg serde i (.enter name measured) _ := .enter hruns
      rw [henter] at h hstep
      cases call <;> cases h <;> exact hstep
  | leave json measured =>
    simp only [act] at h
    split at h
    case h_1 id name inside hruns hinside =>
      cases h
      exact .leave hruns hinside
    case h_2 => cases h
  | saved =>
    simp only [act] at h
    split at h
    case h_1 hphase hinside =>
      cases h
      exact .saved hphase hinside
    case h_2 => cases h
  | step completions message =>
    simp only [act] at h
    split at h
    case h_1 hphase =>
      split at h
      case h_1 values hparse =>
        cases h
        exact .step hphase hparse
      case h_2 =>
        cases h
        exact .unread hphase
    case h_2 => cases h
  | settle message =>
    simp only [act] at h
    split at h
    case h_1 value values hphase hinside =>
      split at h
      case h_1 bridge hsettle =>
        cases h
        exact .settle hphase hinside hsettle
      case h_2 =>
        cases h
        exact .unsettled hphase hinside
    case h_2 => cases h
  | throw removed message =>
    simp only [act] at h
    split at h
    case h_1 value values hphase hinside =>
      cases h
      exact .thrown hphase hinside
    case h_2 hphase hinside =>
      cases h
      exact .failed (.inl ⟨hphase, hinside⟩)
    case h_3 root hphase =>
      cases h
      exact .failed (.inr ⟨root, hphase⟩)
    case h_4 => cases h
  | deliver =>
    simp only [act] at h
    split at h
    case h_1 hphase hinside =>
      split_ifs at h with hrooted
      · cases h
        exact .delivered hphase hinside hrooted
      · cases h
        exact .rootless hphase hinside (Bool.eq_false_iff.mpr hrooted)
    case h_2 => cases h
  | root root =>
    simp only [act] at h
    split at h
    case h_1 hphase hinside =>
      cases h
      exact .root hphase hinside
    case h_2 => cases h
  | report =>
    simp only [act] at h
    split at h
    case h_1 root hphase =>
      cases h
      exact .report hphase
    case h_2 => cases h
  | take =>
    simp only [act] at h
    split at h
    case h_1 normal record hphase =>
      cases h
      exact .take hphase
    case h_2 => cases h
  | trap =>
    simp only [act] at h
    split at h
    case h_3 =>
      cases h
      exact .trap
    all_goals cases h

end Instance

/-! ### What the bridge keeps -/

namespace Closure

variable {cfg : Config} {b b' : Closure}

theorem leave_fatal (h : b.fatal = true) (id : ℕ) (name : Bytes) (json : Option Bytes)
    (measured : ℕ) : (b.leave cfg id name json measured).fatal = true := by
  cases json with
  | none => exact h
  | some json =>
    simp only [leave]
    split_ifs
    · rfl
    · exact h

theorem forget_fatal (b : Closure) (value : Json) : (b.forget value).fatal = b.fatal := by
  unfold forget
  split <;> rfl

end Closure

namespace Instance

variable {cfg : Config} {serde : Bytes → Except Bytes Json} {i j : Instance}

/-- The second call of the bridge empties its requests, and what `step` makes of the state only
shows in the phase. -/
theorem report_eq (i : Instance) (serde : Bytes → Except Bytes Json) (root : Root) :
    i.report serde root = { i.emit root.done with phase := (i.report serde root).phase } := by
  unfold report
  split
  · rfl
  · split <;> rfl

/-- **A fatal bridge stays fatal**, whatever the guest does. -/
theorem step_fatal {l : Label} (h : i.act cfg serde l = some j) (hfatal : i.bridge.fatal = true) :
    j.bridge.fatal = true := by
  cases act_cases h with
  | @enter name measured =>
    obtain ⟨fatal, hbridge, hkeep, -, -⟩ := i.bridge.enter_cases cfg name measured
    rw [hbridge]
    exact hkeep hfatal
  | leave => exact Closure.leave_fatal hfatal _ _ _ _
  | settle hphase hinside hsettle =>
    obtain ⟨id, call, settlement, -, -, rfl⟩ := Closure.settle_cases hsettle
    exact hfatal
  | unsettled => exact (Closure.forget_fatal _ _).trans hfatal
  | @thrown removed =>
    cases removed with
    | true => exact (Closure.forget_fatal _ _).trans hfatal
    | false => exact hfatal
  | @report root =>
    rw [report_eq]
    exact hfatal
  | _ => exact hfatal

end Instance

end Javex.Bridge
