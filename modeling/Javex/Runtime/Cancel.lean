import Javex.Backends.Engine
import Javex.Transition.Fairness

/-!
# Cancelling a run

How an in-process run is stopped: the `Control` of `native/javex_nif/src/sandbox.rs`, the epochs of
the engine with the callback that `Sandbox::new` gives to the store, and the run worker of
`lib/javex/runtime.ex`, which is in a native call, has its result, or waits for the broker. The
guest runs until the engine has counted on; then the callback looks at the control.

What the guest does is left open, step by step, and so is code of the host that comes to an end by
itself, such as a compilation.

* `Works`: what a step of the run worker can be.
* `cancelled_run_ends`: a run that is cancelled, or late, does not succeed any more and is soon out
  of the guest; once the server has sent `:cancel` the run worker gets to its end.

The guest may loop for ever in one call, and the only thing that stops it is the epoch. A tick of
the engine makes the next check of the callback due; the callback looks at the cancellation and at
the deadline, and its error ends the call. So out of the guest it is one tick, some steps of code
that comes to an end by itself, and a fixed number of steps of the native function; `rank` counts
them, and `shut_step` says that nobody goes back in once the control is over.

The end of a run is here the outcome of its work function. The run worker then still has to stop its
broker and to wait for it; that the broker ends is the subject of `Javex.Callbacks.Ending`.
-/

namespace Javex.Native

/-! ### Control -/

/-- `Control`, with its deadline on the monotonic clock. -/
structure Control where
  deadline : ℕ
  cancelled : Bool

namespace Control

/-- `Control::new`. -/
def new (timeout now : ℕ) : Except Failure Control :=
  if 0 < timeout then .ok ⟨now + timeout, false⟩ else .error (.other (utf8 "invalid timeout"))

variable (c : Control) (now : ℕ)

/-- `Control::cancel`. -/
def cancel : Control := { c with cancelled := true }

/-- `Control::check`. -/
def check : Except Failure Unit :=
  if c.cancelled then .error (.other (utf8 "cancelled"))
  else if c.deadline ≤ now then .error (.other (utf8 "execution timed out"))
  else .ok ()

/-- What `Sandbox::finish` reads off it. -/
def moment : Moment := ⟨c.cancelled, c.deadline ≤ now⟩

/-- It is cancelled or late. -/
def Over : Prop := c.cancelled = true ∨ c.deadline ≤ now

variable {c now}

/-- The check of the control passes until it is over. -/
theorem check_eq_ok : c.check now = .ok () ↔ ¬ c.Over now := by
  unfold check Over
  split_ifs with hcancelled hlate
  · simp [hcancelled]
  · simp [hlate]
  · simp [hcancelled, hlate]

/-- With a control that is over `finish` has no other result. -/
theorem finish_over {α : Type} (h : c.Over now) (sandbox : Sandbox) (result : Except Failure α) :
    ∃ kind message, sandbox.finish (c.moment now) result = .error (kind, message) := by
  by_cases hcancelled : c.cancelled = true
  · exact ⟨_, _, if_pos hcancelled⟩
  · have hlate := decide_eq_true (h.resolve_left hcancelled)
    exact ⟨_, _, (if_neg hcancelled).trans (if_pos hlate)⟩

end Control

end Javex.Native

namespace Javex.Runtime

open Native Transition

open Isolated (Outcome)

open Backends (Notice)

/-! ### The native calls -/

/-- The two closures that are given to `Sandbox::finish`. -/
inductive Closure
  | start | advance

/-- A stretch of a closure: a check of the control, code of the host that comes to an end by itself,
or a call into Wasm. -/
inductive Stretch
  | check | host | guest
  deriving DecidableEq

/-- `Execution::start`: the cache or the compilation, and the linker; then the instances,
`javex-configure-v1` and `_start`. -/
def startStretches (staticMode resumable : Bool) : List Stretch :=
  [.check, .host, .check, .host] ++ (if staticMode then [] else [.guest]) ++ [.guest] ++
    (if resumable then [.guest] else []) ++ [.guest]

/-- `Execution::advance`: `cabi_realloc`, `javex-step-v1` and `cabi_realloc`, and what is written
and read between them. -/
def advanceStretches : List Stretch := [.check, .host, .guest, .host, .guest, .host, .guest]

/-- Where the run worker is: in `Execution::start` before the control is looked at and after; in a
closure, or about to finish it; with the result of a native call; in the `receive` of
`continue_native/3`; or at the end of its run. -/
inductive Place
  | admitted
  | creating
  | closure (closure : Closure) (stretches : List Stretch)
  | finishing (closure : Closure) (result : Except Failure (ℕ × Bytes))
  | handed (result : Backends.Native)
  | waiting
  | returned (outcome : Outcome)

/-- The end of a stretch: the closure goes on, fails, or returns early. -/
inductive StretchEnd
  | on
  | failed (failure : Failure)
  | out (record : ℕ × Bytes)

/-- A stretch has ended, with these to come. -/
def StretchEnd.place (closure : Closure) (later : List Stretch) : StretchEnd → Place
  | on => .closure closure later
  | failed failure => .finishing closure (.error failure)
  | out record => .finishing closure (.ok record)

/-- What is not decided here: the host calls of the guest until the engine looks at the epoch
again, and whether the stretch ends; the record of an advance; and whether the rest of
`Sandbox::new` succeeds and the exports of the bridge are found. -/
structure Choice where
  actions : List Action
  ended : Option StretchEnd
  record : ℕ × Bytes
  rest : Except Failure Unit

/-- What `run_start` is called with, and whether the provider exports `javex-step-v1`. -/
structure Program where
  fromSlice : Bytes → Except Bytes Codec.Json
  limits : StoreLimits
  opts : Native.Budgets
  wasm : Bytes
  input : Bytes
  resumable : Bool

/-- A run worker with its clock, the epoch of the engine and that of the store's deadline, its
control, its sandbox, and the messages it has not received. -/
structure RunWorker where
  now : ℕ
  epoch : ℕ
  epochDeadline : ℕ
  control : Control
  sandbox : Sandbox
  mailbox : List Notice
  place : Place

namespace RunWorker

section Source

variable (g : Program) (w : RunWorker) (choice : Choice)

/-- The beginning of `Execution::start`, up to the check in `Sandbox::new`. -/
def examine : Place :=
  if g.opts.maxInput < g.input.length then
    .handed (.error .inputLimit (utf8 "input limit exceeded"))
  else if g.opts.maxModule < g.wasm.length then
    .handed (.error .moduleLimit (utf8 "Wasm module limit exceeded"))
  else if ¬ (0 < g.opts.maxMemory ∧ 0 < g.opts.maxInput ∧ 0 < g.opts.maxModule) then
    .handed (.error .trap (utf8 "invalid budget"))
  else
    match w.control.check w.now with
    | .error failure => .handed (.error .trap failure.message)
    | .ok () => .creating

/-- The rest of `Sandbox::new`. -/
def create : RunWorker :=
  match choice.rest with
  | .error failure => { w with place := .handed (.error .trap failure.message) }
  | .ok () =>
    { w with
      epochDeadline := w.epoch + 1
      sandbox := .new g.opts g.limits
      place := .closure .start (startStretches g.opts.staticMode g.resumable) }

/-- One step of a closure. In the guest it is the epoch that is looked at first. -/
def proceed (closure : Closure) : List Stretch → Option RunWorker
  | [] => some { w with place := .finishing closure (.ok choice.record) }
  | .check :: later =>
    match w.control.check w.now with
    | .error failure => some { w with place := .finishing closure (.error failure) }
    | .ok () => some { w with place := .closure closure later }
  | .host :: later => choice.ended.map fun ended => { w with place := ended.place closure later }
  | .guest :: later =>
    if w.epochDeadline ≤ w.epoch then
      match w.control.check w.now with
      | .error failure => some { w with place := .finishing closure (.error failure) }
      | .ok () => some { w with epochDeadline := w.epoch + 1 }
    else
      let sandbox := choice.actions.foldl Sandbox.perform w.sandbox
      match choice.ended with
      | none => some { w with sandbox }
      | some ended => some { w with sandbox, place := ended.place closure later }

/-- What a closure comes to: `run_start` goes on to the first advance. -/
def conclude : Closure → Except Failure (ℕ × Bytes) → Place
  | .start, result =>
    match w.sandbox.finish (w.control.moment w.now) result with
    | .error (kind, message) => .handed (.error kind message)
    | .ok _ =>
      if g.resumable then
        match choice.rest with
        | .error failure => .handed (.error .trap failure.message)
        | .ok () => .closure .advance advanceStretches
      else .handed (.ok w.sandbox.stdout.bytes)
  | .advance, result =>
    match (w.sandbox.finish (w.control.moment w.now) result).bind
        (Native.conclude g.fromSlice w.sandbox.stdout.bytes) with
    | .error (kind, message) => .handed (.error kind message)
    | .ok (.done bytes) => .handed (.ok bytes)
    | .ok (.pending bytes) => .handed (.continue_ bytes)

/-- The `receive` of `continue_native/3`. -/
def receive : Option RunWorker :=
  match w.mailbox with
  | [] => none
  | notice :: later =>
    match notice.outcome? with
    | none => some { w with mailbox := later, place := .closure .advance advanceStretches }
    | some outcome => some { w with mailbox := later, place := .returned outcome }

/-- One step of the run worker. -/
def work : Option RunWorker :=
  match w.place with
  | .admitted => some { w with place := w.examine g }
  | .creating => some (w.create g choice)
  | .closure closure stretches => w.proceed choice closure stretches
  | .finishing closure result => some { w with place := w.conclude g choice closure result }
  | .handed (.continue_ _) => some { w with place := .waiting }
  | .handed (.ok bytes) => some { w with place := .returned (.ok bytes) }
  | .handed (.error kind message) => some { w with place := .returned (.error (kind, message)) }
  | .waiting => w.receive
  | .returned _ => none

/-- A step: time passes, the clock thread counts, `cancel/2` of the server sets the flag and then
sends `:cancel`, another message arrives, or the run worker goes on. -/
inductive Label
  | time (elapsed : ℕ)
  | tick
  | flag
  | notice (notice : Notice)
  | work (choice : Choice)

def step : Label → Option RunWorker
  | .time elapsed => some { w with now := w.now + elapsed }
  | .tick => some { w with epoch := w.epoch + 1 }
  | .flag => some { w with control := w.control.cancel }
  | .notice .cancel =>
    if w.control.cancelled then some { w with mailbox := w.mailbox ++ [.cancel] } else none
  | .notice notice => some { w with mailbox := w.mailbox ++ [notice] }
  | .work choice => w.work g choice

/-- A run worker from its first native call on. -/
def system : System RunWorker Label :=
  .ofStep (fun w => w.place = .admitted ∧ w.mailbox = [] ∧ w.epochDeadline = 0 ∧
    ∃ timeout, Control.new timeout w.now = .ok w.control) (step g)

end Source

/-! ### What a step of the run worker can be -/

/-- The control is cancelled or late. -/
def Over (w : RunWorker) : Prop := w.control.Over w.now

/-- The code of the guest runs: its next look at the epoch does not stop it. -/
def Executes (w : RunWorker) : Prop :=
  ∃ closure later, w.place = .closure closure (.guest :: later) ∧ w.epoch < w.epochDeadline

/-- A step of the run worker. Some are only taken while the control is not over. -/
inductive Works (w : RunWorker) : RunWorker → Prop
  | admitted (hopen : ¬ w.Over) (hplace : w.place = .admitted) :
      Works w { w with place := .creating }
  | created {sandbox : Sandbox} {staticMode resumable : Bool} (hplace : w.place = .creating) :
      Works w
        { w with
          epochDeadline := w.epoch + 1, sandbox
          place := .closure .start (startStretches staticMode resumable) }
  | passed {closure : Closure} {later : List Stretch} (hopen : ¬ w.Over)
      (hplace : w.place = .closure closure (.check :: later)) :
      Works w { w with place := .closure closure later }
  | resumed {closure : Closure} {later : List Stretch} (hopen : ¬ w.Over)
      (hplace : w.place = .closure closure (.guest :: later)) :
      Works w { w with epochDeadline := w.epoch + 1 }
  | runs {sandbox : Sandbox} (hruns : w.Executes) : Works w { w with sandbox }
  | on {closure : Closure} {stretch : Stretch} {later : List Stretch} {sandbox : Sandbox}
      (hplace : w.place = .closure closure (stretch :: later))
      (hstretch : stretch = .host ∨ w.Executes) :
      Works w { w with sandbox, place := .closure closure later }
  | out {closure : Closure} {stretches : List Stretch} {sandbox : Sandbox}
      {result : Except Failure (ℕ × Bytes)} (hplace : w.place = .closure closure stretches) :
      Works w { w with sandbox, place := .finishing closure result }
  | failed {kind : Kind} {message : Bytes}
      (hplace : w.place = .admitted ∨ w.place = .creating ∨
        ∃ closure result, w.place = .finishing closure result) :
      Works w { w with place := .handed (.error kind message) }
  | advanced {closure : Closure} {result : Except Failure (ℕ × Bytes)} (hopen : ¬ w.Over)
      (hplace : w.place = .finishing closure result) :
      Works w { w with place := .closure .advance advanceStretches }
  | done {closure : Closure} {result : Except Failure (ℕ × Bytes)} {handed : Backends.Native}
      (hopen : ¬ w.Over) (hplace : w.place = .finishing closure result) :
      Works w { w with place := .handed handed }
  | dispatched {requests : Bytes} (hplace : w.place = .handed (.continue_ requests)) :
      Works w { w with place := .waiting }
  | succeeded {bytes : Bytes} (hplace : w.place = .handed (.ok bytes)) :
      Works w { w with place := .returned (.ok bytes) }
  | erred {kind : Kind} {message : Bytes} (hplace : w.place = .handed (.error kind message)) :
      Works w { w with place := .returned (.error (kind, message)) }
  | replied {completion : Bytes} {later : List Notice} (hplace : w.place = .waiting)
      (hmailbox : w.mailbox = .reply completion :: later) :
      Works w { w with mailbox := later, place := .closure .advance advanceStretches }
  | stopped {notice : Notice} {later : List Notice} {error : Kind × Bytes}
      (hplace : w.place = .waiting) (hmailbox : w.mailbox = notice :: later) :
      Works w { w with mailbox := later, place := .returned (.error error) }

variable {g : Program} {w w' : RunWorker} {choice : Choice}

/-- With a control that is not over `check` and the epoch let the run worker pass. -/
theorem not_over_of_check (h : w.control.check w.now = .ok ()) : ¬ w.Over :=
  Control.check_eq_ok.mp h

/-- `Sandbox::finish` returns a result only if the control is not over. -/
theorem not_over_of_finish {result : Except Failure (ℕ × Bytes)} {record : ℕ × Bytes}
    (h : w.sandbox.finish (w.control.moment w.now) result = .ok record) : ¬ w.Over := by
  intro hover
  obtain ⟨kind, message, herror⟩ := Control.finish_over hover w.sandbox result
  cases herror.symm.trans h

/-- The control is looked at before the start. -/
theorem works_examine (hplace : w.place = .admitted) : Works w { w with place := w.examine g } := by
  unfold examine
  split_ifs
  · exact .failed (.inl hplace)
  · exact .failed (.inl hplace)
  · cases hcheck : w.control.check w.now with
    | error failure => exact .failed (.inl hplace)
    | ok => exact .admitted (not_over_of_check hcheck) hplace
  · exact .failed (.inl hplace)

/-- The sandbox is made, or is not. -/
theorem works_create (hplace : w.place = .creating) : Works w (w.create g choice) := by
  unfold create
  cases choice.rest with
  | error failure => exact .failed (.inr (.inl hplace))
  | ok => exact .created hplace

theorem works_place {closure : Closure} {stretch : Stretch} {later : List Stretch}
    {sandbox : Sandbox} (hplace : w.place = .closure closure (stretch :: later))
    (hstretch : stretch = .host ∨ w.Executes) (ended : StretchEnd) :
    Works w { w with sandbox, place := ended.place closure later } := by
  cases ended with
  | on => exact .on hplace hstretch
  | failed failure => exact .out hplace
  | out record => exact .out hplace

/-- A closure goes on. -/
theorem works_proceed {closure : Closure} {stretches : List Stretch}
    (hplace : w.place = .closure closure stretches)
    (h : w.proceed choice closure stretches = some w') : Works w w' := by
  cases stretches with
  | nil =>
    cases h
    exact .out hplace
  | cons stretch later =>
    cases stretch with
    | check =>
      simp only [proceed] at h
      cases hcheck : w.control.check w.now with
      | error failure =>
        rw [hcheck] at h
        cases h
        exact .out hplace
      | ok =>
        rw [hcheck] at h
        cases h
        exact .passed (not_over_of_check hcheck) hplace
    | host =>
      obtain ⟨ended, -, rfl⟩ := Option.map_eq_some_iff.mp h
      exact works_place hplace (.inl rfl) ended
    | guest =>
      simp only [proceed] at h
      split_ifs at h with hepoch
      · cases hcheck : w.control.check w.now with
        | error failure =>
          rw [hcheck] at h
          cases h
          exact .out hplace
        | ok =>
          rw [hcheck] at h
          cases h
          exact .resumed (not_over_of_check hcheck) hplace
      · have hruns : w.Executes := ⟨closure, later, hplace, Nat.not_le.mp hepoch⟩
        cases hended : choice.ended with
        | none =>
          rw [hended] at h
          cases h
          exact .runs hruns
        | some ended =>
          rw [hended] at h
          cases h
          exact works_place hplace (.inr hruns) ended

/-- A closure is finished. -/
theorem works_conclude {closure : Closure} {result : Except Failure (ℕ × Bytes)}
    (hplace : w.place = .finishing closure result) :
    Works w { w with place := w.conclude g choice closure result } := by
  cases hfinish : w.sandbox.finish (w.control.moment w.now) result with
  | error error =>
    obtain ⟨kind, message⟩ := error
    cases closure <;> simp only [conclude, hfinish, Except.bind] <;>
      exact .failed (.inr (.inr ⟨_, _, hplace⟩))
  | ok record =>
    have hopen := not_over_of_finish hfinish
    cases closure with
    | start =>
      simp only [conclude, hfinish]
      split_ifs
      · cases choice.rest with
        | error failure => exact .done hopen hplace
        | ok => exact .advanced hopen hplace
      · exact .done hopen hplace
    | advance =>
      simp only [conclude, hfinish, Except.bind]
      split <;> exact .done hopen hplace

/-- A message is received while the guest waits. -/
theorem works_receive (hplace : w.place = .waiting) (h : w.receive = some w') : Works w w' := by
  unfold receive at h
  cases hmailbox : w.mailbox with
  | nil =>
    rw [hmailbox] at h
    cases h
  | cons notice later =>
    rw [hmailbox] at h
    cases notice with
    | reply completion =>
      cases h
      exact .replied hplace hmailbox
    | _ =>
      cases h
      exact .stopped hplace hmailbox

/-- **A step of the run worker.** -/
theorem works_of_work (h : w.work g choice = some w') : Works w w' := by
  unfold work at h
  cases hplace : w.place with
  | admitted =>
    rw [hplace] at h
    cases h
    exact works_examine hplace
  | creating =>
    rw [hplace] at h
    cases h
    exact works_create hplace
  | closure closure stretches =>
    rw [hplace] at h
    exact works_proceed hplace h
  | finishing closure result =>
    rw [hplace] at h
    cases h
    exact works_conclude hplace
  | handed result =>
    rw [hplace] at h
    cases result with
    | continue_ requests =>
      cases h
      exact .dispatched hplace
    | ok bytes =>
      cases h
      exact .succeeded hplace
    | error kind message =>
      cases h
      exact .erred hplace
  | waiting =>
    rw [hplace] at h
    exact works_receive hplace h
  | returned outcome =>
    rw [hplace] at h
    cases h

/-- What a step of anything but the run worker leaves alone. -/
structure Outside (w w' : RunWorker) : Prop where
  place : w'.place = w.place
  epochDeadline : w'.epochDeadline = w.epochDeadline
  epoch : w.epoch ≤ w'.epoch
  overdue : w.Over → w'.Over
  flagged : w.control.cancelled = true → w'.control.cancelled = true
  sent : .cancel ∈ w.mailbox → .cancel ∈ w'.mailbox
  sender : .cancel ∈ w'.mailbox → .cancel ∈ w.mailbox ∨ w.control.cancelled = true

/-- A step is one of the run worker, or leaves the run worker alone. -/
theorem step_cases {l : Label} (h : step g w l = some w') :
    (∃ choice, l = .work choice ∧ Works w w') ∨ (∀ choice, l ≠ .work choice) ∧ Outside w w' := by
  cases l with
  | work choice => exact .inl ⟨choice, rfl, works_of_work h⟩
  | time elapsed =>
    cases h
    refine .inr ⟨nofun, rfl, rfl, le_rfl, Or.imp_right fun hlate => ?_, id, id, .inl⟩
    exact hlate.trans (Nat.le_add_right _ _)
  | tick =>
    cases h
    exact .inr ⟨nofun, rfl, rfl, Nat.le_succ _, id, id, id, .inl⟩
  | flag =>
    cases h
    exact .inr ⟨nofun, rfl, rfl, le_rfl, fun _ => .inl rfl, fun _ => rfl, id, .inl⟩
  | notice notice =>
    cases notice with
    | cancel =>
      simp only [step] at h
      split_ifs at h with hflag
      cases h
      exact .inr ⟨nofun, rfl, rfl, le_rfl, id, id, List.mem_append_left _, fun _ => .inr hflag⟩
    | reply completion | error kind message | brokerDown | runtimeDown =>
      cases h
      refine .inr ⟨nofun, rfl, rfl, le_rfl, id, id, List.mem_append_left _, fun hsent => ?_⟩
      exact .inl ((List.mem_append.mp hsent).resolve_right (by simp))

/-- The run worker leaves the clock, the epoch and the control alone, and it sets the deadline of
the store to the next epoch. -/
theorem Works.frame (h : Works w w') : w'.now = w.now ∧ w'.epoch = w.epoch ∧
    w'.control = w.control ∧
    (w'.epochDeadline = w.epochDeadline ∨ w'.epochDeadline = w.epoch + 1) := by
  cases h with
  | created | resumed => exact ⟨rfl, rfl, rfl, .inr rfl⟩
  | _ => exact ⟨rfl, rfl, rfl, .inl rfl⟩

/-- What is over stays over. -/
theorem over_step {l : Label} (h : step g w l = some w') (hover : w.Over) : w'.Over := by
  rcases step_cases h with ⟨choice, -, hworks⟩ | ⟨-, hout⟩
  · obtain ⟨hnow, -, hcontrol, -⟩ := hworks.frame
    rw [Over, hnow, hcontrol]
    exact hover
  · exact hout.overdue hover

/-- A cancelled control stays cancelled. -/
theorem flagged_step {l : Label} (h : step g w l = some w') (hflag : w.control.cancelled = true) :
    w'.control.cancelled = true := by
  rcases step_cases h with ⟨choice, -, hworks⟩ | ⟨-, hout⟩
  · rw [hworks.frame.2.2.1]
    exact hflag
  · exact hout.flagged hflag

/-! ### The steps that are left -/

/-- The steps from a place to the end of the run, for a control that is over. -/
def rank : Place → ℕ
  | .admitted => 14
  | .creating => 13
  | .handed (.continue_ _) => 12
  | .waiting => 11
  | .closure _ stretches => stretches.length + 3
  | .finishing _ _ => 2
  | .handed _ => 1
  | .returned _ => 0

theorem length_startStretches_le (staticMode resumable : Bool) :
    (startStretches staticMode resumable).length ≤ 8 := by
  cases staticMode <;> cases resumable <;> decide

/-- What bounds the steps that are left, at any time. -/
structure Bounded (w : RunWorker) : Prop where
  epochDeadline : w.epochDeadline ≤ w.epoch + 1
  rank : rank w.place ≤ 14

/-- No step of the run worker takes it further than fourteen steps from its end. -/
theorem Works.rank_le (h : Works w w') (hw : rank w.place ≤ 14) : rank w'.place ≤ 14 := by
  cases h with
  | @created sandbox staticMode resumable hplace =>
    have hlength := length_startStretches_le staticMode resumable
    simp only [rank]
    omega
  | passed hopen hplace | on hplace hstretch =>
    rw [hplace] at hw
    simp only [rank, List.length_cons] at hw ⊢
    omega
  | runs | resumed => exact hw
  | @done closure result handed hopen hplace => cases handed <;> simp [rank]
  | _ => simp [rank, advanceStretches]

theorem bounded_step {l : Label} (h : step g w l = some w') (hw : Bounded w) : Bounded w' := by
  rcases step_cases h with ⟨choice, -, hworks⟩ | ⟨-, hout⟩
  · obtain ⟨-, hepoch, -, hdeadline⟩ := hworks.frame
    have hle := hw.epochDeadline
    exact ⟨by omega, hworks.rank_le hw.rank⟩
  · refine ⟨?_, by rw [hout.place]; exact hw.rank⟩
    rw [hout.epochDeadline]
    exact hw.epochDeadline.trans (Nat.succ_le_succ hout.epoch)

theorem bounded_of_reachable (h : (system g).Reachable w) : Bounded w := by
  have hind : (system g).Inductive Bounded := by
    refine ⟨fun w hw => ?_, fun w l w' hw hstep => bounded_step hstep hw⟩
    obtain ⟨hplace, -, hdeadline, -⟩ := hw
    refine ⟨?_, ?_⟩
    · rw [hdeadline]
      exact Nat.zero_le _
    · rw [hplace]
      exact le_rfl
  exact hind.of_reachable h

/-- What is left: the steps of the run worker, and the epochs that the store still lets pass. -/
def left (w : RunWorker) : ℕ := rank w.place + (w.epochDeadline - w.epoch)

/-- **A step of the run worker with a control that is over** is one less that is left, or the guest
runs on. -/
theorem Works.left_lt (h : Works w w') (hover : w.Over) :
    w'.left < w.left ∨ w.Executes ∧ w'.left = w.left ∧ w'.place = w.place ∧
      w'.epochDeadline = w.epochDeadline := by
  cases h with
  | admitted hopen | passed hopen | resumed hopen | advanced hopen | done hopen =>
    exact absurd hover hopen
  | runs hruns => exact .inr ⟨hruns, rfl, rfl, rfl⟩
  | @created sandbox staticMode resumable hplace =>
    have hlength := length_startStretches_le staticMode resumable
    simp only [left, hplace, rank]
    omega
  | failed hplace =>
    rcases hplace with hplace | hplace | ⟨closure, result, hplace⟩ <;>
      simp only [left, hplace, rank] <;> omega
  | on hplace | out hplace =>
    simp only [left, hplace, rank, List.length_cons]
    omega
  | dispatched hplace | succeeded hplace | erred hplace | stopped hplace =>
    simp only [left, hplace, rank]
    omega
  | replied hplace =>
    simp only [left, hplace, rank, advanceStretches, List.length_cons, List.length_nil]
    omega

/-! ### Out of the guest -/

/-- No guest comes before the next check. -/
def guarded : List Stretch → Bool
  | [] | .check :: _ => true
  | .host :: later => guarded later
  | .guest :: _ => false

/-- For a control that is over the guest is out of reach: the epoch stops it, or a check comes
first. -/
def Shut (w : RunWorker) : Prop :=
  w.epochDeadline ≤ w.epoch ∨ ∀ closure stretches, w.place = .closure closure stretches →
    guarded stretches = true

/-- Out of the guest no code of it runs. -/
theorem Shut.not_executes (h : w.Shut) : ¬ w.Executes := by
  rintro ⟨closure, later, hplace, hlt⟩
  rcases h with hle | hguarded
  · omega
  · cases hguarded closure _ hplace

/-- The run worker does not go back into the guest once the control is over. -/
theorem Works.shut (h : Works w w') (hover : w.Over) (hshut : w.Shut) : w'.Shut := by
  have hnot := hshut.not_executes
  cases h with
  | admitted hopen | passed hopen | resumed hopen | advanced hopen | done hopen =>
    exact absurd hover hopen
  | runs hruns => exact absurd hruns hnot
  | created =>
    refine .inr fun closure stretches hclosure => ?_
    cases hclosure
    rfl
  | on hplace hstretch =>
    obtain rfl := hstretch.resolve_right hnot
    refine hshut.imp_right fun hguarded closure stretches hclosure => ?_
    cases hclosure
    exact hguarded _ (.host :: _) hplace
  | replied =>
    refine .inr fun closure stretches hclosure => ?_
    cases hclosure
    rfl
  | _ => exact .inr fun closure stretches hclosure => by cases hclosure

/-- Nor does anybody else bring it there. -/
theorem shut_step {l : Label} (h : step g w l = some w') (hover : w.Over) (hshut : w.Shut) :
    w'.Shut := by
  rcases step_cases h with ⟨choice, -, hworks⟩ | ⟨-, hout⟩
  · exact hworks.shut hover hshut
  · rw [Shut, hout.place, hout.epochDeadline]
    exact hshut.imp_left fun hle => hle.trans hout.epoch

/-! ### No success -/

/-- The run has the result of the guest. -/
def Succeeds (w : RunWorker) (bytes : Bytes) : Prop :=
  w.place = .handed (.ok bytes) ∨ w.place = .returned (.ok bytes)

theorem Works.succeeds (h : Works w w') (hover : w.Over) {bytes : Bytes}
    (hsucceeds : w'.Succeeds bytes) : w.Succeeds bytes := by
  cases h with
  | admitted hopen | passed hopen | resumed hopen | advanced hopen | done hopen =>
    exact absurd hover hopen
  | runs => exact hsucceeds
  | succeeded hplace =>
    rcases hsucceeds with heq | heq <;> cases heq
    exact .inl hplace
  | _ => rcases hsucceeds with heq | heq <;> cases heq

/-- Once the control is over no step makes a success. -/
theorem succeeds_step {l : Label} (h : step g w l = some w') (hover : w.Over) {bytes : Bytes}
    (hsucceeds : w'.Succeeds bytes) : w.Succeeds bytes := by
  rcases step_cases h with ⟨choice, -, hworks⟩ | ⟨-, hout⟩
  · exact hworks.succeeds hover hsucceeds
  · rwa [Succeeds, hout.place] at hsucceeds

/-! ### To the end -/

/-- A run that has returned takes no step. -/
theorem Works.not_returned (h : Works w w') {outcome : Outcome} :
    w.place ≠ .returned outcome := by
  intro hreturned
  cases h with
  | runs hruns =>
    obtain ⟨closure, later, hplace, -⟩ := hruns
    cases hplace.symm.trans hreturned
  | failed hplace =>
    rcases hplace with hplace | hplace | ⟨closure, result, hplace⟩ <;>
      cases hplace.symm.trans hreturned
  | admitted _ hplace | created hplace | passed _ hplace | resumed _ hplace | on hplace
  | out hplace | advanced _ hplace | done _ hplace | dispatched hplace | succeeded hplace
  | erred hplace | replied hplace | stopped hplace => cases hplace.symm.trans hreturned

/-- A run that has returned has returned for good. -/
theorem returned_step {l : Label} (h : step g w l = some w') {outcome : Outcome}
    (hreturned : w.place = .returned outcome) : w'.place = .returned outcome := by
  rcases step_cases h with ⟨choice, -, hworks⟩ | ⟨-, hout⟩
  · exact absurd hreturned hworks.not_returned
  · exact hout.place.trans hreturned

/-- `:cancel` is in the mailbox until the run has returned. -/
theorem Works.sent (h : Works w w') (hsent : .cancel ∈ w.mailbox) :
    .cancel ∈ w'.mailbox ∨ ∃ outcome, w'.place = .returned outcome := by
  cases h with
  | replied hplace hmailbox =>
    rw [hmailbox] at hsent
    exact .inl ((List.mem_cons.mp hsent).resolve_left nofun)
  | stopped => exact .inr ⟨_, rfl⟩
  | _ => exact .inl hsent

/-- The run worker sends itself no message. -/
theorem Works.mailbox_subset (h : Works w w') : w'.mailbox ⊆ w.mailbox := by
  cases h with
  | replied hplace hmailbox | stopped hplace hmailbox =>
    rw [hmailbox]
    exact List.subset_cons_self _ _
  | _ => exact List.Subset.refl _

/-- The flag is set before `:cancel` is sent. -/
theorem flagged_of_reachable (h : (system g).Reachable w) (hsent : .cancel ∈ w.mailbox) :
    w.control.cancelled = true := by
  have hind : (system g).Inductive fun w => .cancel ∈ w.mailbox → w.control.cancelled = true := by
    refine ⟨fun w hw hsent => ?_, fun w l w' hw hstep hsent => ?_⟩
    · rw [hw.2.1] at hsent
      cases hsent
    · refine flagged_step hstep ?_
      rcases step_cases hstep with ⟨choice, -, hworks⟩ | ⟨-, hout⟩
      · exact hw (hworks.mailbox_subset hsent)
      · exact (hout.sender hsent).elim hw id
  exact hind.of_reachable h hsent

/-- The run has returned. -/
def Returned (w : RunWorker) : Prop := ∃ outcome, w.place = .returned outcome

/-- The server has cancelled the run. -/
structure Cancelled (w : RunWorker) : Prop where
  flagged : w.control.cancelled = true
  sent : .cancel ∈ w.mailbox ∨ w.Returned

theorem cancelled_step {l : Label} (h : step g w l = some w') (hw : w.Cancelled) :
    w'.Cancelled := by
  refine ⟨flagged_step h hw.flagged, ?_⟩
  rcases hw.sent with hsent | ⟨outcome, hreturned⟩
  · rcases step_cases h with ⟨choice, -, hworks⟩ | ⟨-, hout⟩
    · exact hworks.sent hsent
    · exact .inl (hout.sent hsent)
  · exact .inr ⟨outcome, returned_step h hreturned⟩

/-- The run worker, whose code of the host ends and whose guest comes to look at the epoch, and the
clock thread. -/
inductive Thread
  | worker | clock

/-- A turn of a thread. -/
def Thread.turn : Thread → Label → Prop
  | worker, l => ∃ choice, l = .work choice
  | clock, l => l = .tick

/-- The thread that the end depends on: while the guest runs it is the clock. -/
def due (w : RunWorker) : Thread :=
  match w.place with
  | .closure _ (.guest :: _) => if w.epoch < w.epochDeadline then .clock else .worker
  | _ => .worker

/-- The clock is due exactly while code of the guest runs. -/
theorem due_eq_clock_iff : w.due = .clock ↔ w.Executes := by
  unfold due Executes
  split
  case h_1 closure later hplace =>
    split_ifs with hepoch
    · exact iff_of_true rfl ⟨closure, later, hplace, hepoch⟩
    · exact iff_of_false nofun fun ⟨_, _, _, hlt⟩ => hepoch hlt
  case h_2 hplace => exact iff_of_false nofun fun ⟨_, _, hguest, _⟩ => hplace _ _ hguest

theorem due_congr (hplace : w'.place = w.place) (hepochs : w.epoch < w.epochDeadline ↔
    w'.epoch < w'.epochDeadline) : w'.due = w.due := by
  unfold due
  rw [hplace]
  split
  · simp only [hepochs]
  · rfl

/-- A choice of success everywhere. -/
def plain : Choice := ⟨[], some .on, (0, []), .ok ()⟩

/-- A run that has not returned goes on, unless it waits. -/
theorem exists_work (hplace : ¬ w.Returned) (hmailbox : w.mailbox ≠ []) :
    ∃ w', w.work g plain = some w' := by
  unfold work
  cases hw : w.place with
  | returned outcome => exact absurd ⟨outcome, hw⟩ hplace
  | admitted | creating | finishing closure result => exact ⟨_, rfl⟩
  | handed result => cases result <;> exact ⟨_, rfl⟩
  | waiting =>
    simp only [receive]
    cases hm : w.mailbox with
    | nil => exact absurd hm hmailbox
    | cons notice later => cases notice <;> exact ⟨_, rfl⟩
  | closure closure stretches =>
    cases stretches with
    | nil => exact ⟨_, rfl⟩
    | cons stretch later =>
      cases stretch with
      | host => exact ⟨_, rfl⟩
      | check =>
        simp only [proceed]
        split <;> exact ⟨_, rfl⟩
      | guest =>
        simp only [proceed]
        split_ifs
        · split <;> exact ⟨_, rfl⟩
        · exact ⟨_, rfl⟩

/-- Nothing but the run worker adds to what is left, or changes who is due. -/
theorem Outside.left_le (h : Outside w w') :
    w'.left < w.left ∨ w'.left = w.left ∧ w'.due = w.due := by
  have hepoch := h.epoch
  have hleft : w'.left = rank w.place + (w.epochDeadline - w'.epoch) := by
    rw [left, h.place, h.epochDeadline]
  by_cases hless : w'.left < w.left
  · exact .inl hless
  · have hsame : w.epochDeadline - w'.epoch = w.epochDeadline - w.epoch := by
      rw [hleft, left] at hless
      omega
    refine .inr ⟨by rw [hleft, left, hsame], due_congr h.place ?_⟩
    rw [h.epochDeadline]
    omega

/-- What is left never grows once the control is over, and a turn that the end depends on makes it
less. -/
theorem left_step {l : Label} (h : step g w l = some w') (hover : w.Over) :
    (w'.left < w.left ∨ w'.left = w.left ∧ w'.due = w.due) ∧
      (w.due.turn l → w'.left < w.left) := by
  rcases step_cases h with ⟨choice, rfl, hworks⟩ | ⟨hother, hout⟩
  · rcases hworks.left_lt hover with hlt | ⟨hruns, hleft, hplace, hdeadline⟩
    · exact ⟨.inl hlt, fun _ => hlt⟩
    · -- while the guest runs on it is the clock that is due
      have hepoch := hworks.frame.2.1
      refine ⟨.inr ⟨hleft, due_congr hplace (by rw [hdeadline, hepoch])⟩, fun hturn => ?_⟩
      rw [due_eq_clock_iff.mpr hruns] at hturn
      cases hturn
  · refine ⟨hout.left_le, fun hturn => ?_⟩
    cases hdue : w.due with
    | worker =>
      rw [hdue] at hturn
      obtain ⟨choice, rfl⟩ := hturn
      exact absurd rfl (hother choice)
    | clock =>
      rw [hdue] at hturn
      obtain ⟨closure, later, -, hlt⟩ := due_eq_clock_iff.mp hdue
      obtain rfl : l = .tick := hturn
      cases h
      simp only [left]
      omega

/-- The two threads bring a cancelled run to its end. -/
theorem helpful_threads (g : Program) :
    (system g).Helpful Cancelled Returned (fun thread => (system g).Enabled thread.turn) Thread.turn
      left due where
  step _ _ _ hw hstep := cancelled_step hstep hw
  helps w hw hreturned := by
    cases hdue : w.due with
    | clock => exact ⟨.tick, _, rfl, rfl⟩
    | worker =>
      have hsent := hw.sent.resolve_right hreturned
      obtain ⟨w', hwork⟩ := exists_work hreturned (List.ne_nil_of_mem hsent)
      exact ⟨.work plain, w', ⟨_, rfl⟩, hwork⟩
  keeps _ _ _ hw _ hstep := (left_step hstep (.inl hw.flagged)).1
  spends _ _ _ hw _ hturn hstep := (left_step hstep (.inl hw.flagged)).2 hturn

/-- Whether a step is one of the run worker. -/
def Label.isWork : Label → Bool
  | .work _ => true
  | _ => false

/-- Out of the guest every step of the run worker is one less that is left. -/
theorem left_lt_of_isWork {l : Label} (hown : l.isWork = true) (h : step g w l = some w')
    (hover : w.Over) (hshut : w.Shut) : w'.left < w.left := by
  rcases step_cases h with ⟨choice, -, hworks⟩ | ⟨hother, -⟩
  · exact (hworks.left_lt hover).resolve_right fun hruns => hshut.not_executes hruns.1
  · cases l with
    | work choice => exact absurd rfl (hother choice)
    | _ => cases hown

/-- Once the epoch has moved on, a run whose control is over is out of the guest, and the run worker
has few steps to take. -/
theorem after_tick {v u : RunWorker} {after : List Label} (hv : (system g).Reachable v)
    (hover : v.Over) (htick : step g v .tick = some u) (hrun : (system g).Run u after w') :
    ¬ w'.Executes ∧ after.countP Label.isWork ≤ 14 := by
  have hbounded := bounded_of_reachable hv
  have hover' := over_step htick hover
  cases htick
  have hkept : ∀ s l t, s.Over ∧ s.Shut → (system g).step s l t → t.Over ∧ t.Shut :=
    fun s l t hs hstep => ⟨over_step hstep hs.1, shut_step hstep hs.1 hs.2⟩
  -- the deadline of the store is at most one epoch away, and that epoch has come
  have hshut : Shut { v with epoch := v.epoch + 1 } := .inl hbounded.epochDeadline
  have hle : ∀ s l t, s.Over ∧ s.Shut → (system g).step s l t → t.left ≤ s.left := by
    intro s l t hs hstep
    rcases (left_step hstep hs.1).1 with hlt | ⟨heq, -⟩
    · exact hlt.le
    · exact heq.le
  have hlt : ∀ s l t, Label.isWork l = true → s.Over ∧ s.Shut → (system g).step s l t →
      t.left < s.left :=
    fun s l t hown hs hstep => left_lt_of_isWork hown hstep hs.1 hs.2
  have hcount := hrun.countP_add_work_le hkept hle hlt ⟨hover', hshut⟩
  refine ⟨(hrun.invariant hkept ⟨hover', hshut⟩).2.not_executes, ?_⟩
  have hdeadline := hbounded.epochDeadline
  have hplace : rank v.place ≤ 14 := hbounded.rank
  simp only [left] at hcount
  omega

/-- **A cancelled run ends.** Take any state of a run and go on from it in any way. Once the control
is over, cancelled or late, the run does not come to a success that it has not got, and when the
clock has counted once more no code of the guest runs any more and the run worker takes at most 14
steps. Once the server has sent `:cancel`, the run returns, if the clock goes on and the run worker
is not kept for ever from its next step. -/
theorem cancelled_run_ends (hw : (system g).Reachable w) :
    (w.Over → ∀ ls w', (system g).Run w ls w' →
      (∀ bytes, w'.Succeeds bytes → w.Succeeds bytes) ∧
      ∀ before after, ls = before ++ .tick :: after →
        ¬ w'.Executes ∧ after.countP Label.isWork ≤ 14) ∧
    (.cancel ∈ w.mailbox → ∀ b : (system g).Behaviour, b.state 0 = w →
      (∀ thread : Thread, b.WeaklyFair thread.turn) →
      ∃ i outcome, ∀ j, i ≤ j → (b.state j).place = .returned outcome) := by
  refine ⟨fun hover ls w' hrun => ⟨fun bytes => ?_, ?_⟩, fun hsent b hstart hfair => ?_⟩
  · have hkept := hrun.invariant
      (I := fun v => v.Over ∧ (v.Succeeds bytes → w.Succeeds bytes))
      (fun s l t hs hstep =>
        ⟨over_step hstep hs.1, fun hsucceeds => hs.2 (succeeds_step hstep hs.1 hsucceeds)⟩)
      ⟨hover, id⟩
    exact hkept.2
  · rintro before after rfl
    rw [List.append_cons] at hrun
    obtain ⟨u, hfirst, hrest⟩ := hrun.of_append
    obtain ⟨v, hbefore, htick⟩ := hfirst.of_concat
    have hkept : ∀ s l t, s.Over → (system g).step s l t → t.Over :=
      fun _ _ _ hs hstep => over_step hstep hs
    have hover' := hbefore.invariant hkept hover
    exact after_tick (hbefore.reachable hw) hover' htick hrest
  · have hcancelled : Cancelled (b.state 0) :=
      hstart ▸ ⟨flagged_of_reachable hw hsent, .inl hsent⟩
    obtain ⟨i, -, outcome, hreturned⟩ := (helpful_threads g).eventually b hfair hcancelled
    refine ⟨i, outcome, fun j hij => ?_⟩
    exact b.invariant (fun _ _ _ hs hstep => returned_step hstep hs) hij hreturned

/-- A static module that does not export `javex-step-v1`. -/
def staticProgram : Program where
  fromSlice _ := .ok (.obj [])
  limits := ⟨fun _ _ _ => .granted, fun _ _ _ => .granted⟩
  opts :=
    { fuel := 1, maxMemory := 65536, maxInput := 1, maxOutput := 0, maxStderr := 0, maxModule := 1
      maxCallbackCalls := 0, maxCallbackConcurrency := 1, maxCallbackInput := 0
      maxCallbackOutput := 0, env := [], staticMode := true }
  wasm := []
  input := []
  resumable := false

/-- Its run worker before `run_start`, with a second to go. -/
def admittedRun : RunWorker where
  now := 0
  epoch := 0
  epochDeadline := 0
  control := ⟨1000, false⟩
  sandbox := .new staticProgram.opts staticProgram.limits
  mailbox := []
  place := .admitted

/-- The guest runs for ever, and the server has cancelled the run. -/
def spinning : RunWorker :=
  { admittedRun with
    epochDeadline := 1, control := ⟨1000, true⟩, mailbox := [.cancel]
    place := .closure .start [.guest, .guest] }

theorem spinning_reachable : (system staticProgram).Reachable spinning := by
  have hrun : [Label.work plain, .work plain, .work plain, .work plain, .work plain,
      .work plain, .work ⟨[], none, (0, []), .ok ()⟩, .flag, .notice .cancel].foldlM
        (step staticProgram) admittedRun = some spinning := rfl
  exact (System.Run.of_foldlM hrun).reachable (.init ⟨rfl, rfl, rfl, 1000, rfl⟩)

/-- The run from there: the clock counts, the run worker comes out of the guest and returns, and
then the clock counts on. -/
def stopping : (system staticProgram).Behaviour where
  state
    | 0 => spinning
    | 1 => { spinning with epoch := 1 }
    | 2 =>
      { spinning with epoch := 1, place := .finishing .start (.error (.other (utf8 "cancelled"))) }
    | 3 =>
      { spinning with
        epoch := 1, place := .handed (.error .cancelled (utf8 "execution cancelled")) }
    | n + 4 =>
      { spinning with
        epoch := n + 1, place := .returned (.error (.cancelled, utf8 "execution cancelled")) }
  label
    | 0 => .tick
    | 1 | 2 | 3 => .work plain
    | _ + 4 => .tick
  step
    | 0 | 1 | 2 | 3 => rfl
    | _ + 4 => rfl

theorem stopping_fair (thread : Thread) : stopping.WeaklyFair thread.turn := by
  intro i henabled
  cases thread with
  | clock => exact ⟨i + 4, Nat.le_add_right _ _, rfl⟩
  | worker =>
    -- a run that has returned has no step to take
    obtain ⟨l, w, ⟨choice, rfl⟩, hstep⟩ := henabled (i + 4) (Nat.le_add_right _ _)
    cases hstep

/-- A guest that runs for ever is stopped: no code of it runs after the next epoch, and its run
returns. -/
theorem cancelled_run_ends_spinning : spinning.Executes ∧
    (∀ ls w, (system staticProgram).Run spinning (.tick :: ls) w →
      ¬ w.Executes ∧ ls.countP Label.isWork ≤ 14) ∧
    ∃ i outcome, ∀ j, i ≤ j → (stopping.state j).place = .returned outcome := by
  obtain ⟨hstops, hends⟩ := cancelled_run_ends spinning_reachable
  refine ⟨⟨.start, [.guest], rfl, Nat.zero_lt_one⟩, fun ls w hrun => ?_, ?_⟩
  · exact (hstops (.inl rfl) _ w hrun).2 [] ls rfl
  · exact hends (List.mem_singleton_self _) stopping rfl stopping_fair

end RunWorker

end Javex.Runtime
