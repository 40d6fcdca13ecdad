import Javex.Worker.Pipes

/-!
# An execution on either backend

An execution, as `Execution::start` and `Execution::advance` of
`native/javex_nif/src/sandbox.rs` run it, is a function from the completions delivered so far to
what it does next. Its sandbox is the same on both backends; what differs is how the outcome gets
to the run worker.

* `continueNative`: in process, the NIF hands it over as it is.
* `printed`: isolated, the child prints an event for each turn, and `response` cuts the last one
  down to the response limit.
* `Within`: the limits that an execution and its completions keep to.

Taking an execution for a function of the completions is what makes the comparison possible:
whatever else a guest may depend on, such as the clock and random bytes, is taken to be the same on
both backends, which run it in the same sandbox. The function is arbitrary, so nothing else is
assumed about guests.

`responded_eq_iff` says which errors `response` leaves alone, and is where the two backends can come
apart.
-/

namespace Javex.Backends

open Codec Codec.Decoder Isolated Worker

/-- `Ok(Progress::Pending(_))`, `Ok(Progress::Done(_))` or `Err((kind, message))`. -/
inductive Progress
  | pending (frame : Bytes)
  | done (bytes : Bytes)
  | err (kind : Kind) (message : Bytes)
  deriving DecidableEq

/-- The kinds that `Execution::start` and `Execution::advance` return: those of
`Sandbox::finish` and their own. -/
def executionKinds : List Kind :=
  [.cancelled, .timeout, .oom, .outputLimit, .diagnosticLimit, .fuelExhausted, .jsError, .trap,
    .inputLimit, .moduleLimit, .callbackLimit]

theorem mem_kinds {kind : Kind} (h : kind ∈ executionKinds) : kind ∈ kinds := by
  have hall : ∀ kind ∈ executionKinds, kind ∈ kinds := by decide
  exact hall kind h

/-- An execution: what it does after the completions delivered so far. -/
structure Execution where
  advance : List Bytes → Progress
  known : ∀ {completions kind message}, advance completions = .err kind message →
    kind ∈ executionKinds

/-- The outcome of an execution that has ended. -/
def Progress.outcome? : Progress → Option Outcome
  | .pending _ => none
  | .done bytes => some (.ok bytes)
  | .err kind message => some (.error (kind, message))

/-! ### In process -/

/-- What `advance` of `native/javex_nif/src/lib.rs` returns for the progress of an execution. -/
inductive Native
  | continue_ (requests : Bytes)
  | ok (bytes : Bytes)
  | error (kind : Kind) (message : Bytes)

def Native.of : Progress → Native
  | .pending frame => .continue_ frame
  | .done bytes => .ok bytes
  | .err kind message => .error kind message

/-- `Native.run_start`. -/
def runStart (execution : Execution) : Native := .of (execution.advance [])

/-- `Native.run_step` on an execution that was resumed with some completions before. -/
def runStep (execution : Execution) (delivered : List Bytes) (completion : Bytes) : Native :=
  .of (execution.advance (delivered ++ [completion]))

/-- What reaches the run worker besides the execution: the broker's messages, the `:DOWN` of the
broker and of the runtime, and `:cancel`. -/
inductive Notice
  | reply (completion : Bytes)
  | error (kind : Kind) (message : Bytes)
  | brokerDown
  | runtimeDown
  | cancel

/-- `continue_native/3`, with the messages it receives: what it dispatches to the broker, and what
it returns unless it still waits. -/
def continueNative (execution : Execution) (delivered : List Bytes) :
    Native → List Notice → List Bytes × Option Outcome
  | .continue_ requests, [] => ([requests], none)
  | .continue_ requests, notice :: later =>
    match notice with
    | .reply completion =>
      let rest := continueNative execution (delivered ++ [completion])
        (runStep execution delivered completion) later
      (requests :: rest.1, rest.2)
    | .error kind message => ([requests], some (.error (kind, message)))
    | .brokerDown => ([requests], some (.error (.trap, utf8 "callback broker stopped")))
    | .runtimeDown => ([requests], some (.error (.cancelled, utf8 "runtime stopped")))
    | .cancel => ([requests], some (.error (.cancelled, utf8 "execution cancelled")))
  | .ok bytes, _ => ([], some (.ok bytes))
  | .error kind message, _ => ([], some (.error (kind, message)))

/-- `run_native/8` of an in-process runtime. -/
def inProcess (execution : Execution) (notices : List Notice) : List Bytes × Option Outcome :=
  continueNative execution [] (runStart execution) notices

/-! ### Isolated -/

/-- `response`: the kind and the bytes of the child's last event. -/
def response (maximum : ℕ) (result : Outcome) : Bytes × Bytes :=
  let (kind, bytes) := match result with
    | .ok bytes => (utf8 "ok", bytes)
    | .error (kind, message) => (utf8 kind.name, message)
  if maximum < bytes.length then (utf8 "output_limit", utf8 "worker response limit exceeded")
  else (kind, bytes)

/-- What the child's loop prints for a turn of the execution. -/
def Progress.event (maximum : ℕ) : Progress → Bytes × Bytes
  | .pending frame => (utf8 "callbacks", frame)
  | .done bytes => response maximum (.ok bytes)
  | .err kind message => response maximum (.error (kind, message))

/-- The outcome that an event of `response` stands for. -/
def responded (maximum : ℕ) (result : Outcome) : Outcome :=
  let bytes := match result with
    | .ok bytes => bytes
    | .error (_, message) => message
  if maximum < bytes.length then
    .error (.outputLimit, utf8 "worker response limit exceeded")
  else result

/-- A result that `response` does not change. -/
def Unchanged (maximum : ℕ) : Outcome → Prop
  | .ok bytes => bytes.length ≤ maximum
  | .error (kind, message) => message.length ≤ maximum ∨
      kind = .outputLimit ∧ message = utf8 "worker response limit exceeded"

/-- **What `response` changes.** -/
theorem responded_eq_iff (maximum : ℕ) (result : Outcome) :
    responded maximum result = result ↔ Unchanged maximum result := by
  unfold responded Unchanged
  rcases result with ⟨kind, message⟩ | bytes
  · by_cases hlong : maximum < message.length
    · simp [hlong, eq_comm]
    · simp [hlong, Nat.not_lt.mp hlong]
  · by_cases hlong : maximum < bytes.length
    · simp [hlong]
    · simp [hlong, Nat.not_lt.mp hlong]

/-- A run of an isolated runtime: the frames of its request, its budgets and its execution, and
the libraries that write and read the headers of events; `reason` is the message of the exception
should the port be closed. -/
structure Setup where
  serde : Serde
  decode : Bytes → Option Json
  reason : Bytes
  header : Bytes
  plugin : Bytes
  mod : Bytes
  input : Bytes
  budgets : Budgets
  execution : Execution

namespace Setup

variable (setup : Setup)

/-- The frames of the request. -/
def request : List Bytes := [setup.header, setup.plugin, setup.mod, setup.input]

/-- The supervisor of the run. -/
def config : Config := ⟨setup.serde, .run, setup.budgets, setup.request⟩

/-- The response limit of the child. -/
def maximum : ℕ := responseMaximum setup.budgets

/-- The event of the turn after some completions. -/
def event (completions : List Bytes) : Relayed :=
  let (kind, payload) := (setup.execution.advance completions).event setup.maximum
  ⟨setup.serde.toVec kind, kind, payload⟩

/-- What the child prints in all, if these completions are delivered one after the other. -/
def printed (completions : List Bytes) : List Relayed :=
  (List.range (completions.length + 1)).map fun n => setup.event (completions.take n)

@[simp]
theorem length_printed (completions : List Bytes) :
    (setup.printed completions).length = completions.length + 1 := by
  simp [printed]

/-- One more turn prints one more event. -/
theorem take_printed_succ {completions : List Bytes} {n : ℕ} (h : n ≤ completions.length) :
    (setup.printed completions).take (n + 1) =
      (setup.printed completions).take n ++ [setup.event (completions.take n)] := by
  rw [List.take_add_one, printed, List.getElem?_map, List.getElem?_range (by omega)]
  rfl

theorem printed_eq (completions : List Bytes) :
    setup.printed completions = (setup.printed completions).take completions.length ++
      [setup.event completions] := by
  have hlast := setup.take_printed_succ (Nat.le_refl completions.length)
  rw [List.take_length] at hlast
  rw [← hlast, List.take_of_length_le (by rw [length_printed])]

end Setup

/-! ### The limits -/

/-- The limits of a run: the execution goes on until it has got `completions` and ends with the
last of them; every frame, the result and the message of an error keep within their limits, and
so does the traffic either way, with the lengths before each frame. -/
structure Within (setup : Setup) (completions : List Bytes) : Prop where
  pending : ∀ n < completions.length, ∃ frame,
    setup.execution.advance (completions.take n) = .pending frame ∧
      frame.length ≤ callbackRequestLimit setup.budgets
  ended : ∃ outcome, (setup.execution.advance completions).outcome? = some outcome ∧
    match outcome with
    | .ok bytes => bytes.length ≤ setup.budgets.maxOutput
    | .error (_, message) => message.length ≤ max 4096 setup.budgets.maxStderr
  calls_le : completions.length ≤ setup.budgets.maxCallbackCalls
  bounded : ∀ c ∈ completions, c ≠ [] ∧ c.length ≤ callbackCompletionLimit setup.budgets
  inbound_le : ((setup.request ++ completions).flatMap frameBytes).length ≤ mib64
  outbound_le : ((setup.printed completions).flatMap Relayed.bytes).length ≤ mib64

/-- **In process.** The execution is handed each completion and its outcome is returned as it
is. -/
theorem inProcess_eq {setup : Setup} {completions : List Bytes} {outcome : Outcome}
    (hwithin : Within setup completions)
    (hended : (setup.execution.advance completions).outcome? = some outcome) :
    (inProcess setup.execution (completions.map .reply)).2 = some outcome := by
  have hlast : ∀ delivered, (setup.execution.advance delivered).outcome? = some outcome →
      (continueNative setup.execution delivered (.of (setup.execution.advance delivered)) []).2 =
        some outcome := by
    intro delivered h
    cases hprogress : setup.execution.advance delivered <;> rw [hprogress] at h <;>
      simp_all [Progress.outcome?, Native.of, continueNative]
  have hgo : ∀ later delivered, completions = delivered ++ later →
      (continueNative setup.execution delivered (.of (setup.execution.advance delivered))
        (later.map .reply)).2 = some outcome := by
    intro later
    induction later with
    | nil =>
      intro delivered hsplit
      rw [List.append_nil] at hsplit
      exact hlast delivered (hsplit ▸ hended)
    | cons c later ih =>
      intro delivered hsplit
      obtain ⟨frame, hpending, -⟩ := hwithin.pending delivered.length (by rw [hsplit]; simp)
      rw [hsplit, List.take_left] at hpending
      rw [hpending]
      exact ih (delivered ++ [c]) (by rw [hsplit, List.append_assoc]; rfl)
  exact hgo completions [] rfl

end Javex.Backends
