import Javex.Options
import Javex.ForMathlib.AList

/-!
# The runtime server

The `GenServer` of `lib/javex/runtime.ex`: its state, its job table and the handlers that
admit a call, take a worker's result, a timer and the two kinds of `:DOWN`. A handler is a
pure function of the message, the clock reading and the state; what it does besides
returning a new state is a list of `Effect`s, in the order the code performs them. The pids
and references a handler obtains from the virtual machine are passed in as a `Fresh`.

The work a job carries is data (`Work`): the closure handed to `start_job/5` with what it
captured. `:plugin_bytes` and `:stats` only read the state and are left out.

A handler's effects are data so that they can be counted: who is replied to, which processes are
spawned and monitored, which timers are started and cancelled. The lemmas of the last section say
for each handler which of these there can be and what the state is then (`CallOutcome`,
`InfoOutcome`), once, and every invariant of a runtime is proved from them.

A handler that raises has no result, and it stops the server; the one call that can raise is the
check of the options of a run.
-/

namespace Javex.Runtime

/-- The `from` of a `GenServer` call: the caller and the tag of this call. -/
structure From where
  pid : ℕ
  tag : ℕ
  deriving DecidableEq, Repr

/-- `%Javex.Module{}`, with any terms in its fields. -/
structure Module where
  bytes : Term
  mode : Term
  providerHash : Term

/-- The error of a reply: a `RuntimeError`, an `IncompatibleProviderError`, or whatever other
error term the work returned (the errors of Jason, the reason of a compile error). -/
inductive Error
  | runtime (error : RuntimeError)
  | incompatibleProvider (expected : Bytes) (got : Term)
  | reason (term : Term)

variable {V : Type}

/-- `{:ok, value}` or `{:error, error}`. -/
abbrev Reply (V : Type) := Except Error V

/-- `Runtime.error/2`. -/
def error {α : Type} (kind : Kind) (message : String) : Except Error α :=
  .error (.runtime ⟨kind, message⟩)

/-- One entry of `state.jobs`; `client` is the field `from`. -/
structure Job where
  client : Option From
  monitor : ℕ
  callerMonitor : ℕ
  timer : ℕ
  control : Option ℕ
  deadline : ℤ

/-- `state.jobs`. -/
abbrev Jobs := AList fun _ : ℕ => Job

/-- The state of the server. -/
structure State where
  backend : Backend
  maxProcessMemory : ℕ
  plugin : Bytes
  pluginHash : Bytes
  defaults : Budgets
  maxConcurrency : ℕ
  jobs : Jobs

/-- The state `init/1` returns for accepted options and the provider it read. -/
def start (opts : RuntimeOptions) (plugin pluginHash : Bytes) : State where
  backend := opts.backend
  maxProcessMemory := opts.maxProcessMemory
  plugin := plugin
  pluginHash := pluginHash
  defaults := opts.defaults
  maxConcurrency := opts.maxConcurrency
  jobs := ∅

/-- The limits a run works with: `%{limits | timeout: remaining}` with its `:deadline`. -/
structure RunLimits extends Limits where
  remaining : ℤ
  deadline : ℤ

/-- The two calls that start a job. -/
inductive Request
  | run (mod : Module) (input : Term) (opts : Term) (started : ℤ)
  | compile (source : Bytes) (static : Bool) (plugin : Option Bytes) (limits : CompileLimits)
      (started : ℤ)

/-- What a worker is spawned to do. -/
inductive Work
  | execute (mod : Module) (input : Term) (limits : RunLimits)
  | compile (plugin source : Bytes) (static : Bool) (limits : CompileLimits) (remaining : ℤ)

/-- What a handler does to the world outside its state. -/
inductive Effect (V : Type)
  | reply (client : From) (reply : Reply V)
  | controlNew (control : ℕ) (remaining : ℤ)
  | spawnMonitor (pid : ℕ) (monitor : ℕ) (work : Work)
  | monitor (ref : ℕ) (pid : ℕ)
  | sendAfter (timer : ℕ) (pid : ℕ) (remaining : ℤ)
  | cancelTimer (timer : ℕ)
  | demonitorFlush (ref : ℕ)
  | cancelControl (control : ℕ)
  | sendCancel (pid : ℕ)

/-- The replies among a handler's effects, in order. -/
def repliesOf (effects : List (Effect V)) : List (From × Reply V) :=
  effects.filterMap fun
    | .reply client reply => some (client, reply)
    | _ => none

/-- The monitors a handler's effects create, with the process each watches. -/
def monitorsOf (effects : List (Effect V)) : List (ℕ × ℕ) :=
  effects.filterMap fun
    | .spawnMonitor pid monitor _ => some (monitor, pid)
    | .monitor ref pid => some (ref, pid)
    | _ => none

/-- The workers a handler's effects spawn. -/
def spawnsOf (effects : List (Effect V)) : List ℕ :=
  effects.filterMap fun
    | .spawnMonitor pid _ _ => some pid
    | _ => none

/-- The names the virtual machine returns when a job starts. -/
structure Fresh where
  pid : ℕ
  monitor : ℕ
  callerMonitor : ℕ
  timer : ℕ
  control : ℕ

/-- `check_module/3`. -/
def checkModule (mod : Module) (state : State) (limits : Limits) : Except Error Unit :=
  match mod.bytes, mod.mode with
  | .binary bytes, .atom mode =>
    if mode = "static" ∨ mode = "dynamic" then
      if limits.budgets.maxModule < bytes.length then
        error .moduleLimit "Wasm module limit exceeded"
      else if mode = "static" ∨ isHash mod.providerHash then .ok ()
      else .error (.incompatibleProvider state.pluginHash mod.providerHash)
    else invalidModule
  | _, _ => invalidModule
where
  invalidModule := error .invalidOptions "invalid compiled module"
  isHash : Term → Bool
    | .binary hash => hash == state.pluginHash
    | _ => false

/-- `capacity/1`. -/
def capacity (state : State) : Except Error Unit :=
  if state.jobs.keys.length < state.maxConcurrency then .ok ()
  else error .busy "runtime is at capacity"

/-- `remaining_time/1`. -/
def remainingTime (remaining : ℤ) : Except Error Unit :=
  if 0 < remaining then .ok () else error .timeout "execution timed out before admission"

/-- The job `start_job/5` records. -/
def newJob (state : State) (client : From) (started : ℤ) (timeout : ℕ) (fresh : Fresh) : Job where
  client := some client
  monitor := fresh.monitor
  callerMonitor := fresh.callerMonitor
  timer := fresh.timer
  control := if state.backend = .inProcess then some fresh.control else none
  deadline := started + timeout

/-- `put_in(state.jobs[pid], job)` with the new job. -/
def addJob (state : State) (client : From) (started : ℤ) (timeout : ℕ) (fresh : Fresh) : State :=
  { state with jobs := state.jobs.insert fresh.pid (newJob state client started timeout fresh) }

/-- `start_job/5`. -/
def startJob (state : State) (client : From) (started : ℤ) (timeout : ℕ) (work : ℤ → Work)
    (now : ℤ) (fresh : Fresh) : State × List (Effect V) :=
  let remaining := timeout - (now - started)
  let admission := do
    capacity state
    remainingTime remaining
  match admission with
  | .error e => (state, [.reply client (.error e)])
  | .ok () =>
    (addJob state client started timeout fresh,
      (if state.backend = .inProcess then [.controlNew fresh.control remaining] else []) ++
        [.spawnMonitor fresh.pid fresh.monitor (work remaining),
          .monitor fresh.callerMonitor client.pid,
          .sendAfter fresh.timer fresh.pid remaining])

/-- `handle_call/3` for `:run` and `:compile`. An exception raised by the option checks
stops the server, so the handler itself is fallible. -/
def handleCall (inspect : Term → String) (request : Request) (client : From) (now : ℤ)
    (fresh : Fresh) (state : State) : Except Raise (State × List (Effect V)) :=
  match request with
  | .run mod input opts started =>
    match Options.run inspect opts state.defaults with
    | .error (.raised exception) => .error exception
    | .error (.error e) => .ok (state, [.reply client (.error (.runtime e))])
    | .ok limits =>
      match checkModule mod state limits with
      | .error e => .ok (state, [.reply client (.error e)])
      | .ok () =>
        .ok (startJob state client started limits.budgets.timeout
          (fun remaining => .execute mod input
            { limits with remaining, deadline := started + limits.budgets.timeout })
          now fresh)
  | .compile source static plugin limits started =>
    .ok (startJob state client started limits.budgets.timeout
      (fun remaining => .compile (plugin.getD state.plugin) source static limits remaining)
      now fresh)

/-- `cancel/2`. -/
def cancel (pid : ℕ) (job : Job) : List (Effect V) :=
  job.control.toList.map .cancelControl ++ [.sendCancel pid]

/-- `cleanup/1`. -/
def cleanup (job : Job) : List (Effect V) :=
  [.cancelTimer job.timer, .demonitorFlush job.monitor, .demonitorFlush job.callerMonitor]

/-- `if job.from, do: GenServer.reply(job.from, reply)`. -/
def replyIfWaiting (job : Job) (reply : Reply V) : List (Effect V) :=
  job.client.toList.map fun client => .reply client reply

/-- `put_in(state.jobs[pid].from, nil)`. -/
def forgetClient (state : State) (pid : ℕ) (job : Job) : State :=
  { state with jobs := state.jobs.insert pid { job with client := none } }

/-- The messages of `handle_info/2`. -/
inductive Info (V : Type)
  | result (pid : ℕ) (result : Reply V)
  | timeout (pid : ℕ)
  | down (ref : ℕ)

/-- What a result is reported as at time `now`. -/
def settle (job : Job) (now : ℤ) (result : Reply V) : Reply V :=
  if job.deadline ≤ now then error .timeout "execution timed out" else result

/-- `handle_info/2`. -/
def handleInfo (now : ℤ) (info : Info V) (state : State) : State × List (Effect V) :=
  match info with
  | .result pid result =>
    match state.jobs.lookup pid with
    | none => (state, [])
    | some job =>
      ({ state with jobs := state.jobs.erase pid },
        cleanup job ++ replyIfWaiting job (settle job now result))
  | .timeout pid =>
    match state.jobs.lookup pid with
    | none => (state, [])
    | some job =>
      (forgetClient state pid job,
        cancel pid job ++ replyIfWaiting job (error .timeout "execution timed out"))
  | .down ref =>
    -- `Enum.find/2`: references are unique, so the order of the entries does not matter
    match state.jobs.entries.find? fun entry =>
        entry.2.monitor == ref || entry.2.callerMonitor == ref with
    | none => (state, [])
    | some ⟨pid, job⟩ =>
      if job.monitor = ref then
        ({ state with jobs := state.jobs.erase pid },
          cleanup job ++ replyIfWaiting job (error .trap "execution worker stopped"))
      else (forgetClient state pid job, cancel pid job)

/-! ### What a handler can do -/

@[simp]
theorem repliesOf_append (xs ys : List (Effect V)) :
    repliesOf (xs ++ ys) = repliesOf xs ++ repliesOf ys := by
  simp [repliesOf]

@[simp]
theorem monitorsOf_append (xs ys : List (Effect V)) :
    monitorsOf (xs ++ ys) = monitorsOf xs ++ monitorsOf ys := by
  simp [monitorsOf]

@[simp]
theorem spawnsOf_append (xs ys : List (Effect V)) :
    spawnsOf (xs ++ ys) = spawnsOf xs ++ spawnsOf ys := by
  simp [spawnsOf]

/-- A cleanup replies to nobody. -/
@[simp]
theorem repliesOf_cleanup (job : Job) : repliesOf (cleanup job : List (Effect V)) = [] := rfl

@[simp]
theorem monitorsOf_cleanup (job : Job) : monitorsOf (cleanup job : List (Effect V)) = [] := rfl

/-- A cancellation replies to nobody. -/
@[simp]
theorem repliesOf_cancel (pid : ℕ) (job : Job) :
    repliesOf (cancel pid job : List (Effect V)) = [] := by
  cases hc : job.control <;> simp [cancel, repliesOf, hc]

@[simp]
theorem monitorsOf_cancel (pid : ℕ) (job : Job) :
    monitorsOf (cancel pid job : List (Effect V)) = [] := by
  cases hc : job.control <;> simp [cancel, monitorsOf, hc]

/-- A client that is waiting gets the reply. -/
@[simp]
theorem repliesOf_replyIfWaiting (job : Job) (reply : Reply V) :
    repliesOf (replyIfWaiting job reply) = job.client.toList.map fun c => (c, reply) := by
  cases hc : job.client <;> simp [replyIfWaiting, repliesOf, hc]

@[simp]
theorem monitorsOf_replyIfWaiting (job : Job) (reply : Reply V) :
    monitorsOf (replyIfWaiting job reply) = [] := by
  cases hc : job.client <;> simp [replyIfWaiting, monitorsOf, hc]

/-- Whatever else a handler does first, the job's client is the one it answers. -/
theorem repliesOf_answer {effects : List (Effect V)} (h : repliesOf effects = []) (job : Job)
    (reply : Reply V) : repliesOf (effects ++ replyIfWaiting job reply) =
      job.client.toList.map fun c => (c, reply) := by
  simp [h]

/-- A call is admitted while there is room. -/
theorem capacity_ok {state : State} (h : capacity state = .ok ()) :
    state.jobs.keys.length < state.maxConcurrency := by
  unfold capacity at h
  split at h
  · assumption
  · cases h

/-- What becomes of a call that does not raise: it is refused with one error reply and no
other effect, or admitted, one entry being added while there is room and nothing replied. -/
inductive CallOutcome (state : State) (client : From) (fresh : Fresh) :
    State × List (Effect V) → Prop
  | refused (e : Error) : CallOutcome state client fresh (state, [.reply client (.error e)])
  | admitted (started : ℤ) (timeout : ℕ) (effects : List (Effect V)) :
      state.jobs.keys.length < state.maxConcurrency → repliesOf effects = [] →
      monitorsOf effects = [(fresh.monitor, fresh.pid), (fresh.callerMonitor, client.pid)] →
      spawnsOf effects = [fresh.pid] →
      CallOutcome state client fresh (addJob state client started timeout fresh, effects)

/-- What `start_job/5` can come to. -/
theorem startJob_outcome (state : State) (client : From) (started : ℤ) (timeout : ℕ)
    (work : ℤ → Work) (now : ℤ) (fresh : Fresh) :
    CallOutcome (V := V) state client fresh
      (startJob state client started timeout work now fresh) := by
  simp only [startJob]
  cases hcap : capacity state with
  | error e => exact .refused e
  | ok u =>
    cases remainingTime ((timeout : ℤ) - (now - started)) with
    | error e => exact .refused e
    | ok u' =>
      refine .admitted started timeout _ (capacity_ok hcap) ?_ ?_ ?_ <;>
        split <;> simp [repliesOf, monitorsOf, spawnsOf]

/-- **What a call can come to.** -/
theorem handleCall_outcome {inspect : Term → String} {request : Request} {client : From}
    {now : ℤ} {fresh : Fresh} {state : State} {result : State × List (Effect V)}
    (h : handleCall inspect request client now fresh state = .ok result) :
    CallOutcome state client fresh result := by
  cases request with
  | run mod input opts started =>
    simp only [handleCall] at h
    split at h
    · cases h
    · cases h
      exact .refused _
    · split at h <;> cases h
      · exact .refused _
      · exact startJob_outcome ..
  | compile source static plugin limits started =>
    cases h
    exact startJob_outcome ..

/-- What a message of `handle_info/2` does: one that names no job changes nothing; a result or
the worker's `:DOWN` removes a job and answers its client if that still waits; a timer or the
caller's `:DOWN` keeps the job and forgets its client, the timer after answering it. -/
inductive InfoOutcome (now : ℤ) (state : State) : Info V → State × List (Effect V) → Prop
  | ignored (info : Info V) : InfoOutcome now state info (state, [])
  | delivered {pid : ℕ} {job : Job} (result : Reply V) : state.jobs.lookup pid = some job →
      InfoOutcome now state (.result pid result) ({ state with jobs := state.jobs.erase pid },
        cleanup job ++ replyIfWaiting job (settle job now result))
  | stopped {pid : ℕ} {job : Job} : state.jobs.lookup pid = some job →
      InfoOutcome now state (.down job.monitor) ({ state with jobs := state.jobs.erase pid },
        cleanup job ++ replyIfWaiting job (error .trap "execution worker stopped"))
  | timedOut {pid : ℕ} {job : Job} : state.jobs.lookup pid = some job →
      InfoOutcome now state (.timeout pid) (forgetClient state pid job,
        cancel pid job ++ replyIfWaiting job (error .timeout "execution timed out"))
  | callerDown {pid : ℕ} {job : Job} : state.jobs.lookup pid = some job →
      InfoOutcome now state (.down job.callerMonitor)
        (forgetClient state pid job, cancel pid job)

/-- **What a message can come to.** -/
theorem handleInfo_outcome (now : ℤ) (info : Info V) (state : State) :
    InfoOutcome now state info (handleInfo now info state) := by
  cases info with
  | result pid result =>
    cases hl : state.jobs.lookup pid with
    | none => simpa [handleInfo, hl] using InfoOutcome.ignored _
    | some job => simpa [handleInfo, hl] using InfoOutcome.delivered result hl
  | timeout pid =>
    cases hl : state.jobs.lookup pid with
    | none => simpa [handleInfo, hl] using InfoOutcome.ignored _
    | some job => simpa [handleInfo, hl] using InfoOutcome.timedOut hl
  | down ref =>
    cases hf : state.jobs.entries.find? fun entry =>
        entry.2.monitor == ref || entry.2.callerMonitor == ref with
    | none =>
      simp only [handleInfo, hf]
      exact .ignored _
    | some entry =>
      obtain ⟨pid, job⟩ := entry
      have hl : state.jobs.lookup pid = some job :=
        AList.mem_lookup_iff.mpr (List.mem_of_find?_eq_some hf)
      have href := List.find?_some hf
      simp only [Bool.or_eq_true, beq_iff_eq] at href
      by_cases hm : job.monitor = ref
      · subst hm
        simpa [handleInfo, hf] using InfoOutcome.stopped hl
      · obtain rfl : job.callerMonitor = ref := href.resolve_left hm
        simpa [handleInfo, hf, hm] using InfoOutcome.callerDown hl

end Javex.Runtime
