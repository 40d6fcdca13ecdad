import Javex.Backends.Execution

/-!
# A run on the isolated backend

The supervisor with its child, the pipe from the supervisor's stdout to the port, and the run
worker in `receive_result/3`, as one system. The child follows its loop: it reads the request,
lets the execution advance, prints what `response` or the loop makes of the progress, and takes a
completion. Messages of the broker and the runtime reach the run worker between the chunks of
output that the port delivers; what the run worker commands the port goes to the supervisor.

The run worker is the loop of `Javex.Isolated.Receive` as it is, with its mailbox in front; the
supervisor is the system of `Javex.Worker.Supervisor` as it is, and the child one that follows the
protocol. The system adds only what lies between them: the pipe, from which the port takes chunks of
any size, and the order in which messages of different senders get into the mailbox.
-/

namespace Javex.Backends

open Codec Codec.Decoder Isolated Worker Transition

/-- The supervisor, the output that the port has not delivered, the state of the receive loop and
what `call/7` returned. -/
structure Session where
  worker : Worker.State
  stdout : Bytes
  loop : Isolated.State
  outcome : Option Outcome

/-- What may happen next. A message finds the port open or closed; it is closed only after the
supervisor has exited. -/
inductive Label
  | worker (label : Worker.Label)
  | advance
  | notice (notice : Notice) (portOpen : Bool)
  | data (n : ℕ) (portOpen : Bool)
  | exitStatus

/-- A notice as a message of `receive_result/3`. -/
def Notice.message : Notice → Message
  | .reply completion => .callbackReply completion
  | .error kind message => .callbackError kind message
  | .brokerDown => .brokerDown
  | .runtimeDown => .down
  | .cancel => .cancel

/-- `Port.command/2` of one frame; `sent` records those that are not empty. -/
def command (w : Worker.State) (bytes : Bytes) : Worker.State :=
  { w with
    queued := w.queued ++ bytes
    sent := w.sent ++ if bytes.length ≤ 4 then [] else [bytes.drop 4] }

/-- What a turn of the loop does to the supervisor. -/
def perform (w : Worker.State) (effects : List Effect) : Worker.State :=
  effects.foldl (fun w effect =>
    match effect with
    | .command bytes => command w bytes
    | .dispatch _ => w) w

namespace Session

variable (setup : Setup) (s : Session)

/-- The session as the supervisor's threads start. -/
def start : Session := ⟨.start setup.config, [], .start, none⟩

/-- One turn of `receive_result/3`. -/
def receive (portOpen : Bool) (message : Message) : Session :=
  match receiveResult setup.decode (.of .run setup.budgets) portOpen s.loop message with
  | (effects, .loop loop) => { s with loop, worker := perform s.worker effects }
  | (effects, .return outcome) =>
    { s with worker := perform s.worker effects, outcome := some outcome }
  | (effects, .raised) =>
    { s with worker := perform s.worker effects, outcome := some (unavailable setup.reason) }

/-- What the supervisor has printed: the events its reader forwarded. -/
def relayed (w : Worker.State) : Bytes :=
  w.forwarded.flatMap fun e => Worker.event setup.serde e.kind e.payload

/-- A step of the supervisor, its child or the pipes; the reader prints what it forwards. -/
def advanceWorker (label : Worker.Label) : Option Session :=
  (Worker.step setup.config s.worker label).map fun worker =>
    { s with
      worker
      stdout := s.stdout ++ (relayed setup worker).drop (relayed setup s.worker).length }

/-- The status of a supervisor that has exited. -/
def status? : Option ℕ :=
  match s.worker.poll with
  | .returned status => some status
  | _ => none

end Session

/-- One step; `call/7` returns only once. The labels of the child's own protocol and of the BEAM's
commands are taken only as the execution and the receive loop determine them. -/
def step (setup : Setup) (s : Session) (label : Label) : Option Session :=
  if s.outcome.isSome then none
  else
    match label with
    | .worker (.complete _) | .worker .cancel | .worker .close | .worker (.ask _ _)
    | .worker (.finish _ _) => none
    | .worker l => s.advanceWorker setup l
    | .advance =>
      let progress := setup.execution.advance s.worker.taken
      let (kind, payload) := progress.event setup.maximum
      match progress with
      | .pending _ => s.advanceWorker setup (.ask 0 payload)
      | _ => s.advanceWorker setup (.finish kind payload)
    | .notice notice portOpen =>
      if portOpen || s.status?.isSome then some (s.receive setup portOpen notice.message) else none
    | .data n portOpen =>
      if n = 0 ∨ s.stdout.length < n then none
      else if portOpen || s.status?.isSome then
        some ({ s with stdout := s.stdout.drop n }.receive setup portOpen (.data (s.stdout.take n)))
      else none
    | .exitStatus =>
      match s.status? with
      | some status =>
        if s.stdout = [] then some (s.receive setup true (.exitStatus status)) else none
      | none => none

/-- A run of `run_native/8` on an isolated runtime. -/
def system (setup : Setup) : System Session Label := .ofStep (· = .start setup) (step setup)

/-- Nothing but the run itself happens: the broker sends these completions one after the other
and nothing else, there is no `:cancel` and no deadline, nothing kills the child, and the stdin
thread, which cancels the run when the channel is full, finds room in it. -/
def Provided (setup : Setup) (completions : List Bytes) (s : Session) : Label → Prop
  | .notice (.reply c) _ => (s.worker.sent ++ [c]).isPrefixOf completions
  | .notice _ _ => False
  | .worker l => match l with
    | .write _ | .consume _ => False
    | .closeInput | .closeOutput => s.worker.guest = .finished
    | .exit code => s.worker.guest = .finished ∧ code = 0
    | .stdin => s.worker.stdin.hand ≠ [] → s.worker.channel.length < setup.config.capacity
    | .poll late => late = false
    | _ => True
  | .advance | .data _ _ | .exitStatus => True

instance (setup : Setup) (completions : List Bytes) (s : Session) :
    DecidablePred (Provided setup completions s)
  | .notice (.reply _) _ => inferInstanceAs (Decidable (_ = true))
  | .notice (.error _ _) _ | .notice .brokerDown _ | .notice .runtimeDown _
  | .notice .cancel _ => inferInstanceAs (Decidable False)
  | .worker l => match l with
    | .write _ | .consume _ => inferInstanceAs (Decidable False)
    | .closeInput | .closeOutput | .poll _ => inferInstanceAs (Decidable (_ = _))
    | .exit _ => inferInstanceAs (Decidable (_ ∧ _))
    | .stdin => inferInstanceAs (Decidable (_ → _))
    | .complete _ | .cancel | .close | .arrive _ | .boot | .ask _ _ | .take | .finish _ _
    | .writer _ | .reader => inferInstanceAs (Decidable True)
  | .advance | .data _ _ | .exitStatus => inferInstanceAs (Decidable True)

end Javex.Backends
