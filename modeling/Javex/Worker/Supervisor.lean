import Javex.Worker.Protocol
import Javex.Transition.System

/-!
# The supervisor

`supervise` of `native/javex_nif/src/worker.rs` from the moment its child is spawned: the
writer thread, the stdin thread, the reader thread and the polling loop, with the channel, the
two flags and the pipes between them, the child at the far end and the BEAM at the near end.
A thread takes one step at a time and any interleaving is a run of `system`. Threads read whole
frames, because `read_exact` waits for them, and write in pieces of any size, because a pipe
takes what it has room for. What the reader thread forwards goes to the supervisor's own stdout, the
pipe of the port, which only the BEAM drains: that step may have to wait as long as the BEAM likes,
and a run in which it waits is one in which the reader gets no turn.

The child may do anything: write any bytes, read any bytes, close its pipes, and end once both
are closed. The labels `boot`, `ask`, `take` and `finish` are those of a child that follows the
protocol; they also record, in the last fields, what a guest has asked for, got and printed.

The places at which a thread can stand are an enumeration for each thread, and a step takes one
thread from one place to the next; what a step may do to the rest of the state is said once, by the
lemmas of the last section, so that an invariant about one thread need not look at the steps of the
others. A thread that has returned has no further step. Killing the child is a step of the polling
loop that makes it end without its say, and the pipes close with it.
-/

namespace Javex.Worker

open Codec Codec.Decoder Isolated Transition

/-- What `supervise` knows: the operation and the budgets of the request it read, and the
request, which its writer thread passes on. -/
structure Config where
  serde : Serde
  operation : Operation
  budgets : Budgets
  request : List Bytes

namespace Config

variable (cfg : Config)

/-- The request as the child reads it. -/
def requestBytes : Bytes := cfg.request.flatMap frameBytes

/-- `max_callbacks`. -/
def maxCallbacks : ℕ := cfg.budgets.maxCallbackCalls

/-- The capacity of the channel. -/
def capacity : ℕ := cfg.budgets.maxCallbackConcurrency

/-- `completion_maximum`. -/
def completionMaximum : ℕ := callbackCompletionLimit cfg.budgets

end Config

/-! ### The threads -/

/-- The writer thread: it writes the request, then the replies of the channel. `leaving` is
before the flag is stored, `stored` before `replies` is dropped. -/
inductive Writer
  | writing (rest : Bytes)
  | receiving
  | leaving | stored | gone
  deriving DecidableEq

/-- The stdin thread: it reads a completion, with `left` more rounds after this one, and hands
it to the channel. `stored` is before `sender` is dropped. -/
inductive Stdin
  | reading (left remaining : ℕ)
  | sending (left remaining : ℕ) (bytes : Bytes)
  | leaving | stored | gone
  deriving DecidableEq

/-- The reader thread: it reads and forwards events, with `left` more rounds after this one,
then looks for a byte too many, then stores whether it failed. -/
inductive Reader
  | reading (left remaining : ℕ)
  | last
  | storing (ok : Bool)
  | done (ok : Bool)
  deriving DecidableEq

/-- The polling loop, and the status `supervise` returns. -/
inductive Poll
  | tryWait
  | loadCancelled | loadOverflow | checkDeadline
  | killing (reason : ℕ)
  | joining (status : ℕ)
  | returned (status : ℕ)
  deriving DecidableEq

/-- How far a child that follows the protocol has got. -/
inductive Guest
  | booting | computing | waiting | finished
  deriving DecidableEq

/-- The supervisor, its two ends and the pipes. `queued` is what the port has not yet written
to `portIn`; `exit` is the status of a child that is waitable. The last seven fields only record
what happened. -/
structure State where
  queued : Bytes
  portIn : Bytes
  portClosed : Bool
  stdin : Stdin
  channel : List Bytes
  writer : Writer
  cancelled : Bool
  childIn : Bytes
  childReads : Bool
  childOut : Bytes
  childWrites : Bool
  exit : Option ℕ
  reader : Reader
  overflow : Bool
  poll : Poll
  sent : List Bytes
  produced : Bytes
  forwarded : List Relayed
  guest : Guest
  asked : ℕ
  taken : List Bytes
  events : List Relayed

/-- The state in which the threads start. -/
def State.start (cfg : Config) : State where
  queued := []
  portIn := []
  portClosed := false
  stdin := .reading cfg.maxCallbacks mib64
  channel := []
  writer := .writing cfg.requestBytes
  cancelled := false
  childIn := []
  childReads := true
  childOut := []
  childWrites := true
  exit := none
  reader := .reading (cfg.maxCallbacks + 1) mib64
  overflow := false
  poll := .tryWait
  sent := []
  produced := []
  forwarded := []
  guest := .booting
  asked := 0
  taken := []
  events := []

/-- What may happen next. -/
inductive Label
  -- the BEAM: a completion, a zero-length frame, closing the port, and the port's progress
  | complete (bytes : Bytes)
  | cancel
  | close
  | arrive (n : ℕ)
  -- the child: any bytes, its end, and the steps of the protocol
  | write (bytes : Bytes)
  | consume (n : ℕ)
  | closeInput
  | closeOutput
  | exit (code : ℕ)
  | boot
  | ask (calls : ℕ) (payload : Bytes)
  | take
  | finish (kind payload : Bytes)
  -- the threads of the supervisor
  | writer (n : ℕ)
  | stdin
  | reader
  | poll (late : Bool)
  deriving DecidableEq

namespace State

/-- The port accepts a frame. -/
def send (s : State) (bytes : Bytes) : State := { s with queued := s.queued ++ frameBytes bytes }

/-- The child writes to its stdout. -/
def print (s : State) (bytes : Bytes) : State :=
  { s with childOut := s.childOut ++ bytes, produced := s.produced ++ bytes }

/-- A child that follows the protocol prints an event. -/
def printEvent (cfg : Config) (s : State) (kind payload : Bytes) : State :=
  { s.print (event cfg.serde kind payload) with
    events := s.events ++ [⟨cfg.serde.toVec kind, kind, payload⟩] }

/-- `child.kill` and `child.wait`: a child that still runs ends by `SIGKILL`. -/
def kill (s : State) : State :=
  { s with childReads := false, childWrites := false, exit := some (s.exit.getD 137) }

end State

/-- The child ends: its pipes are closed before it becomes waitable. -/
def stepExit (s : State) (code : ℕ) : Option State :=
  if s.childReads || s.childWrites || s.exit.isSome then none
  else some { s with exit := some code }

/-- The writer thread; a write of some of the remaining bytes fails if the child has closed its
end of the pipe. -/
def stepWriter (s : State) (n : ℕ) : Option State :=
  match s.writer with
  | .writing rest =>
    if !s.childReads then some { s with writer := .leaving }
    else if n = 0 ∨ rest.length < n then none
    else some { s with
      childIn := s.childIn ++ rest.take n
      writer := if rest.drop n = [] then .receiving else .writing (rest.drop n) }
  | .receiving =>
    match s.channel with
    | bytes :: later => some { s with channel := later, writer := .writing (frameBytes bytes) }
    | [] => if s.stdin = .gone then some { s with writer := .leaving } else none
  | .leaving => some { s with cancelled := true, writer := .stored }
  | .stored => some { s with writer := .gone }
  | .gone => none

/-- The stdin thread; `try_send` fails on a full channel and on one without a receiver. -/
def stepStdin (cfg : Config) (s : State) : Option State :=
  match s.stdin with
  | .reading left remaining =>
    match (frame (min remaining cfg.completionMaximum)).next s.portIn with
    | .more => if s.portClosed then some { s with stdin := .leaving } else none
    | .bad => some { s with stdin := .leaving }
    | .done bytes rest =>
      some { s with
        portIn := rest
        stdin := if bytes = [] then .leaving
          else .sending left (remaining - bytes.length) bytes }
  | .sending left remaining bytes =>
    if s.writer = .gone ∨ cfg.capacity ≤ s.channel.length then some { s with stdin := .leaving }
    else some { s with
      channel := s.channel ++ [bytes]
      stdin := if left = 0 then .leaving else .reading (left - 1) remaining }
  | .leaving => some { s with cancelled := true, stdin := .stored }
  | .stored => some { s with stdin := .gone }
  | .gone => none

/-- The reader thread; a turn that forwards an event is over when the port's pipe has taken it. -/
def stepReader (cfg : Config) (s : State) : Option State :=
  match s.reader with
  | .reading left remaining =>
    match (readEvent cfg.serde cfg.operation cfg.budgets remaining).next s.childOut with
    | .more => if s.childWrites then none else some { s with reader := .storing false }
    | .bad => some { s with reader := .storing false }
    | .done e rest =>
      some { s with
        childOut := rest
        forwarded := s.forwarded ++ [e]
        reader := if e.kind ≠ utf8 "callbacks" then .last
          else if left = 0 then .storing false
          else .reading (left - 1) (remaining - e.traffic) }
  | .last =>
    if s.childOut ≠ [] then some { s with reader := .storing false }
    else if s.childWrites then none
    else some { s with reader := .storing true }
  | .storing ok => some { s with overflow := !ok, reader := .done ok }
  | .done _ => none

/-- The polling loop; `late` is whether the deadline has passed when it looks. -/
def stepPoll (s : State) (late : Bool) : Option State :=
  match s.poll with
  | .tryWait =>
    match s.exit with
    | some status => some { s with poll := .joining status }
    | none => some { s with poll := .loadCancelled }
  | .loadCancelled =>
    some { s with poll := if s.cancelled then .killing 125 else .loadOverflow }
  | .loadOverflow =>
    some { s with poll := if s.overflow then .killing 126 else .checkDeadline }
  | .checkDeadline => some { s with poll := if late then .killing 124 else .tryWait }
  | .killing reason => some { s.kill with poll := .returned reason }
  | .joining status =>
    if status = 0 then
      match s.reader with
      | .done ok => some { s with poll := .returned (if ok then 0 else 126) }
      | _ => none
    else some { s with poll := .returned status }
  | .returned _ => none

/-- One step of the supervisor, its child or the BEAM. -/
def step (cfg : Config) (s : State) : Label → Option State
  | .complete bytes =>
    if s.portClosed then none else some { s.send bytes with sent := s.sent ++ [bytes] }
  | .cancel => if s.portClosed then none else some (s.send [])
  | .close => some { s with portClosed := true }
  | .arrive n =>
    some { s with portIn := s.portIn ++ s.queued.take n, queued := s.queued.drop n }
  | .write bytes => if s.childWrites then some (s.print bytes) else none
  | .consume n => if s.childReads then some { s with childIn := s.childIn.drop n } else none
  | .closeInput => some { s with childReads := false }
  | .closeOutput => some { s with childWrites := false }
  | .exit code => stepExit s code
  | .boot =>
    if s.childReads ∧ s.guest = .booting ∧ cfg.requestBytes.isPrefixOf s.childIn then
      some { s with childIn := s.childIn.drop cfg.requestBytes.length, guest := .computing }
    else none
  | .ask calls payload =>
    if s.childWrites ∧ s.guest = .computing then
      some { s.printEvent cfg (utf8 "callbacks") payload with
        guest := .waiting, asked := s.asked + calls }
    else none
  | .take =>
    if s.childReads ∧ s.guest = .waiting then
      match (frame mib64).next s.childIn with
      | .done bytes rest =>
        some { s with childIn := rest, taken := s.taken ++ [bytes], guest := .computing }
      | _ => none
    else none
  | .finish kind payload =>
    if s.childWrites ∧ s.guest = .computing then
      some { s.printEvent cfg kind payload with guest := .finished }
    else none
  | .writer n => stepWriter s n
  | .stdin => stepStdin cfg s
  | .reader => stepReader cfg s
  | .poll late => stepPoll s late

/-- The supervisor with its child and the BEAM. -/
def system (cfg : Config) : System State Label := .ofStep (· = .start cfg) (step cfg)

/-- A run with the default budgets and empty modules. -/
def defaultRun : Config where
  serde := .reference
  operation := .run
  budgets := .builtin
  request := [[], [], [], []]

/-- A child that asks for two calls and finishes as soon as one of them has been answered. -/
def promptRun : List Label :=
  [.writer 16, .boot, .ask 2 (utf8 "[]"), .reader, .complete (utf8 "[1]"), .arrive 7, .stdin,
    .stdin, .writer 0, .writer 7, .take, .finish (utf8 "ok") [7], .reader, .closeInput,
    .closeOutput, .reader, .reader]

/-! ### What a thread leaves alone -/

theorem stepWriter_frame {s t : State} {n : ℕ} (h : stepWriter s n = some t) :
    t = { s with
      writer := t.writer, channel := t.channel, childIn := t.childIn
      cancelled := t.cancelled } := by
  unfold stepWriter at h
  repeat' split at h
  all_goals cases h <;> rfl

theorem stepStdin_frame {cfg : Config} {s t : State} (h : stepStdin cfg s = some t) :
    t = { s with
      stdin := t.stdin, portIn := t.portIn, channel := t.channel, cancelled := t.cancelled } := by
  unfold stepStdin at h
  repeat' split at h
  all_goals cases h <;> rfl

theorem stepReader_frame {cfg : Config} {s t : State} (h : stepReader cfg s = some t) :
    t = { s with
      reader := t.reader, childOut := t.childOut, forwarded := t.forwarded
      overflow := t.overflow } := by
  unfold stepReader at h
  repeat' split at h
  all_goals cases h <;> rfl

theorem stepPoll_frame {s t : State} {late : Bool} (h : stepPoll s late = some t) :
    t = { s with
      poll := t.poll, childReads := t.childReads, childWrites := t.childWrites
      exit := t.exit } := by
  unfold stepPoll at h
  repeat' split at h
  all_goals cases h <;> rfl

end Javex.Worker
