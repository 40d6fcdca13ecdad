import Javex.ForMathlib.Mailbox
import Javex.Transition.System

/-!
# Compiling with a deadline

`compile_with_deadline/4` of `lib/javex/module.ex`: the caller with its alias and its monitor, the
guardian with its two monitors and its timeout, and the compiler worker. A process takes its steps
one by one and may die between any two of them. A signal is in flight before it arrives, and the
signals from one process to another arrive in order; the signals that come with a spawn are part of
it. A message to an alias that is not active, a `:DOWN` of a monitor that is gone and a signal to a
process that has ended are dropped.

The caller may get other messages at any time. What `Native.compile` comes to is of any type.

The model is as fine as the signals are, because the question is what is left in a mailbox. A
process that is killed has sent what it has sent, and its signals arrive, in order, some time; its
monitors fire when it dies and the `:DOWN` is a signal like the others, behind what it sent before.
An alias that has been deactivated and a monitor that has been removed are checked when a signal
arrives, and `demonitor` with `:flush` takes out what had arrived by then.

`Move` says what a step can be, in the words of the functions and not of the semantics (the guardian
sends its result, the caller takes it, a process dies), and is what the invariants look at.
-/

namespace Javex.Compile

open Transition

/-- A result: what `Native.compile` came to, or the error of somebody else. -/
inductive Reply (ρ : Type)
  | native (result : ρ)
  | error (message : String)
  deriving DecidableEq

/-! ### Messages and signals -/

/-- The messages to the caller that belong to the compilation: `{reply, result}` and the `:DOWN` of
the guardian. -/
inductive Own (ρ : Type)
  | reply (result : Reply ρ)
  | down
  deriving DecidableEq

/-- A message in the mailbox of the caller. -/
inductive CallerMessage (ρ : Type)
  | own (message : Own ρ)
  | other (n : ℕ)
  deriving DecidableEq

/-- A signal from the guardian to the caller: a request to be monitored, or a message. -/
inductive CallerSignal (ρ : Type)
  | monitor
  | message (message : Own ρ)
  deriving DecidableEq

/-- The messages to the guardian: `{:compiled, result}`, and the `:DOWN` of the caller and of the
worker. -/
inductive GuardianMessage (ρ : Type)
  | compiled (result : Reply ρ)
  | callerDown
  | workerDown
  deriving DecidableEq

/-! ### The processes -/

/-- How far the caller has got in the function. -/
inductive Caller (ρ : Type)
  | entering | aliased | waiting
  | answered (result : Reply ρ)
  | unaliased (result : Reply ρ)
  | returned (result : Reply ρ)
  | dead
  deriving DecidableEq

/-- How far the guardian has got. It has `ended` normally, or it is `dead`. -/
inductive Guardian (ρ : Type)
  | unborn | monitoring | controlling | spawning | receiving
  | replying (result : Reply ρ)
  | cancelling | killing | leaving
  | ended
  | dead
  deriving DecidableEq

/-- How far the compiler worker has got. -/
inductive Worker (ρ : Type)
  | unborn | compiling
  | sending (result : Reply ρ)
  | leaving
  | gone
  deriving DecidableEq

variable {ρ : Type}

/-- The caller runs. -/
def Caller.alive : Caller ρ → Bool
  | dead => false
  | _ => true

/-- The guardian runs. -/
def Guardian.alive : Guardian ρ → Bool
  | unborn | ended | dead => false
  | _ => true

/-- The guardian has run. -/
def Guardian.gone : Guardian ρ → Bool
  | ended | dead => true
  | _ => false

/-- The worker runs. -/
def Worker.alive : Worker ρ → Bool
  | unborn | gone => false
  | _ => true

/-- The three processes and the signals between them. `aliased` is whether the alias of the caller
is active, `monitored` whether its monitor is, `watched` whether the guardian's monitor has reached
it; `killed` is the exit signal on its way to the worker. The last two fields only record the result
that the guardian sent and what else the caller got. -/
structure State (ρ : Type) where
  caller : Caller ρ
  aliased : Bool
  monitored : Bool
  watched : Bool
  mailbox : List (CallerMessage ρ)
  guardian : Guardian ρ
  inbox : List (GuardianMessage ρ)
  cancelled : Bool
  worker : Worker ρ
  toCaller : List (CallerSignal ρ)
  fromCaller : List (GuardianMessage ρ)
  fromWorker : List (GuardianMessage ρ)
  killed : Bool
  sent : Option (Reply ρ)
  arrived : List ℕ

/-- The state in which the function is called. -/
def State.start : State ρ :=
  ⟨.entering, false, false, false, [], .unborn, [], false, .unborn, [], [], [], false, none, []⟩

/-- What may happen next. -/
inductive Label (ρ : Type)
  -- the caller
  | makeAlias
  | spawnGuardian
  | receive
  | unalias
  | demonitor
  | callerDies
  -- the guardian
  | monitorCaller
  | newControl
  | spawnWorker
  | handle
  | timeout
  | reply
  | cancel
  | kill
  | leave
  | guardianDies
  -- the worker
  | finish (result : ρ)
  | raise (message : String)
  | send
  | workerEnds
  | workerDies
  -- a signal arrives
  | toCaller
  | fromCaller
  | fromWorker
  | toWorker
  -- somebody else sends the caller a message
  | noise (n : ℕ)

/-! ### Steps -/

/-- What the `receive` of the caller makes of a message. -/
def Own.result : Own ρ → Reply ρ
  | reply result => result
  | down => .error "compiler coordinator stopped"

/-- The messages that the `receive` of the caller matches. -/
def CallerMessage.own? : CallerMessage ρ → Option (Own ρ)
  | own message => some message
  | other _ => none

/-- The other messages. -/
def CallerMessage.other? : CallerMessage ρ → Option ℕ
  | own _ => none
  | other n => some n

/-- The `:DOWN` that a flush takes. -/
def Own.isDown : Own ρ → Bool
  | reply _ => false
  | down => true

/-- That `:DOWN` in the mailbox. -/
def CallerMessage.isDown : CallerMessage ρ → Bool
  | own message => message.isDown
  | other _ => false

/-- The message in a signal. -/
def CallerSignal.own? : CallerSignal ρ → Option (Own ρ)
  | monitor => none
  | message m => some m

namespace State

/-- The guardian is no more, for one reason or another. -/
def stopGuardian (s : State ρ) (guardian : Guardian ρ) : State ρ :=
  { s with guardian, toCaller := s.toCaller ++ [.message .down] }

/-- The worker is no more. -/
def stopWorker (s : State ρ) : State ρ :=
  { s with worker := .gone, fromWorker := s.fromWorker ++ [.workerDown] }

/-- The caller dies; its mailbox is of no use to anybody. -/
def stopCaller (s : State ρ) : State ρ :=
  { s with
    caller := .dead
    fromCaller := s.fromCaller ++ if s.watched then [.callerDown] else [] }

/-- A message gets to the guardian. -/
def tell (s : State ρ) (message : GuardianMessage ρ) : State ρ :=
  if s.guardian.alive then { s with inbox := s.inbox ++ [message] } else s

/-- A message gets to the caller. -/
def post (s : State ρ) (message : CallerMessage ρ) : State ρ :=
  { s with mailbox := s.mailbox ++ [message] }

/-- A signal gets to the caller. -/
def arrive (s : State ρ) : CallerSignal ρ → State ρ
  | .monitor =>
    if s.caller.alive then { s with watched := true }
    else { s with fromCaller := s.fromCaller ++ [.callerDown] }
  | .message (.reply result) =>
    if s.caller.alive ∧ s.aliased then s.post (.own (.reply result)) else s
  | .message .down => if s.caller.alive ∧ s.monitored then s.post (.own .down) else s

/-- The guardian takes a message. -/
def handle (s : State ρ) : GuardianMessage ρ → State ρ
  | .compiled result => { s with guardian := .replying result }
  | .callerDown => { s with guardian := .cancelling }
  | .workerDown => { s with guardian := .replying (.error "compiler worker stopped") }

end State

/-- One step. -/
def step (s : State ρ) : Label ρ → Option (State ρ)
  | .makeAlias =>
    match s.caller with
    | .entering => some { s with caller := .aliased, aliased := true }
    | _ => none
  | .spawnGuardian =>
    match s.caller with
    | .aliased => some { s with caller := .waiting, monitored := true, guardian := .monitoring }
    | _ => none
  | .receive =>
    match s.caller, s.mailbox.findSome? CallerMessage.own? with
    | .waiting, some message =>
      some { s with
        caller := .answered message.result
        mailbox := s.mailbox.eraseP fun m => m.own?.isSome }
    | _, _ => none
  | .unalias =>
    match s.caller with
    | .answered result => some { s with caller := .unaliased result, aliased := false }
    | _ => none
  | .demonitor =>
    match s.caller with
    | .unaliased result =>
      some { s with
        caller := .returned result
        monitored := false
        mailbox := s.mailbox.eraseP CallerMessage.isDown }
    | _ => none
  | .callerDies => if s.caller.alive then some s.stopCaller else none
  | .monitorCaller =>
    match s.guardian with
    | .monitoring => some { s with guardian := .controlling, toCaller := s.toCaller ++ [.monitor] }
    | _ => none
  | .newControl =>
    match s.guardian with
    | .controlling => some { s with guardian := .spawning }
    | _ => none
  | .spawnWorker =>
    match s.guardian with
    | .spawning => some { s with guardian := .receiving, worker := .compiling }
    | _ => none
  | .handle =>
    match s.guardian, s.inbox with
    | .receiving, message :: rest => some ({ s with inbox := rest }.handle message)
    | _, _ => none
  | .timeout =>
    match s.guardian, s.inbox with
    | .receiving, [] => some { s with guardian := .replying (.error "compilation timed out") }
    | _, _ => none
  | .reply =>
    match s.guardian with
    | .replying result =>
      some { s with
        guardian := .cancelling
        toCaller := s.toCaller ++ [.message (.reply result)]
        sent := some result }
    | _ => none
  | .cancel =>
    match s.guardian with
    | .cancelling => some { s with guardian := .killing, cancelled := true }
    | _ => none
  | .kill =>
    match s.guardian with
    | .killing => some { s with guardian := .leaving, killed := true }
    | _ => none
  | .leave =>
    match s.guardian with
    | .leaving => some (s.stopGuardian .ended)
    | _ => none
  | .guardianDies => if s.guardian.alive then some (s.stopGuardian .dead) else none
  | .finish result =>
    match s.worker with
    | .compiling => some { s with worker := .sending (.native result) }
    | _ => none
  | .raise message =>
    match s.worker with
    | .compiling => some { s with worker := .sending (.error message) }
    | _ => none
  | .send =>
    match s.worker with
    | .sending result =>
      some { s with worker := .leaving, fromWorker := s.fromWorker ++ [.compiled result] }
    | _ => none
  | .workerEnds =>
    match s.worker with
    | .leaving => some s.stopWorker
    | _ => none
  | .workerDies => if s.worker.alive then some s.stopWorker else none
  | .toCaller =>
    match s.toCaller with
    | signal :: rest => some ({ s with toCaller := rest }.arrive signal)
    | [] => none
  | .fromCaller =>
    match s.fromCaller with
    | message :: rest => some ({ s with fromCaller := rest }.tell message)
    | [] => none
  | .fromWorker =>
    match s.fromWorker with
    | message :: rest => some ({ s with fromWorker := rest }.tell message)
    | [] => none
  | .toWorker =>
    if s.killed then
      some (if s.worker.alive then { s with killed := false }.stopWorker
        else { s with killed := false })
    else none
  | .noise n =>
    if s.caller.alive then some { s.post (.other n) with arrived := s.arrived ++ [n] } else none

variable (ρ) in
/-- A call of the function. -/
def system : System (State ρ) (Label ρ) := .ofStep (· = .start) step

/-! ### What a step can do -/

/-- The steps, with what they ask of the state. -/
inductive Move : State ρ → Label ρ → State ρ → Prop
  -- the caller
  | makeAlias {s : State ρ} (hcaller : s.caller = .entering) :
      Move s .makeAlias { s with caller := .aliased, aliased := true }
  | spawnGuardian {s : State ρ} (hcaller : s.caller = .aliased) :
      Move s .spawnGuardian
        { s with caller := .waiting, monitored := true, guardian := .monitoring }
  | receive {s : State ρ} {message : Own ρ} (hcaller : s.caller = .waiting)
      (hfirst : s.mailbox.findSome? CallerMessage.own? = some message) :
      Move s .receive { s with
        caller := .answered message.result
        mailbox := s.mailbox.eraseP fun m => m.own?.isSome }
  | unalias {s : State ρ} {result : Reply ρ} (hcaller : s.caller = .answered result) :
      Move s .unalias { s with caller := .unaliased result, aliased := false }
  | demonitor {s : State ρ} {result : Reply ρ} (hcaller : s.caller = .unaliased result) :
      Move s .demonitor { s with
        caller := .returned result
        monitored := false
        mailbox := s.mailbox.eraseP CallerMessage.isDown }
  | callerDies {s : State ρ} (halive : s.caller.alive = true) : Move s .callerDies s.stopCaller
  -- the guardian
  | monitorCaller {s : State ρ} (hguardian : s.guardian = .monitoring) :
      Move s .monitorCaller { s with
        guardian := .controlling, toCaller := s.toCaller ++ [.monitor] }
  | newControl {s : State ρ} (hguardian : s.guardian = .controlling) :
      Move s .newControl { s with guardian := .spawning }
  | spawnWorker {s : State ρ} (hguardian : s.guardian = .spawning) :
      Move s .spawnWorker { s with guardian := .receiving, worker := .compiling }
  | handle {s : State ρ} {message : GuardianMessage ρ} {rest : List (GuardianMessage ρ)}
      (hguardian : s.guardian = .receiving) (hinbox : s.inbox = message :: rest) :
      Move s .handle ({ s with inbox := rest }.handle message)
  | timeout {s : State ρ} (hguardian : s.guardian = .receiving) (hinbox : s.inbox = []) :
      Move s .timeout { s with guardian := .replying (.error "compilation timed out") }
  | reply {s : State ρ} {result : Reply ρ} (hguardian : s.guardian = .replying result) :
      Move s .reply { s with
        guardian := .cancelling
        toCaller := s.toCaller ++ [.message (.reply result)]
        sent := some result }
  | cancel {s : State ρ} (hguardian : s.guardian = .cancelling) :
      Move s .cancel { s with guardian := .killing, cancelled := true }
  | kill {s : State ρ} (hguardian : s.guardian = .killing) :
      Move s .kill { s with guardian := .leaving, killed := true }
  | leave {s : State ρ} (hguardian : s.guardian = .leaving) : Move s .leave (s.stopGuardian .ended)
  | guardianDies {s : State ρ} (halive : s.guardian.alive = true) :
      Move s .guardianDies (s.stopGuardian .dead)
  -- the worker
  | finish {s : State ρ} (hworker : s.worker = .compiling) (result : ρ) :
      Move s (.finish result) { s with worker := .sending (.native result) }
  | raise {s : State ρ} (hworker : s.worker = .compiling) (message : String) :
      Move s (.raise message) { s with worker := .sending (.error message) }
  | send {s : State ρ} {result : Reply ρ} (hworker : s.worker = .sending result) :
      Move s .send { s with
        worker := .leaving, fromWorker := s.fromWorker ++ [.compiled result] }
  | workerEnds {s : State ρ} (hworker : s.worker = .leaving) : Move s .workerEnds s.stopWorker
  | workerDies {s : State ρ} (halive : s.worker.alive = true) : Move s .workerDies s.stopWorker
  -- a signal arrives, or another message
  | toCaller {s : State ρ} {signal : CallerSignal ρ} {rest : List (CallerSignal ρ)}
      (hsignals : s.toCaller = signal :: rest) :
      Move s .toCaller ({ s with toCaller := rest }.arrive signal)
  | fromCaller {s : State ρ} {message : GuardianMessage ρ} {rest : List (GuardianMessage ρ)}
      (hsignals : s.fromCaller = message :: rest) :
      Move s .fromCaller ({ s with fromCaller := rest }.tell message)
  | fromWorker {s : State ρ} {message : GuardianMessage ρ} {rest : List (GuardianMessage ρ)}
      (hsignals : s.fromWorker = message :: rest) :
      Move s .fromWorker ({ s with fromWorker := rest }.tell message)
  | killWorker {s : State ρ} (hkilled : s.killed = true) (halive : s.worker.alive = true) :
      Move s .toWorker { s with killed := false }.stopWorker
  | killNobody {s : State ρ} (hkilled : s.killed = true) (hdead : s.worker.alive = false) :
      Move s .toWorker { s with killed := false }
  | noise {s : State ρ} (halive : s.caller.alive = true) (n : ℕ) :
      Move s (.noise n) { s.post (.other n) with arrived := s.arrived ++ [n] }

theorem move_of_step {s t : State ρ} {l : Label ρ} (h : step s l = some t) : Move s l t := by
  cases l with
  | makeAlias | spawnGuardian | unalias | demonitor | monitorCaller | newControl | spawnWorker
  | reply | cancel | kill | leave | send | workerEnds =>
    simp only [step] at h
    split at h
    · rename_i hphase
      cases h
      constructor
      exact hphase
    · cases h
  | receive =>
    simp only [step] at h
    split at h
    · rename_i hcaller hfirst
      cases h
      exact .receive hcaller hfirst
    · cases h
  | handle =>
    simp only [step] at h
    split at h
    · rename_i hguardian hinbox
      cases h
      exact .handle hguardian hinbox
    · cases h
  | timeout =>
    simp only [step] at h
    split at h
    · rename_i hguardian hinbox
      cases h
      exact .timeout hguardian hinbox
    · cases h
  | callerDies | guardianDies | workerDies =>
    simp only [step] at h
    split_ifs at h with halive
    cases h
    constructor
    exact halive
  | finish result =>
    simp only [step] at h
    split at h <;> cases h
    exact .finish (by assumption) result
  | raise message =>
    simp only [step] at h
    split at h <;> cases h
    exact .raise (by assumption) message
  | toCaller | fromCaller | fromWorker =>
    simp only [step] at h
    split at h
    · rename_i hsignals
      cases h
      constructor
      exact hsignals
    · cases h
  | toWorker =>
    simp only [step] at h
    split_ifs at h with hkilled halive
    · cases h
      exact .killWorker hkilled halive
    · cases h
      exact .killNobody hkilled (Bool.not_eq_true _ ▸ halive)
  | noise n =>
    simp only [step] at h
    split_ifs at h with halive
    cases h
    exact .noise halive n

end Javex.Compile
