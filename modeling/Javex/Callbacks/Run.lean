import Javex.Callbacks.Broker
import Javex.Transition.System

/-!
# A run and its broker

The broker with everybody it exchanges messages with: the run worker of
`Javex.Runtime.execute/6`, which dispatches frames while its work function runs, however that
ends, and then stops the broker and waits for it before it reports; the callback processes,
which may die at any moment; and their timers. The broker's mailbox is a list, a message is
added at its end, and the broker takes turns (`handle`) until it cleans up, which takes one
`:DOWN` after the other out of the mailbox.

`Move` says once what a step of the system can do: a turn on a frame is one move for each of its
requests. Every invariant of the broker is shown for the moves, and `moves_of_step` carries it to
the system.

The world records what happened beside what is: the frames that were dispatched, the events that the
broker reported, the calls of host functions and what they came to, the processes that were killed.
Nothing that is modelled reads these fields, and every statement about the past is about them.

A process goes through a few places (`Status`) and may die in any of them; when it dies its monitor
puts a `:DOWN` at the end of the mailbox, once, because dying is a step of a process that is alive.
A timer that has fired leaves a message that may be read long after the job is done, and the broker
has to put up with it.
-/

namespace Javex.Callbacks

open Codec Transition

/-- How far a callback process has got with its host function. -/
inductive Status
  | started | calling | answered
  deriving DecidableEq

/-- A callback process that is alive. -/
structure Callback where
  process : Process
  status : Status

/-- What the broker is doing; `cleaning` holds the jobs whose `:DOWN` it waits for. -/
inductive Phase
  | running
  | cleaning (rest : List (Σ _ : ℕ, Job))
  | ended
  | crashed
  deriving DecidableEq

/-- The messages of the broker to its parent. -/
inductive Event
  | reply (completion : Completion) (text : Bytes)
  | error (kind : Kind) (message : String)

/-- How the work function of a run ends, inside the `try` of `execute/6`. -/
inductive Ending
  | returned (result : Except RuntimeError Bytes)
  | raised (message : String)

/-- What `execute/6` makes of it. -/
def Ending.report : Ending → Except RuntimeError Bytes
  | returned result => result
  | raised message => .error ⟨.trap, message⟩

/-- The run worker: its work function runs, it waits in `Callbacks.stop/1`, it is past that, or
it has sent its `{:result, _, _}`. -/
inductive Worker
  | working
  | stopping (ending : Ending)
  | stopped (ending : Ending)
  | reported (result : Except RuntimeError Bytes)
  | dead

/-- The broker, its mailbox and its surroundings. `events` are all messages to the parent; `killed`
are the processes that have been sent an exit signal, and die of it some time; `invoked` and
`finished` only record which host functions were called and what they came to. -/
structure World where
  state : State
  phase : Phase
  inbox : List Message
  live : AList fun _ : ℕ => Callback
  killed : Finset ℕ
  timers : Finset ℕ
  worker : Worker
  events : List Event
  invoked : List Process
  finished : List (Process × Outcome)

/-- What may happen next. -/
inductive Label
  -- the run worker, and messages the broker drops
  | dispatch (bytes : Bytes)
  | finish (ending : Ending)
  | brokerDown
  | report
  | workerDies
  | noise
  -- the callback processes and their timers
  | call (pid : ℕ)
  | answer (pid : ℕ) (outcome : Outcome)
  | late (pid : ℕ)
  | die (pid : ℕ)
  | fire (timer : ℕ)
  -- the broker
  | turn (clock : ℕ → ℤ)
  | await
  | exit

namespace World

/-- The world in which `Callbacks.start/1` returns. -/
def start : World := ⟨.start, .running, [], ∅, ∅, ∅, .working, [], [], []⟩

/-- A message arrives. -/
def post (w : World) (message : Message) : World := { w with inbox := w.inbox ++ [message] }

/-- An effect of the broker. -/
def perform (w : World) : Effect → World
  | .spawn pid process => { w with
      live := w.live.insert pid ⟨process, .started⟩
      timers := insert pid w.timers }
  | .cancelTimer timer => { w with timers := w.timers.erase timer }
  | .kill pid => { w with killed := insert pid w.killed }
  | .reply completion text => { w with events := w.events ++ [.reply completion text] }
  | .error kind message => { w with events := w.events ++ [.error kind message] }

def performAll (w : World) (effects : List Effect) : World := effects.foldl perform w

/-- The broker starts to clean up. -/
def clean (w : World) (state : State) : World :=
  { w.performAll (cleanupEffects state) with state, phase := .cleaning state.jobs.entries }

/-- The broker goes on after a turn. -/
def resume (w : World) : Turn → World
  | .loop state => { w with state }
  | .cleanup state => w.clean state
  | .raised => { w with phase := .crashed }

end World

/-- One step. -/
def step (cfg : Config) (w : World) : Label → Option World
  | .dispatch bytes =>
    match w.worker with
    | .working => some (w.post (.dispatch bytes))
    | _ => none
  | .finish ending =>
    match w.worker with
    | .working => some { w.post .stop with worker := .stopping ending }
    | _ => none
  | .brokerDown =>
    match w.worker, w.phase with
    | .stopping ending, .ended | .stopping ending, .crashed =>
      some { w with worker := .stopped ending }
    | _, _ => none
  | .report =>
    match w.worker with
    | .stopped ending => some { w with worker := .reported ending.report }
    | _ => none
  | .workerDies =>
    match w.worker with
    | .reported _ | .dead => none
    | _ => some { w.post .parentDown with worker := .dead }
  | .noise => some (w.post .other)
  | .call pid =>
    match w.live.lookup pid with
    | some ⟨process, .started⟩ => some { w with
        live := w.live.insert pid ⟨process, .calling⟩
        invoked := w.invoked ++ [process] }
    | _ => none
  | .answer pid outcome =>
    match w.live.lookup pid with
    | some ⟨process, .calling⟩ =>
      match invoke cfg process.id outcome with
      | .ok result => some { w.post (.result pid result) with
          live := w.live.insert pid ⟨process, .answered⟩
          finished := w.finished ++ [(process, outcome)] }
      | .error _ => some { w.post (.down pid pid) with live := w.live.erase pid }
    | _ => none
  | .late pid =>
    match w.live.lookup pid with
    | some ⟨process, .started⟩ => some { w.post (.callbackTimeout pid) with
        live := w.live.insert pid ⟨process, .answered⟩ }
    | _ => none
  | .die pid =>
    if pid ∈ w.live then some { w.post (.down pid pid) with live := w.live.erase pid } else none
  | .fire timer =>
    if timer ∈ w.timers then
      some { w.post (.callbackTimeout timer) with timers := w.timers.erase timer }
    else none
  | .turn clock =>
    match w.phase, w.inbox with
    | .running, message :: rest =>
      let turn := handle cfg clock w.state message
      some (({ w with inbox := rest }.performAll turn.1).resume turn.2)
    | _, _ => none
  | .await =>
    match w.phase with
    | .cleaning (⟨pid, job⟩ :: rest) =>
      if .down job.ref pid ∈ w.inbox then
        some { w with inbox := w.inbox.erase (.down job.ref pid), phase := .cleaning rest }
      else none
    | _ => none
  | .exit =>
    match w.phase with
    | .cleaning [] => some { w with phase := .ended }
    | _ => none

/-- A run with its broker. -/
def system (cfg : Config) : System World Label := .ofStep (· = .start) (step cfg)

/-! ### Moves -/

/-- The result that the loop takes a job to have when its process is down. -/
def Job.Comes (cfg : Config) (job : Job) (result : Result) : Prop :=
  job.result = some result ∨ job.result = none ∧ callbackFailed cfg job.id = .ok result

/-- What a step does, in moves that change one thing, when the run worker dispatches allowed frames
only. A world comes with the requests at hand, those of the frame that is being served. -/
inductive Move (cfg : Config) (allowed : Bytes → Prop) :
    World × List Json → World × List Json → Prop
  -- the broker takes a message, admits a request, records a result
  | take {w : World} {message : Message} {rest : List Message} (hphase : w.phase = .running)
      (hinbox : w.inbox = message :: rest)
      (hdown : ∀ ref pid, message = .down ref pid → pid ∉ w.state.jobs)
      (hresult : ∀ pid result, message = .result pid result → pid ∉ w.state.jobs) :
      Move cfg allowed (w, []) ({ w with inbox := rest }, [])
  | frame {w : World} {bytes : Bytes} {rest : List Message} {json : Json} {requests : List Json}
      (hphase : w.phase = .running) (hinbox : w.inbox = .dispatch bytes :: rest)
      (hdecode : cfg.jason.decode bytes = some json)
      (hrequests : json.get (utf8 "requests") = some (.arr requests)) :
      Move cfg allowed (w, []) ({ w with inbox := rest }, requests)
  | spawn {w : World} {json : Json} {requests : List Json} {request : Request} {callback : ℕ}
      (hphase : w.phase = .running) (hjson : IsRequest json request)
      (hrequest : Accepts cfg w.state request)
      (hcallback : cfg.limits.callbacks.lookup request.name = some callback) (clock : ℕ → ℤ) :
      Move cfg allowed (w, json :: requests)
        ({ w with state := (startCallback cfg clock (w.state.accept request) request.id
          callback request.argument).2 }.performAll (startCallback cfg clock
            (w.state.accept request) request.id callback request.argument).1, requests)
  | deny {w : World} {json : Json} {requests : List Json} {request : Request} {text : Bytes}
      (hphase : w.phase = .running) (hjson : IsRequest json request)
      (hrequest : Accepts cfg w.state request)
      (hcallback : cfg.limits.callbacks.lookup request.name = none)
      (htext : completionText cfg (denial request.id) = .ok text) :
      Move cfg allowed (w, json :: requests) ({ w with
        state := w.state.accept request
        events := w.events ++ [.reply (denial request.id) text] }, requests)
  | record {w : World} {pid : ℕ} {result : Result} {rest : List Message} {job : Job}
      (hphase : w.phase = .running) (hinbox : w.inbox = .result pid result :: rest)
      (hjob : w.state.jobs.lookup pid = some job) :
      Move cfg allowed (w, []) ({ w with
        inbox := rest
        state := { w.state with
          jobs := w.state.jobs.insert pid { job with result := some result } } }, [])
  -- the broker finishes a job, or gives up
  | complete {w : World} {ref pid : ℕ} {rest : List Message} {job : Job} {c : Completion}
      {text : Bytes} (hphase : w.phase = .running) (hinbox : w.inbox = .down ref pid :: rest)
      (hjob : w.state.jobs.lookup pid = some job) (hresult : job.Comes cfg (.completion c))
      (htext : completionText cfg c = .ok text) :
      Move cfg allowed (w, []) ({ w with
        inbox := rest
        state := { w.state with jobs := w.state.jobs.erase pid }
        timers := w.timers.erase job.timer
        events := w.events ++ [.reply c text] }, [])
  | fatal {w : World} {ref pid : ℕ} {rest : List Message} {job : Job} {state : State}
      (hphase : w.phase = .running) (hinbox : w.inbox = .down ref pid :: rest)
      (hjob : w.state.jobs.lookup pid = some job)
      (hstate : state = { w.state with jobs := w.state.jobs.erase pid }) (message : String) :
      Move cfg allowed (w, [])
        (({ w with inbox := rest, timers := w.timers.erase job.timer }.perform
          (.error .callbackLimit message)).clean state, [])
  | fail {w : World} (hphase : w.phase = .running) (requests : List Json) (kind : Kind)
      (hkind : kind = .callbackLimit ∨ kind = .callbackTimeout) (message : String) :
      Move cfg allowed (w, requests) ((w.perform (.error kind message)).clean w.state, [])
  | stop {w : World} {message : Message} {rest : List Message} (hphase : w.phase = .running)
      (hinbox : w.inbox = message :: rest)
      (hmessage : message = .stop ∨ message = .parentDown) :
      Move cfg allowed (w, []) ({ w with inbox := rest }.clean w.state, [])
  | await {w : World} {pid : ℕ} {job : Job} {rest : List (Σ _ : ℕ, Job)}
      (hphase : w.phase = .cleaning (⟨pid, job⟩ :: rest)) (hdown : .down job.ref pid ∈ w.inbox) :
      Move cfg allowed (w, []) ({ w with
        inbox := w.inbox.erase (.down job.ref pid), phase := .cleaning rest }, [])
  | exit {w : World} (hphase : w.phase = .cleaning []) :
      Move cfg allowed (w, []) ({ w with phase := .ended }, [])
  -- the callback processes and their timers
  | call {w : World} {pid : ℕ} {process : Process}
      (hlive : w.live.lookup pid = some ⟨process, .started⟩) :
      Move cfg allowed (w, []) ({ w with
        live := w.live.insert pid ⟨process, .calling⟩
        invoked := w.invoked ++ [process] }, [])
  | answer {w : World} {pid : ℕ} {process : Process} {outcome : Outcome} {result : Result}
      (hlive : w.live.lookup pid = some ⟨process, .calling⟩)
      (hresult : invoke cfg process.id outcome = .ok result) :
      Move cfg allowed (w, []) ({ w.post (.result pid result) with
        live := w.live.insert pid ⟨process, .answered⟩
        finished := w.finished ++ [(process, outcome)] }, [])
  | late {w : World} {pid : ℕ} {process : Process}
      (hlive : w.live.lookup pid = some ⟨process, .started⟩) :
      Move cfg allowed (w, []) ({ w.post (.callbackTimeout pid) with
        live := w.live.insert pid ⟨process, .answered⟩ }, [])
  | die {w : World} {pid : ℕ} (hlive : pid ∈ w.live) :
      Move cfg allowed (w, []) ({ w.post (.down pid pid) with live := w.live.erase pid }, [])
  | fire {w : World} (timer : ℕ) :
      Move cfg allowed (w, [])
        ({ w.post (.callbackTimeout timer) with timers := w.timers.erase timer }, [])
  -- the run worker
  | noise {w : World} : Move cfg allowed (w, []) (w.post .other, [])
  | dispatch {w : World} {bytes : Bytes} (hworker : w.worker = .working) (hbytes : allowed bytes) :
      Move cfg allowed (w, []) (w.post (.dispatch bytes), [])
  | finish {w : World} (hworker : w.worker = .working) (ending : Ending) :
      Move cfg allowed (w, []) ({ w.post .stop with worker := .stopping ending }, [])
  | stopped {w : World} {ending : Ending} (hworker : w.worker = .stopping ending)
      (hphase : w.phase = .ended ∨ w.phase = .crashed) :
      Move cfg allowed (w, []) ({ w with worker := .stopped ending }, [])
  | report {w : World} {ending : Ending} (hworker : w.worker = .stopped ending) :
      Move cfg allowed (w, []) ({ w with worker := .reported ending.report }, [])
  | workerDies {w : World} :
      Move cfg allowed (w, []) ({ w.post .parentDown with worker := .dead }, [])

variable {cfg : Config} {allowed : Bytes → Prop} {w : World}

/-- Some moves. -/
abbrev Moves (cfg : Config) (allowed : Bytes → Prop) (w w' : World × List Json) : Prop :=
  Relation.ReflTransGen (Move cfg allowed) w w'

@[simp]
theorem performAll_nil (w : World) : w.performAll [] = w := rfl

@[simp]
theorem performAll_cons (w : World) (effect : Effect) (effects : List Effect) :
    w.performAll (effect :: effects) = (w.perform effect).performAll effects := rfl

theorem performAll_append (w : World) (xs ys : List Effect) :
    w.performAll (xs ++ ys) = (w.performAll xs).performAll ys := List.foldl_append

/-- Effects leave the state and the phase alone. -/
theorem performAll_frame (w : World) (effects : List Effect) :
    w.performAll effects = { w with
      live := (w.performAll effects).live, killed := (w.performAll effects).killed
      timers := (w.performAll effects).timers, events := (w.performAll effects).events } := by
  induction effects generalizing w with
  | nil => rfl
  | cons effect effects ih =>
    rw [performAll_cons, ih]
    cases effect <;> rfl

/-- Effects do not look at the state. -/
theorem performAll_state (w : World) (state : State) (effects : List Effect) :
    { w.performAll effects with state } = { w with state }.performAll effects := by
  induction effects generalizing w with
  | nil => rfl
  | cons effect effects ih =>
    rw [performAll_cons, performAll_cons, ih]
    cases effect <;> rfl

/-- Cleaning up cancels timers and kills processes. -/
theorem clean_eq (w : World) (state : State) :
    w.clean state = { w with
      state, phase := .cleaning state.jobs.entries, killed := (w.clean state).killed
      timers := (w.clean state).timers } := by
  have hframe : ∀ (entries : List (Σ _ : ℕ, Job)) (w : World),
      w.performAll (entries.flatMap fun e => [.cancelTimer e.2.timer, .kill e.1]) = { w with
        killed := (w.performAll
          (entries.flatMap fun e => [.cancelTimer e.2.timer, .kill e.1])).killed
        timers := (w.performAll
          (entries.flatMap fun e => [.cancelTimer e.2.timer, .kill e.1])).timers } := by
    intro entries
    induction entries with
    | nil => intro w; rfl
    | cons entry entries ih =>
      intro w
      rw [List.flatMap_cons, performAll_append, ih]
      rfl
  unfold World.clean
  rw [cleanupEffects, hframe]

/-- Cleaning up sets the state. -/
theorem clean_performAll_state (w : World) (state state' : State) (effects : List Effect) :
    ({ w with state }.performAll effects).clean state' = (w.performAll effects).clean state' := by
  rw [← performAll_state]
  unfold World.clean
  rw [← performAll_state]

/-- **The requests of a batch, one by one**: all of them, or up to the one that is refused. -/
theorem moves_dispatchBatch (hjason : cfg.jason.Lawful) (clock : ℕ → ℤ) (requests : List Json)
    (hphase : w.phase = .running) :
    ∃ rest, ((dispatchBatch cfg clock w.state requests).2.2 = none → rest = []) ∧
      Moves cfg allowed (w, requests)
        ({ w with state := (dispatchBatch cfg clock w.state requests).2.1 }.performAll
          (dispatchBatch cfg clock w.state requests).1, rest) := by
  induction requests generalizing w with
  | nil => exact ⟨[], fun _ => rfl, .refl⟩
  | cons json requests ih =>
    unfold dispatchBatch
    split
    · rename_i effects state' hok
      obtain ⟨request, hjson, hrequest, hcase⟩ := dispatchRequest_cases hjason hok
      have hmove : Move cfg allowed (w, json :: requests)
          ({ w with state := state' }.performAll effects, requests) := by
        rcases hcase with ⟨callback, hcallback, hstart⟩ | ⟨hcallback, -, text, htext, rfl, rfl⟩
        · obtain ⟨rfl, rfl⟩ := Prod.mk.inj hstart
          exact .spawn hphase hjson hrequest hcallback clock
        · exact .deny hphase hjson hrequest hcallback htext
      have hframe := performAll_frame { w with state := state' } effects
      obtain ⟨rest, hnone, hrest⟩ := ih (w := { w with state := state' }.performAll effects)
        (by rw [hframe]; exact hphase)
      have hstate : ({ w with state := state' }.performAll effects).state = state' := by
        rw [hframe]
      rw [hstate] at hrest hnone
      refine ⟨rest, hnone, .head hmove ?_⟩
      rw [performAll_append]
      rw [performAll_state] at hrest
      exact hrest
    · exact ⟨json :: requests, nofun, .refl⟩

/-- The results recorded in the jobs are for their ids. -/
def Recorded (w : World) : Prop :=
  ∀ pid job, w.state.jobs.lookup pid = some job → ∀ result, job.result = some result →
    result.For job.id

/-- The loop always has a result for a job. -/
theorem exists_comes (hjason : cfg.jason.Lawful) (hrecorded : Recorded w) {pid : ℕ} {job : Job}
    (hjob : w.state.jobs.lookup pid = some job) :
    ∃ result, (job.result.map Except.ok).getD (callbackFailed cfg job.id) = .ok result ∧
      job.Comes cfg result ∧ result.For job.id := by
  cases hresult : job.result with
  | some result => exact ⟨result, rfl, .inl hresult, hrecorded pid job hjob result hresult⟩
  | none =>
    obtain ⟨result, h, hfor⟩ := callbackFailed_ok hjason job.id
    exact ⟨result, h, .inr ⟨hresult, h⟩, hfor⟩

/-- A frame is taken and its requests are admitted one by one. -/
theorem moves_dispatchRequests (hjason : cfg.jason.Lawful) (clock : ℕ → ℤ) {bytes : Bytes}
    {rest : List Message} (hphase : w.phase = .running)
    (hinbox : w.inbox = .dispatch bytes :: rest) :
    ∃ requests, ((dispatchRequests cfg clock w.state bytes).2.2 = none → requests = []) ∧
      Moves cfg allowed (w, []) ({ w with
        inbox := rest, state := (dispatchRequests cfg clock w.state bytes).2.1 }.performAll
          (dispatchRequests cfg clock w.state bytes).1, requests) := by
  have htake : Move cfg allowed (w, []) ({ w with inbox := rest }, []) :=
    .take hphase hinbox nofun nofun
  unfold dispatchRequests
  split_ifs
  · split
    · rename_i requests hrequests
      obtain ⟨json, hdecode, hget⟩ := Option.bind_eq_some_iff.mp hrequests
      split_ifs
      · obtain ⟨hand, hnone, hmoves⟩ := moves_dispatchBatch (w := { w with inbox := rest })
          hjason clock requests hphase
        exact ⟨hand, hnone, .head (.frame hphase hinbox hdecode hget) hmoves⟩
      · exact ⟨[], fun _ => rfl, .single htake⟩
    · exact ⟨[], fun _ => rfl, .single htake⟩
  · exact ⟨[], fun _ => rfl, .single htake⟩

theorem moves_frame (hjason : cfg.jason.Lawful) (clock : ℕ → ℤ) {bytes : Bytes}
    {rest : List Message} (hphase : w.phase = .running)
    (hinbox : w.inbox = .dispatch bytes :: rest) :
    Moves cfg allowed (w, []) (({ w with inbox := rest }.performAll
      (handle cfg clock w.state (.dispatch bytes)).1).resume
        (handle cfg clock w.state (.dispatch bytes)).2, []) := by
  obtain ⟨requests, hrequests, hbatch⟩ := moves_dispatchRequests hjason clock hphase hinbox
  cases hframe : dispatchRequests cfg clock w.state bytes with
  | mk effects next =>
    obtain ⟨state', stop⟩ := next
    rw [hframe] at hbatch hrequests
    cases stop with
    | none =>
      simp only [handle, hframe, World.resume]
      obtain rfl := hrequests rfl
      rw [performAll_state]
      exact hbatch
    | some refusal =>
      obtain ⟨message, rfl⟩ := dispatchRequests_error hjason (by rw [hframe])
      have hafter := performAll_frame { w with inbox := rest, state := state' } effects
      have hstate : ({ w with inbox := rest, state := state' }.performAll effects).state =
          state' := by rw [hafter]
      have hfail : Move cfg allowed
          ({ w with inbox := rest, state := state' }.performAll effects, requests) _ :=
        .fail (by rw [hafter]; exact hphase) requests _ (.inl rfl) message
      rw [hstate] at hfail
      simp only [handle, hframe, Callbacks.fail, World.resume]
      rw [← clean_performAll_state { w with inbox := rest } state' state', performAll_append]
      exact hbatch.tail hfail

/-- The `:DOWN` of a callback process. -/
theorem moves_down (hjason : cfg.jason.Lawful) (hrecorded : Recorded w) {ref pid : ℕ}
    {rest : List Message} (hphase : w.phase = .running)
    (hinbox : w.inbox = .down ref pid :: rest) (clock : ℕ → ℤ) :
    Move cfg allowed (w, []) (({ w with inbox := rest }.performAll
      (handle cfg clock w.state (.down ref pid)).1).resume
        (handle cfg clock w.state (.down ref pid)).2, []) := by
  cases hjob : w.state.jobs.lookup pid with
  | none =>
    simp only [handle, hjob]
    refine .take hphase hinbox ?_ nofun
    rintro _ _ ⟨⟩
    exact AList.lookup_eq_none.mp hjob
  | some job =>
    obtain ⟨result, hresult, hcomes, hfor⟩ := exists_comes hjason hrecorded hjob
    simp only [handle, hjob, finishJob, hresult]
    cases result with
    | completion c =>
      obtain ⟨text, -, htext, -⟩ := completionText_ok hjason hfor.2.1
      simp only [htext]
      exact .complete hphase hinbox hjob hcomes htext
    | fatal message => exact .fatal hphase hinbox hjob rfl message

/-- **A step is some moves.** -/
theorem moves_of_step (hjason : cfg.jason.Lawful) (hrecorded : Recorded w) {l : Label}
    (hallowed : ∀ bytes, l = .dispatch bytes → allowed bytes) {w' : World}
    (h : step cfg w l = some w') : Moves cfg allowed (w, []) (w', []) := by
  cases l with
  | dispatch bytes =>
    simp only [step] at h
    split at h <;> cases h
    exact .single (.dispatch (by assumption) (hallowed bytes rfl))
  | finish ending =>
    simp only [step] at h
    split at h <;> cases h
    exact .single (.finish (by assumption) ending)
  | brokerDown =>
    simp only [step] at h
    split at h <;> cases h
    · exact .single (.stopped (by assumption) (.inl (by assumption)))
    · exact .single (.stopped (by assumption) (.inr (by assumption)))
  | report =>
    simp only [step] at h
    split at h <;> cases h
    exact .single (.report (by assumption))
  | workerDies =>
    simp only [step] at h
    split at h <;> cases h
    exact .single .workerDies
  | noise =>
    simp only [step] at h
    cases h
    exact .single .noise
  | call pid =>
    simp only [step] at h
    split at h <;> cases h
    exact .single (.call (by assumption))
  | answer pid outcome =>
    simp only [step] at h
    split at h
    · rename_i process hlive
      obtain ⟨result, hresult, -⟩ := invoke_ok hjason process.id outcome
      rw [hresult] at h
      cases h
      exact .single (.answer hlive hresult)
    · cases h
  | late pid =>
    simp only [step] at h
    split at h <;> cases h
    exact .single (.late (by assumption))
  | die pid =>
    simp only [step] at h
    split_ifs at h with hlive
    cases h
    exact .single (.die hlive)
  | fire timer =>
    simp only [step] at h
    split_ifs at h
    cases h
    exact .single (.fire timer)
  | turn clock =>
    simp only [step] at h
    split at h
    · rename_i message rest hphase hinbox
      cases h
      cases message with
      | dispatch bytes => exact moves_frame hjason clock hphase hinbox
      | down ref pid => exact .single (moves_down hjason hrecorded hphase hinbox clock)
      | result pid result =>
        simp only [handle]
        split
        · exact .single (.record hphase hinbox (by assumption))
        · rename_i hnone
          refine .single (.take hphase hinbox nofun ?_)
          rintro _ _ ⟨⟩
          exact AList.lookup_eq_none.mp hnone
      | callbackTimeout pid =>
        simp only [handle]
        split_ifs
        · exact .tail (.single (.take hphase hinbox nofun nofun))
            (.fail (by exact hphase) [] _ (.inr rfl) _)
        · exact .single (.take hphase hinbox nofun nofun)
      | stop => exact .single (.stop hphase hinbox (.inl rfl))
      | parentDown => exact .single (.stop hphase hinbox (.inr rfl))
      | other => exact .single (.take hphase hinbox nofun nofun)
    · cases h
  | await =>
    simp only [step] at h
    split at h
    · split_ifs at h with hdown
      cases h
      exact .single (.await (by assumption) hdown)
    · cases h
  | exit =>
    simp only [step] at h
    split at h <;> cases h
    exact .single (.exit (by assumption))

end Javex.Callbacks
