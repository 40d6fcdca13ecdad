import Javex.Callbacks.Results
import Javex.ForMathlib.AList

/-!
# The callback broker

The broker of one execution, `lib/javex/callbacks.ex`: it admits the guest's callback requests
against the quotas, starts a process for each, and turns what the processes send into
completions. One message is handled by `handle`, which returns what the broker does and whether
it goes on; `dispatchBatch` is the `reduce_while` over the requests of a frame, and stops midway
with the processes it has started so far.

The clock is read once for each process that is started. One counter, `spawned`, names the
processes, their monitors and their timers.

The broker is sequential and total in what it does with a message; what can go wrong is `Jason`,
which may refuse to encode, and then the source raises and the broker crashes. Those places are
`Except` here, and that they are never reached is proved from the laws of `Jason`, not assumed.

`dispatchRequest_cases` takes a request apart in the order of the checks of the source: what it has
to be like, then the quotas, then the grant. A request that is refused by one of the first two ends
the run, and one without a grant is answered with a denial; this difference is where most of the
statements about the broker start.
-/

namespace Javex.Callbacks

open Codec

/-! ### The state of the broker -/

/-- An entry of `jobs`. -/
structure Job where
  id : ℕ
  ref : ℕ
  timer : ℕ
  result : Option Result
  deriving DecidableEq

/-- A request as it was admitted, with the argument that was decoded. -/
structure Request where
  id : ℕ
  name : Bytes
  text : Bytes
  argument : Json

/-- The changing part of the state of `loop/1`, and the counter of the processes. `accepted`
only records the requests behind `seen`. -/
structure State where
  seen : Finset ℕ
  jobs : AList fun _ : ℕ => Job
  spawned : ℕ
  accepted : List Request

/-- The state `start/1` begins with. -/
def State.start : State := ⟨∅, ∅, 0, []⟩

/-- The state with one more id in `seen`. -/
def State.accept (state : State) (request : Request) : State :=
  { state with
    seen := insert request.id state.seen
    accepted := state.accepted ++ [request] }

/-- What the closure of a callback process holds. -/
structure Process where
  id : ℕ
  callback : ℕ
  argument : Json
  deadline : ℤ

/-- What the broker does besides changing its state. `reply` also names the completion that it
holds the text of. -/
inductive Effect
  | spawn (pid : ℕ) (process : Process)
  | cancelTimer (timer : ℕ)
  | kill (pid : ℕ)
  | reply (completion : Completion) (text : Bytes)
  | error (kind : Kind) (message : String)

/-- Why a frame is refused. -/
inductive Refusal
  | error (kind : Kind) (message : String)
  | raised

/-! ### Dispatching -/

section Dispatch

variable (cfg : Config) (clock : ℕ → ℤ)

/-- `start_callback/4`. -/
def startCallback (state : State) (id callback : ℕ) (argument : Json) : List Effect × State :=
  let pid := state.spawned
  let deadline := min cfg.deadline (clock pid + cfg.limits.budgets.callbackTimeout)
  ([.spawn pid ⟨id, callback, argument, deadline⟩],
    { state with jobs := state.jobs.insert pid ⟨id, pid, pid, none⟩, spawned := pid + 1 })

/-- `reject_request/2`. -/
def rejectRequest (state : State) (id : ℕ) : Except Refusal (List Effect × State) :=
  match encodeError cfg id (utf8 "capability_denied") (utf8 "Callback is not granted") with
  | .ok (.fatal message) => .error (.error .callbackLimit message)
  | .ok (.completion completion) =>
    match completionText cfg completion with
    | .ok text => .ok ([.reply completion text], state)
    | .error _ => .error .raised
  | .error _ => .error .raised

/-- The completion of a request for a host function that is not granted. -/
def denial (id : ℕ) : Completion :=
  .error id (utf8 "capability_denied") (utf8 "Callback is not granted")

/-- `admitted?/2`. -/
def admitted? (state : State) (id : ℕ) : Bool :=
  id ≤ 1024 && id ∉ state.seen && state.seen.card < cfg.maxCalls &&
    state.jobs.keys.length < cfg.maxConcurrency

/-- `valid_payload?/3`. -/
def validPayload? (name text : Bytes) : Bool :=
  text.length ≤ cfg.maxInput && (1 ≤ name.length && name.length ≤ 128) && validString name

/-- `dispatch_granted/4`. -/
def dispatchGranted (state : State) (id : ℕ) (name : Bytes) (argument : Json) :
    Except Refusal (List Effect × State) :=
  match cfg.limits.callbacks.lookup name with
  | some callback => .ok (startCallback cfg clock state id callback argument)
  | none => rejectRequest cfg state id

/-- `dispatch_request/2`. -/
def dispatchRequest (state : State) (request : Json) : Except Refusal (List Effect × State) :=
  match request.get (utf8 "id"), request.get (utf8 "name"), request.get (utf8 "argument") with
  | some (.int (.ofNat (id + 1))), some (.str name), some (.str text) =>
    if admitted? cfg state (id + 1) && validPayload? cfg name text then
      match cfg.jason.decode text with
      | some argument =>
        dispatchGranted cfg clock (state.accept ⟨id + 1, name, text, argument⟩) (id + 1) name
          argument
      | none => exceeded
    else exceeded
  | _, _, _ => .error (.error .callbackLimit "invalid callback request")
where
  exceeded := .error (.error .callbackLimit
    "invalid callback request or callback budget exceeded")

/-- `dispatch_batch/2`: what it has done, the state it has got to, and why it stopped. -/
def dispatchBatch : State → List Json → List Effect × State × Option Refusal
  | state, [] => ([], state, none)
  | state, request :: requests =>
    match dispatchRequest cfg clock state request with
    | .ok (effects, state') =>
      let rest := dispatchBatch state' requests
      (effects ++ rest.1, rest.2)
    | .error refusal => ([], state, some refusal)

/-- `dispatch_requests/2`. -/
def dispatchRequests (state : State) (bytes : Bytes) : List Effect × State × Option Refusal :=
  if bytes.length ≤ cfg.maxFrame then
    match (cfg.jason.decode bytes).bind (Json.get (utf8 "requests")) with
    | some (.arr requests) =>
      if requests.length ≤ cfg.maxConcurrency then dispatchBatch cfg clock state requests
      else invalid
    | _ => invalid
  else invalid
where
  invalid := ([], state, some (.error .callbackLimit
    "invalid or oversized callback request frame"))

end Dispatch

/-! ### The loop -/

/-- The messages `loop/1` matches; `other` is any that it drops. -/
inductive Message
  | dispatch (bytes : Bytes)
  | result (pid : ℕ) (result : Result)
  | parentDown
  | down (ref pid : ℕ)
  | callbackTimeout (pid : ℕ)
  | stop
  | other
  deriving DecidableEq

/-- How the loop goes on after a message. -/
inductive Turn
  | loop (state : State)
  | cleanup (state : State)
  | raised

/-- `fail/3` up to the cleanup. -/
def fail (state : State) (kind : Kind) (message : String) : List Effect × Turn :=
  ([.error kind message], .cleanup state)

section Loop

variable (cfg : Config) (clock : ℕ → ℤ)

/-- What the `:DOWN` of a callback process makes of its job. -/
def finishJob (state : State) (job : Job) : List Effect × Turn :=
  match (job.result.map Except.ok).getD (callbackFailed cfg job.id) with
  | .ok (.fatal message) => fail state .callbackLimit message
  | .ok (.completion completion) =>
    match completionText cfg completion with
    | .ok text => ([.reply completion text], .loop state)
    | .error _ => ([], .raised)
  | .error _ => ([], .raised)

/-- One turn of `loop/1`. -/
def handle (state : State) : Message → List Effect × Turn
  | .dispatch bytes =>
    match dispatchRequests cfg clock state bytes with
    | (effects, state', none) => (effects, .loop state')
    | (effects, state', some (.error kind message)) =>
      (effects ++ (fail state' kind message).1, (fail state' kind message).2)
    | (effects, _, some .raised) => (effects, .raised)
  | .result pid result =>
    match state.jobs.lookup pid with
    | some job =>
      ([], .loop { state with jobs := state.jobs.insert pid { job with result := some result } })
    | none => ([], .loop state)
  | .parentDown => ([], .cleanup state)
  | .down _ pid =>
    match state.jobs.lookup pid with
    | some job =>
      let turn := finishJob cfg { state with jobs := state.jobs.erase pid } job
      (.cancelTimer job.timer :: turn.1, turn.2)
    | none => ([], .loop state)
  | .callbackTimeout pid =>
    if pid ∈ state.jobs then fail state .callbackTimeout "host callback timed out"
    else ([], .loop state)
  | .stop => ([], .cleanup state)
  | .other => ([], .loop state)

/-- The first pass of `cleanup/1`: it stops the timers and kills the processes. -/
def cleanupEffects (state : State) : List Effect :=
  state.jobs.entries.flatMap fun entry => [.cancelTimer entry.2.timer, .kill entry.1]

end Loop

/-! ### What dispatching can do -/

/-- The limits on a request in itself. -/
structure Request.Sound (cfg : Config) (request : Request) : Prop where
  id_pos : 0 < request.id
  id_le : request.id ≤ 1024
  name : 1 ≤ request.name.length ∧ request.name.length ≤ 128 ∧ validString request.name = true
  text_le : request.text.length ≤ cfg.maxInput
  decoded : cfg.jason.decode request.text = some request.argument

/-- A request fits the quotas of the state it meets. -/
structure Accepts (cfg : Config) (state : State) (request : Request) : Prop
    extends request.Sound cfg where
  fresh : request.id ∉ state.seen
  calls : state.seen.card < cfg.maxCalls
  room : state.jobs.keys.length < cfg.maxConcurrency

/-- The error of a denial is within `max_callback_output`. -/
def Config.DenialFits (cfg : Config) : Prop :=
  ∃ text, cfg.jason.encode! (record [("code", .binary (utf8 "capability_denied")),
    ("message", .binary (utf8 "Callback is not granted"))]) = .ok text ∧
      text.length ≤ cfg.maxOutput

/-- The JSON value of a request in a frame. -/
def IsRequest (json : Json) (request : Request) : Prop :=
  json.get (utf8 "id") = some (.int request.id) ∧
    json.get (utf8 "name") = some (.str request.name) ∧
    json.get (utf8 "argument") = some (.str request.text)

variable {cfg : Config} {clock : ℕ → ℤ} {state state' : State} {effects : List Effect}

/-- A denial is sent, or it is too long. -/
theorem rejectRequest_cases (hjason : cfg.jason.Lawful) (state : State) (id : ℕ) :
    (cfg.DenialFits ∧ ∃ text, completionText cfg (denial id) = .ok text ∧
      rejectRequest cfg state id = .ok ([.reply (denial id) text], state)) ∨
    (¬ cfg.DenialFits ∧ rejectRequest cfg state id =
      .error (.error .callbackLimit "callback error exceeds max_callback_output")) := by
  obtain ⟨result, hresult⟩ := encodeError_ok hjason id
    (validString_utf8 "capability_denied") (validString_utf8 "Callback is not granted")
  have hfor := encodeError_for hjason hresult
  unfold rejectRequest
  rw [hresult]
  simp only [encodeError] at hresult
  cases herror : cfg.jason.encode! (record [("code", .binary (utf8 "capability_denied")),
      ("message", .binary (utf8 "Callback is not granted"))]) with
  | error raise => rw [herror] at hresult; cases hresult
  | ok text =>
    rw [herror] at hresult
    cases hresult
    by_cases hfits : text.length ≤ cfg.maxOutput
    · rw [if_pos hfits] at hfor ⊢
      obtain ⟨reply, -, hreply, -⟩ := completionText_ok hjason hfor.2.1
      have hdenial : completionText cfg (denial id) = .ok reply := hreply
      refine .inl ⟨⟨text, herror, hfits⟩, reply, hdenial, ?_⟩
      simp only [hreply]
      rfl
    · rw [if_neg hfits]
      refine .inr ⟨?_, rfl⟩
      rintro ⟨text', htext', hfits'⟩
      cases herror.symm.trans htext'
      exact hfits hfits'

/-- **What a request can do**: it is admitted, and starts its process or is denied. -/
theorem dispatchRequest_cases (hjason : cfg.jason.Lawful) {json : Json}
    (h : dispatchRequest cfg clock state json = .ok (effects, state')) :
    ∃ request, IsRequest json request ∧ Accepts cfg state request ∧
      ((∃ callback, cfg.limits.callbacks.lookup request.name = some callback ∧
          (effects, state') =
            startCallback cfg clock (state.accept request) request.id callback request.argument) ∨
        cfg.limits.callbacks.lookup request.name = none ∧ cfg.DenialFits ∧
          ∃ text, completionText cfg (denial request.id) = .ok text ∧
            effects = [.reply (denial request.id) text] ∧ state' = state.accept request) := by
  unfold dispatchRequest at h
  split at h
  · rename_i id name text hid hname htext
    split_ifs at h with hlimits
    · split at h
      · rename_i argument hargument
        simp only [admitted?, validPayload?, Bool.and_eq_true, decide_eq_true_eq] at hlimits
        obtain ⟨⟨⟨⟨hid_le, hfresh⟩, hcalls⟩, hroom⟩, ⟨htext_le, hname_len⟩, hname_valid⟩ := hlimits
        refine ⟨⟨id + 1, name, text, argument⟩, ⟨hid, hname, htext⟩,
          ⟨⟨Nat.succ_pos _, hid_le, ⟨hname_len.1, hname_len.2, hname_valid⟩, htext_le,
            hargument⟩, hfresh, hcalls, hroom⟩, ?_⟩
        unfold dispatchGranted at h
        split at h
        · rename_i callback hcallback
          exact .inl ⟨callback, hcallback, (Except.ok.inj h).symm⟩
        · rename_i hcallback
          rcases rejectRequest_cases hjason (state.accept ⟨id + 1, name, text, argument⟩) (id + 1)
            with ⟨hfits, reply, hreply, hok⟩ | ⟨-, herror⟩
          · rw [hok] at h
            cases h
            exact .inr ⟨hcallback, hfits, reply, hreply, rfl, rfl⟩
          · rw [herror] at h
            cases h
      · cases h
    · cases h
  · cases h

/-- A request within the limits is admitted. -/
theorem dispatchRequest_eq (clock : ℕ → ℤ) {json : Json} {request : Request}
    (hjson : IsRequest json request) (h : Accepts cfg state request) :
    dispatchRequest cfg clock state json =
      dispatchGranted cfg clock (state.accept request) request.id request.name
        request.argument := by
  obtain ⟨hid, hname, htext⟩ := hjson
  obtain ⟨id, name, text, argument⟩ := request
  obtain ⟨id, rfl⟩ := Nat.exists_eq_succ_of_ne_zero (Nat.ne_of_gt h.id_pos)
  have hlimits : (admitted? cfg state (id + 1) && validPayload? cfg name text) = true := by
    simp only [admitted?, validPayload?, Bool.and_eq_true, decide_eq_true_eq]
    exact ⟨⟨⟨⟨h.id_le, h.fresh⟩, h.calls⟩, h.room⟩, ⟨h.text_le, h.name.1, h.name.2.1⟩, h.name.2.2⟩
  have hint : ((Nat.succ id : ℕ) : ℤ) = .ofNat (id + 1) := rfl
  have hdecoded : cfg.jason.decode text = some argument := h.decoded
  unfold dispatchRequest
  simp only [hid, hname, htext, hint, hlimits, if_true, hdecoded]

/-- **A request within the limits is served.** -/
theorem dispatchRequest_ok (hjason : cfg.jason.Lawful) (clock : ℕ → ℤ) {json : Json}
    {request : Request}
    (hjson : IsRequest json request) (h : Accepts cfg state request)
    (hdenial : cfg.limits.callbacks.lookup request.name = none → cfg.DenialFits) :
    ∃ effects state', dispatchRequest cfg clock state json = .ok (effects, state') := by
  rw [dispatchRequest_eq clock hjson h]
  unfold dispatchGranted
  split
  · exact ⟨_, _, rfl⟩
  · rename_i hcallback
    rcases rejectRequest_cases hjason (state.accept request) request.id
      with ⟨-, reply, -, hok⟩ | ⟨hnot, -⟩
    · exact ⟨_, _, hok⟩
    · exact absurd (hdenial hcallback) hnot

/-- A request that is refused is refused for a limit. -/
theorem dispatchRequest_error (hjason : cfg.jason.Lawful) {json : Json} {refusal : Refusal}
    (h : dispatchRequest cfg clock state json = .error refusal) :
    ∃ message, refusal = .error .callbackLimit message := by
  unfold dispatchRequest at h
  split at h
  · rename_i id name text hid hname htext
    split_ifs at h
    · split at h
      · rename_i argument hargument
        unfold dispatchGranted at h
        split at h
        · cases h
        · rcases rejectRequest_cases hjason (state.accept ⟨id + 1, name, text, argument⟩) (id + 1)
            with ⟨-, reply, -, hok⟩ | ⟨-, herror⟩
          · rw [hok] at h
            cases h
          · rw [herror] at h
            cases h
            exact ⟨_, rfl⟩
      · cases h
        exact ⟨_, rfl⟩
    · cases h
      exact ⟨_, rfl⟩
  · cases h
    exact ⟨_, rfl⟩

/-- A batch that is refused is refused for a limit. -/
theorem dispatchBatch_error (hjason : cfg.jason.Lawful) {refusal : Refusal} {requests : List Json}
    (h : (dispatchBatch cfg clock state requests).2.2 = some refusal) :
    ∃ message, refusal = .error .callbackLimit message := by
  induction requests generalizing state with
  | nil => cases h
  | cons json requests ih =>
    unfold dispatchBatch at h
    split at h
    · exact ih h
    · rename_i refusal' herror
      cases h
      exact dispatchRequest_error hjason herror

theorem dispatchRequests_error (hjason : cfg.jason.Lawful) {refusal : Refusal} {bytes : Bytes}
    (h : (dispatchRequests cfg clock state bytes).2.2 = some refusal) :
    ∃ message, refusal = .error .callbackLimit message := by
  unfold dispatchRequests at h
  split_ifs at h
  · split at h
    · split_ifs at h
      · exact dispatchBatch_error hjason h
      · cases h
        exact ⟨_, rfl⟩
    · cases h
      exact ⟨_, rfl⟩
  · cases h
    exact ⟨_, rfl⟩

end Javex.Callbacks
