import Javex.Options
import Javex.Codec.Json
import Javex.Codec.Decoder

/-!
# Receiving the result of an isolated worker

The run worker's side of the isolated backend, `lib/javex/isolated.ex`: the receive loop that
collects the supervisor's output, hands callback requests to the broker and forwards its
replies, and the decoder of the supervisor's events. One turn of the loop is a function of the
message and the state; `Port.command/2` raises on a closed port, so a turn also takes whether
the port is open. `Jason.decode/1` is the parameter `decode`.

The state of the loop is that of its accumulator in the source: the buffer, the number of bytes
received, the decoded result or the failure, and the events of this turn. Effects are returned and
not performed (`Effect`), so that a turn is a function and a run of the loop is a fold over the
messages. A failure, once recorded, is kept while the loop goes on receiving until the exit status:
the source does so too, since the port has to be drained before it can be closed.
-/

namespace Javex.Isolated

open Codec Codec.Decoder

/-- `{:ok, bytes}` or `{:error, {kind, message}}`. -/
abbrev Outcome := Except (Kind × Bytes) Bytes

/-- The kinds of `@kinds`. -/
def kinds : List Kind :=
  [.timeout, .cancelled, .fuelExhausted, .oom, .jsError, .trap, .outputLimit, .diagnosticLimit,
    .inputLimit, .moduleLimit, .compileError, .workerError, .callbackLimit, .callbackTimeout]

/-- `Map.fetch(@kinds, name)`. -/
def kind? (name : Bytes) : Option Kind := kinds.find? fun kind => utf8 kind.name == name

/-- `invalid_response/0`. -/
def invalidResponse : Outcome := .error (.workerError, utf8 "invalid isolated worker response")

/-- The operations of `call/7`; only a run has a broker. -/
inductive Operation
  | run | compile
  deriving DecidableEq, Repr

/-- What `call/7` tells the loop: whether there is a broker, and the bounds on a payload. -/
structure Call where
  broker : Bool
  maximum : ℕ
  outputLimit : ℕ
  errorLimit : ℕ
  maximum_le : maximum ≤ mib64

/-- The response limit `call/7` passes to the supervisor. -/
def responseMaximum (b : Budgets) : ℕ :=
  min (max b.maxModule (max b.maxOutput b.maxStderr)) mib64

/-- The bounds `call/7` works with. -/
def Call.of (operation : Operation) (b : Budgets) : Call where
  broker := operation == .run
  maximum := min mib64 (max (responseMaximum b)
    (b.maxCallbackConcurrency * (6 * b.maxCallbackInput + 2048) + 4096))
  outputLimit := if operation = .run then b.maxOutput else b.maxModule
  errorLimit := max 4096 b.maxStderr
  maximum_le := min_le_left _ _

/-- The changing part of the state of `receive_result/3`. -/
structure State where
  buffer : Bytes
  size : ℕ
  result : Option Outcome
  failure : Option Outcome
  cancelled : Bool

/-- The state `call/7` starts the loop in. -/
def State.start : State := ⟨[], 0, none, none, false⟩

/-- The messages `receive_result/3` matches: those of the port, `:cancel`, the `:DOWN` of the
runtime, and those of the broker. -/
inductive Message
  | data (bytes : Bytes)
  | exitStatus (status : ℕ)
  | cancel
  | down
  | brokerDown
  | callbackReply (completion : Bytes)
  | callbackError (kind : Kind) (message : Bytes)

/-- What a turn does besides changing the state: `Callbacks.dispatch/2` and `Port.command/2`. -/
inductive Effect
  | dispatch (bytes : Bytes)
  | command (bytes : Bytes)

/-- A turn of the loop: it goes on, returns a result, or raises on a closed port. -/
inductive Turn
  | loop (state : State)
  | return (outcome : Outcome)
  | raised

section Decode

variable (decode : Bytes → Option Json) (call : Call)

/-- The outcome of a decoded kind. -/
def kindOutcome (bytes : Bytes) : Option Json → Outcome
  | some (.str kind) =>
    if kind = utf8 "ok" then .ok bytes
    else match kind? kind with
      | some kind => .error (kind, bytes)
      | none => invalidResponse
  | _ => invalidResponse

/-- `decode_response/1`. -/
def decodeResponse (bytes : Bytes) : Outcome :=
  match (frame 4096).next bytes with
  | .done header (a :: b :: c :: d :: bytes) =>
    if bytes.length = word a b c d then kindOutcome bytes (decode header) else invalidResponse
  | _ => invalidResponse

/-- What an event is: a callback request for the broker, a result, or an error. -/
inductive Handled
  | dispatch (bytes : Bytes)
  | result (outcome : Outcome)
  | invalid

/-- `handle_event/4`, up to the rest of the buffer. -/
def handleEvent (header bytes : Bytes) : Handled :=
  match decode header with
  | some kind =>
    if isString kind "callbacks" && call.broker then .dispatch bytes
    else if isString kind "ok" && call.outputLimit < bytes.length then .invalid
    else if !isString kind "ok" && call.errorLimit < bytes.length then .invalid
    else .result (decodeResponse decode (frameBytes header ++ frameBytes bytes))
  | none => .invalid
where
  isString : Json → String → Bool
    | .str s, text => s == utf8 text
    | _, _ => false

/-- The state after an event that is no error. -/
def applyEvent (state : State) (tail : Bytes) : Handled → Option State
  | .dispatch _ => some { state with buffer := tail }
  | .result outcome => some { state with buffer := tail, result := some outcome }
  | .invalid => none

/-- What an event sends to the broker. -/
def eventEffects (cancelled : Bool) : Handled → List Effect
  | .dispatch bytes => if cancelled then [] else [.dispatch bytes]
  | _ => []

/-- `decode_events/1`: the effects it has, and the state it returns unless the events are
invalid. -/
def decodeEvents (state : State) : List Effect × Option State :=
  match _hbuffer : state.buffer with
  | a :: b :: c :: d :: rest =>
    if 4096 < word a b c d then ([], none)
    else if _hheader : rest.length < word a b c d + 4 then ([], some state)
    else
      match _hpayload : rest.drop (word a b c d) with
      | e :: f :: g :: h :: payload =>
        if call.maximum < word e f g h then ([], none)
        else if payload.length < word e f g h then ([], some state)
        else if state.result.isSome then ([], none)
        else
          let handled := handleEvent decode call (rest.take (word a b c d))
            (payload.take (word e f g h))
          match _hstate : applyEvent state (payload.drop (word e f g h)) handled with
          | none => (eventEffects state.cancelled handled, none)
          | some state' =>
            let later := decodeEvents state'
            (eventEffects state.cancelled handled ++ later.1, later.2)
      | _ => ([], some state)
  | _ => ([], some state)
termination_by state.buffer.length
decreasing_by
  have hlen := congrArg List.length _hpayload
  have htail : state'.buffer = payload.drop (word e f g h) := by
    cases hhandled : handled <;> rw [hhandled] at _hstate <;> cases _hstate <;> rfl
  simp only [List.length_drop, List.length_cons] at hlen
  rw [htail, _hbuffer, List.length_drop, List.length_cons, List.length_cons, List.length_cons,
    List.length_cons]
  omega

/-- `worker_result/2`. -/
def workerResult (state : State) (status : ℕ) : Outcome :=
  match status with
  | 0 => if state.buffer = [] then state.result.getD invalidResponse else invalidResponse
  | 124 => .error (.timeout, utf8 "isolated worker timed out")
  | 125 => .error (.cancelled, utf8 "isolated worker cancelled")
  | status => .error (.workerError, utf8 s!"isolated worker exited (status {status})")

/-- `cancel/3`: asks the supervisor to stop, once. -/
def cancel (portOpen : Bool) (state : State) : List Effect × Turn :=
  if state.cancelled then ([], .loop state)
  else if portOpen then ([.command (wordBytes 0)], .loop { state with cancelled := true })
  else ([], .raised)

/-- The state with some more bytes from the port. -/
def received (state : State) (bytes : Bytes) : State :=
  { state with buffer := state.buffer ++ bytes, size := state.size + bytes.length }

/-- One turn of `receive_result/3`. -/
def receiveResult (portOpen : Bool) (state : State) : Message → List Effect × Turn
  | .data bytes =>
    if state.size + bytes.length ≤ mib64 then
      match decodeEvents decode call (received state bytes) with
      | (effects, some state') => (effects, .loop state')
      | (effects, none) =>
        let stop := cancel portOpen
          { received state bytes with failure := some invalidResponse, buffer := [] }
        (effects ++ stop.1, stop.2)
    else cancel portOpen
      { state with
        failure := some (.error (.workerError, utf8 "isolated worker exceeded IPC response limit"))
        buffer := [] }
  | .exitStatus status => ([], .return (state.failure.getD (workerResult state status)))
  | .cancel => cancel portOpen state
  | .down => cancel portOpen state
  | .brokerDown => cancel portOpen
      { state with
        failure := some (state.failure.getD (.error (.trap, utf8 "callback broker stopped"))) }
  | .callbackReply completion =>
    if state.cancelled then ([], .loop state)
    else if portOpen then ([.command (frameBytes completion)], .loop state)
    else ([], .raised)
  | .callbackError kind message =>
    cancel portOpen { state with failure := some (.error (kind, message)) }

/-- What the `rescue` of `call/7` makes of the exception's message. -/
def unavailable (reason : Bytes) : Outcome :=
  .error (.workerError, utf8 "isolated worker unavailable: " ++ reason)

/-- What `call/7` has done and returned after some messages, each with whether the port was
open when it was received: `none` while it still waits. -/
def receiveAll (reason : Bytes) : State → List (Message × Bool) → List Effect × Option Outcome
  | _, [] => ([], none)
  | state, (message, portOpen) :: later =>
    match receiveResult decode call portOpen state message with
    | (effects, .loop state') =>
      let rest := receiveAll reason state' later
      (effects ++ rest.1, rest.2)
    | (effects, .return outcome) => (effects, some outcome)
    | (effects, .raised) => (effects, some (unavailable reason))

end Decode

/-- What went to the broker. -/
def dispatched (effects : List Effect) : List Bytes :=
  effects.filterMap fun
    | .dispatch bytes => some bytes
    | .command _ => none

@[simp]
theorem dispatched_append (xs ys : List Effect) :
    dispatched (xs ++ ys) = dispatched xs ++ dispatched ys := by
  simp [dispatched]

/-! ### The decoder of events -/

/-- An event: its header and its payload. -/
abbrev Event := Bytes × Bytes

/-- The bytes of an event. -/
def encodeEvent (e : Event) : Bytes := frameBytes e.1 ++ frameBytes e.2

/-- The framing of an event, whatever it holds. -/
def eventDecoder (maximum : ℕ) : Decoder Event :=
  (frame 4096).bind fun header => (frame maximum).map fun bytes => (header, bytes)

theorem eventDecoder_next {maximum : ℕ} (hmaximum : maximum ≤ mib64) {e : Event}
    (hheader : e.1.length ≤ 4096) (hpayload : e.2.length ≤ maximum) (rest : Bytes) :
    (eventDecoder maximum).next (encodeEvent e ++ rest) = .done e rest := by
  have hmib : mib64 < 4294967296 := by decide
  have h₁ := frame_next hheader (by omega) (frameBytes e.2 ++ rest)
  have h₂ := frame_next hpayload (by omega) rest
  simp only [eventDecoder, Decoder.bind, Decoder.map, encodeEvent, List.append_assoc, h₁, h₂]

theorem of_eventDecoder_next {maximum : ℕ} {bytes rest : Bytes} {e : Event}
    (h : (eventDecoder maximum).next bytes = .done e rest) :
    bytes = encodeEvent e ++ rest ∧ e.1.length ≤ 4096 ∧ e.2.length ≤ maximum := by
  simp only [eventDecoder, Decoder.bind, Decoder.map] at h
  cases h₁ : (frame 4096).next bytes with
  | more => simp [h₁] at h
  | bad => simp [h₁] at h
  | done header tail =>
    simp only [h₁] at h
    cases h₂ : (frame maximum).next tail with
    | more => simp [h₂] at h
    | bad => simp [h₂] at h
    | done payload rest' =>
      simp only [h₂] at h
      cases h
      obtain ⟨hbytes, hheader, -⟩ := of_frame_next h₁
      obtain ⟨htail, hpayload, -⟩ := of_frame_next h₂
      refine ⟨?_, hheader, hpayload⟩
      rw [hbytes, htail, encodeEvent, List.append_assoc]

variable {decode : Bytes → Option Json} {call : Call}

/-- Four bytes are there. -/
theorem exists_word {bytes : Bytes} (h : 4 ≤ bytes.length) :
    ∃ a b c d rest, bytes = a :: b :: c :: d :: rest := by
  rcases bytes with _ | ⟨a, _ | ⟨b, _ | ⟨c, _ | ⟨d, rest⟩⟩⟩⟩
  · simp at h
  · simp at h
  · simp at h
  · simp at h
  · exact ⟨a, b, c, d, rest, rfl⟩

/-- `decode_events/1` follows the framing of events. -/
theorem decodeEvents_eq (state : State) :
    decodeEvents decode call state =
      match (eventDecoder call.maximum).next state.buffer with
      | .more => ([], some state)
      | .bad => ([], none)
      | .done e tail =>
        if state.result.isSome then ([], none)
        else
          let handled := handleEvent decode call e.1 e.2
          match applyEvent state tail handled with
          | none => (eventEffects state.cancelled handled, none)
          | some state' => (eventEffects state.cancelled handled ++
              (decodeEvents decode call state').1, (decodeEvents decode call state').2) := by
  rw [decodeEvents]
  split
  · rename_i a b c d rest hbuffer
    have hfirst := frame_next_cons 4096 a b c d rest
    rw [← hbuffer] at hfirst
    by_cases hlimit : 4096 < word a b c d
    · rw [if_pos hlimit] at hfirst ⊢
      simp only [eventDecoder, Decoder.bind, hfirst]
    · rw [if_neg hlimit] at hfirst ⊢
      by_cases hheader : rest.length < word a b c d + 4
      · rw [dif_pos hheader]
        by_cases hshort : rest.length < word a b c d
        · rw [if_pos hshort] at hfirst
          simp only [eventDecoder, Decoder.bind, hfirst]
        · rw [if_neg hshort] at hfirst
          have hsecond : (frame call.maximum).next (rest.drop (word a b c d)) = .more :=
            frame_next_of_length (by rw [List.length_drop]; omega)
          simp only [eventDecoder, Decoder.bind, Decoder.map, hfirst, hsecond]
      · rw [dif_neg hheader]
        rw [if_neg (by omega)] at hfirst
        split
        · rename_i e f g h payload hpayload
          have hsecond := frame_next_cons call.maximum e f g h payload
          rw [← hpayload] at hsecond
          by_cases hmaximum : call.maximum < word e f g h
          · rw [if_pos hmaximum] at hsecond ⊢
            simp only [eventDecoder, Decoder.bind, Decoder.map, hfirst, hsecond]
          · rw [if_neg hmaximum] at hsecond ⊢
            by_cases hlen : payload.length < word e f g h
            · rw [if_pos hlen] at hsecond ⊢
              simp only [eventDecoder, Decoder.bind, Decoder.map, hfirst, hsecond]
            · rw [if_neg hlen] at hsecond ⊢
              simp only [eventDecoder, Decoder.bind, Decoder.map, hfirst, hsecond]
              split_ifs
              · rfl
              · split <;> simp_all
        · rename_i hnot
          exfalso
          have hlen : 4 ≤ (rest.drop (word a b c d)).length := by
            rw [List.length_drop]
            omega
          obtain ⟨e, f, g, h, payload, hdrop⟩ := exists_word hlen
          exact hnot e f g h payload hdrop
  · rename_i hnot
    have hlen : state.buffer.length < 4 := by
      by_contra hlong
      obtain ⟨a, b, c, d, rest, hbuffer⟩ := exists_word (Nat.not_lt.mp hlong)
      exact hnot a b c d rest hbuffer
    simp only [eventDecoder, Decoder.bind, frame_next_of_length hlen]

end Javex.Isolated
