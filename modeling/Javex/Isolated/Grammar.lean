import Javex.Isolated.Receive

/-!
# The grammar of the supervisor's stream

What the receive loop accepts from a supervisor that exits with status 0, when nothing but
output arrives before that. A well-formed stream (`Stream`) is a list of callback requests and
one terminal event. The loop decodes as it receives, so the argument goes through the
incremental decoder of `Codec/Decoder.lean`:

* `decodeEvents_scan`: one call of `decode_events/1` is a scan with `absorb` as the handler.
* `receiveAll_scan`: so the whole loop is one scan of the whole stream.
* `exists_leading`: every stream splits into its leading callback requests and a rest that
  does not start with one.
* `receive_result_grammar`: the result and the dispatched payloads are those of the grammar.

A chunk may end anywhere, inside a length or inside a payload, and the loop keeps what it could not
use in its buffer. That this changes nothing is `scan_append`: a scan of the buffer with the next
chunk behind it is the scan of the whole, continued. The loop differs from a scan in one place only,
the terminal event, after which it takes no further event but still takes bytes; `Ends` says how the
result of the loop and the result of the scan go together there.

What has been dispatched to the broker is part of the statement for streams that are not in the
grammar as well, since it cannot be taken back. `Leading` is what is dispatched of such a stream:
the payloads of the callback requests before the first event that is not one.
-/

namespace Javex.Isolated

open Codec Codec.Decoder

variable {decode : Bytes → Option Json} {call : Call}

/-! ### The grammar -/

/-- A callback request within its bounds, on a run that has a broker. -/
structure IsCallbacks (decode : Bytes → Option Json) (call : Call) (e : Event) : Prop where
  broker : call.broker = true
  header_le : e.1.length ≤ 4096
  payload_le : e.2.length ≤ call.maximum
  kind : decode e.1 = some (.str (utf8 "callbacks"))

/-- A terminal event within its bounds, and what it decodes to. -/
inductive IsTerminal (decode : Bytes → Option Json) (call : Call) (e : Event) : Outcome → Prop
  | ok : e.1.length ≤ 4096 → e.2.length ≤ call.maximum → e.2.length ≤ call.outputLimit →
      decode e.1 = some (.str (utf8 "ok")) → IsTerminal decode call e (.ok e.2)
  | error (kind : Kind) : kind ∈ kinds → e.1.length ≤ 4096 → e.2.length ≤ call.maximum →
      e.2.length ≤ call.errorLimit → decode e.1 = some (.str (utf8 kind.name)) →
      IsTerminal decode call e (.error (kind, e.2))

/-- A well-formed stream: callback requests with these payloads, then one terminal event that
decodes to `outcome`, and nothing else. -/
def Stream (decode : Bytes → Option Json) (call : Call) (bytes : Bytes) (payloads : List Bytes)
    (outcome : Outcome) : Prop :=
  ∃ (callbacks : List Event) (terminal : Event),
    bytes = callbacks.flatMap encodeEvent ++ encodeEvent terminal ∧
    (∀ e ∈ callbacks, IsCallbacks decode call e) ∧ IsTerminal decode call terminal outcome ∧
    payloads = callbacks.map Prod.snd

/-- The payloads of the callback requests a stream starts with, all of them. -/
def Leading (decode : Bytes → Option Json) (call : Call) (bytes : Bytes)
    (payloads : List Bytes) : Prop :=
  ∃ (callbacks : List Event) (rest : Bytes),
    bytes = callbacks.flatMap encodeEvent ++ rest ∧
    (∀ e ∈ callbacks, IsCallbacks decode call e) ∧
    (∀ e tail, rest = encodeEvent e ++ tail → ¬ IsCallbacks decode call e) ∧
    payloads = callbacks.map Prod.snd

/-! ### What an event is taken for -/

theorem kind?_name {kind : Kind} (h : kind ∈ kinds) : kind? (utf8 kind.name) = some kind := by
  have hall : ∀ kind ∈ kinds, kind? (utf8 kind.name) = some kind := by decide
  exact hall kind h

theorem of_kind? {name : Bytes} {kind : Kind} (h : kind? name = some kind) :
    kind ∈ kinds ∧ name = utf8 kind.name := by
  have hname := List.find?_some h
  simp only [beq_iff_eq] at hname
  exact ⟨List.mem_of_find?_eq_some h, hname.symm⟩

theorem name_ne_ok {kind : Kind} (h : kind ∈ kinds) : utf8 kind.name ≠ utf8 "ok" := by
  have hall : ∀ kind ∈ kinds, utf8 kind.name ≠ utf8 "ok" := by decide
  exact hall kind h

theorem name_ne_callbacks {kind : Kind} (h : kind ∈ kinds) :
    utf8 kind.name ≠ utf8 "callbacks" := by
  have hall : ∀ kind ∈ kinds, utf8 kind.name ≠ utf8 "callbacks" := by decide
  exact hall kind h

/-- An event that was taken apart is put together and read once more. -/
theorem decodeResponse_encode (decode : Bytes → Option Json) {e : Event}
    (hheader : e.1.length ≤ 4096) (hpayload : e.2.length ≤ call.maximum) :
    decodeResponse decode (frameBytes e.1 ++ frameBytes e.2) =
      kindOutcome e.2 (decode e.1) := by
  have hmib : mib64 < 4294967296 := by decide
  have hmaximum := call.maximum_le
  have hframe := frame_next hheader (by omega) (frameBytes e.2)
  have hword := word_wordBytes (n := e.2.length) (by omega)
  have hsplit : frameBytes e.2 = _ :: _ :: _ :: _ :: e.2 := rfl
  rw [hsplit] at hframe ⊢
  simp only [decodeResponse, hframe, hword, if_true]

theorem IsCallbacks.handleEvent {e : Event} (h : IsCallbacks decode call e) :
    handleEvent decode call e.1 e.2 = .dispatch e.2 := by
  simp [Isolated.handleEvent, h.kind, handleEvent.isString, h.broker]

/-- An event the loop hands to the broker is a callback request. -/
theorem isCallbacks_of_dispatch {e : Event} {bytes : Bytes} (hheader : e.1.length ≤ 4096)
    (hpayload : e.2.length ≤ call.maximum)
    (h : handleEvent decode call e.1 e.2 = .dispatch bytes) : IsCallbacks decode call e := by
  unfold handleEvent at h
  split at h
  · rename_i kind hkind
    split_ifs at h with hcallbacks
    simp only [Bool.and_eq_true] at hcallbacks
    obtain ⟨hstring, hbroker⟩ := hcallbacks
    cases kind with
    | str s =>
      simp only [handleEvent.isString, beq_iff_eq] at hstring
      exact ⟨hbroker, hheader, hpayload, hstring ▸ hkind⟩
    | _ => simp [handleEvent.isString] at hstring
  · cases h

/-- An event that decodes to a result is taken for that result. -/
theorem IsTerminal.handleEvent {e : Event} {outcome : Outcome}
    (h : IsTerminal decode call e outcome) :
    handleEvent decode call e.1 e.2 = .result outcome := by
  cases h with
  | ok hheader hpayload houtput hkind =>
    have hne : utf8 "ok" ≠ utf8 "callbacks" := by decide
    have hresponse := decodeResponse_encode decode hheader hpayload
    simp only [hkind, kindOutcome, if_true] at hresponse
    simp [Isolated.handleEvent, hkind, handleEvent.isString, hne, hresponse,
      Nat.not_lt.mpr houtput]
  | error kind hmem hheader hpayload herror hkind =>
    have hresponse := decodeResponse_encode decode hheader hpayload
    simp only [hkind, kindOutcome, name_ne_ok hmem, if_false, kind?_name hmem] at hresponse
    simp [Isolated.handleEvent, hkind, handleEvent.isString, name_ne_ok hmem,
      name_ne_callbacks hmem, hresponse, Nat.not_lt.mpr herror]

/-- Whatever else is taken for a result is reported as an invalid response. -/
theorem handleEvent_result {e : Event} {outcome : Outcome} (hheader : e.1.length ≤ 4096)
    (hpayload : e.2.length ≤ call.maximum)
    (h : handleEvent decode call e.1 e.2 = .result outcome) :
    IsTerminal decode call e outcome ∨ outcome = invalidResponse := by
  unfold handleEvent at h
  split at h
  · rename_i json hjson
    split_ifs at h with hcallbacks hok herror
    cases h
    rw [decodeResponse_encode decode hheader hpayload, hjson]
    cases json with
    | str s =>
      simp only [handleEvent.isString, Bool.and_eq_true, beq_iff_eq, decide_eq_true_eq,
        Bool.not_eq_true'] at hok herror
      by_cases hs : s = utf8 "ok"
      · subst hs
        simp only [kindOutcome, if_true]
        exact .inl (.ok hheader hpayload (by simpa using hok) hjson)
      · simp only [kindOutcome, hs, if_false]
        cases hkind : kind? s with
        | none => exact .inr rfl
        | some kind =>
          obtain ⟨hmem, rfl⟩ := of_kind? hkind
          exact .inl (.error kind hmem hheader hpayload (by simpa [hs] using herror) hjson)
    | _ => exact .inr rfl
  · cases h

/-! ### One call of the decoder is a scan -/

/-- What an event does to the result and to the effects so far. -/
def absorb (decode : Bytes → Option Json) (call : Call) (cancelled : Bool) :
    Option Outcome × List Effect → Event → Option (Option Outcome × List Effect)
  | (result, effects), e =>
    if result.isSome then none
    else
      match handleEvent decode call e.1 e.2 with
      | .dispatch bytes => some (result, effects ++ eventEffects cancelled (.dispatch bytes))
      | .result outcome => some (some outcome, effects)
      | .invalid => none

/-- The scan of some bytes, with the result and the effects so far. -/
def scanEvents (decode : Bytes → Option Json) (call : Call) (cancelled : Bool)
    (result : Option Outcome) (effects : List Effect) (bytes : Bytes) :
    Scan (Option Outcome × List Effect) :=
  scan (eventDecoder call.maximum) (absorb decode call cancelled) (result, effects) bytes

theorem scanEvents_done {cancelled : Bool} {result : Option Outcome} {effects : List Effect}
    {bytes tail : Bytes} {e : Event}
    (h : (eventDecoder call.maximum).next bytes = .done e tail) :
    scanEvents decode call cancelled result effects bytes =
      if result.isSome then .failed (result, effects)
      else
        match handleEvent decode call e.1 e.2 with
        | .dispatch bytes => scanEvents decode call cancelled result
            (effects ++ eventEffects cancelled (.dispatch bytes)) tail
        | .result outcome => scanEvents decode call cancelled (some outcome) effects tail
        | .invalid => .failed (result, effects) := by
  rw [scanEvents, scan_done h, absorb]
  split_ifs
  · rfl
  · cases handleEvent decode call e.1 e.2 <;> rfl

/-- `decode_events/1` told from its scan: where the scan waits, the state keeps the rest of the
buffer and the result; where it fails, no state is returned. -/
def Follows (state : State) (effects : List Effect) (decoded : List Effect × Option State)
    (scan : Scan (Option Outcome × List Effect)) : Prop :=
  scan.state.2 = effects ++ decoded.1 ∧
    decoded.2 = match scan with
      | .pending (result, _) buffer => some { state with buffer, result }
      | .failed _ => none

/-- **One scan.** `decode_events/1` scans its buffer. -/
theorem decodeEvents_scan (decode : Bytes → Option Json) (call : Call) (state : State)
    (effects : List Effect) :
    Follows state effects (decodeEvents decode call state)
      (scanEvents decode call state.cancelled state.result effects state.buffer) := by
  induction hn : state.buffer.length using Nat.strongRecOn generalizing state effects with
  | _ n ih =>
    rw [decodeEvents_eq]
    cases hnext : (eventDecoder call.maximum).next state.buffer with
    | more =>
      rw [scanEvents, scan_more hnext]
      exact ⟨by simp [Scan.state], rfl⟩
    | bad =>
      rw [scanEvents, scan_bad hnext]
      exact ⟨by simp [Scan.state], rfl⟩
    | done e tail =>
      have hlen : tail.length < n := hn ▸ (eventDecoder call.maximum).shrinks hnext
      rw [scanEvents_done hnext]
      by_cases hresult : state.result.isSome = true
      · simp only [hresult, if_true]
        exact ⟨by simp [Scan.state], rfl⟩
      · simp only [hresult]
        cases handleEvent decode call e.1 e.2 with
        | dispatch bytes =>
          obtain ⟨heffects, hstate⟩ := ih tail.length hlen { state with buffer := tail }
            (effects ++ eventEffects state.cancelled (.dispatch bytes)) rfl
          exact ⟨by simpa [applyEvent] using heffects, hstate⟩
        | result outcome =>
          obtain ⟨heffects, hstate⟩ := ih tail.length hlen
            { state with buffer := tail, result := some outcome } effects rfl
          exact ⟨by simpa [applyEvent, eventEffects] using heffects, hstate⟩
        | invalid => exact ⟨by simp [applyEvent, eventEffects, Scan.state], rfl⟩

/-! ### The whole loop is a scan -/

/-- The messages of a run that nothing disturbs: chunks of output and the exit status 0, each
with whether the port is open when it is received. -/
def undisturbed (chunks : List (Bytes × Bool)) (exitOpen : Bool) : List (Message × Bool) :=
  chunks.map (fun c => (.data c.1, c.2)) ++ [(.exitStatus 0, exitOpen)]

theorem receiveAll_undisturbed_cons (reason : Bytes) (state : State) (chunk : Bytes × Bool)
    (chunks : List (Bytes × Bool)) (exitOpen : Bool) :
    receiveAll decode call reason state (undisturbed (chunk :: chunks) exitOpen) =
      match receiveResult decode call chunk.2 state (.data chunk.1) with
      | (effects, .loop state') =>
        (effects ++ (receiveAll decode call reason state' (undisturbed chunks exitOpen)).1,
          (receiveAll decode call reason state' (undisturbed chunks exitOpen)).2)
      | (effects, .return outcome) => (effects, some outcome)
      | (effects, .raised) => (effects, some (unavailable reason)) := rfl

/-- A cancelled loop hands nothing to the broker. -/
theorem scanEvents_cancelled (result : Option Outcome) (effects : List Effect) (bytes : Bytes) :
    (scanEvents decode call true result effects bytes).state.2 = effects := by
  induction hn : bytes.length using Nat.strongRecOn generalizing result bytes with
  | _ n ih =>
    cases hnext : (eventDecoder call.maximum).next bytes with
    | more => rw [scanEvents, scan_more hnext, Scan.state]
    | bad => rw [scanEvents, scan_bad hnext, Scan.state]
    | done e tail =>
      have hlen : tail.length < n := hn ▸ (eventDecoder call.maximum).shrinks hnext
      rw [scanEvents_done hnext]
      split_ifs
      · rfl
      · cases handleEvent decode call e.1 e.2 with
        | dispatch bytes => simpa [eventEffects] using ih tail.length hlen result tail rfl
        | result outcome => exact ih tail.length hlen (some outcome) tail rfl
        | invalid => rfl

/-- A turn that takes a chunk, when the transport limit holds. -/
theorem receiveResult_data (decode : Bytes → Option Json) (call : Call) {state : State}
    {bytes : Bytes} (portOpen : Bool) (h : state.size + bytes.length ≤ mib64) :
    receiveResult decode call portOpen state (.data bytes) =
      match decodeEvents decode call (received state bytes) with
      | (effects, some state') => (effects, .loop state')
      | (effects, none) => (effects ++ (cancel portOpen
            { received state bytes with failure := some invalidResponse, buffer := [] }).1,
          (cancel portOpen
            { received state bytes with failure := some invalidResponse, buffer := [] }).2) :=
  if_pos h

/-- A turn that takes a chunk after a failure: nothing is handed to the broker, and the
failure stays. -/
theorem receiveResult_data_failed (decode : Bytes → Option Json) (call : Call) {state : State}
    {bytes : Bytes} (portOpen : Bool) (hcancelled : state.cancelled = true)
    (hfailure : state.failure = some invalidResponse)
    (hsize : state.size + bytes.length ≤ mib64) :
    ∃ state', receiveResult decode call portOpen state (.data bytes) = ([], .loop state') ∧
      state'.cancelled = true ∧ state'.failure = some invalidResponse ∧
      state'.size = state.size + bytes.length := by
  obtain ⟨heffects, hstate⟩ := decodeEvents_scan decode call
    (received state bytes) []
  have hreceived : (received state bytes).cancelled = true := hcancelled
  rw [hreceived, scanEvents_cancelled, List.nil_append] at heffects
  rw [receiveResult_data decode call portOpen hsize]
  cases hdecoded : decodeEvents decode call (received state bytes) with
  | mk effects next =>
    rw [hdecoded] at heffects hstate
    obtain rfl : [] = effects := heffects
    cases next with
    | none =>
      refine ⟨{ received state bytes with failure := some invalidResponse, buffer := [] },
        ?_, hcancelled, rfl, rfl⟩
      simp [cancel, hreceived]
    | some state' =>
      refine ⟨state', rfl, ?_⟩
      split at hstate
      · obtain rfl := Option.some.inj hstate
        exact ⟨hcancelled, hfailure, rfl⟩
      · cases hstate

/-- **After a failure.** Whatever still arrives, a loop that has given up on the stream ends
with the failure it recorded and hands nothing more to the broker. -/
theorem receiveAll_failed (decode : Bytes → Option Json) (call : Call) (reason : Bytes)
    (chunks : List (Bytes × Bool)) (exitOpen : Bool) (state : State)
    (hcancelled : state.cancelled = true)
    (hfailure : state.failure = some invalidResponse)
    (hsize : state.size + (chunks.flatMap Prod.fst).length ≤ mib64) :
    receiveAll decode call reason state (undisturbed chunks exitOpen) =
      ([], some invalidResponse) := by
  induction chunks generalizing state with
  | nil => simp [undisturbed, receiveAll, receiveResult, hfailure]
  | cons chunk chunks ih =>
    simp only [List.flatMap_cons, List.length_append] at hsize
    obtain ⟨state', hturn, hcancelled', hfailure', hsize'⟩ :=
      receiveResult_data_failed decode call chunk.2 hcancelled hfailure
        (by omega : state.size + chunk.1.length ≤ mib64)
    have hrest := ih state' hcancelled' hfailure' (by omega)
    rw [receiveAll_undisturbed_cons, hturn]
    simp only [hrest, List.append_nil]

/-- What the loop returns after the scan of the whole stream. -/
def verdict (scan : Scan (Option Outcome × List Effect)) : Outcome :=
  match scan with
  | .pending (result, _) buffer => if buffer = [] then result.getD invalidResponse
      else invalidResponse
  | .failed _ => invalidResponse

/-- How a run ended, told from the scan of its stream: what was dispatched, and the verdict,
except that a loop that gives up on the stream may find the port closed. -/
def Ends (reason : Bytes) (effects : List Effect) (scan : Scan (Option Outcome × List Effect))
    (run : List Effect × Option Outcome) : Prop :=
  dispatched effects ++ dispatched run.1 = dispatched scan.state.2 ∧
    (run.2 = some (verdict scan) ∨
      (∃ state, scan = .failed state) ∧ run.2 = some (unavailable reason))

theorem workerResult_zero (state : State) :
    workerResult state 0 = if state.buffer = [] then state.result.getD invalidResponse
      else invalidResponse := rfl

/-- **The loop is one scan.** An undisturbed run behaves as the scan of everything it receives
says, however that is cut into chunks. -/
theorem receiveAll_scan (reason : Bytes) (chunks : List (Bytes × Bool)) (exitOpen : Bool)
    (state : State) (effects : List Effect) (hcancelled : state.cancelled = false)
    (hfailure : state.failure = none)
    (hbuffer : (eventDecoder call.maximum).next state.buffer = .more)
    (hsize : state.size + (chunks.flatMap Prod.fst).length ≤ mib64) :
    Ends reason effects
      (scanEvents decode call false state.result effects
        (state.buffer ++ chunks.flatMap Prod.fst))
      (receiveAll decode call reason state (undisturbed chunks exitOpen)) := by
  induction chunks generalizing state effects with
  | nil =>
    rw [List.flatMap_nil, List.append_nil, scanEvents, scan_more hbuffer]
    refine ⟨by simp [undisturbed, receiveAll, receiveResult, dispatched, Scan.state], .inl ?_⟩
    simp [undisturbed, receiveAll, receiveResult, hfailure, verdict, workerResult_zero]
  | cons chunk chunks ih =>
    simp only [List.flatMap_cons, List.length_append] at hsize
    obtain ⟨heffects, hstate⟩ := decodeEvents_scan decode call
      (received state chunk.1) effects
    have hreceived : (received state chunk.1).cancelled = false := hcancelled
    have hsplit : scanEvents decode call false state.result effects
        (state.buffer ++ (chunk :: chunks).flatMap Prod.fst) =
          feed (eventDecoder call.maximum) (absorb decode call false)
            (scanEvents decode call false (received state chunk.1).result effects
              (received state chunk.1).buffer) (chunks.flatMap Prod.fst) := by
      rw [scanEvents, List.flatMap_cons, ← List.append_assoc, scan_append]
      rfl
    rw [hreceived] at heffects hstate
    rw [hsplit]
    have hturn := receiveResult_data decode call chunk.2
      (by omega : state.size + chunk.1.length ≤ mib64)
    cases hscan : scanEvents decode call false (received state chunk.1).result effects
      (received state chunk.1).buffer with
    | pending found buffer =>
      obtain ⟨result, all⟩ := found
      rw [hscan] at heffects hstate
      cases hdecoded : decodeEvents decode call (received state chunk.1) with
      | mk more next =>
        rw [hdecoded] at heffects hstate hturn
        obtain rfl : all = effects ++ more := heffects
        obtain rfl := hstate
        obtain ⟨hrest, houtcome⟩ := ih
          { received state chunk.1 with buffer, result, cancelled := false } (effects ++ more) rfl
          hfailure (next_of_scan_pending hscan) (by simp only [received]; omega)
        rw [receiveAll_undisturbed_cons, hturn]
        refine ⟨?_, houtcome⟩
        rw [dispatched_append] at hrest
        rw [dispatched_append, ← List.append_assoc]
        exact hrest
    | failed found =>
      rw [hscan] at heffects hstate
      cases hdecoded : decodeEvents decode call (received state chunk.1) with
      | mk more next =>
        rw [hdecoded] at heffects hstate hturn
        obtain rfl := hstate
        have hlog : dispatched effects ++ dispatched more = dispatched found.2 := by
          rw [← dispatched_append]
          exact congrArg dispatched heffects.symm
        rw [receiveAll_undisturbed_cons, hturn]
        simp only [cancel, hreceived]
        cases chunk.2 with
        | true =>
          have hrest := receiveAll_failed decode call reason chunks exitOpen
            { received state chunk.1 with
              failure := some invalidResponse, buffer := [], cancelled := true } rfl rfl
            (by simp only [received]; omega)
          refine ⟨?_, .inl ?_⟩
          · simpa [hrest, feed, Scan.state, dispatched] using hlog
          · simp [hrest, feed, verdict]
        | false =>
          refine ⟨?_, .inr ⟨⟨found, rfl⟩, rfl⟩⟩
          simpa [feed, Scan.state] using hlog

/-! ### The scan of a stream -/

/-- Every stream splits into its leading callback requests and the rest. -/
theorem exists_leading (decode : Bytes → Option Json) (call : Call) (bytes : Bytes) :
    ∃ payloads, Leading decode call bytes payloads := by
  induction hn : bytes.length using Nat.strongRecOn generalizing bytes with
  | _ n ih =>
    by_cases hstart : ∃ e tail, bytes = encodeEvent e ++ tail ∧ IsCallbacks decode call e
    · obtain ⟨e, tail, rfl, he⟩ := hstart
      have hlen : tail.length < n := by
        rw [← hn]
        simp only [encodeEvent, List.length_append, length_frameBytes]
        omega
      obtain ⟨_, callbacks, rest, rfl, hall, hrest, -⟩ := ih tail.length hlen tail rfl
      refine ⟨_, e :: callbacks, rest, ?_, ?_, hrest, rfl⟩
      · rw [List.flatMap_cons, List.append_assoc]
      · exact List.forall_mem_cons.mpr ⟨he, hall⟩
    · refine ⟨_, [], bytes, rfl, fun e he => absurd he List.not_mem_nil, ?_, rfl⟩
      exact fun e tail hbytes he => hstart ⟨e, tail, hbytes, he⟩

/-- Callback requests are dispatched one after the other. -/
theorem scanEvents_callbacks (callbacks : List Event) (effects : List Effect) (rest : Bytes)
    (h : ∀ e ∈ callbacks, IsCallbacks decode call e) :
    scanEvents decode call false none effects (callbacks.flatMap encodeEvent ++ rest) =
      scanEvents decode call false none
        (effects ++ (callbacks.map Prod.snd).map .dispatch) rest := by
  induction callbacks generalizing effects with
  | nil => simp
  | cons e callbacks ih =>
    obtain ⟨he, hall⟩ := List.forall_mem_cons.mp h
    have hnext := eventDecoder_next call.maximum_le he.header_le he.payload_le
      (callbacks.flatMap encodeEvent ++ rest)
    rw [List.flatMap_cons, List.append_assoc, scanEvents_done hnext]
    simp only [he.handleEvent, Option.isSome_none, Bool.false_eq_true, if_false, ih _ hall]
    simp [eventEffects]

/-- The decoder reads a terminal event that stands alone. -/
theorem IsTerminal.next {e : Event} {outcome : Outcome} (h : IsTerminal decode call e outcome) :
    (eventDecoder call.maximum).next (encodeEvent e) = .done e [] := by
  have hbounds : e.1.length ≤ 4096 ∧ e.2.length ≤ call.maximum := by
    cases h <;> exact ⟨by assumption, by assumption⟩
  have hnext := eventDecoder_next call.maximum_le hbounds.1 hbounds.2 []
  rwa [List.append_nil] at hnext

/-- After a result nothing is dispatched, and only the end of the stream is accepted. -/
theorem scanEvents_result (decode : Bytes → Option Json) (call : Call) (outcome : Outcome)
    (effects : List Effect) (tail : Bytes) :
    (scanEvents decode call false (some outcome) effects tail).state.2 = effects ∧
      verdict (scanEvents decode call false (some outcome) effects tail) =
        if tail = [] then outcome else invalidResponse := by
  cases hnext : (eventDecoder call.maximum).next tail with
  | more =>
    rw [scanEvents, scan_more hnext]
    exact ⟨rfl, rfl⟩
  | bad =>
    have htail : tail ≠ [] := by
      rintro rfl
      cases hnext
    rw [scanEvents, scan_bad hnext, if_neg htail]
    exact ⟨rfl, rfl⟩
  | done e tail' =>
    have htail : tail ≠ [] := by
      rintro rfl
      cases hnext
    rw [scanEvents_done hnext, if_neg htail]
    exact ⟨rfl, rfl⟩

/-- What the scan makes of a rest that does not start with a callback request: nothing is
dispatched, and the verdict is the outcome of a lone terminal event or an invalid response. -/
theorem scanEvents_rest (decode : Bytes → Option Json) (call : Call) (effects : List Effect)
    {rest : Bytes} (h : ∀ e tail, rest = encodeEvent e ++ tail → ¬ IsCallbacks decode call e) :
    (scanEvents decode call false none effects rest).state.2 = effects ∧
      ((∃ e, rest = encodeEvent e ∧ IsTerminal decode call e
          (verdict (scanEvents decode call false none effects rest))) ∨
        ((¬ ∃ e outcome, rest = encodeEvent e ∧ IsTerminal decode call e outcome) ∧
          verdict (scanEvents decode call false none effects rest) = invalidResponse)) := by
  cases hnext : (eventDecoder call.maximum).next rest with
  | more =>
    have hnone : ¬ ∃ e outcome, rest = encodeEvent e ∧ IsTerminal decode call e outcome := by
      rintro ⟨e, outcome, rfl, he⟩
      rw [he.next] at hnext
      cases hnext
    rw [scanEvents, scan_more hnext]
    exact ⟨rfl, .inr ⟨hnone, by simp [verdict]⟩⟩
  | bad =>
    have hnone : ¬ ∃ e outcome, rest = encodeEvent e ∧ IsTerminal decode call e outcome := by
      rintro ⟨e, outcome, rfl, he⟩
      rw [he.next] at hnext
      cases hnext
    rw [scanEvents, scan_bad hnext]
    exact ⟨rfl, .inr ⟨hnone, rfl⟩⟩
  | done e tail =>
    obtain ⟨hrest, hheader, hpayload⟩ := of_eventDecoder_next hnext
    have honly : ∀ e' outcome, rest = encodeEvent e' → IsTerminal decode call e' outcome →
        e' = e ∧ tail = [] := by
      rintro e' outcome rfl he'
      rw [he'.next] at hnext
      cases hnext
      exact ⟨rfl, rfl⟩
    rw [scanEvents_done hnext]
    simp only [Option.isSome_none, Bool.false_eq_true, if_false]
    cases hhandled : handleEvent decode call e.1 e.2 with
    | dispatch bytes =>
      exact absurd (isCallbacks_of_dispatch hheader hpayload hhandled) (h e tail hrest)
    | invalid =>
      refine ⟨rfl, .inr ⟨?_, rfl⟩⟩
      rintro ⟨e', outcome, hrest', he'⟩
      obtain ⟨rfl, -⟩ := honly e' outcome hrest' he'
      rw [he'.handleEvent] at hhandled
      cases hhandled
    | result outcome =>
      obtain ⟨heffects, hverdict⟩ := scanEvents_result decode call outcome
        effects tail
      refine ⟨heffects, ?_⟩
      dsimp only
      rw [hverdict]
      by_cases hterminal : tail = [] ∧ IsTerminal decode call e outcome
      · rw [if_pos hterminal.1]
        exact .inl ⟨e, by rw [hrest, hterminal.1, List.append_nil], hterminal.2⟩
      · refine .inr ⟨?_, ?_⟩
        · rintro ⟨e', outcome', hrest', he'⟩
          obtain ⟨rfl, htail⟩ := honly e' outcome' hrest' he'
          have heq := he'.handleEvent
          rw [hhandled] at heq
          cases heq
          exact hterminal ⟨htail, he'⟩
        · rcases handleEvent_result hheader hpayload hhandled with he | rfl
          · rw [if_neg fun htail => hterminal ⟨htail, he⟩]
          · exact ite_self _

/-- What an undisturbed run dispatches and returns, told from its stream. -/
theorem receiveAll_undisturbed (decode : Bytes → Option Json) (call : Call) (reason : Bytes)
    (chunks : List (Bytes × Bool)) (exitOpen : Bool)
    (h : (chunks.flatMap Prod.fst).length ≤ mib64) :
    Ends reason [] (scanEvents decode call false none [] (chunks.flatMap Prod.fst))
      (receiveAll decode call reason .start (undisturbed chunks exitOpen)) :=
  receiveAll_scan reason chunks exitOpen .start [] rfl rfl rfl
    (by simpa [State.start] using h)

theorem dispatched_map (payloads : List Bytes) :
    dispatched (payloads.map .dispatch) = payloads := by
  induction payloads with
  | nil => rfl
  | cons bytes payloads ih => exact congrArg (bytes :: ·) ih

/-- The scan of a well-formed stream. -/
theorem Stream.scanEvents {bytes : Bytes} {payloads : List Bytes} {outcome : Outcome}
    (h : Stream decode call bytes payloads outcome) :
    scanEvents decode call false none [] bytes =
      .pending (some outcome, payloads.map .dispatch) [] := by
  obtain ⟨callbacks, terminal, rfl, hall, hterminal, rfl⟩ := h
  have hend : Isolated.scanEvents decode call false (some outcome)
      ((callbacks.map Prod.snd).map .dispatch) [] =
        .pending (some outcome, (callbacks.map Prod.snd).map .dispatch) [] := by
    rw [Isolated.scanEvents, scan_more]
    rfl
  rw [scanEvents_callbacks callbacks [] _ hall, List.nil_append,
    scanEvents_done hterminal.next]
  simp only [hterminal.handleEvent, Option.isSome_none, Bool.false_eq_true, if_false, hend]

/-- The scan of any other stream. -/
theorem leading_of_not_stream {bytes : Bytes}
    (h : ¬ ∃ payloads outcome, Stream decode call bytes payloads outcome) :
    Leading decode call bytes (dispatched (scanEvents decode call false none [] bytes).state.2) ∧
      verdict (scanEvents decode call false none [] bytes) = invalidResponse := by
  obtain ⟨_, callbacks, rest, hbytes, hall, hrest, rfl⟩ :=
    exists_leading decode call bytes
  have hscan := scanEvents_callbacks callbacks [] rest hall
  obtain ⟨heffects, hverdict⟩ := scanEvents_rest decode call
    ([] ++ (callbacks.map Prod.snd).map .dispatch) hrest
  rw [← hscan, ← hbytes] at heffects hverdict
  rw [heffects, List.nil_append, dispatched_map]
  refine ⟨⟨callbacks, rest, hbytes, hall, hrest, rfl⟩, ?_⟩
  rcases hverdict with ⟨e, he, hterminal⟩ | ⟨-, hinvalid⟩
  · exact absurd ⟨_, _, callbacks, e, by rw [hbytes, he], hall, hterminal, rfl⟩ h
  · exact hinvalid

/-- A run that ends with a failed scan reports a worker error. -/
theorem Ends.worker_error {reason : Bytes} {effects : List Effect}
    {scan : Scan (Option Outcome × List Effect)} {run : List Effect × Option Outcome}
    (h : Ends reason effects scan run) (hverdict : verdict scan = invalidResponse) :
    ∃ message, run.2 = some (.error (.workerError, message)) := by
  rcases h.2 with hrun | ⟨-, hrun⟩
  · exact ⟨_, by rw [hrun, hverdict, invalidResponse]⟩
  · exact ⟨_, by rw [hrun, unavailable]⟩

/-- **The parser accepts exactly its grammar, whatever the chunking.** An undisturbed run over
a well-formed stream returns the decoded terminal event, having handed the broker exactly the
payloads of the callback requests in order. Over any other stream it returns a worker error,
having handed over the payloads before the first malformed event. Two runs over one stream,
however it is cut and whenever the port closes, dispatch the same payloads and return the same
result, up to the message of a worker error. -/
theorem receive_result_grammar (decode : Bytes → Option Json) (call : Call) (reason : Bytes)
    (chunks : List (Bytes × Bool)) (exitOpen : Bool)
    (hsize : (chunks.flatMap Prod.fst).length ≤ mib64) :
    (∀ payloads outcome, Stream decode call (chunks.flatMap Prod.fst) payloads outcome →
      (receiveAll decode call reason .start (undisturbed chunks exitOpen)).2 = some outcome ∧
        dispatched (receiveAll decode call reason .start (undisturbed chunks exitOpen)).1 =
          payloads) ∧
    ((¬ ∃ payloads outcome, Stream decode call (chunks.flatMap Prod.fst) payloads outcome) →
      (∃ message, (receiveAll decode call reason .start (undisturbed chunks exitOpen)).2 =
        some (.error (.workerError, message))) ∧
      Leading decode call (chunks.flatMap Prod.fst)
        (dispatched (receiveAll decode call reason .start (undisturbed chunks exitOpen)).1)) ∧
    ∀ chunks' exitOpen', chunks'.flatMap Prod.fst = chunks.flatMap Prod.fst →
      dispatched (receiveAll decode call reason .start (undisturbed chunks' exitOpen')).1 =
        dispatched (receiveAll decode call reason .start (undisturbed chunks exitOpen)).1 ∧
      ((receiveAll decode call reason .start (undisturbed chunks' exitOpen')).2 =
          (receiveAll decode call reason .start (undisturbed chunks exitOpen)).2 ∨
        ∃ message message',
          (receiveAll decode call reason .start (undisturbed chunks exitOpen)).2 =
            some (.error (.workerError, message)) ∧
          (receiveAll decode call reason .start (undisturbed chunks' exitOpen')).2 =
            some (.error (.workerError, message'))) := by
  have hends := receiveAll_undisturbed decode call reason chunks exitOpen
    hsize
  refine ⟨?_, ?_, ?_⟩
  · intro payloads outcome hstream
    obtain ⟨hlog, houtcome⟩ := hends
    rw [hstream.scanEvents] at hlog houtcome
    refine ⟨?_, hlog.trans (dispatched_map payloads)⟩
    rcases houtcome with hverdict | ⟨⟨state, hfailed⟩, -⟩
    · simpa [verdict] using hverdict
    · cases hfailed
  · intro hnot
    obtain ⟨hleading, hverdict⟩ := leading_of_not_stream hnot
    rw [← hends.1] at hleading
    exact ⟨hends.worker_error hverdict, hleading⟩
  · intro chunks' exitOpen' hsame
    have hends' := receiveAll_undisturbed decode call reason chunks'
      exitOpen' (hsame ▸ hsize)
    rw [hsame] at hends'
    refine ⟨hends'.1.trans hends.1.symm, ?_⟩
    cases hscan : scanEvents decode call false none [] (chunks.flatMap Prod.fst) with
    | pending state buffer =>
      rw [hscan] at hends hends'
      rcases hends.2 with h | ⟨⟨_, hfailed⟩, -⟩
      · rcases hends'.2 with h' | ⟨⟨_, hfailed⟩, -⟩
        · exact .inl (h'.trans h.symm)
        · cases hfailed
      · cases hfailed
    | failed state =>
      rw [hscan] at hends hends'
      obtain ⟨message, h⟩ := hends.worker_error rfl
      obtain ⟨message', h'⟩ := hends'.worker_error rfl
      exact .inr ⟨message, message', h, h'⟩

/-- One callback request and a result, cut inside both lengths. -/
theorem receive_result_grammar_run :
    (receiveAll Json.parse (.of .run .builtin) [] .start
      (undisturbed [([0, 0], true), ([0, 11] ++ utf8 "\"callbacks\"" ++ [0, 0, 0, 2], true),
        (utf8 "{}" ++ [0, 0, 0, 4] ++ utf8 "\"ok\"" ++ [0], true), ([0, 0, 1, 7], false)]
        false)).2 = some (.ok [7]) ∧
    dispatched (receiveAll Json.parse (.of .run .builtin) [] .start
      (undisturbed [([0, 0], true), ([0, 11] ++ utf8 "\"callbacks\"" ++ [0, 0, 0, 2], true),
        (utf8 "{}" ++ [0, 0, 0, 4] ++ utf8 "\"ok\"" ++ [0], true), ([0, 0, 1, 7], false)]
        false)).1 = [utf8 "{}"] :=
  (receive_result_grammar Json.parse (.of .run .builtin) [] _ false (by decide)).1 _ _
    ⟨[(utf8 "\"callbacks\"", utf8 "{}")], (utf8 "\"ok\"", [7]), by decide, by
      simp only [List.mem_singleton, forall_eq]
      exact ⟨rfl, by decide, by decide, by rfl⟩,
      .ok (by decide) (by decide) (by decide) (by rfl), rfl⟩

end Javex.Isolated
