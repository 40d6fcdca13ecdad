import Javex.Isolated.Grammar

/-!
# What the receive loop accepts

The receive loop accepts a stream when it takes all of its chunks without recording a failure, so
that at the exit status it returns what the stream says. A failure, once recorded, stays; and the
loop counts every byte it receives, the lengths before the frames among them.

* `accepts_iff`: a well-formed stream is accepted exactly when its bytes keep to the transport
  limit, however it is cut.

This is apart from the grammar of a stream, because the limit is not a limit of the stream: the loop
counts what it receives and gives up at the first byte too many, and whether the bytes before it
were well formed plays no part. A stream within the limit is accepted as soon as it is well formed,
and one beyond it is refused wherever the chunks are cut, since the count is over all chunks.
-/

namespace Javex.Isolated

open Codec Codec.Decoder

variable {decode : Bytes → Option Json} {call : Call}

/-- The messages of some chunks of output. -/
def outputMessages (chunks : List (Bytes × Bool)) : List (Message × Bool) :=
  chunks.map fun c => (.data c.1, c.2)

/-- The state in which the loop waits after some messages, unless it has returned or raised. -/
def after (decode : Bytes → Option Json) (call : Call) :
    State → List (Message × Bool) → Option State
  | state, [] => some state
  | state, (message, portOpen) :: later =>
    match receiveResult decode call portOpen state message with
    | (_, .loop state') => after decode call state' later
    | _ => none

/-- The loop takes all chunks without a failure, and what it returns at the exit status 0 is the
result of the stream. -/
def Accepts (decode : Bytes → Option Json) (call : Call) (chunks : List (Bytes × Bool))
    (outcome : Outcome) : Prop :=
  ∃ state, after decode call .start (outputMessages chunks) = some state ∧ state.failure = none ∧
    workerResult state 0 = outcome

/-- After an accepted stream the loop returns its outcome. -/
theorem Accepts.receiveAll {chunks : List (Bytes × Bool)} {outcome : Outcome}
    (h : Accepts decode call chunks outcome) (reason : Bytes) (exitOpen : Bool) :
    (receiveAll decode call reason .start (undisturbed chunks exitOpen)).2 = some outcome := by
  have hgo : ∀ (chunks : List (Bytes × Bool)) {state last : State},
      after decode call state (outputMessages chunks) = some last →
      (Isolated.receiveAll decode call reason state (undisturbed chunks exitOpen)).2 =
        some (last.failure.getD (workerResult last 0)) := by
    intro chunks
    induction chunks with
    | nil =>
      intro state last hafter
      cases hafter
      rfl
    | cons chunk chunks ih =>
      intro state last hafter
      rw [outputMessages, List.map_cons, after] at hafter
      rw [receiveAll_undisturbed_cons]
      split at hafter
      case h_1 effects state' hturn =>
        rw [hturn]
        exact ih hafter
      case h_2 => cases hafter
  obtain ⟨state, hafter, hfailure, hresult⟩ := h
  rw [hgo chunks hafter, hfailure, Option.getD_none, hresult]

/-- A turn that takes a chunk and records no failure is one within the transport limit. -/
theorem data_turn {state state' : State} {bytes : Bytes} {portOpen : Bool} {effects : List Effect}
    (h : receiveResult decode call portOpen state (.data bytes) = (effects, .loop state'))
    (hfailure : state'.failure = none) :
    state.failure = none ∧ state'.size = state.size + bytes.length ∧
      state.size + bytes.length ≤ mib64 := by
  -- giving up on the stream records a failure
  have hcancel : ∀ given : State, given.failure ≠ none →
      (cancel portOpen given).2 ≠ .loop state' := by
    intro given hgiven hcancel
    unfold cancel at hcancel
    split_ifs at hcancel <;> cases hcancel <;> exact hgiven hfailure
  by_cases hsize : state.size + bytes.length ≤ mib64
  · rw [receiveResult_data decode call portOpen hsize] at h
    obtain ⟨-, hstate⟩ := decodeEvents_scan decode call (received state bytes) []
    cases hdecoded : decodeEvents decode call (received state bytes) with
    | mk more next =>
      rw [hdecoded] at h hstate
      cases next with
      | none =>
        simp only [Prod.mk.injEq] at h
        exact absurd h.2 (hcancel _ (Option.some_ne_none _))
      | some next =>
        cases h
        split at hstate
        · cases hstate
          exact ⟨hfailure, rfl, hsize⟩
        · cases hstate
  · simp only [receiveResult, hsize, if_false] at h
    exact absurd (congrArg Prod.snd h) (hcancel _ (Option.some_ne_none _))

/-- A loop without a failure has kept to the transport limit. -/
theorem size_of_after {chunks : List (Bytes × Bool)} {state last : State}
    (hsize : state.size ≤ mib64) (h : after decode call state (outputMessages chunks) = some last)
    (hfailure : last.failure = none) :
    state.failure = none ∧ state.size + (chunks.flatMap Prod.fst).length ≤ mib64 := by
  induction chunks generalizing state with
  | nil =>
    cases h
    exact ⟨hfailure, by simpa using hsize⟩
  | cons chunk chunks ih =>
    rw [outputMessages, List.map_cons, after] at h
    split at h
    case h_1 effects state' hturn =>
      -- the failure of the rest would be a failure of the turn
      have hnone : state'.failure = none := by
        have hrest : ∀ (chunks : List (Bytes × Bool)) {state : State},
            after decode call state (outputMessages chunks) = some last → state.failure = none := by
          intro chunks
          induction chunks with
          | nil =>
            intro state hafter
            cases hafter
            exact hfailure
          | cons chunk chunks ih =>
            intro state hafter
            rw [outputMessages, List.map_cons, after] at hafter
            split at hafter
            case h_1 effects next hnext => exact (data_turn hnext (ih hafter)).1
            case h_2 => cases hafter
        exact hrest chunks h
      obtain ⟨hstate, hnext, hle⟩ := data_turn hturn hnone
      obtain ⟨-, htotal⟩ := ih (by omega) h
      refine ⟨hstate, ?_⟩
      simp only [List.flatMap_cons, List.length_append]
      omega
    case h_2 => cases h

/-- **A stream within the limit.** Where the scan of everything that arrives waits in the end, the
loop has taken all chunks without a failure. -/
theorem after_of_scan (state : State) (effects : List Effect) {chunks : List (Bytes × Bool)}
    {log : List Effect} {result : Option Outcome} {buffer : Bytes}
    (hcancelled : state.cancelled = false) (hfailure : state.failure = none)
    (hsize : state.size + (chunks.flatMap Prod.fst).length ≤ mib64)
    (hbuffer : (eventDecoder call.maximum).next state.buffer = .more)
    (hscan : scanEvents decode call false state.result effects
      (state.buffer ++ chunks.flatMap Prod.fst) = .pending (result, log) buffer) :
    ∃ last, after decode call state (outputMessages chunks) = some last ∧ last.failure = none ∧
      last.buffer = buffer ∧ last.result = result := by
  induction chunks generalizing state effects with
  | nil =>
    rw [List.flatMap_nil, List.append_nil, scanEvents, scan_more hbuffer] at hscan
    cases hscan
    exact ⟨state, rfl, hfailure, rfl, rfl⟩
  | cons chunk chunks ih =>
    simp only [List.flatMap_cons, List.length_append] at hsize
    obtain ⟨-, hstate⟩ := decodeEvents_scan decode call (received state chunk.1) effects
    have hreceived : (received state chunk.1).cancelled = false := hcancelled
    rw [hreceived] at hstate
    rw [scanEvents, List.flatMap_cons, ← List.append_assoc, scan_append] at hscan
    have hturn := receiveResult_data decode call chunk.2
      (by omega : state.size + chunk.1.length ≤ mib64)
    cases hfirst : scanEvents decode call false (received state chunk.1).result effects
      (received state chunk.1).buffer with
    | failed found =>
      rw [show scan (eventDecoder call.maximum) (absorb decode call false) (state.result, effects)
        (state.buffer ++ chunk.1) = .failed found from hfirst] at hscan
      cases hscan
    | pending found rest =>
      obtain ⟨found, more⟩ := found
      rw [show scan (eventDecoder call.maximum) (absorb decode call false) (state.result, effects)
        (state.buffer ++ chunk.1) = .pending (found, more) rest from hfirst] at hscan
      rw [hfirst] at hstate
      cases hdecoded : decodeEvents decode call (received state chunk.1) with
      | mk sent next =>
        rw [hdecoded] at hstate hturn
        obtain rfl := hstate
        rw [outputMessages, List.map_cons, after, hturn]
        exact ih
          { received state chunk.1 with buffer := rest, result := found, cancelled := false } _
          rfl hfailure (by simp only [received]; omega) (next_of_scan_pending hfirst) hscan

/-- **What is accepted.** A well-formed stream is accepted with its outcome exactly when its bytes
keep to the transport limit. -/
theorem accepts_iff {chunks : List (Bytes × Bool)} {payloads : List Bytes} {outcome : Outcome}
    (h : Stream decode call (chunks.flatMap Prod.fst) payloads outcome) :
    Accepts decode call chunks outcome ↔ (chunks.flatMap Prod.fst).length ≤ mib64 := by
  constructor
  · rintro ⟨state, hafter, hfailure, -⟩
    have hsize := (size_of_after (Nat.zero_le _) hafter hfailure).2
    simpa [State.start] using hsize
  · intro hsize
    obtain ⟨last, hafter, hfailure, hbuffer, hresult⟩ := after_of_scan .start [] rfl rfl
      (by simpa [State.start] using hsize) rfl (by simpa [State.start] using h.scanEvents)
    exact ⟨last, hafter, hfailure, by rw [workerResult_zero, hbuffer, hresult]; rfl⟩

/-- A stream beyond the limit that arrives at once is refused. -/
theorem refused_of_length (decode : Bytes → Option Json) (call : Call) {bytes : Bytes}
    (h : mib64 < bytes.length) (outcome : Outcome) (reason : Bytes) (exitOpen : Bool) :
    ¬ Accepts decode call [(bytes, true)] outcome ∧
    (receiveAll decode call reason .start (undisturbed [(bytes, true)] exitOpen)).2 =
      some (.error (.workerError, utf8 "isolated worker exceeded IPC response limit")) := by
  have hstart : State.start.size = 0 := rfl
  constructor
  · rintro ⟨state, hafter, hfailure, -⟩
    have hsize := (size_of_after (Nat.zero_le _) hafter hfailure).2
    simp only [List.flatMap_cons, List.flatMap_nil, List.append_nil] at hsize
    omega
  · have hlarge : ¬ State.start.size + bytes.length ≤ mib64 := by omega
    rw [receiveAll_undisturbed_cons]
    simp only [receiveResult, hlarge, if_false]
    rfl

end Javex.Isolated
