import Javex.Isolated.Receive

/-!
# The protocol of the worker

What `native/javex_nif/src/worker.rs` reads and writes: bounded frames, the events of the
child with the bound of each kind, and the limits that both ends compute from the budgets.
`serde_json` is the parameter `Serde`; what the code relies on is `Serde.Lawful`.

The integer types do not matter here: `saturating_mul` and `saturating_add` never saturate on
admitted budgets, and every length that is written fits in 32 bits.

An event has a header and a payload, each a frame with a length before it, and the bound on the
payload depends on what the header says. The decoder is put together from the decoder of frames, so
that it is final and reads at most one event of a stream at a time. The laws of `Serde` are about
the headers of the kinds that there are, and that no header is shorter than the kind that it names.
-/

namespace Javex.Worker

open Codec Codec.Decoder Isolated

/-- `serde_json` on strings: `from_slice::<String>` and `to_vec`. -/
structure Serde where
  fromSlice : Bytes → Option Bytes
  toVec : Bytes → Bytes

/-- The error kinds the reader thread knows. -/
def errorKinds : List String :=
  ["timeout", "cancelled", "fuel_exhausted", "oom", "js_error", "trap", "output_limit",
    "diagnostic_limit", "input_limit", "module_limit", "compile_error", "worker_error",
    "callback_limit", "callback_timeout"]

/-- Every kind the reader thread knows. -/
def eventKinds : List Bytes := (["callbacks", "ok"] ++ errorKinds).map utf8

/-- A text of a string has its two quotes, and the kinds need no escapes. -/
structure Serde.Lawful (serde : Serde) : Prop where
  length_le : ∀ {header kind}, serde.fromSlice header = some kind →
    kind.length + 2 ≤ header.length
  toVec_kind : ∀ kind ∈ eventKinds, serde.toVec kind = Json.quote kind
  fromSlice_quote : ∀ kind ∈ eventKinds, serde.fromSlice (Json.quote kind) = some kind

/-- The strings of the JSON library. -/
def Serde.reference : Serde where
  fromSlice text := match Json.parse text with
    | some (.str s) => some s
    | _ => none
  toVec := Json.quote

theorem Serde.reference_lawful : Serde.reference.Lawful where
  length_le {header kind} h := by
    simp only [Serde.reference] at h
    split at h
    · rename_i s hparse
      cases h
      exact Json.length_le_of_parse_str hparse
    · cases h
  toVec_kind _ _ := rfl
  fromSlice_quote kind _ := by
    have hparse := Json.parse_print (.str kind)
    rw [Json.print] at hparse
    simp [Serde.reference, hparse]

/-- A printed kind is two bytes longer than the kind. -/
theorem length_quote_kind {kind : Bytes} (h : kind ∈ eventKinds) :
    (Json.quote kind).length = kind.length + 2 := by
  have hall : ∀ kind ∈ eventKinds, (Json.quote kind).length = kind.length + 2 := by decide
  exact hall kind h

/-! ### Limits -/

/-- `Budgets::callback_request_limit`. -/
def callbackRequestLimit (b : Budgets) : ℕ :=
  min (b.maxCallbackConcurrency * (b.maxCallbackInput * 6 + 2048) + 4096) mib64

/-- `Budgets::callback_completion_limit`. -/
def callbackCompletionLimit (b : Budgets) : ℕ := min (b.maxCallbackOutput * 6 + 4096) mib64

/-- `result_maximum`. -/
def resultMaximum (operation : Operation) (b : Budgets) : ℕ :=
  min (if operation = .compile then b.maxModule else b.maxOutput) mib64

/-- `diagnostic_maximum`: `max_stderr` clamped. -/
def diagnosticMaximum (b : Budgets) : ℕ := max 4096 (min b.maxStderr mib64)

/-- The bound on the payload of an event, if its kind is known. -/
def eventMaximum (operation : Operation) (b : Budgets) (kind : Bytes) : Option ℕ :=
  if kind = utf8 "callbacks" then some (callbackRequestLimit b)
  else if kind = utf8 "ok" then some (resultMaximum operation b)
  else if errorKinds.any (utf8 · == kind) then some (diagnosticMaximum b)
  else none

theorem mem_eventKinds {operation : Operation} {b : Budgets} {kind : Bytes} {maximum : ℕ}
    (h : eventMaximum operation b kind = some maximum) : kind ∈ eventKinds := by
  unfold eventMaximum at h
  split_ifs at h with hcallbacks hok herror
  · exact hcallbacks ▸ by decide
  · exact hok ▸ by decide
  · obtain ⟨name, hname, heq⟩ := List.any_eq_true.mp herror
    simp only [beq_iff_eq] at heq
    exact List.mem_map.mpr ⟨name, List.mem_append_right _ hname, heq⟩

/-- The bytes `event` writes. -/
def event (serde : Serde) (kind bytes : Bytes) : Bytes := encodeEvent (serde.toVec kind, bytes)

/-- An event as the reader thread has read it. -/
structure Relayed where
  header : Bytes
  kind : Bytes
  payload : Bytes

/-- The bytes of an event as the child wrote them. -/
def Relayed.bytes (e : Relayed) : Bytes := encodeEvent (e.header, e.payload)

/-- What an event takes from the traffic budget. -/
def Relayed.traffic (e : Relayed) : ℕ := e.header.length + e.payload.length

/-- One turn of the reader thread's loop up to forwarding the event, with `remaining` bytes of
traffic left. -/
def readEvent (serde : Serde) (operation : Operation) (b : Budgets) (remaining : ℕ) :
    Decoder Relayed :=
  (frame (min 4096 remaining)).bind fun header =>
    match serde.fromSlice header with
    | none => fail
    | some kind =>
      match eventMaximum operation b kind with
      | none => fail
      | some maximum =>
        (frame (min maximum (remaining - header.length))).map fun payload =>
          ⟨header, kind, payload⟩

/-- **What the reader accepts.** An event that was read stood at the front, has a known kind,
and keeps within the bound of that kind and the traffic budget. -/
theorem of_readEvent_next {serde : Serde} {operation : Operation} {b : Budgets}
    {remaining : ℕ} {bytes rest : Bytes} {e : Relayed}
    (h : (readEvent serde operation b remaining).next bytes = .done e rest) :
    bytes = e.bytes ++ rest ∧ serde.fromSlice e.header = some e.kind ∧
      (∃ maximum, eventMaximum operation b e.kind = some maximum ∧
        e.payload.length ≤ maximum) ∧
      e.header.length ≤ 4096 ∧ e.traffic ≤ remaining := by
  simp only [readEvent, Decoder.bind] at h
  cases h₁ : (frame (min 4096 remaining)).next bytes with
  | more => simp [h₁] at h
  | bad => simp [h₁] at h
  | done header tail =>
    simp only [h₁] at h
    cases hkind : serde.fromSlice header with
    | none => simp [hkind, fail] at h
    | some kind =>
      simp only [hkind] at h
      cases hmaximum : eventMaximum operation b kind with
      | none => simp [hmaximum, fail] at h
      | some maximum =>
        simp only [hmaximum, Decoder.map] at h
        cases h₂ : (frame (min maximum (remaining - header.length))).next tail with
        | more => simp [h₂] at h
        | bad => simp [h₂] at h
        | done payload rest' =>
          simp only [h₂] at h
          cases h
          obtain ⟨hbytes, hheader, -⟩ := of_frame_next h₁
          obtain ⟨htail, hpayload, -⟩ := of_frame_next h₂
          have hbound : payload.length ≤ maximum := by omega
          have hlimit : header.length ≤ 4096 := by omega
          refine ⟨?_, hkind, ⟨maximum, hmaximum, hbound⟩, hlimit, ?_⟩
          · rw [hbytes, htail, Relayed.bytes, encodeEvent, List.append_assoc]
          · simp only [Relayed.traffic]
            omega

/-- An event within its bounds is read, whatever follows it. -/
theorem readEvent_next {serde : Serde} {operation : Operation} {b : Budgets} {remaining : ℕ}
    {e : Relayed} {maximum : ℕ} (hkind : serde.fromSlice e.header = some e.kind)
    (hmaximum : eventMaximum operation b e.kind = some maximum)
    (hpayload : e.payload.length ≤ maximum) (hheader : e.header.length ≤ 4096)
    (htraffic : e.traffic ≤ remaining) (hremaining : remaining ≤ mib64) (rest : Bytes) :
    (readEvent serde operation b remaining).next (e.bytes ++ rest) = .done e rest := by
  have hmib : mib64 < 4294967296 := by decide
  simp only [Relayed.traffic] at htraffic
  have h₁ := frame_next (show e.header.length ≤ min 4096 remaining by omega) (by omega)
    (frameBytes e.payload ++ rest)
  have h₂ := frame_next
    (show e.payload.length ≤ min maximum (remaining - e.header.length) by omega) (by omega) rest
  simp only [readEvent, Decoder.bind, Relayed.bytes, encodeEvent, List.append_assoc, h₁, hkind,
    hmaximum, Decoder.map, h₂]

end Javex.Worker
