import Javex.Backends.Transport
import Javex.Compile.Module

/-!
# One compilation, two backends

A compilation in the isolated backend: the child prints the result of `compiler::compile` as one
event, the supervisor relays it, and the receive loop of `call/7` takes it for the outcome. Nothing
is assumed of the interleaving, of the chunks in which the bytes arrive, or of what else the BEAM
sends, only that the supervisor has returned 0.

* `forwarded_printed`: the supervisor has forwarded that event and nothing else.
* `compile_agrees`: the loop takes it for the result of the compilation exactly when the result
  fits, and then `compile/2` returns what it returns with the NIF.

The run of the compiler is a parameter here, what it returned is all that matters of it; that the
child prints that as one event, and that no other event is ever printed, is read off the child's
code. From a status 0 it follows that the reader has joined without an error, so the event it
forwarded is complete, and what the chunks spell is that event.

`compile_agrees` has a condition on sizes because the event goes through two bounds, one of the
supervisor and one of the loop, and a module that is too long for one of them is an error although
the compiler has returned it.
-/

namespace Javex.Backends

open Codec Codec.Decoder Isolated Worker Transition

variable {cfg : Config} {decode : Bytes → Option Json} {s : Worker.State}

/-! ### What the supervisor has forwarded -/

/-- The event a child prints for an outcome. -/
def responseEvent (cfg : Config) (outcome : Outcome) : Relayed :=
  let (kind, payload) := response (responseMaximum cfg.budgets) outcome
  ⟨cfg.serde.toVec kind, kind, payload⟩

/-- Frames delimit themselves. -/
theorem frameBytes_append_inj {xs ys rest rest' : Bytes} (hxs : xs.length < 4294967296)
    (hys : ys.length < 4294967296) (h : frameBytes xs ++ rest = frameBytes ys ++ rest') :
    xs = ys ∧ rest = rest' := by
  have hread := frame_next (Nat.le_max_left xs.length ys.length) hxs rest
  rw [h, frame_next (Nat.le_max_right xs.length ys.length) hys rest'] at hread
  obtain ⟨hpayload, hrest⟩ := Parse.done.inj hread
  exact ⟨hpayload.symm, hrest.symm⟩

/-- And so do events whose lengths fit their prefixes. -/
theorem bytes_append_inj {d e : Relayed} {rest rest' : Bytes} (hd : d.traffic < 4294967296)
    (he : e.traffic < 4294967296) (h : d.bytes ++ rest = e.bytes ++ rest') :
    d.header = e.header ∧ d.payload = e.payload ∧ rest = rest' := by
  simp only [Relayed.traffic] at hd he
  simp only [Relayed.bytes, encodeEvent, List.append_assoc] at h
  obtain ⟨hheader, hpayloads⟩ := frameBytes_append_inj (by omega) (by omega) h
  obtain ⟨hpayload, hrest⟩ := frameBytes_append_inj (by omega) (by omega) hpayloads
  exact ⟨hheader, hpayload, hrest⟩

/-- What a compilation comes to is of one of two kinds, unless it is replaced. -/
theorem response_compile (maximum : ℕ) (result : Except Native.Failure Bytes) :
    (response maximum (Compile.childOutcome result)).1 ∈
        [utf8 "ok", utf8 "compile_error", utf8 "output_limit"] ∧
      (response maximum (Compile.childOutcome result)).2.length ≤ max maximum 30 := by
  unfold response
  cases result with
  | error failure =>
    dsimp only [Compile.childOutcome]
    split_ifs with hlong
    · exact ⟨.tail _ (.tail _ (.head _)), Nat.le_max_right _ _⟩
    · exact ⟨.tail _ (.head _), (Nat.not_lt.mp hlong).trans (Nat.le_max_left _ _)⟩
  | ok bytes =>
    dsimp only [Compile.childOutcome]
    split_ifs with hlong
    · exact ⟨.tail _ (.tail _ (.head _)), Nat.le_max_right _ _⟩
    · exact ⟨.head _, (Nat.not_lt.mp hlong).trans (Nat.le_max_left _ _)⟩

/-- What a supervisor that has returned 0 has read off its child. -/
theorem produced_of_returned (h : Relay cfg s) (hpoll : s.poll = .returned 0) :
    Complete s.forwarded ∧ s.produced = s.forwarded.flatMap Relayed.bytes := by
  have hreported := h.reported
  rw [hpoll] at hreported
  have hstage := h.stage
  rw [hreported rfl] at hstage
  obtain ⟨hcomplete, hout, -⟩ := hstage rfl
  refine ⟨hcomplete, ?_⟩
  rw [h.stream, hout, List.append_nil]

variable {result : Except Native.Failure Bytes}

/-- **One event in, one event out.** If a child has printed the event for a result and nothing
else, a supervisor that has returned 0 has forwarded that event and nothing else. -/
theorem forwarded_printed (hserde : cfg.serde.Lawful) (h : Relay cfg s)
    (hpoll : s.poll = .returned 0)
    (hproduced : s.produced = (responseEvent cfg (Compile.childOutcome result)).bytes) :
    s.forwarded = [responseEvent cfg (Compile.childOutcome result)] := by
  obtain ⟨⟨callbacks, terminal, heq, -, -⟩, hread⟩ := produced_of_returned h hpoll
  obtain ⟨hkind, hpayload⟩ := response_compile (responseMaximum cfg.budgets) result
  have hknown : ∀ kind ∈ [utf8 "ok", utf8 "compile_error", utf8 "output_limit"],
      kind ∈ eventKinds ∧ kind.length + 2 ≤ 4096 := by decide
  obtain ⟨hmem, hshort⟩ := hknown _ hkind
  have hprinted : (responseEvent cfg (Compile.childOutcome result)).traffic < 4294967296 := by
    have hmib : mib64 < 4294967296 - 4096 := by decide
    have hmaximum : responseMaximum cfg.budgets ≤ mib64 := Nat.min_le_right _ _
    have hmin : 30 ≤ mib64 := by decide
    simp only [Relayed.traffic, responseEvent, hserde.toVec_kind _ hmem,
      length_quote_kind hmem]
    omega
  cases hforwarded : s.forwarded with
  | nil =>
    rw [hforwarded] at heq
    exact absurd heq.symm (List.append_ne_nil_of_right_ne_nil _ (List.cons_ne_nil _ _))
  | cons e later =>
    have htraffic := h.traffic_le
    obtain ⟨hslice, -⟩ := h.admissible e (hforwarded ▸ List.mem_cons_self)
    rw [hforwarded] at hread htraffic
    rw [hproduced, List.flatMap_cons,
      ← List.append_nil (responseEvent cfg (Compile.childOutcome result)).bytes] at hread
    have he : e.traffic < 4294967296 := by
      have hmib : mib64 < 4294967296 := by decide
      simp only [traffic, List.map_cons, List.sum_cons] at htraffic
      omega
    obtain ⟨hheader, hsame, hlater⟩ := bytes_append_inj he hprinted hread.symm
    -- nothing follows, as an event has the bytes of its lengths at least
    have hnil : later = [] := by
      cases later with
      | nil => rfl
      | cons d ds => simp [Relayed.bytes, encodeEvent, frameBytes, wordBytes] at hlater
    have hread : cfg.serde.fromSlice e.header =
        some (responseEvent cfg (Compile.childOutcome result)).kind := by
      rw [hheader]
      simp only [responseEvent, hserde.toVec_kind _ hmem]
      exact hserde.fromSlice_quote _ hmem
    have hsameKind := Option.some.inj (hslice.symm.trans hread)
    obtain ⟨header, kind, payload⟩ := e
    simp only at hheader hsame hsameKind
    rw [hnil, hheader, hsame, hsameKind]

/-! ### What the receive loop makes of it -/

/-- What a stream that is accepted comes to is settled, and it keeps to the transport limit. -/
theorem accepts_elim {call : Call} {chunks : List (Bytes × Bool)} {outcome outcome' : Outcome}
    (h : Accepts decode call chunks outcome) :
    (chunks.flatMap Prod.fst).length ≤ mib64 ∧
      (Accepts decode call chunks outcome' → outcome' = outcome) := by
  obtain ⟨state, hafter, hfailure, hresult⟩ := h
  have hsize := (size_of_after (Nat.zero_le _) hafter hfailure).2
  refine ⟨by simpa [Isolated.State.start] using hsize, ?_⟩
  rintro ⟨state', hafter', -, hresult'⟩
  obtain rfl := Option.some.inj (hafter'.symm.trans hafter)
  exact hresult'.symm.trans hresult

/-- The bytes that a result is printed with. -/
def resultBytes : Except Native.Failure Bytes → Bytes
  | .ok bytes => bytes
  | .error failure => failure.message

/-- The kind that a result is printed with. -/
def resultKind : Except Native.Failure Bytes → Bytes
  | .ok _ => utf8 "ok"
  | .error _ => utf8 "compile_error"

/-- The rest of its event: the header with its quotes, and the two lengths. -/
def overhead (result : Except Native.Failure Bytes) : ℕ := (resultKind result).length + 10

/-- A result that comes through as it is: `response` does not replace it, and its event keeps to
the transport limit. -/
def Fits (b : Budgets) (result : Except Native.Failure Bytes) : Prop :=
  (resultBytes result).length ≤ responseMaximum b ∧
    (resultBytes result).length + overhead result ≤ mib64

/-- `response` leaves a result of a compilation alone if it is short enough. -/
theorem unchanged_childOutcome (maximum : ℕ) (result : Except Native.Failure Bytes) :
    Unchanged maximum (Compile.childOutcome result) ↔ (resultBytes result).length ≤ maximum := by
  cases result with
  | error failure =>
    refine or_iff_left ?_
    rintro ⟨⟨⟩, -⟩
  | ok bytes => exact Iff.rfl

/-- The event of a result is taken for what `response` made of it. -/
theorem outcome_responseEvent (cfg : Config) (result : Except Native.Failure Bytes) :
    Relayed.outcome (responseEvent cfg (Compile.childOutcome result)) =
      responded (responseMaximum cfg.budgets) (Compile.childOutcome result) := by
  unfold responseEvent response responded
  cases result with
  | error failure =>
    dsimp only [Compile.childOutcome]
    split_ifs <;> rfl
  | ok bytes =>
    dsimp only [Compile.childOutcome]
    split_ifs <;> rfl

/-- The event of a result that is not replaced. -/
theorem responseEvent_of_le (cfg : Config)
    (hshort : (resultBytes result).length ≤ responseMaximum cfg.budgets) :
    responseEvent cfg (Compile.childOutcome result) =
      ⟨cfg.serde.toVec (resultKind result), resultKind result, resultBytes result⟩ := by
  cases result with
  | error failure =>
    have hlong : ¬ responseMaximum cfg.budgets < failure.message.length := Nat.not_lt.mpr hshort
    simp only [responseEvent, response, Compile.childOutcome, hlong, if_false]
    rfl
  | ok bytes =>
    have hlong : ¬ responseMaximum cfg.budgets < bytes.length := Nat.not_lt.mpr hshort
    simp only [responseEvent, response, Compile.childOutcome, hlong, if_false]
    rfl

/-- The length of that event. -/
theorem length_relayed_response (hserde : cfg.serde.Lawful)
    (hshort : (resultBytes result).length ≤ responseMaximum cfg.budgets) :
    (relayedBytes cfg [responseEvent cfg (Compile.childOutcome result)]).length =
      (resultBytes result).length + overhead result := by
  have hmem : resultKind result ∈ eventKinds := by
    cases result with
    | error failure =>
      simp only [resultKind]
      decide
    | ok bytes =>
      simp only [resultKind]
      decide
  rw [responseEvent_of_le cfg hshort, length_relayedBytes, forwardedTraffic, List.map_singleton,
    List.sum_singleton, List.length_singleton, hserde.toVec_kind _ hmem, length_quote_kind hmem,
    overhead]
  dsimp only
  omega

/-- **A compilation comes through as it is exactly when it fits.** If the child of a compilation
has printed its result and nothing else and the supervisor has returned 0, then, however the bytes
it relayed are cut into chunks, the receive loop accepts them for that result exactly when the
result fits. In that case `compile/2` returns what it returns with the NIF, module or error. -/
theorem compile_agrees (cfg : Config) (hoperation : cfg.operation = .compile)
    (hserde : cfg.serde.Lawful) (decode : Bytes → Option Json) (hdecode : Decodes decode)
    (result : Except Native.Failure Bytes) {s : Worker.State}
    (hs : (Worker.system cfg).Reachable s) (hpoll : s.poll = .returned 0)
    (hproduced : s.produced = (responseEvent cfg (Compile.childOutcome result)).bytes)
    (chunks : List (Bytes × Bool))
    (hchunks : chunks.flatMap Prod.fst = relayedBytes cfg s.forwarded) :
    (Accepts decode (.of .compile cfg.budgets) chunks (Compile.childOutcome result) ↔
      Fits cfg.budgets result) ∧
    (Fits cfg.budgets result → ∀ reason exitOpen, ∃ outcome,
      (receiveAll decode (.of .compile cfg.budgets) reason .start
        (undisturbed chunks exitOpen)).2 = some outcome ∧
      ∀ sha256 plugin static,
        Compile.returned static (Compile.isolatedCompile sha256 plugin static outcome) =
          Compile.returned static (Compile.nativeCompile sha256 plugin static result)) := by
  have hrelay := relay_of_reachable hs
  have hforwarded := forwarded_printed hserde hrelay hpoll hproduced
  have hadmissible := hrelay.admissible _ (hforwarded ▸ List.mem_singleton_self _)
  have hkind : (responseEvent cfg (Compile.childOutcome result)).kind ≠ utf8 "callbacks" := by
    have hother : ∀ kind ∈ [utf8 "ok", utf8 "compile_error", utf8 "output_limit"],
        kind ≠ utf8 "callbacks" := by decide
    exact hother _ (response_compile (responseMaximum cfg.budgets) result).1
  have hterminal := isTerminal_admissible hserde hdecode hadmissible hkind
  rw [hoperation, outcome_responseEvent] at hterminal
  have hstream : Stream decode (.of .compile cfg.budgets) (chunks.flatMap Prod.fst) []
      (responded (responseMaximum cfg.budgets) (Compile.childOutcome result)) := by
    refine ⟨[], _, ?_, fun e he => absurd he List.not_mem_nil, hterminal, rfl⟩
    rw [hchunks, hforwarded]
    exact List.flatMap_singleton _ _
  have haccepts := accepts_iff hstream
  have hiff : Accepts decode (.of .compile cfg.budgets) chunks (Compile.childOutcome result) ↔
      Fits cfg.budgets result := by
    constructor
    · intro h
      obtain ⟨hlength, hunique⟩ := accepts_elim h
      have hshort := (unchanged_childOutcome _ result).mp
        ((responded_eq_iff _ _).mp (hunique (haccepts.mpr hlength)))
      rw [hchunks, hforwarded, length_relayed_response hserde hshort] at hlength
      exact ⟨hshort, hlength⟩
    · rintro ⟨hshort, hlength⟩
      rw [(responded_eq_iff _ _).mpr ((unchanged_childOutcome _ result).mpr hshort), hchunks,
        hforwarded, length_relayed_response hserde hshort] at haccepts
      exact haccepts.mpr hlength
  exact ⟨hiff, fun hfits reason exitOpen => ⟨_, (hiff.mpr hfits).receiveAll reason exitOpen,
    fun sha256 plugin static => Compile.returned_isolated sha256 plugin static result⟩⟩

/-- A compilation with the default budgets. -/
def defaultCompile : Config := { defaultRun with operation := .compile }

/-- A module of eight bytes is relayed, accepted and returned. -/
theorem compile_agrees_relayed : ∃ s, (Worker.system defaultCompile).Reachable s ∧
    s.poll = .returned 0 ∧
    Accepts Json.parse (.of .compile defaultCompile.budgets)
      [(relayedBytes defaultCompile s.forwarded, true)] (.ok (List.replicate 8 0)) := by
  obtain ⟨s, hs, hpoll, hforwarded⟩ := relayed_single defaultCompile
    (e := ⟨Json.quote (utf8 "ok"), utf8 "ok", List.replicate 8 0⟩)
    (Serde.reference_lawful.fromSlice_quote (utf8 "ok") (by decide)) rfl (by decide) (by decide)
    (by decide) (by decide)
  have hproduced := (produced_of_returned (relay_of_reachable hs) hpoll).2
  rw [hforwarded, List.flatMap_singleton] at hproduced
  have hagrees := compile_agrees defaultCompile rfl Serde.reference_lawful Json.parse decodes_parse
    (.ok (List.replicate 8 0)) hs hpoll hproduced [(relayedBytes defaultCompile s.forwarded, true)]
    (List.flatMap_singleton _ _)
  exact ⟨s, hs, hpoll, hagrees.1.mpr ⟨by decide, by decide⟩⟩

end Javex.Backends
