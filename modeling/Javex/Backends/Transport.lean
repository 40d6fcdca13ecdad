import Javex.Backends.Agreement
import Javex.Isolated.Acceptance
import Javex.Worker.Relay

/-!
# One transport limit, counted twice

The supervisor's reader and the receive loop of the run worker both stop at 64 MiB. The reader
counts the headers and the payloads of the events; the loop counts every byte that arrives, and so
also the two lengths of four bytes before each of them. Their bounds on single events agree.

* `relayed_accepted_iff`: what the supervisor relays with status 0 is accepted exactly when it
  keeps to the limit with eight bytes more for each event.
* `relayed_not_accepted`: a result that fills the supervisor's budget is relayed and refused.

The comparison needs no run of the loop: how it receives is the subject of
`Javex.Isolated.Acceptance`, and what the supervisor has forwarded is that of `Javex.Worker.Relay`.
What is left is arithmetic on one list of events, whose headers and payloads the one counts and
whose bytes on the wire the other, and the observation that every relayed stream is well formed for
the loop, so that the limit is the only thing which can make it refuse.
-/

namespace Javex.Backends

open Codec Codec.Decoder Isolated Worker Transition

variable {cfg : Config} {decode : Bytes → Option Json}

/-- What the supervisor writes to its stdout for some events. -/
def relayedBytes (cfg : Config) (es : List Relayed) : Bytes :=
  es.flatMap fun e => Worker.event cfg.serde e.kind e.payload

/-- The lengths before the frames come on top of the traffic. -/
theorem length_relayedBytes (cfg : Config) (es : List Relayed) :
    (relayedBytes cfg es).length = forwardedTraffic cfg es + 8 * es.length := by
  induction es with
  | nil => rfl
  | cons e es ih =>
    simp only [relayedBytes, forwardedTraffic, Worker.event, encodeEvent, List.flatMap_cons,
      List.length_append, length_frameBytes, List.map_cons, List.sum_cons, List.length_cons] at ih ⊢
    omega

/-- What the run worker makes of a terminal event. -/
def Relayed.outcome (e : Relayed) : Outcome := kindOutcome e.payload (some (.str e.kind))

/-- A callback request of the supervisor is one for the receive loop. -/
theorem isCallbacks_of_admissible (hserde : cfg.serde.Lawful) (hdecode : Decodes decode)
    {e : Relayed} (h : Admissible cfg e)
    (hkind : e.kind = utf8 "callbacks") :
    IsCallbacks decode (.of .run cfg.budgets) (cfg.serde.toVec e.kind, e.payload) := by
  obtain ⟨-, maximum, hmaximum, hpayload⟩ := h
  obtain ⟨hheader, hdecoded⟩ := header_toVec hserde hdecode (mem_eventKinds hmaximum)
  rw [hkind] at hmaximum hdecoded
  have hlimit : maximum = callbackRequestLimit cfg.budgets := by
    simpa [eventMaximum, eq_comm] using hmaximum
  refine ⟨rfl, hheader, ?_, hkind ▸ hdecoded⟩
  exact (hlimit ▸ hpayload).trans (callbackRequestLimit_le cfg.budgets)

/-- A terminal event of the supervisor is one for the receive loop: the bounds agree. -/
theorem isTerminal_admissible (hserde : cfg.serde.Lawful) (hdecode : Decodes decode) {e : Relayed}
    (h : Admissible cfg e) (hkind : e.kind ≠ utf8 "callbacks") :
    IsTerminal decode (.of cfg.operation cfg.budgets) (cfg.serde.toVec e.kind, e.payload)
      (Relayed.outcome e) := by
  have hnames : ∀ name ∈ errorKinds, ∃ kind ∈ kinds, kind.name = name := by decide
  have hmib : 4096 ≤ mib64 := by decide
  obtain ⟨-, maximum, hmaximum, hpayload⟩ := h
  obtain ⟨hheader, hdecoded⟩ := header_toVec hserde hdecode (mem_eventKinds hmaximum)
  unfold eventMaximum at hmaximum
  rw [if_neg hkind] at hmaximum
  split_ifs at hmaximum with hok herror
  · cases hmaximum
    have hresult : e.payload.length ≤ (Call.of cfg.operation cfg.budgets).maximum ∧
        e.payload.length ≤ (Call.of cfg.operation cfg.budgets).outputLimit := by
      simp only [resultMaximum] at hpayload
      simp only [Call.of, responseMaximum]
      cases hoperation : cfg.operation <;> simp only [hoperation, reduceCtorEq, if_true, if_false]
        at hpayload ⊢ <;> omega
    have hout : Relayed.outcome e = .ok e.payload := by
      rw [Relayed.outcome, kindOutcome, if_pos hok]
    rw [hout]
    exact .ok hheader hresult.1 hresult.2 (hok ▸ hdecoded)
  · cases hmaximum
    obtain ⟨name, hname, heq⟩ := List.any_eq_true.mp herror
    obtain ⟨kind, hmem, rfl⟩ := hnames name hname
    have hspelled : utf8 kind.name = e.kind := by simpa using heq
    have hout : Relayed.outcome e = .error (kind, e.payload) := by
      rw [Relayed.outcome, kindOutcome, if_neg hok, ← hspelled, kind?_name hmem]
    rw [hout]
    unfold diagnosticMaximum at hpayload
    refine .error kind hmem hheader ?_ ?_ (hspelled ▸ hdecoded)
    · simp only [Call.of, responseMaximum]
      omega
    · change e.payload.length ≤ max 4096 cfg.budgets.maxStderr
      omega

theorem isTerminal_of_admissible (hoperation : cfg.operation = .run) (hserde : cfg.serde.Lawful)
    (hdecode : Decodes decode) {e : Relayed} (h : Admissible cfg e)
    (hkind : e.kind ≠ utf8 "callbacks") :
    IsTerminal decode (.of .run cfg.budgets) (cfg.serde.toVec e.kind, e.payload)
      (Relayed.outcome e) := by
  have hterminal := isTerminal_admissible hserde hdecode h hkind
  rwa [hoperation] at hterminal

/-- What the supervisor relays is a well-formed stream for the receive loop. -/
theorem relayed_stream (hoperation : cfg.operation = .run) (hserde : cfg.serde.Lawful)
    (hdecode : Decodes decode) {callbacks : List Relayed} {terminal : Relayed}
    (hadmissible : ∀ e ∈ callbacks ++ [terminal], Admissible cfg e)
    (hcallbacks : ∀ e ∈ callbacks, e.kind = utf8 "callbacks")
    (hterminal : terminal.kind ≠ utf8 "callbacks") :
    Stream decode (.of .run cfg.budgets) (relayedBytes cfg (callbacks ++ [terminal]))
      (callbacks.map Relayed.payload) (Relayed.outcome terminal) := by
  refine ⟨callbacks.map fun e => (cfg.serde.toVec e.kind, e.payload),
    (cfg.serde.toVec terminal.kind, terminal.payload), ?_, ?_, ?_, ?_⟩
  · rw [relayedBytes, List.flatMap_append, List.flatMap_singleton, List.flatMap_map]
    rfl
  · intro e he
    obtain ⟨e, hmem, rfl⟩ := List.mem_map.mp he
    exact isCallbacks_of_admissible hserde hdecode
      (hadmissible e (List.mem_append_left _ hmem)) (hcallbacks e hmem)
  · exact isTerminal_of_admissible hoperation hserde hdecode
      (hadmissible terminal (List.mem_append_right _ (List.mem_singleton_self _))) hterminal
  · rw [List.map_map]
    rfl

/-- **What the supervisor relays, the BEAM accepts, within one count.** When the supervisor of a
run has returned 0, the events it forwarded are callback requests and one terminal event; however
their bytes are cut into chunks, the receive loop accepts them and returns the terminal event
exactly when headers, payloads and eight bytes for each event keep to 64 MiB. -/
theorem relayed_accepted_iff (cfg : Config) (hoperation : cfg.operation = .run)
    (hserde : cfg.serde.Lawful) (decode : Bytes → Option Json) (hdecode : Decodes decode)
    {s : Worker.State} (hs : (Worker.system cfg).Reachable s) (hstatus : s.poll = .returned 0)
    (chunks : List (Bytes × Bool))
    (hchunks : chunks.flatMap Prod.fst = relayedBytes cfg s.forwarded) :
    ∃ callbacks terminal, s.forwarded = callbacks ++ [terminal] ∧
      (∀ e ∈ callbacks, e.kind = utf8 "callbacks") ∧ terminal.kind ≠ utf8 "callbacks" ∧
      (Accepts decode (.of .run cfg.budgets) chunks (Relayed.outcome terminal) ↔
        forwardedTraffic cfg s.forwarded + 8 * s.forwarded.length ≤ mib64) ∧
      (forwardedTraffic cfg s.forwarded + 8 * s.forwarded.length ≤ mib64 →
        ∀ reason exitOpen, (receiveAll decode (.of .run cfg.budgets) reason .start
          (undisturbed chunks exitOpen)).2 = some (Relayed.outcome terminal)) := by
  obtain ⟨-, hadmissible, -, -, -, hreturned⟩ := relay_is_safe cfg hserde s hs
  obtain ⟨⟨callbacks, terminal, heq, hcallbacks, hterminal⟩, -, -⟩ := hreturned hstatus
  have hstream := relayed_stream hoperation hserde hdecode (heq ▸ hadmissible) hcallbacks
    hterminal
  rw [← heq, ← hchunks] at hstream
  have hiff := accepts_iff hstream
  rw [hchunks, length_relayedBytes] at hiff
  exact ⟨callbacks, terminal, heq, hcallbacks, hterminal, hiff, fun hfits reason exitOpen =>
    (hiff.mpr hfits).receiveAll reason exitOpen⟩

/-- The relay of a child that asked once: its bytes in one chunk. -/
theorem relayed_accepted_iff_finished : ∃ s : Worker.State, s.poll = .returned 0 ∧
    (receiveAll Json.parse (.of .run defaultRun.budgets) [] .start
      (undisturbed [(relayedBytes defaultRun s.forwarded, true)] true)).2 = some (.ok [7]) := by
  have hrun : (System.trace (Worker.step defaultRun) (fun _ _ => True) (.start defaultRun)
      (promptRun ++ [.exit 0, .poll false, .poll false])).map (fun s =>
        (s.poll, s.forwarded.getLast?.map fun e => (e.kind, e.payload),
          forwardedTraffic defaultRun s.forwarded, s.forwarded.length)) =
      some (.returned 0, some (utf8 "ok", [7]), 18, 2) := by decide +kernel
  obtain ⟨s, hs, heq⟩ := Option.map_eq_some_iff.mp hrun
  simp only [Prod.mk.injEq] at heq
  obtain ⟨hpoll, hlast, htraffic, hlength⟩ := heq
  have hreachable : ((Worker.system defaultRun).restrict fun _ _ _ => True).Reachable s :=
    System.reachable_of_trace rfl hs
  obtain ⟨callbacks, terminal, hsplit, -, -, -, haccepted⟩ := relayed_accepted_iff defaultRun rfl
    Serde.reference_lawful Json.parse decodes_parse hreachable.of_restrict hpoll
    [(relayedBytes defaultRun s.forwarded, true)] (List.flatMap_singleton _ _)
  have houtcome : Relayed.outcome terminal = .ok [7] := by
    rw [hsplit, List.getLast?_concat, Option.map_some] at hlast
    obtain ⟨hkind, hpayload⟩ := Prod.mk.inj (Option.some.inj hlast)
    rw [Relayed.outcome, hkind, hpayload]
    rfl
  rw [← houtcome]
  exact ⟨s, hpoll, haccepted (by rw [htraffic, hlength]; decide) [] true⟩

/-- A child that prints one terminal event and ends is relayed. -/
theorem relayed_single (cfg : Config) {e : Relayed} {maximum : ℕ}
    (hkind : cfg.serde.fromSlice e.header = some e.kind)
    (hmaximum : eventMaximum cfg.operation cfg.budgets e.kind = some maximum)
    (hpayload : e.payload.length ≤ maximum) (hheader : e.header.length ≤ 4096)
    (htraffic : e.traffic ≤ mib64) (hterminal : e.kind ≠ utf8 "callbacks") :
    ∃ s, (Worker.system cfg).Reachable s ∧ s.poll = .returned 0 ∧ s.forwarded = [e] := by
  have hread := readEvent_next hkind hmaximum hpayload hheader htraffic le_rfl []
  rw [List.append_nil] at hread
  have hreader : Worker.step cfg ((Worker.State.start cfg).print e.bytes) .reader =
      some { (Worker.State.start cfg).print e.bytes with
        childOut := [], forwarded := [e], reader := .last } := by
    simp only [Worker.step, stepReader, Worker.State.print, Worker.State.start, List.nil_append,
      hread, hterminal, ne_eq, not_false_eq_true, if_true]
  have hstart : ((Worker.system cfg).restrict fun _ _ _ => True).Reachable (.start cfg) :=
    .init rfl
  have hprinted : ((Worker.system cfg).restrict fun _ _ _ => True).Reachable
      ((Worker.State.start cfg).print e.bytes) :=
    hstart.step (l := .write e.bytes) ⟨rfl, trivial⟩
  -- once the event is forwarded the child ends
  have hended := (hprinted.step ⟨hreader, trivial⟩).of_trace
    (show System.trace (Worker.step cfg) (fun _ _ => True) _
      [.closeInput, .closeOutput, .reader, .reader, .exit 0, .poll false, .poll false] =
        some _ from rfl)
  exact ⟨_, hended.of_restrict, rfl, rfl⟩

/-- Budgets for results as large as the transport takes. -/
def wideBudgets : Budgets where
  value
    | .maxOutput => mib64
    | key => key.builtinDefault
  minimum_le key := by cases key <;> decide
  le_maximum key := by cases key <;> decide

/-- A run with these budgets and empty modules. -/
def wideRun : Config := { defaultRun with budgets := wideBudgets }

/-- A result that fills the traffic budget of the supervisor. -/
def fullResult : Relayed := ⟨Json.quote (utf8 "ok"), utf8 "ok", List.replicate (mib64 - 4) 0⟩

/-- **The same 64 MiB, counted twice.** A result of 64 MiB less its header is within every bound
of the supervisor, which relays it in full and returns 0; the receive loop, which counts the two
lengths as well, refuses it. -/
theorem relayed_not_accepted : ∃ s, (Worker.system wideRun).Reachable s ∧ s.poll = .returned 0 ∧
    s.forwarded = [fullResult] ∧
    ¬ Accepts Json.parse (.of .run wideRun.budgets) [(relayedBytes wideRun [fullResult], true)]
      (Relayed.outcome fullResult) ∧
    ∀ reason, (receiveAll Json.parse (.of .run wideRun.budgets) reason .start
        (undisturbed [(relayedBytes wideRun [fullResult], true)] true)).2 =
      some (.error (.workerError, utf8 "isolated worker exceeded IPC response limit")) := by
  have hheader : fullResult.header.length = 4 := by decide
  have hpayload : fullResult.payload.length = mib64 - 4 := by
    rw [fullResult, List.length_replicate]
  have hmib : 4 ≤ mib64 := by decide
  have hmaximum : eventMaximum wideRun.operation wideRun.budgets fullResult.kind = some mib64 := by
    have houtput : wideRun.budgets.maxOutput = mib64 := rfl
    have hok : fullResult.kind = utf8 "ok" := rfl
    rw [eventMaximum, if_neg (by decide), if_pos hok, resultMaximum, if_neg (by decide), houtput,
      min_self]
  have hkind : wideRun.serde.fromSlice fullResult.header = some fullResult.kind := by
    have hserde : wideRun.serde = .reference := rfl
    rw [hserde, fullResult]
    exact Serde.reference_lawful.fromSlice_quote (utf8 "ok") (by decide)
  have htraffic : fullResult.traffic ≤ mib64 := by
    rw [Relayed.traffic]
    omega
  obtain ⟨s, hs, hpoll, hforwarded⟩ := relayed_single wideRun hkind hmaximum (by omega) (by omega)
    htraffic (by decide)
  -- header and payload fill the transport, so the lengths before them exceed it
  have hlength : mib64 < (relayedBytes wideRun [fullResult]).length := by
    have hquote : (wideRun.serde.toVec fullResult.kind).length = 4 := by decide
    rw [length_relayedBytes, forwardedTraffic, List.map_singleton, List.sum_singleton,
      List.length_singleton]
    omega
  have hrefused := refused_of_length Json.parse (.of .run wideRun.budgets) hlength
    (Relayed.outcome fullResult)
  exact ⟨s, hs, hpoll, hforwarded, (hrefused [] true).1, fun reason => (hrefused reason true).2⟩

end Javex.Backends
