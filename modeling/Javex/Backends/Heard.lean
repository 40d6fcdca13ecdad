import Javex.Backends.Faithful

/-!
# What the run worker hears

The run worker's end of a run within the limits: the events that the supervisor prints are a
well-formed stream for `receive_result/3`, whatever the budgets, and its terminal event decodes to
what `response` made of the outcome (`Within.stream`). The loop has scanned a prefix of it
(`Heard`), with replies of the broker in between, and returns once the supervisor has exited.

* `faithful_step`: every step keeps the run faithful.
* `Faithful.exitStatus`: what the run worker returns.

The loop does not know where an event ends, and what it has scanned may be a prefix that ends inside
one. `Heard` therefore speaks of the bytes: those scanned and those still to come are the wire form
of the events, and the state of the loop is that of the scan of the first part. With the exit status
behind the last byte nothing is left to come.

That the events of a run are a well-formed stream is a fact about budgets: no event is longer than
the bound that the loop has for its kind, because the supervisor's bound is the same or smaller.
-/

namespace Javex.Backends

open Codec Codec.Decoder Isolated Worker Transition

variable {setup : Setup} {completions : List Bytes}

/-- `Jason.decode/1` reads back the kinds that `serde_json` prints. -/
def Decodes (decode : Bytes → Option Json) : Prop :=
  ∀ kind ∈ eventKinds, decode (Json.quote kind) = some (.str kind)

/-- All that the supervisor prints in a run with these completions. -/
def Setup.wire (setup : Setup) (completions : List Bytes) : Bytes :=
  (setup.printed completions).flatMap fun e => Worker.event setup.serde e.kind e.payload

theorem length_wire_le (hwithin : Within setup completions) :
    (setup.wire completions).length ≤ mib64 := by
  have heq : setup.wire completions = (setup.printed completions).flatMap Relayed.bytes := by
    refine List.flatMap_congr fun e he => ?_
    obtain ⟨n, -, rfl⟩ := List.mem_map.mp he
    rfl
  rw [heq]
  exact hwithin.outbound_le

/-! ### The stream of a run -/

/-- The header of a known kind, as both ends write and read it. -/
theorem header_toVec {serde : Serde} {decode : Bytes → Option Json} (hserde : serde.Lawful)
    (hdecode : Decodes decode) {kind : Bytes} (hkind : kind ∈ eventKinds) :
    (serde.toVec kind).length ≤ 4096 ∧ decode (serde.toVec kind) = some (.str kind) := by
  have hshort : ∀ kind ∈ eventKinds, kind.length + 2 ≤ 4096 := by decide
  rw [hserde.toVec_kind kind hkind, length_quote_kind hkind]
  exact ⟨hshort kind hkind, hdecode kind hkind⟩

theorem callbackRequestLimit_le (b : Budgets) :
    callbackRequestLimit b ≤ (Call.of .run b).maximum := by
  simp only [callbackRequestLimit, Call.of, Nat.mul_comm b.maxCallbackInput 6]
  omega

/-- A payload of the bound of its kind is within the bounds of the run worker. -/
theorem response_bounds {b : Budgets} {bytes : Bytes} (h : bytes.length ≤ responseMaximum b) :
    bytes.length ≤ (Call.of .run b).maximum := by
  have hmaximum : responseMaximum b ≤ mib64 := Nat.min_le_right _ _
  simp only [Call.of]
  omega

/-- **The last event is taken for the outcome**, as `response` left it. -/
theorem isTerminal_response (hserde : setup.serde.Lawful) (hdecode : Decodes setup.decode)
    {outcome : Outcome} {kind payload : Bytes}
    (hlimit : match outcome with
      | .ok bytes => bytes.length ≤ setup.budgets.maxOutput
      | .error (_, message) => message.length ≤ max 4096 setup.budgets.maxStderr)
    (hknown : ∀ kind message, outcome = .error (kind, message) → kind ∈ kinds)
    (hresponse : (kind, payload) = response setup.maximum outcome) :
    IsTerminal setup.decode (.of .run setup.budgets) (setup.serde.toVec kind, payload)
      (responded setup.maximum outcome) := by
  have herror : ∀ kind ∈ kinds, utf8 kind.name ∈ eventKinds := by decide
  have hexceeded : IsTerminal setup.decode (.of .run setup.budgets)
      (setup.serde.toVec (utf8 "output_limit"), utf8 "worker response limit exceeded")
      (.error (.outputLimit, utf8 "worker response limit exceeded")) := by
    obtain ⟨hheader, hkind⟩ := header_toVec hserde hdecode (herror .outputLimit (by decide))
    have hshort : (utf8 "worker response limit exceeded").length = 30 := by decide
    refine .error .outputLimit (by decide) hheader ?_ ?_ hkind <;> simp only [hshort, Call.of]
    · have hmib : 4096 ≤ mib64 := by decide
      omega
    · omega
  unfold response at hresponse
  unfold responded
  rcases outcome with ⟨k, message⟩ | bytes
  · dsimp only at hlimit hresponse ⊢
    split_ifs at hresponse ⊢ with hlong
    · cases hresponse
      exact hexceeded
    · cases hresponse
      have hmem := hknown _ _ rfl
      obtain ⟨hheader, hkind⟩ := header_toVec hserde hdecode (herror k hmem)
      exact .error k hmem hheader (response_bounds (Nat.not_lt.mp hlong)) hlimit hkind
  · dsimp only at hlimit hresponse ⊢
    split_ifs at hresponse ⊢ with hlong
    · cases hresponse
      exact hexceeded
    · cases hresponse
      have hok : utf8 "ok" ∈ eventKinds := by decide
      obtain ⟨hheader, hkind⟩ := header_toVec hserde hdecode hok
      exact .ok hheader (response_bounds (Nat.not_lt.mp hlong)) hlimit hkind

/-- **The stream of a run is well formed** under the bounds of the run worker. -/
theorem Within.stream (hserde : setup.serde.Lawful) (hdecode : Decodes setup.decode)
    (hwithin : Within setup completions) :
    ∃ outcome payloads, (setup.execution.advance completions).outcome? = some outcome ∧
      Stream setup.decode (.of .run setup.budgets) (setup.wire completions) payloads
        (responded setup.maximum outcome) := by
  obtain ⟨outcome, kind, payload, -, hended, hresponse, -, hevent, -⟩ := hwithin.event_ended
  obtain ⟨outcome', hended', hlimit⟩ := hwithin.ended
  obtain rfl : outcome = outcome' := Option.some.inj (hended.symm.trans hended')
  have hterminal := isTerminal_response hserde hdecode hlimit
    (fun k message heq => mem_kinds (setup.execution.known (known_of_outcome hended heq)))
    hresponse
  refine ⟨outcome, _, hended, ((setup.printed completions).take completions.length).map
    (fun e => (setup.serde.toVec e.kind, e.payload)), _, ?_, ?_, hterminal, rfl⟩
  · rw [Setup.wire, setup.printed_eq, List.flatMap_append, List.flatMap_singleton, hevent,
      List.flatMap_map, List.take_append_of_le_length (by simp), List.take_take, Nat.min_self]
    rfl
  · intro e he
    obtain ⟨d, hd, rfl⟩ := List.mem_map.mp he
    obtain ⟨n, hn, rfl⟩ := List.mem_take_iff_getElem.mp hd
    have hlt : n < completions.length := by
      rw [Setup.length_printed] at hn
      omega
    obtain ⟨frame, -, hevent', hframe⟩ := hwithin.event_pending hlt
    have hcallbacks : utf8 "callbacks" ∈ eventKinds := by decide
    obtain ⟨hheader, hkind⟩ := header_toVec hserde hdecode hcallbacks
    simp only [Setup.printed, List.getElem_map, List.getElem_range, hevent']
    exact ⟨rfl, hheader, hframe.trans (callbackRequestLimit_le _), hkind⟩

/-! ### The loop of the run worker -/

/-- Decoding events only dispatches. -/
theorem dispatches_of_decodeEvents (decode : Bytes → Option Json) (call : Call)
    (state : Isolated.State) :
    ∀ effect ∈ (decodeEvents decode call state).1, ∃ bytes, effect = .dispatch bytes := by
  have hevent : ∀ cancelled handled, ∀ effect ∈ eventEffects cancelled handled,
      ∃ bytes, effect = .dispatch bytes := by
    intro cancelled handled effect he
    cases handled with
    | dispatch bytes =>
      simp only [eventEffects] at he
      split_ifs at he
      · cases he
      · exact ⟨bytes, List.mem_singleton.mp he⟩
    | result _ | invalid => cases he
  induction hn : state.buffer.length using Nat.strongRecOn generalizing state with
  | _ n ih =>
    rw [decodeEvents_eq]
    cases hnext : (eventDecoder call.maximum).next state.buffer with
    | more | bad => exact fun _ he => absurd he List.not_mem_nil
    | done e tail =>
      have hlen : tail.length < n := hn ▸ (eventDecoder call.maximum).shrinks hnext
      dsimp only
      by_cases hresult : state.result.isSome = true
      · rw [if_pos hresult]
        exact fun _ he => absurd he List.not_mem_nil
      · rw [if_neg hresult]
        cases hhandled : applyEvent state tail (handleEvent decode call e.1 e.2) with
        | none => exact hevent _ _
        | some state' =>
          have htail : state'.buffer = tail := by
            cases hh : handleEvent decode call e.1 e.2 <;> rw [hh] at hhandled <;>
              cases hhandled <;> rfl
          intro effect he
          rcases List.mem_append.mp he with hfirst | hlater
          · exact hevent _ _ _ hfirst
          · exact ih tail.length hlen state' (htail ▸ rfl) effect hlater

/-- What is only dispatched does nothing to the supervisor. -/
theorem perform_dispatches (w : Worker.State) {effects : List Effect}
    (h : ∀ effect ∈ effects, ∃ bytes, effect = .dispatch bytes) : perform w effects = w := by
  induction effects with
  | nil => rfl
  | cons effect effects ih =>
    obtain ⟨⟨bytes, rfl⟩, hrest⟩ := List.forall_mem_cons.mp h
    exact ih hrest

/-- The run worker has scanned `heard`, a first part of what the supervisor has printed. -/
structure Heard (setup : Setup) (s : Session) (heard : Bytes) (effects : List Effect) : Prop where
  printed : Session.relayed setup s.worker = heard ++ s.stdout
  scan : scanEvents setup.decode (.of .run setup.budgets) false none [] heard =
    .pending (s.loop.result, effects) s.loop.buffer
  cancelled : s.loop.cancelled = false
  failure : s.loop.failure = none
  size : s.loop.size = heard.length

variable {s : Session} {heard : Bytes} {effects : List Effect}

/-- A first part of a well-formed stream does not fail. -/
theorem scanEvents_of_leading {decode : Bytes → Option Json} {call : Call} {bytes later : Bytes}
    {payloads : List Bytes} {outcome : Outcome}
    (h : Stream decode call (bytes ++ later) payloads outcome) :
    ∃ result effects buffer,
      scanEvents decode call false none [] bytes = .pending (result, effects) buffer := by
  have hscan := h.scanEvents
  rw [Isolated.scanEvents, scan_append] at hscan
  cases hbytes : scanEvents decode call false none [] bytes with
  | pending found buffer => exact ⟨found.1, found.2, buffer, rfl⟩
  | failed found =>
    rw [Isolated.scanEvents] at hbytes
    rw [hbytes] at hscan
    cases hscan

/-- **The port delivers a chunk**: the loop goes on, having scanned that much more. -/
theorem Heard.data {payloads : List Bytes} {outcome : Outcome} {chunk later : Bytes}
    (h : Heard setup { s with stdout := chunk ++ later } heard effects)
    {rest : Bytes} (hstream : Stream setup.decode (.of .run setup.budgets)
      (heard ++ chunk ++ rest) payloads outcome)
    (hsize : (heard ++ chunk).length ≤ mib64) (portOpen : Bool) :
    ∃ loop effects,
      Session.receive setup { s with stdout := later } portOpen (.data chunk) =
        { s with stdout := later, loop := loop } ∧
      Heard setup { s with stdout := later, loop := loop } (heard ++ chunk) effects := by
  obtain ⟨hprinted, hscan, hcancelled, hfailure, hlength⟩ := h
  dsimp only at hprinted hscan hcancelled hfailure hlength
  obtain ⟨result, effects', buffer, hpending⟩ := scanEvents_of_leading hstream
  have hfeed := hpending
  rw [Isolated.scanEvents, scan_append] at hfeed
  rw [Isolated.scanEvents] at hscan
  rw [hscan] at hfeed
  obtain ⟨heffects, hstate⟩ := decodeEvents_scan setup.decode (.of .run setup.budgets)
    (Isolated.received s.loop chunk) effects
  have hreceived : (Isolated.received s.loop chunk).cancelled = false := hcancelled
  have hsame : scanEvents setup.decode (.of .run setup.budgets)
      (Isolated.received s.loop chunk).cancelled (Isolated.received s.loop chunk).result effects
      (Isolated.received s.loop chunk).buffer = .pending (result, effects') buffer := by
    rw [hreceived]
    exact hfeed
  rw [hsame] at heffects hstate
  have hfits : s.loop.size + chunk.length ≤ mib64 := by
    rw [hlength, ← List.length_append]
    exact hsize
  have hturn := receiveResult_data setup.decode (.of .run setup.budgets) portOpen hfits
  have hdispatches := dispatches_of_decodeEvents setup.decode (.of .run setup.budgets)
    (Isolated.received s.loop chunk)
  cases hdecoded : decodeEvents setup.decode (.of .run setup.budgets)
      (Isolated.received s.loop chunk) with
  | mk more next =>
    rw [hdecoded] at heffects hstate hturn hdispatches
    obtain rfl := hstate
    refine ⟨{ Isolated.received s.loop chunk with buffer, result }, effects', ?_, ?_, hpending,
      hcancelled, hfailure, ?_⟩
    · simp only [Session.receive, hturn, perform_dispatches s.worker hdispatches]
    · rw [List.append_assoc]
      exact hprinted
    · simp only [Isolated.received, hlength, List.length_append]

/-! ### Both ends -/

/-- The reader thread only adds to what it has forwarded. -/
theorem forwarded_mono {cfg : Config} {w w' : Worker.State} {l : Worker.Label}
    (h : Worker.step cfg w l = some w') : w.forwarded <+: w'.forwarded := by
  cases l with
  | writer n =>
    rw [stepWriter_frame h]
  | stdin =>
    rw [stepStdin_frame h]
  | poll late =>
    rw [stepPoll_frame h]
  | reader =>
    simp only [Worker.step, stepReader] at h
    repeat' split at h
    all_goals cases h
    all_goals first | exact List.prefix_rfl | exact List.prefix_append _ _
  | exit code =>
    simp only [Worker.step, stepExit] at h
    split_ifs at h
    cases h
    exact List.prefix_rfl
  | complete _ | cancel | close | arrive _ | write _ | consume _ | closeInput | closeOutput | boot
  | ask _ _ | finish _ _ =>
    simp only [Worker.step] at h
    try split at h
    all_goals cases h
    all_goals exact List.prefix_rfl
  | take =>
    simp only [Worker.step] at h
    split_ifs at h
    split at h <;> cases h
    exact List.prefix_rfl

theorem relayed_mono (setup : Setup) {w w' : Worker.State} (h : w.forwarded <+: w'.forwarded) :
    Session.relayed setup w <+: Session.relayed setup w' := by
  obtain ⟨new, hnew⟩ := h
  rw [Session.relayed, Session.relayed, ← hnew, List.flatMap_append]
  exact List.prefix_append _ _

/-- What the supervisor has printed is a first part of the stream of the run. -/
theorem Steady.relayed_wire {w : Worker.State} (h : Steady setup completions w) :
    Session.relayed setup w <+: setup.wire completions := by
  obtain ⟨pending, hup⟩ := h.upstream
  have hforwarded : w.forwarded <+: setup.printed completions := by
    refine List.IsPrefix.trans ?_ (h.events ▸ List.take_prefix _ _)
    rw [hup.events_eq]
    exact List.prefix_append _ _
  obtain ⟨new, hnew⟩ := hforwarded
  rw [Session.relayed, Setup.wire, ← hnew, List.flatMap_append]
  exact List.prefix_append _ _

/-- The run, and what the run worker returned once it has. -/
structure Faithful (setup : Setup) (completions : List Bytes) (s : Session) : Prop where
  steady : Steady setup completions s.worker
  heard : ∃ heard effects, Heard setup s heard effects
  outcome : ∀ outcome, s.outcome = some outcome →
    ∃ result, (setup.execution.advance completions).outcome? = some result ∧
      outcome = responded setup.maximum result

theorem faithful_start : Faithful setup completions (.start setup) where
  steady := steady_start
  heard := ⟨[], [], rfl, by rw [Isolated.scanEvents, scan_more rfl]; rfl, rfl, rfl, rfl⟩
  outcome _ h := by cases h

/-- A step of the supervisor prints what its reader forwards. -/
theorem Faithful.advanceWorker {t : Session} (h : Faithful setup completions s)
    {l : Worker.Label} (hsteady : ∀ w, Worker.step setup.config s.worker l = some w →
      Steady setup completions w) (hstep : s.advanceWorker setup l = some t) :
    Faithful setup completions t := by
  obtain ⟨w, hw, rfl⟩ := Option.map_eq_some_iff.mp hstep
  obtain ⟨heard, effects, hprinted, hscan, hcancelled, hfailure, hsize⟩ := h.heard
  obtain ⟨new, hnew⟩ := relayed_mono setup (forwarded_mono hw)
  refine ⟨hsteady w hw, ⟨heard, effects, ?_, hscan, hcancelled, hfailure, hsize⟩, h.outcome⟩
  dsimp only
  rw [← hnew, List.drop_left, hprinted, List.append_assoc]

/-- The child prints the event of its turn. -/
theorem Faithful.advance (hserde : setup.serde.Lawful) (hwithin : Within setup completions)
    {t : Session} (h : Faithful setup completions s) (hnone : s.outcome.isSome = false)
    (hstep : step setup s .advance = some t) : Faithful setup completions t := by
  have hsteady := h.steady
  have htaken := hsteady.taken.2
  simp only [step, hnone, Bool.false_eq_true, if_false] at hstep
  by_cases hlast : s.worker.taken.length < completions.length
  · obtain ⟨frame, hpending, hevent, hframe⟩ := hwithin.event_pending hlast
    rw [← htaken] at hpending hevent
    simp only [hpending, Progress.event] at hstep
    refine h.advanceWorker (fun w hw => ?_) hstep
    have hrelay := relay_step hsteady.relay hw
    simp only [Worker.step] at hw
    split_ifs at hw with hask
    cases hw
    exact hsteady.printEvent hserde hwithin hask.2 .waiting rfl hevent rfl hframe
      (by simp) (fun hguest => Guest.noConfusion hguest) hrelay
  · have hall : s.worker.taken = completions := by
      rw [htaken, List.take_of_length_le (Nat.not_lt.mp hlast)]
    obtain ⟨outcome, kind, payload, maximum, hended, -, hprogress, hevent, hkind, hmaximum,
      hpayload⟩ := hwithin.event_ended
    rw [← hall] at hended hprogress hevent
    have hfinish : s.advanceWorker setup (.finish kind payload) = some t := by
      rw [hprogress] at hstep
      cases hcase : setup.execution.advance s.worker.taken with
      | pending frame =>
        rw [hcase] at hended
        cases hended
      | done _ | err _ _ =>
        rw [hcase] at hstep
        exact hstep
    refine h.advanceWorker (fun w hw => ?_) hfinish
    have hrelay := relay_step hsteady.relay hw
    simp only [Worker.step] at hw
    split_ifs at hw with hdone
    cases hw
    exact hsteady.printEvent hserde hwithin hdone.2 .finished rfl hevent hmaximum
      hpayload (by simpa using hkind) (fun _ => hall) hrelay

/-- A supervisor that has exited has a child that has finished. -/
theorem Steady.of_status (h : Steady setup completions s.worker) {status : ℕ}
    (hstatus : s.status? = some status) :
    status = 0 ∧ s.worker.poll = .returned 0 ∧ s.worker.guest = .finished := by
  unfold Session.status? at hstatus
  split at hstatus
  · rename_i code hpoll
    cases hstatus
    rcases h.poll with hwatching | ⟨hexit, hjoining | hreturned⟩
    · rw [hpoll] at hwatching
      exact hwatching.elim
    · rw [hpoll] at hjoining
      cases hjoining
    · rw [hpoll] at hreturned
      cases hreturned
      refine ⟨rfl, hpoll, ?_⟩
      rcases h.exit with hnone | ⟨-, hguest, -⟩
      · rw [hnone] at hexit
        cases hexit
      · exact hguest
  · cases hstatus

/-- A completion is handed to the supervisor. -/
theorem receive_reply (hcancelled : s.loop.cancelled = false) {c : Bytes} (hne : c ≠ []) :
    s.receive setup true (.callbackReply c) =
      { s with worker := { s.worker.send c with sent := s.worker.sent ++ [c] } } := by
  have hlen : ¬ (frameBytes c).length ≤ 4 := by
    have hpos := List.length_pos_iff.mpr hne
    rw [length_frameBytes]
    omega
  have hturn : receiveResult setup.decode (.of .run setup.budgets) true s.loop
      (.callbackReply c) = ([.command (frameBytes c)], .loop s.loop) := by
    simp [receiveResult, hcancelled]
  simp only [Session.receive, hturn, perform, List.foldl_cons, List.foldl_nil, command,
    if_neg hlen]
  rfl

/-- The broker's next completion goes to the supervisor. -/
theorem Faithful.reply (hwithin : Within setup completions) (h : Faithful setup completions s)
    {c : Bytes} (hnext : s.worker.sent ++ [c] <+: completions) (portOpen : Bool)
    (hopen : portOpen = true ∨ s.status?.isSome = true) :
    Faithful setup completions (s.receive setup portOpen (.callbackReply c)) := by
  obtain ⟨heard, effects, hprinted, hscan, hcancelled, hfailure, hsize⟩ := h.heard
  obtain ⟨hne, -⟩ := hwithin.bounded c (hnext.subset (by simp))
  -- nothing is left to send once the supervisor has exited
  obtain rfl : portOpen = true := by
    refine hopen.resolve_right fun hstatus => ?_
    obtain ⟨status, hstatus⟩ := Option.isSome_iff_exists.mp hstatus
    have hall := (h.steady.quiet (h.steady.of_status hstatus).2.2).1
    have hlong := hnext.length_le
    rw [hall] at hlong
    simp at hlong
  rw [receive_reply hcancelled hne]
  exact ⟨h.steady.complete hwithin hnext,
    ⟨heard, effects, hprinted, hscan, hcancelled, hfailure, hsize⟩, h.outcome⟩

/-- The port delivers a chunk of the stream. -/
theorem Faithful.data (hserde : setup.serde.Lawful) (hdecode : Decodes setup.decode)
    (hwithin : Within setup completions) (h : Faithful setup completions s) (n : ℕ)
    (portOpen : Bool) :
    Faithful setup completions
      ({ s with stdout := s.stdout.drop n }.receive setup portOpen (.data (s.stdout.take n))) := by
  obtain ⟨heard, effects, hheard⟩ := h.heard
  obtain ⟨outcome, payloads, -, hstream⟩ := hwithin.stream hserde hdecode
  obtain ⟨later, hlater⟩ := h.steady.relayed_wire
  have hsplit : setup.wire completions =
      heard ++ s.stdout.take n ++ (s.stdout.drop n ++ later) := by
    rw [← hlater, hheard.printed, List.append_assoc, List.append_assoc,
      ← List.append_assoc (s.stdout.take n), List.take_append_drop]
  have hsize := length_wire_le hwithin
  rw [hsplit] at hstream hsize
  have hheard' : Heard setup { s with stdout := s.stdout.take n ++ s.stdout.drop n } heard
      effects := by
    rw [List.take_append_drop]
    exact hheard
  obtain ⟨loop, effects', hreceive, hnew⟩ := hheard'.data hstream
    (by rw [List.length_append] at hsize; omega) portOpen
  rw [hreceive]
  exact ⟨h.steady, ⟨_, effects', hnew⟩, h.outcome⟩

/-- **The run worker returns** what `response` made of the outcome. -/
theorem Faithful.exitStatus (hserde : setup.serde.Lawful) (hdecode : Decodes setup.decode)
    (hwithin : Within setup completions) (h : Faithful setup completions s) {status : ℕ}
    (hstatus : s.status? = some status) (hstdout : s.stdout = []) :
    ∃ result, (setup.execution.advance completions).outcome? = some result ∧
      s.receive setup true (.exitStatus status) =
        { s with outcome := some (responded setup.maximum result) } := by
  obtain ⟨heard, effects, hprinted, hscan, hcancelled, hfailure, hsize⟩ := h.heard
  obtain ⟨result, payloads, hended, hstream⟩ := hwithin.stream hserde hdecode
  obtain ⟨rfl, hpoll, hguest⟩ := h.steady.of_status hstatus
  obtain ⟨pending, hup⟩ := h.steady.upstream
  have hreported := h.steady.relay.reported
  rw [hpoll] at hreported
  have hreader := hreported rfl
  -- the reader is done, so it has forwarded the whole stream
  have hpending : pending = [] := by
    rcases hup.reader with ⟨_, _, hreading⟩ | ⟨-, hpending, -⟩
    · rw [hreader] at hreading
      cases hreading
    · exact hpending
  have hall : s.worker.forwarded = setup.printed completions := by
    have hevents := h.steady.events
    rw [h.steady.finished hguest, hguest, hup.events_eq, hpending, List.append_nil] at hevents
    rw [hevents, List.take_of_length_le (by simp [Guest.turn])]
  have hwire : heard = setup.wire completions := by
    rw [hstdout, List.append_nil] at hprinted
    rw [← hprinted, Session.relayed, Setup.wire, hall]
  rw [hwire, hstream.scanEvents] at hscan
  obtain ⟨hfound, hbuffer⟩ := Scan.pending.inj hscan
  obtain ⟨hresult, -⟩ := Prod.mk.inj hfound
  refine ⟨result, hended, ?_⟩
  have hturn : receiveResult setup.decode (.of .run setup.budgets) true s.loop (.exitStatus 0) =
      ([], .return (responded setup.maximum result)) := by
    simp only [receiveResult, hfailure, Option.getD_none, workerResult_zero, ← hbuffer,
      if_true, ← hresult, Option.getD_some]
  simp only [Session.receive, hturn]
  rfl

/-- **Every step keeps the run faithful.** -/
theorem faithful_step (hserde : setup.serde.Lawful) (hdecode : Decodes setup.decode)
    (hwithin : Within setup completions) {t : Session} {l : Label}
    (h : Faithful setup completions s) (hl : Provided setup completions s l)
    (hstep : step setup s l = some t) : Faithful setup completions t := by
  have hnone : s.outcome.isSome = false := by
    cases houtcome : s.outcome with
    | none => rfl
    | some outcome => simp [step, houtcome] at hstep
  cases l with
  | advance => exact h.advance hserde hwithin hnone hstep
  | worker l =>
    have hworker : (∀ calls kind payload bytes, l ≠ .complete bytes ∧ l ≠ .cancel ∧ l ≠ .close ∧
        l ≠ .ask calls payload ∧ l ≠ .finish kind payload) ∧ s.advanceWorker setup l = some t := by
      cases l <;> simp only [step, hnone, Bool.false_eq_true, if_false] at hstep <;>
        first | (cases hstep; done) | exact ⟨by simp, hstep⟩
    exact h.advanceWorker (fun w hw => h.steady.worker_step hl hworker.1 hw) hworker.2
  | notice notice portOpen =>
    simp only [step, hnone, Bool.false_eq_true, if_false] at hstep
    cases notice with
    | reply c =>
      dsimp only [Notice.message] at hstep
      split_ifs at hstep with hopen
      cases hstep
      exact h.reply hwithin (List.isPrefixOf_iff_prefix.mp hl) portOpen (by simpa using hopen)
    | error _ _ | brokerDown | runtimeDown | cancel => exact hl.elim
  | data n portOpen =>
    simp only [step, hnone, Bool.false_eq_true, if_false] at hstep
    split_ifs at hstep
    cases hstep
    exact h.data hserde hdecode hwithin n portOpen
  | exitStatus =>
    simp only [step, hnone, Bool.false_eq_true, if_false] at hstep
    split at hstep
    · rename_i status hstatus
      split_ifs at hstep with hstdout
      cases hstep
      obtain ⟨result, hended, hreceive⟩ := h.exitStatus hserde hdecode hwithin hstatus hstdout
      obtain ⟨heard, effects, hprinted, hscan, hcancelled, hfailure, hsize⟩ := h.heard
      rw [hreceive]
      refine ⟨h.steady, ⟨heard, effects, hprinted, hscan, hcancelled, hfailure, hsize⟩,
        fun outcome houtcome => ⟨result, hended, ?_⟩⟩
      exact (Option.some.inj houtcome).symm
    · cases hstep

end Javex.Backends
