import Javex.Worker.Inbound
import Javex.Worker.Relay

/-!
# The two ways through the supervisor

What lies between the BEAM and a child that follows the protocol, as long as the threads stay in
their loops. `Downstream` is the way of the completions: what was sent is, in this order, what
the child has taken, what is on its way through the child's pipe, the channel, the hand of the
stdin thread and the port. `Upstream` is the way of the events: those the child printed are
those forwarded and those in the pipe, one more than the completions taken at most, so the
reader's rounds suffice.

Each step of a thread, of the child or of the BEAM has a lemma that says what becomes of its way.

Both invariants are equations between lists: what went in at one end is what came out at the other
followed by what is under way, place by place. An equation of this kind rules out loss, duplication
and a change of order at once, and a step of a thread moves an element across one of the places, so
that each lemma is a rearrangement of appends.

The places that hold part of a frame (a pipe that has taken some of its bytes) are the reason why
the places are lists of bytes on one side and lists of completions on the other; a frame counts as a
completion from the moment at which its last byte is there.
-/

namespace Javex.Worker

open Codec Codec.Decoder Isolated Transition

variable {cfg : Config} {s t : State}

/-- The polling loop goes round. -/
def Poll.Watching : Poll → Prop
  | .tryWait | .loadCancelled | .loadOverflow | .checkDeadline => True
  | _ => False

/-! ### Towards the child -/

/-- The request, as long as the child has not read it. -/
def unread (cfg : Config) (s : State) : Bytes :=
  if s.guest = .booting then cfg.requestBytes else []

/-- The way of the completions to the child: `piped` are those that the writer thread took from
the channel and the child has not read, `waiting` those in the port. -/
structure Downstream (cfg : Config) (s : State) (piped waiting : List Bytes) : Prop where
  inbound : Inbound cfg s (s.taken ++ piped ++ s.channel) waiting
  pipe_eq : unread cfg s ++ piped.flatMap frameBytes = s.childIn ++ s.writer.rest
  writer : s.writer.Live
  cancelled : s.cancelled = false
  booting : s.guest = .booting → s.taken = []

theorem downstream_start : Downstream cfg (.start cfg) [] [] where
  inbound := inbound_start
  pipe_eq := by simp [unread, State.start, Writer.rest]
  writer := trivial
  cancelled := rfl
  booting _ := rfl

variable {piped waiting : List Bytes}

/-- A step on the other side. -/
theorem Downstream.elsewhere (h : Downstream cfg s piped waiting)
    (ht : t = { s with
      childOut := t.childOut, produced := t.produced, reader := t.reader
      forwarded := t.forwarded, overflow := t.overflow, poll := t.poll
      childReads := t.childReads, childWrites := t.childWrites, exit := t.exit }) :
    Downstream cfg t piped waiting := by
  rw [ht]
  exact ⟨h.inbound.elsewhere rfl rfl rfl rfl, h.pipe_eq, h.writer, h.cancelled, h.booting⟩

/-- The writer thread passes on what it takes from the channel; it does not write to a pipe
that is closed. -/
theorem Downstream.writer_step (h : Downstream cfg s piped waiting) {n : ℕ}
    (hreads : ∀ rest, s.writer = .writing rest → s.childReads = true)
    (hstep : stepWriter s n = some t) : ∃ piped, Downstream cfg t piped waiting := by
  have hlive := h.writer
  have hpipe := h.pipe_eq
  cases hwriter : s.writer with
  | writing rest =>
    obtain ⟨chunk, w, hw, rfl, rfl⟩ := stepWriter_writing hwriter (hreads _ hwriter) hstep
    refine ⟨piped, ⟨h.inbound.elsewhere rfl rfl rfl rfl, ?_, hw, h.cancelled, h.booting⟩⟩
    change unread cfg s ++ _ = _
    rw [hpipe, hwriter, Writer.rest, List.append_assoc]
  | receiving =>
    rw [hwriter] at hpipe
    simp only [stepWriter, hwriter] at hstep
    split at hstep
    · rename_i bytes later hchannel
      cases hstep
      refine ⟨piped ++ [bytes], ⟨?_, ?_, trivial, h.cancelled, h.booting⟩⟩
      · have hin := h.inbound.elsewhere (t := { s with
          channel := later, writer := .writing (frameBytes bytes) }) rfl rfl rfl rfl
        rw [hchannel] at hin
        simpa using hin
      · change unread cfg s ++ _ = _
        rw [List.flatMap_append, List.flatMap_singleton, ← List.append_assoc, hpipe]
        simp [Writer.rest]
    · split_ifs at hstep with hgone
      -- the stdin thread has not left its loop
      have hcounted := h.inbound.counted
      rw [hgone] at hcounted
      exact hcounted.elim
  | leaving | stored | gone =>
    rw [hwriter] at hlive
    exact hlive.elim

/-- The stdin thread hands on what it reads, if there is room in the channel. -/
theorem Downstream.stdin_step (h : Downstream cfg s piped waiting)
    (hroom : s.stdin.hand ≠ [] → s.channel.length < cfg.capacity)
    (hstep : stepStdin cfg s = some t) : ∃ waiting, Downstream cfg t piped waiting := by
  have hframe := stepStdin_frame hstep
  have hlive : s.writer ≠ .gone := by
    intro hgone
    have hwriter := h.writer
    rw [hgone] at hwriter
    exact hwriter
  obtain ⟨new, later, hin, hchannel, hflag⟩ :=
    h.inbound.stdin (fun hhand => ⟨hlive, hroom hhand⟩) hstep
  refine ⟨later, ⟨?_, ?_, ?_, hflag.trans h.cancelled, ?_⟩⟩
  · have htaken : t.taken = s.taken := by rw [hframe]
    rw [hchannel, htaken, ← List.append_assoc]
    exact hin
  all_goals rw [hframe]
  · exact h.pipe_eq
  · exact h.writer
  · exact h.booting

/-- The port passes on some of what it holds. -/
theorem Downstream.arrive (h : Downstream cfg s piped waiting) (n : ℕ) :
    Downstream cfg { s with
      portIn := s.portIn ++ s.queued.take n, queued := s.queued.drop n } piped waiting := by
  refine ⟨h.inbound.elsewhere rfl rfl ?_ rfl, h.pipe_eq, h.writer, h.cancelled, h.booting⟩
  simp only [List.append_assoc, List.take_append_drop]

/-- The child reads its request. -/
theorem Downstream.boot (h : Downstream cfg s piped waiting) (hguest : s.guest = .booting)
    (hrequest : cfg.requestBytes.isPrefixOf s.childIn) :
    Downstream cfg { s with
      childIn := s.childIn.drop cfg.requestBytes.length, guest := .computing } piped waiting := by
  obtain ⟨later, hlater⟩ := List.isPrefixOf_iff_prefix.mp hrequest
  have hpipe := h.pipe_eq
  refine ⟨h.inbound.elsewhere rfl rfl rfl rfl, ?_, h.writer, h.cancelled, Guest.noConfusion⟩
  rw [unread, if_pos hguest, ← hlater, List.append_assoc] at hpipe
  simpa [unread, ← hlater] using List.append_cancel_left hpipe

/-- A completion that was sent can be read again. -/
theorem Downstream.readable (h : Downstream cfg s piped waiting) {c : Bytes}
    (hc : c ∈ s.sent) : c.length ≤ mib64 ∧ c.length < 4294967296 := by
  have hmib : mib64 < 4294967296 := by decide
  have hmax := completionMaximum_le cfg
  have hbound := h.inbound.bounded c hc
  omega

/-- The child takes the completion at the front of its pipe. -/
theorem Downstream.take (h : Downstream cfg s piped waiting) (hguest : s.guest = .waiting)
    {bytes rest : Bytes} (hnext : (frame mib64).next s.childIn = .done bytes rest) :
    ∃ piped, Downstream cfg { s with
      childIn := rest, taken := s.taken ++ [bytes], guest := .computing } piped waiting := by
  have hpipe := h.pipe_eq
  rw [unread, if_neg (by rw [hguest]; decide), List.nil_append] at hpipe
  have hfirst : ∀ c ∈ piped.head?, c.length ≤ mib64 ∧ c.length < 4294967296 := by
    intro c hc
    exact h.readable (by rw [h.inbound.sent_eq]; simp [List.mem_of_mem_head? hc])
  rcases frame_next_of_flatMap hpipe hfirst with hmore | ⟨c, tail, others, rfl, hdone, hrest⟩
  · rw [hmore] at hnext
    cases hnext
  · rw [hdone] at hnext
    cases hnext
    refine ⟨others, ⟨?_, by simpa [unread] using hrest, h.writer, h.cancelled,
      Guest.noConfusion⟩⟩
    have hin := h.inbound.elsewhere (t := { s with
      childIn := rest, taken := s.taken ++ [bytes], guest := .computing }) rfl rfl rfl rfl
    simpa using hin

/-- The child prints an event. -/
theorem Downstream.printEvent (h : Downstream cfg s piped waiting) (kind payload : Bytes)
    (hguest : s.guest = .computing) {guest : Guest} (hturn : guest ≠ .booting) (asked : ℕ) :
    Downstream cfg { s.printEvent cfg kind payload with guest := guest, asked := asked }
      piped waiting := by
  have hpipe := h.pipe_eq
  rw [unread, if_neg (by rw [hguest]; decide)] at hpipe
  refine ⟨h.inbound.elsewhere rfl rfl rfl rfl, ?_, h.writer, h.cancelled,
    fun hbooting => absurd hbooting hturn⟩
  rw [unread, if_neg hturn]
  exact hpipe

/-- The BEAM sends one more completion. -/
theorem Downstream.complete (h : Downstream cfg s piped waiting) {bytes : Bytes}
    (hbytes : WellFormed cfg s (.complete bytes)) :
    Downstream cfg { s.send bytes with sent := s.sent ++ [bytes] } piped (waiting ++ [bytes]) where
  inbound := h.inbound.complete hbytes
  pipe_eq := h.pipe_eq
  writer := h.writer
  cancelled := h.cancelled
  booting := h.booting

/-- The child has taken no more completions than the run may have. -/
theorem Downstream.taken_le (h : Downstream cfg s piped waiting) :
    s.taken.length ≤ cfg.maxCallbacks := by
  have hlength := h.inbound.length_le
  rw [h.inbound.sent_eq] at hlength
  simp only [List.length_append] at hlength
  omega

/-! ### Towards the BEAM -/

/-- An event of the child that the reader will read. -/
def Legible (cfg : Config) (e : Relayed) : Prop :=
  Admissible cfg e ∧ e.header.length ≤ 4096

/-- The event the child has printed for its current turn. -/
def Guest.turn : Guest → ℕ
  | .waiting | .finished => 1
  | .booting | .computing => 0

/-- The way of the events to the reader: `pending` are those in the pipe. -/
structure Upstream (cfg : Config) (s : State) (pending : List Relayed) : Prop where
  events_eq : s.events = s.forwarded ++ pending
  pipe_eq : s.childOut = pending.flatMap Relayed.bytes
  legible : ∀ e ∈ s.events, Legible cfg e
  traffic_le : traffic s.events ≤ mib64
  count : s.events.length = s.taken.length + s.guest.turn
  callbacks : AllCallbacks s.events.dropLast
  unfinished : s.guest ≠ .finished → AllCallbacks s.events
  finished : s.guest = .finished → Complete s.events
  reader : (∃ left remaining, s.reader = .reading left remaining) ∨
    s.guest = .finished ∧ pending = [] ∧
      (s.reader = .last ∨ s.reader = .storing true ∨ s.reader = .done true)
  overflow : s.overflow = false

variable {pending : List Relayed}

theorem upstream_start : Upstream cfg (.start cfg) [] where
  events_eq := rfl
  pipe_eq := rfl
  legible _ he := absurd he List.not_mem_nil
  traffic_le := Nat.zero_le _
  count := rfl
  callbacks _ he := absurd he List.not_mem_nil
  unfinished _ _ he := absurd he List.not_mem_nil
  finished := Guest.noConfusion
  reader := .inl ⟨_, _, rfl⟩
  overflow := rfl

/-- A step on the other side. -/
theorem Upstream.elsewhere (h : Upstream cfg s pending)
    (ht : t = { s with
      queued := t.queued, portIn := t.portIn, portClosed := t.portClosed, stdin := t.stdin
      channel := t.channel, writer := t.writer, cancelled := t.cancelled, childIn := t.childIn
      childReads := t.childReads, childWrites := t.childWrites, exit := t.exit, poll := t.poll
      sent := t.sent }) :
    Upstream cfg t pending := by
  rw [ht]
  exact ⟨h.events_eq, h.pipe_eq, h.legible, h.traffic_le, h.count, h.callbacks, h.unfinished,
    h.finished, h.reader, h.overflow⟩

/-- A turn of a guest that has not finished keeps the reader in its loop. -/
theorem Upstream.reading (h : Upstream cfg s pending) (hguest : s.guest ≠ .finished) :
    ∃ left remaining, s.reader = .reading left remaining :=
  h.reader.resolve_right fun hlast => hguest hlast.1

/-- The child begins its next turn: it has read its request, or a completion. -/
theorem Upstream.compute (h : Upstream cfg s pending) (hguest : s.guest ≠ .finished)
    (childIn : Bytes) {taken : List Bytes} (hcount : taken.length = s.taken.length + s.guest.turn) :
    Upstream cfg { s with childIn := childIn, taken := taken, guest := .computing } pending where
  events_eq := h.events_eq
  pipe_eq := h.pipe_eq
  legible := h.legible
  traffic_le := h.traffic_le
  count := h.count.trans hcount.symm
  callbacks := h.callbacks
  unfinished _ := h.unfinished hguest
  finished := Guest.noConfusion
  reader := .inl (h.reading hguest)
  overflow := h.overflow

/-- A reader that has forwarded every event, but waits for another, has a guest that has not
printed its last. -/
theorem Upstream.unfinished_of_reading (h : Upstream cfg s []) (hrelay : Relay cfg s)
    {left remaining : ℕ} (hreader : s.reader = .reading left remaining) :
    s.guest ≠ .finished := by
  intro hguest
  have hstage := hrelay.stage
  rw [hreader] at hstage
  obtain ⟨callbacks, terminal, heq, -, hterminal⟩ := h.finished hguest
  have hevents := h.events_eq
  rw [List.append_nil] at hevents
  exact hterminal (hstage.1 terminal (by rw [← hevents, heq]; simp))

/-- The reader reads the event at the front of the pipe. -/
theorem Upstream.next_event {e : Relayed} {later : List Relayed}
    (h : Upstream cfg s (e :: later)) (hrelay : Relay cfg s) {left remaining : ℕ}
    (hreader : s.reader = .reading left remaining) :
    (readEvent cfg.serde cfg.operation cfg.budgets remaining).next s.childOut =
      .done e (later.flatMap Relayed.bytes) := by
  have hstage := hrelay.stage
  rw [hreader] at hstage
  obtain ⟨-, -, hbudget⟩ := hstage
  have hevents := h.events_eq
  obtain ⟨⟨hkind, maximum, hmaximum, hpayload⟩, hheader⟩ := h.legible e (by rw [hevents]; simp)
  have htraffic := h.traffic_le
  simp only [hevents, traffic, List.map_append, List.map_cons, List.sum_append,
    List.sum_cons] at htraffic
  simp only [traffic] at hbudget
  rw [h.pipe_eq, List.flatMap_cons]
  exact readEvent_next hkind hmaximum hpayload hheader (show e.traffic ≤ remaining by omega)
    (by omega) _

/-- **The reader never sees too many frames.** It forwards the event at the front of the pipe
and has a round left for the next; after the last event it waits for the end of the stream. -/
theorem Upstream.reader_step (h : Upstream cfg s pending) (hrelay : Relay cfg s)
    (htaken : s.taken.length ≤ cfg.maxCallbacks)
    (hwrites : s.guest ≠ .finished → s.childWrites = true) (hstep : stepReader cfg s = some t) :
    ∃ pending, Upstream cfg t pending := by
  have hstage := hrelay.stage
  have hevents := h.events_eq
  rcases h.reader with ⟨left, remaining, hreader⟩ | ⟨hguest, rfl, hreader⟩
  · rw [hreader] at hstage
    obtain ⟨hcallbacks, hrounds, hbudget⟩ := hstage
    simp only [stepReader, hreader] at hstep
    cases pending with
    | nil =>
      rw [h.pipe_eq] at hstep
      simp only [List.flatMap_nil, readEvent, Decoder.bind, frame_next_of_length,
        hwrites (h.unfinished_of_reading hrelay hreader), List.length_nil,
        Nat.zero_lt_succ] at hstep
      cases hstep
    | cons e later =>
      have hnext := h.next_event hrelay hreader
      simp only [hnext] at hstep
      cases hstep
      refine ⟨later, ⟨by simpa using hevents, rfl, h.legible, h.traffic_le, h.count,
        h.callbacks, h.unfinished, h.finished, ?_, h.overflow⟩⟩
      by_cases hterminal : e.kind = utf8 "callbacks"
      · have hlength := congrArg List.length hevents
        have hcount := h.count
        have hturn : s.guest.turn ≤ 1 := by cases s.guest <;> decide
        simp only [List.length_append, List.length_cons] at hlength
        rw [if_neg (not_not.mpr hterminal), if_neg (by omega)]
        exact .inl ⟨_, _, rfl⟩
      · -- only the last event of a finished guest is not a callback request
        rw [if_pos hterminal]
        refine .inr ⟨?_, ?_, .inl rfl⟩
        · by_contra hguest
          exact hterminal (h.unfinished hguest e (by rw [hevents]; simp))
        · by_contra hlater
          refine hterminal (h.callbacks e ?_)
          rw [hevents, List.dropLast_append_of_ne_nil (List.cons_ne_nil _ _),
            List.dropLast_cons_of_ne_nil hlater]
          simp
  · -- nothing follows the last event, so the reader can only find the end of the stream
    have hgoto : ∀ r, (r = Reader.last ∨ r = .storing true ∨ r = .done true) →
        Upstream cfg { s with reader := r, overflow := false } [] := fun r hr =>
      ⟨hevents, h.pipe_eq, h.legible, h.traffic_le, h.count, h.callbacks, h.unfinished,
        h.finished, .inr ⟨hguest, rfl, hr⟩, rfl⟩
    have hoverflow := h.overflow
    rcases hreader with hreader | hreader | hreader
    · have hempty : s.childOut = [] := h.pipe_eq
      simp only [stepReader, hreader, if_neg (not_not.mpr hempty)] at hstep
      split_ifs at hstep
      cases hstep
      exact ⟨[], hoverflow ▸ hgoto _ (.inr (.inl rfl))⟩
    · simp only [stepReader, hreader] at hstep
      cases hstep
      exact ⟨[], hgoto _ (.inr (.inr rfl))⟩
    · simp only [stepReader, hreader] at hstep
      cases hstep

/-- A printed event is legible. -/
theorem legible_of_printed (hserde : cfg.serde.Lawful) {kind payload : Bytes} {maximum : ℕ}
    (hmaximum : eventMaximum cfg.operation cfg.budgets kind = some maximum)
    (hpayload : payload.length ≤ maximum) :
    Legible cfg ⟨cfg.serde.toVec kind, kind, payload⟩ := by
  have hkind := mem_eventKinds hmaximum
  have hshort : ∀ kind ∈ eventKinds, kind.length + 2 ≤ 4096 := by decide
  refine ⟨⟨?_, maximum, hmaximum, hpayload⟩, ?_⟩
  · rw [hserde.toVec_kind kind hkind, hserde.fromSlice_quote kind hkind]
  · rw [hserde.toVec_kind kind hkind, length_quote_kind hkind]
    exact hshort kind hkind

/-- The child prints an event and waits, or is finished. -/
theorem Upstream.printEvent (h : Upstream cfg s pending) (hserde : cfg.serde.Lawful)
    {kind payload : Bytes} {maximum : ℕ}
    (hmaximum : eventMaximum cfg.operation cfg.budgets kind = some maximum)
    (hpayload : payload.length ≤ maximum)
    (htraffic : traffic s.events + (cfg.serde.toVec kind).length + payload.length ≤ mib64)
    (hguest : s.guest = .computing) {guest : Guest} (hturn : guest.turn = 1)
    (hkind : guest = .finished ↔ kind ≠ utf8 "callbacks") (asked : ℕ) :
    ∃ pending, Upstream cfg { s.printEvent cfg kind payload with
      guest := guest, asked := asked } pending := by
  have hcallbacks := h.unfinished (by rw [hguest]; decide)
  have hcount := h.count
  refine ⟨pending ++ [⟨cfg.serde.toVec kind, kind, payload⟩],
    ⟨?_, ?_, ?_, ?_, ?_, ?_, fun hg => ?_, fun hg => ?_, ?_, h.overflow⟩⟩
  · simp only [State.printEvent, State.print, h.events_eq, List.append_assoc]
  · simp only [State.printEvent, State.print, h.pipe_eq, List.flatMap_append,
      List.flatMap_singleton]
    rfl
  · intro e he
    rcases List.mem_append.mp he with hold | hthis
    · exact h.legible e hold
    · exact List.mem_singleton.mp hthis ▸ legible_of_printed hserde hmaximum hpayload
  · simp only [State.printEvent, traffic_append, Relayed.traffic]
    omega
  · rw [hguest, Guest.turn] at hcount
    simp only [State.printEvent, State.print, List.length_append, List.length_singleton, hturn]
    omega
  · simpa [State.printEvent] using hcallbacks
  · exact hcallbacks.append (not_not.mp fun hne => hg (hkind.mpr hne))
  · exact ⟨s.events, _, rfl, hcallbacks, hkind.mp hg⟩
  · exact .inl (h.reading (by rw [hguest]; decide))

end Javex.Worker
