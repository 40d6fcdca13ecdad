import Javex.Backends.Heard
import Mathlib.Data.Prod.Lex

/-!
# A run within the limits goes on

From every state of an undisturbed run within the limits some run leads to the outcome. Each
state short of it has a step that takes something nearer to its end (`Faithful.enabled`), in the
order of `rank`: the turns that are left; the completions that are to be sent, and what is in the
port, the stdin thread, the channel and the writer thread; what is in the pipe to the reader; how
far the reader, the child and the polling loop are from their ends; and the output that the run
worker has not received.

The order is lexicographic, because taking something nearer to its end at one place may add work at
another: a completion that is taken lets the execution advance, which prints an event that has to go
all the way up. The turns of the execution come first; a run within the limits has finitely many.
The statement is that some run gets there, not that every run does: the scheduler of the threads is
not assumed to be fair.
-/

namespace Javex.Backends

open Codec Codec.Decoder Isolated Worker Transition

variable {setup : Setup} {completions : List Bytes}

/-! ### The rank -/

/-- What is left of the child's current turn. -/
def guestRank : Guest → ℕ
  | .booting => 3
  | .computing => 2
  | .waiting => 1
  | .finished => 0

def writerRank : Writer → ℕ
  | .writing _ => 1
  | _ => 0

def readerRank : Reader → ℕ
  | .reading _ _ => 3
  | .last => 2
  | .storing _ => 1
  | .done _ => 0

def pollRank : Poll → ℕ
  | .loadCancelled => 5
  | .loadOverflow => 4
  | .checkDeadline => 3
  | .tryWait => 2
  | .joining _ => 1
  | .killing _ | .returned _ => 0

/-- How far the reader, the child and the polling loop are from their ends. -/
def endRank (w : Worker.State) : ℕ :=
  readerRank w.reader + w.childReads.toNat + w.childWrites.toNat + (!w.exit.isSome).toNat +
    pollRank w.poll

/-- How far the supervisor and its child are from the end of a run with these completions. -/
def workerRank (completions : List Bytes) (w : Worker.State) : ℕ ×ₗ ℕ ×ₗ ℕ ×ₗ ℕ ×ₗ ℕ ×ₗ ℕ ×ₗ ℕ :=
  toLex (2 * (completions.length - w.taken.length) + guestRank w.guest,
    toLex (completions.length - w.sent.length,
      toLex (w.queued.length,
        toLex (2 * w.portIn.length + w.stdin.hand.length,
          toLex (2 * w.channel.length + writerRank w.writer,
            toLex (w.childOut.length, endRank w))))))

/-- How far a run is from its outcome. -/
def rank (completions : List Bytes) (s : Session) :
    (ℕ ×ₗ ℕ ×ₗ ℕ ×ₗ ℕ ×ₗ ℕ ×ₗ ℕ ×ₗ ℕ) ×ₗ ℕ :=
  toLex (workerRank completions s.worker, s.stdout.length + (!s.outcome.isSome).toNat)

/-- A step that an undisturbed run may take, and that takes it nearer to its outcome. -/
def Enabled (setup : Setup) (completions : List Bytes) (s : Session) : Prop :=
  ∃ l t, step setup s l = some t ∧ Provided setup completions s l ∧
    rank completions t < rank completions s

variable {s : Session}

/-- A step of the supervisor, its child or the port. -/
theorem enabled_of_worker {l : Worker.Label} {w : Worker.State}
    (hstep : Worker.step setup.config s.worker l = some w)
    (hl : Provided setup completions s (.worker l))
    (hchild : step setup s (.worker l) = s.advanceWorker setup l)
    (hrank : workerRank completions w < workerRank completions s.worker) :
    Enabled setup completions s := by
  refine ⟨.worker l, _, hchild.trans (congrArg _ hstep), hl, ?_⟩
  exact Prod.Lex.toLex_lt_toLex.mpr (.inl hrank)

/-! ### Towards the child -/

/-- The writer thread writes what it holds, or takes the next completion from the channel. -/
theorem enabled_writer (hnone : s.outcome = none) (h : Steady setup completions s.worker)
    (hguest : s.worker.guest ≠ .finished)
    (hwork : s.worker.channel ≠ [] ∨ s.worker.writer ≠ .receiving) :
    Enabled setup completions s := by
  obtain ⟨piped, waiting, hdown⟩ := h.downstream
  have hlive := hdown.writer
  cases hwriter : s.worker.writer with
  | writing rest =>
    have hreads := h.reads hguest
    have hrest : rest.length ≠ 0 := by
      have hwriting := h.writing
      intro hzero
      rw [hwriter, List.length_eq_zero_iff.mp hzero] at hwriting
      exact hwriting rfl
    refine enabled_of_worker (l := .writer rest.length)
      (w := { s.worker with childIn := s.worker.childIn ++ rest, writer := .receiving })
      ?_ trivial (by simp [step, hnone]) ?_
    · simp only [Worker.step, stepWriter, hwriter, hreads, Bool.not_true, Bool.false_eq_true,
        if_false, hrest, lt_irrefl, or_self, List.take_length, List.drop_length, if_true]
    · simp [workerRank, Prod.Lex.toLex_lt_toLex', hwriter, writerRank]
  | receiving =>
    obtain ⟨bytes, later, hchannel⟩ :=
      List.exists_cons_of_ne_nil (hwork.resolve_right (not_not.mpr hwriter))
    refine enabled_of_worker (l := .writer 0)
      (w := { s.worker with channel := later, writer := .writing (frameBytes bytes) })
      ?_ trivial (by simp [step, hnone]) ?_
    · simp only [Worker.step, stepWriter, hwriter, hchannel]
    · simp only [workerRank, Prod.Lex.toLex_lt_toLex', hwriter, hchannel, writerRank,
        List.length_cons, le_refl, true_implies, true_and]
      refine ⟨by omega, fun heq => ?_⟩
      omega
  | leaving | stored | gone =>
    rw [hwriter] at hlive
    exact hlive.elim

/-- The stdin thread hands on what it holds, or reads the next completion from the port. -/
theorem enabled_stdin (hnone : s.outcome = none) (hchannel : s.worker.channel = [])
    {piped waiting : List Bytes}
    (hdown : Downstream setup.config s.worker piped waiting)
    (hwork : s.worker.stdin.hand ≠ [] ∨ waiting ≠ []) : Enabled setup completions s := by
  have hcapacity : 0 < setup.config.capacity := setup.budgets.maxCallbackConcurrency_pos
  have hcounted := hdown.inbound.counted
  have hlive : s.worker.writer ≠ .gone := by
    intro hgone
    have hwriter := hdown.writer
    rw [hgone] at hwriter
    exact hwriter
  cases hstdin : s.worker.stdin with
  | sending left remaining bytes =>
    refine enabled_of_worker (l := .stdin)
      (w := { s.worker with
        channel := [bytes]
        stdin := if left = 0 then .leaving else .reading (left - 1) remaining })
      ?_ (fun _ => by rw [hchannel]; exact hcapacity) (by simp [step, hnone]) ?_
    · simp [Worker.step, stepStdin, hstdin, hchannel, hlive, Nat.not_le.mpr hcapacity]
    · have hhand :
          (if left = 0 then Stdin.leaving else .reading (left - 1) remaining).hand = [] := by
        split_ifs <;> rfl
      simp [workerRank, Prod.Lex.toLex_lt_toLex', hstdin, hhand]
      simp [Stdin.hand]
  | reading left remaining =>
    obtain ⟨c, others, rfl⟩ := List.exists_cons_of_ne_nil
      (hwork.resolve_left (by rw [hstdin]; simp [Stdin.hand]))
    have hfirst := hdown.inbound.first hstdin c rfl
    have hport := hdown.inbound.port_eq
    rcases frame_next_of_flatMap hport (fun d hd => by
      obtain rfl : c = d := by simpa using hd
      exact hfirst) with hmore | ⟨d, rest, _, heq, hdone, hrest⟩
    · -- the port holds the rest of the frame
      have hqueued : s.worker.queued ≠ [] := by
        intro hempty
        rw [hempty, List.append_nil] at hport
        have hnext := frame_next hfirst.1 hfirst.2 (others.flatMap frameBytes)
        rw [← List.flatMap_cons, hport, hmore] at hnext
        cases hnext
      refine enabled_of_worker (l := .arrive s.worker.queued.length)
        (w := { s.worker with portIn := s.worker.portIn ++ s.worker.queued, queued := [] })
        ?_ trivial (by simp [step, hnone]) ?_
      · simp [Worker.step]
      · have hpos := List.length_pos_iff.mpr hqueued
        simp only [workerRank, Prod.Lex.toLex_lt_toLex', List.length_nil, le_refl, true_implies,
          true_and]
        exact ⟨Nat.zero_le _, fun heq => absurd heq hpos.ne⟩
    · obtain ⟨rfl, rfl⟩ := List.cons.inj heq
      have hne := (hdown.inbound.bounded c (by rw [hdown.inbound.sent_eq]; simp)).1
      refine enabled_of_worker (l := .stdin)
        (w := { s.worker with
          portIn := rest, stdin := .sending left (remaining - c.length) c })
        ?_ (fun hhand => absurd (by rw [hstdin]; rfl) hhand) (by simp [step, hnone]) ?_
      · simp only [Worker.step, stepStdin, hstdin, hdone, if_neg hne]
      · have hshort := (frame (min remaining setup.config.completionMaximum)).shrinks hdone
        simp only [workerRank, Prod.Lex.toLex_lt_toLex', hstdin, Stdin.hand, List.length_nil,
          List.length_singleton, le_refl, true_implies, true_and]
        refine ⟨by omega, fun heq => ?_⟩
        omega
  | leaving | stored | gone =>
    rw [hstdin] at hcounted
    exact hcounted.elim

/-- The child reads its request, or takes a completion. -/
theorem enabled_take (hnone : s.outcome = none) (h : Steady setup completions s.worker)
    (hguest : s.worker.guest ≠ .finished) {piped waiting : List Bytes}
    (hdown : Downstream setup.config s.worker piped waiting)
    (hwriter : s.worker.writer = .receiving)
    (hwork : s.worker.guest = .booting ∨ s.worker.guest = .waiting ∧ piped ≠ []) :
    Enabled setup completions s := by
  have hreads := h.reads hguest
  have hpipe := hdown.pipe_eq
  rw [hwriter, Writer.rest, List.append_nil] at hpipe
  rcases hwork with hbooting | ⟨hwaiting, hpiped⟩
  · rw [unread, if_pos hbooting] at hpipe
    have hrequest : setup.config.requestBytes.isPrefixOf s.worker.childIn = true := by
      rw [List.isPrefixOf_iff_prefix, ← hpipe]
      exact List.prefix_append _ _
    refine enabled_of_worker (l := .boot)
      (w := { s.worker with
        childIn := s.worker.childIn.drop setup.config.requestBytes.length, guest := .computing })
      ?_ trivial (by simp [step, hnone]) ?_
    · simp only [Worker.step, hreads, hbooting, hrequest, and_self, if_true]
    · refine Prod.Lex.toLex_lt_toLex.mpr (.inl ?_)
      simp only [hbooting, guestRank]
      omega
  · obtain ⟨c, others, rfl⟩ := List.exists_cons_of_ne_nil hpiped
    have hsent : c ∈ s.worker.sent := by
      rw [hdown.inbound.sent_eq]
      simp
    obtain ⟨hlen, hword⟩ := hdown.readable hsent
    have hnext := frame_next hlen hword (others.flatMap frameBytes)
    rw [unread, if_neg (by rw [hwaiting]; decide), List.nil_append, List.flatMap_cons] at hpipe
    rw [hpipe] at hnext
    have hmore : s.worker.taken.length < completions.length := by
      have hlength := congrArg List.length hdown.inbound.sent_eq
      have hle := h.sent.length_le
      simp only [List.length_append, List.length_cons] at hlength
      omega
    refine enabled_of_worker (l := .take)
      (w := { s.worker with
        childIn := others.flatMap frameBytes, taken := s.worker.taken ++ [c]
        guest := .computing })
      ?_ trivial (by simp [step, hnone]) ?_
    · simp only [Worker.step, hreads, hwaiting, and_self, if_true, hnext]
    · refine Prod.Lex.toLex_lt_toLex.mpr (.inl ?_)
      simp only [hwaiting, guestRank, List.length_append, List.length_singleton]
      omega

/-- A guest that waits has not got the last completion. -/
theorem Steady.lt_of_waiting (hwithin : Within setup completions) {w : Worker.State}
    (h : Steady setup completions w) (hguest : w.guest = .waiting) :
    w.taken.length < completions.length := by
  refine Nat.lt_of_le_of_ne h.taken_le fun hlast => ?_
  obtain ⟨pending, hup⟩ := h.upstream
  obtain ⟨_, kind, payload, _, -, -, -, hevent, hkind, -⟩ := hwithin.event_ended
  have hevents := h.events
  rw [hguest, Guest.turn, hlast, setup.take_printed_succ (Nat.le_refl _), List.take_length,
    hevent] at hevents
  exact hkind (hup.unfinished (by rw [hguest]; decide)
    ⟨setup.serde.toVec kind, kind, payload⟩ (by rw [hevents]; simp))

/-- The broker sends the next completion. -/
theorem enabled_reply (hwithin : Within setup completions) (hnone : s.outcome = none)
    (h : Faithful setup completions s) (hguest : s.worker.guest = .waiting)
    (hsent : s.worker.sent = s.worker.taken) : Enabled setup completions s := by
  have hlt := h.steady.lt_of_waiting hwithin hguest
  have hnext : s.worker.sent ++ [completions[s.worker.taken.length]] <+: completions := by
    have htake := List.take_append_getElem hlt
    rw [← h.steady.taken.2] at htake
    rw [hsent, htake]
    exact List.take_prefix _ _
  obtain ⟨heard, effects, hheard⟩ := h.heard
  obtain ⟨hne, -⟩ := hwithin.bounded _ (List.getElem_mem hlt)
  refine ⟨.notice (.reply completions[s.worker.taken.length]) true,
    { s with worker := { s.worker.send completions[s.worker.taken.length] with
      sent := s.worker.sent ++ [completions[s.worker.taken.length]] } }, ?_,
    List.isPrefixOf_iff_prefix.mpr hnext, ?_⟩
  · simp only [step, hnone, Option.isSome_none, Bool.false_eq_true, if_false, Bool.true_or,
      if_true, Notice.message, receive_reply hheard.cancelled hne]
  · refine Prod.Lex.toLex_lt_toLex.mpr (.inl ?_)
    simp only [workerRank, Prod.Lex.toLex_lt_toLex', State.send, le_refl, true_implies, true_and,
      List.length_append, List.length_singleton, hsent]
    refine ⟨by omega, fun heq => ?_⟩
    omega

/-! ### Towards the BEAM -/

/-- The execution advances and the child prints the event of its turn. -/
theorem enabled_advance (hnone : s.outcome = none) (h : Faithful setup completions s)
    (hguest : s.worker.guest = .computing) :
    Enabled setup completions s := by
  have hwrites := h.steady.writes (by rw [hguest]; decide)
  have hprint : ∀ l guest kind payload, guestRank guest < 2 →
      step setup s .advance = s.advanceWorker setup l →
      Worker.step setup.config s.worker l = some
        { s.worker.printEvent setup.config kind payload with
          guest := guest, asked := s.worker.asked } → Enabled setup completions s := by
    intro l guest kind payload hrank hadvance hstep
    refine ⟨.advance, _, hadvance.trans (congrArg _ hstep), trivial,
      Prod.Lex.toLex_lt_toLex.mpr (.inl (Prod.Lex.toLex_lt_toLex.mpr (.inl ?_)))⟩
    simp only [hguest, guestRank, State.printEvent, State.print] at hrank ⊢
    omega
  cases hprogress : setup.execution.advance s.worker.taken with
  | pending frame =>
    refine hprint (.ask 0 frame) .waiting (utf8 "callbacks") frame (by decide) ?_ ?_
    · simp only [step, hnone, Option.isSome_none, Bool.false_eq_true, if_false, hprogress,
        Progress.event]
    · simp only [Worker.step, hwrites, hguest, and_self, if_true, Nat.add_zero]
  | done bytes =>
    let event := response setup.maximum (.ok bytes)
    refine hprint (.finish event.1 event.2) .finished event.1 event.2 (by decide) ?_ ?_
    · simp only [step, hnone, Option.isSome_none, Bool.false_eq_true, if_false, hprogress,
        Progress.event, event]
    · simp only [Worker.step, hwrites, hguest, and_self, if_true]
      rfl
  | err kind message =>
    let event := response setup.maximum (.error (kind, message))
    refine hprint (.finish event.1 event.2) .finished event.1 event.2 (by decide) ?_ ?_
    · simp only [step, hnone, Option.isSome_none, Bool.false_eq_true, if_false, hprogress,
        Progress.event, event]
    · simp only [Worker.step, hwrites, hguest, and_self, if_true]
      rfl

/-- The reader forwards the next event. -/
theorem enabled_forward (hnone : s.outcome = none) {e : Relayed} {later : List Relayed}
    (h : Steady setup completions s.worker)
    (hup : Upstream setup.config s.worker (e :: later)) : Enabled setup completions s := by
  rcases hup.reader with ⟨left, remaining, hreader⟩ | ⟨-, hempty, -⟩
  · have hnext := hup.next_event h.relay hreader
    have hshort := (readEvent setup.config.serde setup.config.operation setup.config.budgets
      remaining).shrinks hnext
    refine enabled_of_worker (l := .reader) (w := { s.worker with
        childOut := later.flatMap Relayed.bytes
        forwarded := s.worker.forwarded ++ [e]
        reader := if e.kind ≠ utf8 "callbacks" then .last
          else if left = 0 then .storing false
          else .reading (left - 1) (remaining - e.traffic) })
      ?_ trivial (by simp [step, hnone]) ?_
    · simp only [Worker.step, stepReader, hreader, hnext]
    · simp only [workerRank, Prod.Lex.toLex_lt_toLex', le_refl, true_implies, true_and]
      exact ⟨hshort.le, fun heq => absurd heq hshort.ne⟩
  · cases hempty

/-- A step that only takes the reader, the child or the polling loop nearer to its end. -/
theorem enabled_ending {l : Worker.Label} {w : Worker.State}
    (hstep : Worker.step setup.config s.worker l = some w)
    (hl : Provided setup completions s (.worker l))
    (hchild : step setup s (.worker l) = s.advanceWorker setup l)
    (hframe : w = { s.worker with
      reader := w.reader, overflow := w.overflow, childReads := w.childReads
      childWrites := w.childWrites, exit := w.exit, poll := w.poll })
    (hrank : endRank w < endRank s.worker) : Enabled setup completions s := by
  refine enabled_of_worker hstep hl hchild ?_
  rw [hframe]
  simp only [workerRank, Prod.Lex.toLex_lt_toLex', le_refl, true_implies, true_and]
  rw [← hframe]
  exact hrank

/-- The child closes its pipes and ends. -/
theorem enabled_exit (hnone : s.outcome = none) (hguest : s.worker.guest = .finished)
    (hexit : s.worker.exit = none) : Enabled setup completions s := by
  cases hreads : s.worker.childReads with
  | true =>
    refine enabled_ending (l := .closeInput) (w := { s.worker with childReads := false })
      rfl hguest (by simp [step, hnone]) rfl ?_
    simp [endRank, hreads]
  | false =>
    cases hwrites : s.worker.childWrites with
    | true =>
      refine enabled_ending (l := .closeOutput)
        (w := { s.worker with childWrites := false }) rfl hguest (by simp [step, hnone]) rfl ?_
      simp [endRank, hwrites]
    | false =>
      refine enabled_ending (l := .exit 0) (w := { s.worker with exit := some 0 })
        ?_ ⟨hguest, rfl⟩ (by simp [step, hnone]) rfl ?_
      · simp [Worker.step, stepExit, hreads, hwrites, hexit]
      · simp [endRank, hexit]

/-- The reader finds the end of the stream. -/
theorem enabled_last (hnone : s.outcome = none) (h : Steady setup completions s.worker)
    (hup : Upstream setup.config s.worker []) (hguest : s.worker.guest = .finished)
    (hexit : s.worker.exit ≠ none) (hreader : s.worker.reader ≠ .done true) :
    Enabled setup completions s := by
  have hwrites : s.worker.childWrites = false := (h.exit.resolve_left hexit).2.2.2
  have hempty : s.worker.childOut = [] := hup.pipe_eq
  rcases hup.reader with ⟨_, _, hreading⟩ | ⟨-, -, hlast | hstoring | hdone⟩
  · exact absurd hguest (hup.unfinished_of_reading h.relay hreading)
  · refine enabled_ending (l := .reader) (w := { s.worker with reader := .storing true })
      ?_ trivial (by simp [step, hnone]) rfl ?_
    · simp only [Worker.step, stepReader, hlast, if_neg (not_not.mpr hempty), hwrites,
        Bool.false_eq_true, if_false]
    · simp [endRank, hlast, readerRank]
  · refine enabled_ending (l := .reader)
      (w := { s.worker with overflow := false, reader := .done true })
      ?_ trivial (by simp [step, hnone]) rfl ?_
    · simp only [Worker.step, stepReader, hstoring, Bool.not_true]
    · simp [endRank, hstoring, readerRank]
  · exact absurd hdone hreader

/-- The polling loop finds that the child has ended, and returns its status. -/
theorem enabled_poll (hnone : s.outcome = none) (h : Steady setup completions s.worker)
    (hexit : s.worker.exit ≠ none) (hreader : s.worker.reader = .done true)
    (hpoll : s.worker.poll ≠ .returned 0) : Enabled setup completions s := by
  obtain ⟨piped, waiting, hdown⟩ := h.downstream
  obtain ⟨pending, hup⟩ := h.upstream
  have hzero := (h.exit.resolve_left hexit).1
  have hgo : ∀ p, stepPoll s.worker false = some { s.worker with poll := p } →
      pollRank p < pollRank s.worker.poll → Enabled setup completions s := by
    intro p hstep hrank
    refine enabled_ending (l := .poll false) (w := { s.worker with poll := p })
      hstep rfl (by simp [step, hnone]) rfl ?_
    simpa [endRank] using hrank
  rcases h.poll with hwatching | ⟨-, hjoining | hreturned⟩
  · cases hp : s.worker.poll with
    | tryWait =>
      exact hgo (.joining 0) (by simp only [stepPoll, hp, hzero]) (by rw [hp]; decide)
    | loadCancelled =>
      refine hgo .loadOverflow ?_ (by rw [hp]; decide)
      simp [stepPoll, hp, hdown.cancelled]
    | loadOverflow =>
      refine hgo .checkDeadline ?_ (by rw [hp]; decide)
      simp [stepPoll, hp, hup.overflow]
    | checkDeadline =>
      refine hgo .tryWait ?_ (by rw [hp]; decide)
      simp [stepPoll, hp]
    | killing _ | joining _ | returned _ =>
      rw [hp] at hwatching
      exact hwatching.elim
  · refine hgo (.returned 0) ?_ (by rw [hjoining]; decide)
    simp [stepPoll, hjoining, hreader]
  · exact absurd hreturned hpoll

/-- The run worker receives what the supervisor printed, and then its status. -/
theorem enabled_receive (hserde : setup.serde.Lawful) (hdecode : Decodes setup.decode)
    (hwithin : Within setup completions) (hnone : s.outcome = none)
    (h : Faithful setup completions s) (hpoll : s.worker.poll = .returned 0) :
    Enabled setup completions s := by
  have hstatus : s.status? = some 0 := by rw [Session.status?, hpoll]
  by_cases hstdout : s.stdout = []
  · obtain ⟨result, -, hreceive⟩ := h.exitStatus hserde hdecode hwithin hstatus hstdout
    refine ⟨.exitStatus, { s with outcome := some (responded setup.maximum result) }, ?_, trivial,
      ?_⟩
    · simp only [step, hnone, Option.isSome_none, Bool.false_eq_true, if_false, hstatus,
        if_pos hstdout, hreceive]
    · refine Prod.Lex.toLex_lt_toLex.mpr (.inr ⟨rfl, ?_⟩)
      simp [hnone]
  · have hlen := List.length_pos_iff.mpr hstdout
    obtain ⟨heard, effects, hheard⟩ := h.heard
    obtain ⟨outcome, payloads, -, hstream⟩ := hwithin.stream hserde hdecode
    obtain ⟨later, hlater⟩ := h.steady.relayed_wire
    have hsize := length_wire_le hwithin
    rw [hheard.printed] at hlater
    rw [← hlater] at hstream hsize
    have hheard' : Heard setup { s with stdout := s.stdout ++ [] } heard effects := by
      rw [List.append_nil]
      exact hheard
    obtain ⟨loop, effects', hreceive, -⟩ := hheard'.data hstream
      (by rw [List.length_append] at hsize; omega) true
    rw [hnone] at hreceive
    refine ⟨.data s.stdout.length true, { s with stdout := [], loop := loop }, ?_, trivial, ?_⟩
    · simp only [step, hnone, Option.isSome_none, Bool.false_eq_true, if_false, hlen.ne',
        lt_irrefl, or_self, Bool.true_or, if_true, List.drop_length, List.take_length, hreceive]
    · refine Prod.Lex.toLex_lt_toLex.mpr (.inr ⟨rfl, ?_⟩)
      simpa using hlen

/-- **A run within the limits is never stuck** short of its outcome. -/
theorem Faithful.enabled (hserde : setup.serde.Lawful) (hdecode : Decodes setup.decode)
    (hwithin : Within setup completions) (h : Faithful setup completions s)
    (hnone : s.outcome = none) : Enabled setup completions s := by
  have hsteady := h.steady
  obtain ⟨piped, waiting, hdown⟩ := hsteady.downstream
  obtain ⟨pending, hup⟩ := hsteady.upstream
  -- a guest that has not finished and does not compute waits for what is sent to it
  have hpush : s.worker.guest ≠ .finished →
      (s.worker.guest = .booting ∨ s.worker.guest = .waiting) → Enabled setup completions s := by
    intro hguest hwait
    by_cases hwriter : s.worker.channel ≠ [] ∨ s.worker.writer ≠ .receiving
    · exact enabled_writer hnone hsteady hguest hwriter
    simp only [not_or, not_not] at hwriter
    by_cases hstdin : s.worker.stdin.hand ≠ [] ∨ waiting ≠ []
    · exact enabled_stdin hnone hwriter.1 hdown hstdin
    simp only [not_or, not_not] at hstdin
    by_cases htake : s.worker.guest = .booting ∨ s.worker.guest = .waiting ∧ piped ≠ []
    · exact enabled_take hnone hsteady hguest hdown hwriter.2 htake
    simp only [not_or, not_and, not_not] at htake
    have hwaiting := hwait.resolve_left htake.1
    refine enabled_reply hwithin hnone h hwaiting ?_
    rw [hdown.inbound.sent_eq, htake.2 hwaiting, hwriter.1, hstdin.1, hstdin.2]
    simp
  cases hguest : s.worker.guest with
  | booting => exact hpush (by rw [hguest]; decide) (.inl hguest)
  | waiting => exact hpush (by rw [hguest]; decide) (.inr hguest)
  | computing => exact enabled_advance hnone h hguest
  | finished =>
    cases pending with
    | cons e later => exact enabled_forward hnone hsteady hup
    | nil =>
      by_cases hexit : s.worker.exit = none
      · exact enabled_exit hnone hguest hexit
      by_cases hreader : s.worker.reader = .done true
      · by_cases hpoll : s.worker.poll = .returned 0
        · exact enabled_receive hserde hdecode hwithin hnone h hpoll
        · exact enabled_poll hnone hsteady hexit hreader hpoll
      · exact enabled_last hnone hsteady hup hguest hexit hreader

end Javex.Backends
