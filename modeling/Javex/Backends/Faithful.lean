import Javex.Backends.Session
import Javex.Isolated.Grammar

/-!
# A run within the limits

What holds in every state of a run of the isolated backend that nothing disturbs (`Provided`) and
that keeps within the limits (`Within`).

* `Steady`: the supervisor and its child. The child has printed the events of its turns so far,
  and they and the completions are on their ways.
* `Heard`: the run worker has scanned a prefix of what the supervisor prints.
* `Faithful`: both, and the outcome of a run that has ended.

Everything that is under way is counted in turns of the execution. The number of turns so far fixes
what the child has printed, what it has taken and what it waits for, so the invariant is a list of
equations between prefixes: of the events that the execution prints and of the completions that it
asks for. A step of a thread lengthens one of the prefixes by one piece or moves a piece from one
place to the next.

The lemmas `quiet`, `of_frame` and `closePipes` are for the many steps that change one field only.
-/

namespace Javex.Backends

open Codec Codec.Decoder Isolated Worker Transition

variable {setup : Setup} {completions : List Bytes}

/-! ### The events of a run -/

theorem volume_le (cs : List Bytes) : volume cs ≤ (cs.flatMap frameBytes).length := by
  induction cs with
  | nil => exact Nat.le_refl _
  | cons c cs ih =>
    simp only [List.flatMap_cons, List.length_append, length_frameBytes, volume_cons]
    omega

theorem traffic_le (es : List Relayed) : traffic es ≤ (es.flatMap Relayed.bytes).length := by
  induction es with
  | nil => exact Nat.le_refl _
  | cons e es ih =>
    simp only [traffic, List.map_cons, List.sum_cons, List.flatMap_cons, List.length_append,
      Relayed.bytes, encodeEvent, length_frameBytes, Relayed.traffic] at ih ⊢
    omega

/-- What `response` prints is within the bound of its kind, if the result is within its own. -/
theorem response_le {b : Budgets} {outcome : Outcome}
    (hlimit : match outcome with
      | .ok bytes => bytes.length ≤ b.maxOutput
      | .error (_, message) => message.length ≤ max 4096 b.maxStderr)
    (hknown : ∀ kind message, outcome = .error (kind, message) → kind ∈ kinds) :
    (response (responseMaximum b) outcome).1 ≠ utf8 "callbacks" ∧
      ∃ maximum, eventMaximum .run b (response (responseMaximum b) outcome).1 = some maximum ∧
        (response (responseMaximum b) outcome).2.length ≤ maximum := by
  have hmaximum : responseMaximum b ≤ mib64 := Nat.min_le_right _ _
  have hdiagnostic : ∀ kind ∈ kinds, utf8 kind.name ≠ utf8 "callbacks" ∧
      eventMaximum .run b (utf8 kind.name) = some (diagnosticMaximum b) := by
    intro kind hkind
    have herror : errorKinds.any (utf8 · == utf8 kind.name) = true := by
      have hall : ∀ kind ∈ kinds, errorKinds.any (utf8 · == utf8 kind.name) = true := by decide
      exact hall kind hkind
    refine ⟨name_ne_callbacks hkind, ?_⟩
    rw [eventMaximum, if_neg (name_ne_callbacks hkind), if_neg (name_ne_ok hkind),
      if_pos herror]
  have hexceeded := hdiagnostic .outputLimit (by decide)
  have hshort : (utf8 "worker response limit exceeded").length ≤ diagnosticMaximum b :=
    Nat.le_trans (by decide) (Nat.le_max_left 4096 _)
  unfold response
  rcases outcome with ⟨kind, message⟩ | bytes
  · dsimp only at hlimit ⊢
    split_ifs with hlong
    · exact ⟨hexceeded.1, _, hexceeded.2, hshort⟩
    · obtain ⟨hne, hkind⟩ := hdiagnostic kind (hknown _ _ rfl)
      refine ⟨hne, _, hkind, ?_⟩
      simp only [diagnosticMaximum]
      omega
  · dsimp only at hlimit ⊢
    split_ifs with hlong
    · exact ⟨hexceeded.1, _, hexceeded.2, hshort⟩
    · have hne : utf8 "ok" ≠ utf8 "callbacks" := by decide
      refine ⟨hne, resultMaximum .run b, rfl, ?_⟩
      simp only [resultMaximum, reduceCtorEq, if_false]
      omega

/-- The outcome of an execution has one of the kinds it returns. -/
theorem known_of_outcome {progress : Progress} {outcome : Outcome}
    (h : progress.outcome? = some outcome) {kind : Kind} {message : Bytes}
    (houtcome : outcome = .error (kind, message)) : progress = .err kind message := by
  subst houtcome
  cases progress <;> simp_all [Progress.outcome?]

/-- The event of a turn that is not the last asks for callbacks. -/
theorem Within.event_pending (h : Within setup completions) {n : ℕ} (hn : n < completions.length) :
    ∃ frame, setup.execution.advance (completions.take n) = .pending frame ∧
      setup.event (completions.take n) =
        ⟨setup.serde.toVec (utf8 "callbacks"), utf8 "callbacks", frame⟩ ∧
      frame.length ≤ callbackRequestLimit setup.budgets := by
  obtain ⟨frame, hpending, hframe⟩ := h.pending n hn
  refine ⟨frame, hpending, ?_, hframe⟩
  simp only [Setup.event, hpending, Progress.event]

/-- The event of the last turn carries the response. -/
theorem Within.event_ended (h : Within setup completions) :
    ∃ outcome kind payload maximum,
      (setup.execution.advance completions).outcome? = some outcome ∧
      (kind, payload) = response setup.maximum outcome ∧
      (setup.execution.advance completions).event setup.maximum = (kind, payload) ∧
      setup.event completions = ⟨setup.serde.toVec kind, kind, payload⟩ ∧
      kind ≠ utf8 "callbacks" ∧
      eventMaximum .run setup.budgets kind = some maximum ∧ payload.length ≤ maximum := by
  obtain ⟨outcome, hended, hlimit⟩ := h.ended
  have hevent : (setup.execution.advance completions).event setup.maximum =
      response setup.maximum outcome := by
    cases hprogress : setup.execution.advance completions <;> rw [hprogress] at hended <;>
      cases hended <;> rfl
  obtain ⟨hkind, maximum, hmaximum, hpayload⟩ := response_le hlimit fun kind message heq =>
    mem_kinds (setup.execution.known (known_of_outcome hended heq))
  refine ⟨outcome, (response setup.maximum outcome).1, (response setup.maximum outcome).2, maximum,
    hended, rfl, hevent, ?_, hkind, hmaximum, hpayload⟩
  simp only [Setup.event, hevent]

/-- The traffic of the turns so far and of the next one. -/
theorem Within.traffic_le (h : Within setup completions) {n : ℕ} (hn : n ≤ completions.length) :
    traffic ((setup.printed completions).take n) +
      (setup.event (completions.take n)).traffic ≤ mib64 := by
  have hall := Backends.traffic_le (setup.printed completions)
  have hsplit := List.take_append_drop (n + 1) (setup.printed completions)
  rw [← hsplit, setup.take_printed_succ hn] at hall
  simp only [traffic, List.map_append, List.sum_append, List.map_cons, List.map_nil,
    List.sum_cons, List.sum_nil] at hall ⊢
  rw [← setup.take_printed_succ hn, hsplit] at hall
  have hout := h.outbound_le
  omega

/-! ### The supervisor and its child -/

/-- The invariant of the supervisor and its child. -/
structure Steady (setup : Setup) (completions : List Bytes) (w : Worker.State) : Prop where
  relay : Relay setup.config w
  downstream : ∃ piped waiting, Downstream setup.config w piped waiting
  upstream : ∃ pending, Upstream setup.config w pending
  writing : w.writer ≠ .writing []
  sent : w.sent <+: completions
  events : w.events = (setup.printed completions).take (w.taken.length + w.guest.turn)
  finished : w.guest = .finished → w.taken = completions
  reads : w.guest ≠ .finished → w.childReads = true
  writes : w.guest ≠ .finished → w.childWrites = true
  exit : w.exit = none ∨
    w.exit = some 0 ∧ w.guest = .finished ∧ w.childReads = false ∧ w.childWrites = false
  poll : w.poll.Watching ∨ w.exit = some 0 ∧ (w.poll = .joining 0 ∨ w.poll = .returned 0)

theorem steady_start : Steady setup completions (.start setup.config) where
  relay := relay_start
  downstream := ⟨[], [], downstream_start⟩
  upstream := ⟨[], upstream_start⟩
  writing := by
    intro h
    injection h with hrest
    have hlen := congrArg List.length hrest
    simp [Config.requestBytes, Setup.config, Setup.request] at hlen
  sent := List.nil_prefix
  events := rfl
  finished := Guest.noConfusion
  reads _ := rfl
  writes _ := rfl
  exit := .inl rfl
  poll := .inl trivial

variable {w w' : Worker.State}

/-- What the child has taken are the first of the completions. -/
theorem Steady.taken (h : Steady setup completions w) :
    w.taken <+: w.sent ∧ w.taken = completions.take w.taken.length := by
  obtain ⟨piped, waiting, hdown⟩ := h.downstream
  have hpre : w.taken <+: w.sent := by
    rw [hdown.inbound.sent_eq]
    simp only [List.append_assoc]
    exact List.prefix_append _ _
  exact ⟨hpre, List.prefix_iff_eq_take.mp (hpre.trans h.sent)⟩

theorem Steady.taken_le (h : Steady setup completions w) :
    w.taken.length ≤ completions.length :=
  (h.taken.1.trans h.sent).length_le

/-- Once the child has finished, nothing is on its way to it. -/
theorem Steady.quiet (h : Steady setup completions w) (hguest : w.guest = .finished) :
    w.sent = completions ∧ w.channel = [] ∧ w.stdin.hand = [] ∧ w.writer = .receiving ∧
      w.portIn ++ w.queued = [] := by
  obtain ⟨piped, waiting, hdown⟩ := h.downstream
  have hsent := hdown.inbound.sent_eq
  have hpipe := hdown.pipe_eq
  have hport := hdown.inbound.port_eq
  have htaken := h.finished hguest
  have hall : w.sent = completions :=
    h.sent.eq_of_length_le (htaken ▸ h.taken.1.length_le)
  rw [hall, htaken] at hsent
  simp only [List.append_assoc] at hsent
  obtain ⟨rfl, hrest⟩ := List.append_eq_nil_iff.mp (List.self_eq_append_right.mp hsent)
  obtain ⟨hchannel, hrest⟩ := List.append_eq_nil_iff.mp hrest
  obtain ⟨hhand, rfl⟩ := List.append_eq_nil_iff.mp hrest
  rw [unread, if_neg (by rw [hguest]; decide)] at hpipe
  obtain ⟨-, hrest⟩ := List.append_eq_nil_iff.mp hpipe.symm
  refine ⟨hall, hchannel, hhand, ?_, hport.symm⟩
  have hlive := hdown.writer
  have hwriting := h.writing
  cases hwriter : w.writer with
  | writing rest =>
    rw [hwriter, Writer.rest] at hrest
    rw [hwriter, hrest] at hwriting
    exact absurd rfl hwriting
  | receiving => rfl
  | leaving | stored | gone =>
    rw [hwriter] at hlive
    exact hlive.elim

/-- The writer thread does not write to a pipe that is closed. -/
theorem Steady.writer_reads (h : Steady setup completions w) (rest : Bytes)
    (hwriter : w.writer = .writing rest) : w.childReads = true := by
  by_cases hguest : w.guest = .finished
  · have hquiet := (h.quiet hguest).2.2.2.1
    rw [hwriter] at hquiet
    cases hquiet
  · exact h.reads hguest

/-- The writer thread is never left with nothing to write. -/
theorem writing_ne_nil {n : ℕ} (hstep : stepWriter w n = some w') : w'.writer ≠ .writing [] := by
  unfold stepWriter at hstep
  split at hstep
  · split_ifs at hstep <;> cases hstep <;> simp_all
  · split at hstep
    · cases hstep
      simp [frameBytes, wordBytes]
    · split_ifs at hstep
      cases hstep
      exact Writer.noConfusion
  all_goals cases hstep <;> exact Writer.noConfusion

/-- The polling loop goes on until the child has ended, and returns the status 0. -/
theorem Steady.poll_step (h : Steady setup completions w) (hstep : stepPoll w false = some w') :
    w' = { w with poll := w'.poll } ∧
      (w'.poll.Watching ∨ w'.exit = some 0 ∧ (w'.poll = .joining 0 ∨ w'.poll = .returned 0)) := by
  obtain ⟨piped, waiting, hdown⟩ := h.downstream
  obtain ⟨pending, hup⟩ := h.upstream
  have hcancelled := hdown.cancelled
  have hoverflow := hup.overflow
  rcases h.poll with hwatching | ⟨hexit, hjoining | hreturned⟩
  · cases hpoll : w.poll with
    | tryWait =>
      simp only [stepPoll, hpoll] at hstep
      rcases h.exit with hexit | ⟨hexit, -⟩
      · simp only [hexit] at hstep
        cases hstep
        exact ⟨by simp [hexit], .inl trivial⟩
      · simp only [hexit] at hstep
        cases hstep
        exact ⟨by simp [hexit], .inr ⟨rfl, .inl rfl⟩⟩
    | loadCancelled =>
      simp only [stepPoll, hpoll, hcancelled] at hstep
      cases hstep
      exact ⟨by simp [hcancelled], .inl trivial⟩
    | loadOverflow =>
      simp only [stepPoll, hpoll, hoverflow] at hstep
      cases hstep
      exact ⟨by simp [hoverflow], .inl trivial⟩
    | checkDeadline =>
      simp only [stepPoll, hpoll] at hstep
      cases hstep
      exact ⟨rfl, .inl trivial⟩
    | killing _ | joining _ | returned _ =>
      rw [hpoll] at hwatching
      exact hwatching.elim
  · simp only [stepPoll, hjoining, if_true] at hstep
    split at hstep <;> cases hstep
    rename_i ok hreader
    rcases hup.reader with ⟨_, _, hreading⟩ | ⟨-, -, hlast | hlast | hlast⟩
    · rw [hreading] at hreader
      cases hreader
    · rw [hlast] at hreader
      cases hreader
    · rw [hlast] at hreader
      cases hreader
    · rw [hlast] at hreader
      cases hreader
      exact ⟨rfl, .inr ⟨hexit, .inr rfl⟩⟩
  · simp only [stepPoll, hreturned] at hstep
    cases hstep

/-- A step of a thread other than the polling loop, or of the port. -/
theorem Steady.of_frame (h : Steady setup completions w)
    (hframe : w' = { w with
      queued := w'.queued, portIn := w'.portIn, stdin := w'.stdin, channel := w'.channel
      writer := w'.writer, cancelled := w'.cancelled, childIn := w'.childIn
      childOut := w'.childOut, reader := w'.reader, forwarded := w'.forwarded
      overflow := w'.overflow })
    (hrelay : Relay setup.config w')
    (hdownstream : ∃ piped waiting, Downstream setup.config w' piped waiting)
    (hupstream : ∃ pending, Upstream setup.config w' pending) (hwriting : w'.writer ≠ .writing []) :
    Steady setup completions w' := by
  refine ⟨hrelay, hdownstream, hupstream, hwriting, ?_, ?_, ?_, ?_, ?_, ?_, ?_⟩ <;> rw [hframe]
  exacts [h.sent, h.events, h.finished, h.reads, h.writes, h.exit, h.poll]

/-- The child closes one of its pipes, or both, after its last event. -/
theorem Steady.closePipes (h : Steady setup completions w) (hguest : w.guest = .finished)
    {reads writes : Bool} (hreads : w.childReads = false → reads = false)
    (hwrites : w.childWrites = false → writes = false)
    (hrelay : Relay setup.config { w with childReads := reads, childWrites := writes }) :
    Steady setup completions { w with childReads := reads, childWrites := writes } := by
  obtain ⟨piped, waiting, hdown⟩ := h.downstream
  obtain ⟨pending, hup⟩ := h.upstream
  refine ⟨hrelay, ⟨_, _, hdown.elsewhere rfl⟩, ⟨_, hup.elsewhere rfl⟩, h.writing, h.sent, h.events,
    h.finished, fun hne => absurd hguest hne, fun hne => absurd hguest hne, ?_, h.poll⟩
  exact h.exit.imp_right fun ⟨hexit, hg, hr, hw⟩ => ⟨hexit, hg, hreads hr, hwrites hw⟩

/-- The child begins its next turn with one more completion, or with the first. -/
theorem Steady.compute (h : Steady setup completions w) (hguest : w.guest ≠ .finished)
    {childIn : Bytes} {taken : List Bytes}
    (hcount : taken.length = w.taken.length + w.guest.turn)
    (hrelay : Relay setup.config
      { w with childIn := childIn, taken := taken, guest := .computing })
    (hdownstream : ∃ piped waiting, Downstream setup.config
      { w with childIn := childIn, taken := taken, guest := .computing } piped waiting) :
    Steady setup completions
      { w with childIn := childIn, taken := taken, guest := .computing } := by
  obtain ⟨pending, hup⟩ := h.upstream
  refine ⟨hrelay, hdownstream, ⟨_, hup.compute hguest _ hcount⟩, h.writing, h.sent, ?_,
    Guest.noConfusion, fun _ => h.reads hguest, fun _ => h.writes hguest, ?_, h.poll⟩
  · rw [hcount]
    exact h.events
  · exact h.exit.imp_right fun hexit => absurd hexit.2.1 hguest

/-- The child prints the event of its turn, and waits or is finished. -/
theorem Steady.printEvent (hserde : setup.serde.Lawful) (hwithin : Within setup completions)
    (h : Steady setup completions w) (hguest : w.guest = .computing) {kind payload : Bytes}
    (guest : Guest) (hturn : guest.turn = 1)
    (hevent : setup.event w.taken = ⟨setup.serde.toVec kind, kind, payload⟩)
    {maximum : ℕ} (hmaximum : eventMaximum .run setup.budgets kind = some maximum)
    (hpayload : payload.length ≤ maximum)
    (hkind : guest = .finished ↔ kind ≠ utf8 "callbacks")
    (hfinished : guest = .finished → w.taken = completions)
    (hrelay : Relay setup.config
      { w.printEvent setup.config kind payload with guest := guest, asked := w.asked }) :
    Steady setup completions
      { w.printEvent setup.config kind payload with guest := guest, asked := w.asked } := by
  obtain ⟨piped, waiting, hdown⟩ := h.downstream
  obtain ⟨pending, hup⟩ := h.upstream
  have hne : w.guest ≠ .finished := by
    rw [hguest]
    decide
  have htaken := h.taken.2
  have hevents := h.events
  rw [hguest, Guest.turn, Nat.add_zero] at hevents
  have htraffic := hwithin.traffic_le h.taken_le
  rw [← hevents, ← htaken, hevent] at htraffic
  have hbooting : guest ≠ .booting := by
    rintro rfl
    cases hturn
  simp only [Relayed.traffic, ← Nat.add_assoc] at htraffic
  refine ⟨hrelay, ⟨_, _, hdown.printEvent _ _ hguest hbooting _⟩,
    hup.printEvent hserde hmaximum hpayload htraffic hguest hturn hkind _,
    h.writing, h.sent, ?_, hfinished, fun _ => h.reads hne, fun _ => h.writes hne, ?_, h.poll⟩
  · change w.events ++ [_] = (setup.printed completions).take (w.taken.length + guest.turn)
    rw [hturn, setup.take_printed_succ h.taken_le, ← hevents, ← htaken, hevent]
    rfl
  · exact h.exit.imp_right fun hexit => absurd hexit.2.1 hne

/-- The BEAM sends the next completion. -/
theorem Steady.complete (hwithin : Within setup completions) (h : Steady setup completions w)
    {c : Bytes} (hnext : w.sent ++ [c] <+: completions) :
    Steady setup completions { w.send c with sent := w.sent ++ [c] } := by
  obtain ⟨piped, waiting, hdown⟩ := h.downstream
  obtain ⟨pending, hup⟩ := h.upstream
  have hmem : c ∈ completions := hnext.subset (by simp)
  obtain ⟨hne, hlen⟩ := hwithin.bounded c hmem
  have hcalls := hnext.length_le.trans hwithin.calls_le
  have hvolume : volume (w.sent ++ [c]) ≤ mib64 := by
    obtain ⟨later, hlater⟩ := hnext
    have hle := volume_le completions
    have hinbound := hwithin.inbound_le
    rw [List.flatMap_append, List.length_append] at hinbound
    rw [← hlater] at hle hinbound
    rw [volume_append] at hle
    omega
  have hformed : WellFormed setup.config w (.complete c) := by
    refine ⟨hne, hlen, by simpa using hvolume, ?_⟩
    simp only [List.length_append, List.length_singleton] at hcalls
    exact hcalls
  have hopen := hdown.inbound.portOpen
  have hstep : Worker.step setup.config w (.complete c) =
      some { w.send c with sent := w.sent ++ [c] } := by
    simp [Worker.step, hopen]
  exact ⟨relay_step h.relay hstep, ⟨_, _, hdown.complete hformed⟩, ⟨_, hup.elsewhere rfl⟩,
    h.writing, hnext, h.events, h.finished, h.reads, h.writes, h.exit, h.poll⟩

/-- **Every step of the supervisor and its child keeps the run steady.** -/
theorem Steady.worker_step {s : Session} (h : Steady setup completions s.worker)
    {l : Worker.Label} (hl : Provided setup completions s (.worker l))
    (hchild : ∀ calls kind payload bytes, l ≠ .complete bytes ∧ l ≠ .cancel ∧ l ≠ .close ∧
      l ≠ .ask calls payload ∧ l ≠ .finish kind payload)
    (hstep : Worker.step setup.config s.worker l = some w') : Steady setup completions w' := by
  have hrelay := relay_step h.relay hstep
  obtain ⟨piped, waiting, hdown⟩ := h.downstream
  obtain ⟨pending, hup⟩ := h.upstream
  cases l with
  | complete bytes => exact absurd rfl (hchild 0 [] [] bytes).1
  | cancel => exact absurd rfl (hchild 0 [] [] []).2.1
  | close => exact absurd rfl (hchild 0 [] [] []).2.2.1
  | ask calls payload => exact absurd rfl (hchild calls [] payload []).2.2.2.1
  | finish kind payload => exact absurd rfl (hchild 0 kind payload []).2.2.2.2
  | write _ | consume _ => exact hl.elim
  | arrive n =>
    simp only [Worker.step] at hstep
    cases hstep
    exact h.of_frame rfl hrelay ⟨_, _, hdown.arrive n⟩ ⟨_, hup.elsewhere rfl⟩ h.writing
  | closeInput =>
    simp only [Worker.step] at hstep
    cases hstep
    exact h.closePipes hl (fun _ => rfl) id hrelay
  | closeOutput =>
    simp only [Worker.step] at hstep
    cases hstep
    exact h.closePipes hl id (fun _ => rfl) hrelay
  | exit code =>
    obtain ⟨hguest, rfl⟩ := hl
    simp only [Worker.step, stepExit] at hstep
    split_ifs at hstep with hopen
    cases hstep
    simp only [Bool.or_eq_true, not_or, Bool.not_eq_true] at hopen
    refine ⟨hrelay, ⟨_, _, hdown.elsewhere rfl⟩, ⟨_, hup.elsewhere rfl⟩, h.writing, h.sent,
      h.events, h.finished, h.reads, h.writes, .inr ⟨rfl, hguest, hopen.1.1, hopen.1.2⟩, ?_⟩
    exact h.poll.imp_right fun hp => ⟨rfl, hp.2⟩
  | boot =>
    simp only [Worker.step] at hstep
    split_ifs at hstep with hboot
    obtain ⟨-, hguest, hrequest⟩ := hboot
    cases hstep
    refine h.compute ?_ ?_ hrelay ⟨_, _, hdown.boot hguest hrequest⟩
    · rw [hguest]
      decide
    · rw [hguest]
      rfl
  | take =>
    simp only [Worker.step] at hstep
    split_ifs at hstep with htake
    split at hstep <;> cases hstep
    rename_i bytes rest hnext
    obtain ⟨others, hdown'⟩ := hdown.take htake.2 hnext
    refine h.compute ?_ ?_ hrelay ⟨_, _, hdown'⟩
    · rw [htake.2]
      decide
    · rw [htake.2]
      simp [Guest.turn]
  | writer n =>
    have hframe := stepWriter_frame hstep
    obtain ⟨piped', hdown'⟩ := hdown.writer_step h.writer_reads hstep
    refine h.of_frame ?_ hrelay ⟨_, _, hdown'⟩ ⟨_, hup.elsewhere (by rw [hframe])⟩
      (writing_ne_nil hstep)
    rw [hframe]
  | stdin =>
    have hframe := stepStdin_frame hstep
    obtain ⟨waiting', hdown'⟩ := hdown.stdin_step hl hstep
    refine h.of_frame ?_ hrelay ⟨_, _, hdown'⟩ ⟨_, hup.elsewhere (by rw [hframe])⟩ ?_
    · rw [hframe]
    · rw [hframe]
      exact h.writing
  | reader =>
    have hframe := stepReader_frame hstep
    refine h.of_frame ?_ hrelay ⟨_, _, hdown.elsewhere (by rw [hframe])⟩
      (hup.reader_step h.relay hdown.taken_le h.writes hstep) ?_
    · rw [hframe]
    · rw [hframe]
      exact h.writing
  | poll late =>
    obtain rfl : late = false := hl
    obtain ⟨hframe, hpoll⟩ := h.poll_step hstep
    refine ⟨hrelay, ⟨_, _, hdown.elsewhere (by rw [hframe])⟩, ⟨_, hup.elsewhere (by rw [hframe])⟩,
      ?_, ?_, ?_, ?_, ?_, ?_, ?_, hpoll⟩ <;> rw [hframe]
    exacts [h.writing, h.sent, h.events, h.finished, h.reads, h.writes, h.exit]

end Javex.Backends
