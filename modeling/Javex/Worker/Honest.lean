import Javex.Worker.Pipes

/-!
# An honest run

The supervisor between a child that follows the protocol and a BEAM that answers each call at
most once (`Honest`). The calls that are asked but not answered bound what can be in the channel
(`Booked`), and the two ways through the supervisor stay as `Downstream` and `Upstream` say.

`honest_run` puts them together: the stdin thread stays in its loop, the channel has room for
what it holds, and the reader never reports an invalid stream.

The budget of the argument is the number of calls that are out. A guest has no more calls out than
its concurrency allows, each call is answered at most once, and an answer is somewhere between the
BEAM and the guest until the guest takes it; so what is in the channel at any time is at most what
is out, and the channel has that capacity. `Booked` is this accounting, kept by every step, and from
it follows that no `try_send` fails, from that that the stdin thread never leaves its loop, and from
that that nothing is lost on the way down.

The guest that asks and takes is the child's label, not its code: what the child does in between,
and when, is left open.
-/

namespace Javex.Worker

open Codec Codec.Decoder Isolated Transition

/-- The guest keeps its outstanding calls and its frames within their limits, the BEAM sends at
most one completion for each call, the child is alive and reads, and the deadline does not
pass. -/
def Honest (cfg : Config) (s : State) : Label → Prop
  | .complete bytes => WellFormed cfg s (.complete bytes) ∧ s.sent.length < s.asked
  | .ask calls payload => s.asked + calls ≤ s.taken.length + cfg.capacity ∧
      payload.length ≤ callbackRequestLimit cfg.budgets ∧
      traffic s.events + (cfg.serde.toVec (utf8 "callbacks")).length + payload.length ≤ mib64
  | .finish kind payload => kind ≠ utf8 "callbacks" ∧
      payload.length ≤ (eventMaximum cfg.operation cfg.budgets kind).getD 0 ∧
      eventMaximum cfg.operation cfg.budgets kind ≠ none ∧
      traffic s.events + (cfg.serde.toVec kind).length + payload.length ≤ mib64
  | .write _ | .consume _ | .closeInput | .closeOutput | .exit _ => False
  | .cancel | .close => False
  | .poll late => late = false
  | _ => True

instance (cfg : Config) (s : State) : DecidablePred (Honest cfg s)
  | .complete _ | .ask _ _ | .finish _ _ => inferInstanceAs (Decidable (_ ∧ _))
  | .write _ | .consume _ | .closeInput | .closeOutput | .exit _ | .cancel | .close =>
    inferInstanceAs (Decidable False)
  | .poll _ => inferInstanceAs (Decidable (_ = _))
  | .arrive _ | .boot | .take | .writer _ | .stdin | .reader => inferInstanceAs (Decidable True)

variable {cfg : Config} {s t : State}

/-! ### The calls that are out -/

/-- At most one completion was sent for each call that was asked, and the calls that are out fit
in the channel. -/
structure Booked (cfg : Config) (s : State) : Prop where
  sent_le : s.sent.length ≤ s.asked
  asked_le : s.asked ≤ s.taken.length + cfg.capacity

/-- **The channel has room** for the completion that the stdin thread holds. -/
theorem Booked.room (h : Booked cfg s) {piped waiting : List Bytes}
    (hdown : Downstream cfg s piped waiting) (hhand : s.stdin.hand ≠ []) :
    s.channel.length < cfg.capacity := by
  have hsent := congrArg List.length hdown.inbound.sent_eq
  have hle := h.sent_le
  have hasked := h.asked_le
  have hpos := List.length_pos_iff.mpr hhand
  simp only [List.length_append] at hsent
  omega

/-- A step that sends, asks and takes nothing. -/
theorem Booked.elsewhere (h : Booked cfg s) (hsent : t.sent = s.sent) (hasked : t.asked = s.asked)
    (htaken : t.taken = s.taken) : Booked cfg t where
  sent_le := by rw [hsent, hasked]; exact h.sent_le
  asked_le := by rw [hasked, htaken]; exact h.asked_le

/-! ### Both ways -/

/-- The invariant of an honest run. -/
structure Undisturbed (cfg : Config) (s : State) : Prop where
  downstream : ∃ piped waiting, Downstream cfg s piped waiting
  upstream : ∃ pending, Upstream cfg s pending
  booked : Booked cfg s
  relay : Relay cfg s
  reads : s.childReads = true
  writes : s.childWrites = true
  exit : s.exit = none
  poll : s.poll.Watching

theorem undisturbed_start : Undisturbed cfg (.start cfg) where
  downstream := ⟨[], [], downstream_start⟩
  upstream := ⟨[], upstream_start⟩
  booked := ⟨Nat.le_refl _, Nat.zero_le _⟩
  relay := relay_start
  reads := rfl
  writes := rfl
  exit := rfl
  poll := trivial

/-- The polling loop finds the child running and no flag stored. -/
theorem Undisturbed.poll_step (h : Undisturbed cfg s) (hstep : stepPoll s false = some t) :
    t.poll.Watching ∧ t = { s with poll := t.poll } := by
  obtain ⟨piped, waiting, hdown⟩ := h.downstream
  obtain ⟨pending, hup⟩ := h.upstream
  have hwatching := h.poll
  cases hpoll : s.poll with
  | tryWait | loadCancelled | loadOverflow | checkDeadline =>
    simp only [stepPoll, hpoll, h.exit, hdown.cancelled, hup.overflow] at hstep
    cases hstep
    exact ⟨trivial, by simp [h.exit, hdown.cancelled, hup.overflow]⟩
  | killing _ | joining _ | returned _ =>
    rw [hpoll] at hwatching
    exact hwatching.elim

/-- **Every honest step keeps the run undisturbed.** -/
theorem undisturbed_step (hserde : cfg.serde.Lawful) {l : Label} (h : Undisturbed cfg s)
    (hl : Honest cfg s l) (hstep : step cfg s l = some t) : Undisturbed cfg t := by
  have hrelay := relay_step h.relay hstep
  obtain ⟨piped, waiting, hdown⟩ := h.downstream
  obtain ⟨pending, hup⟩ := h.upstream
  cases l with
  | write _ | consume _ | closeInput | closeOutput | exit _ | cancel | close => exact hl.elim
  | complete bytes =>
    simp only [step] at hstep
    split_ifs at hstep
    cases hstep
    refine ⟨⟨_, _, hdown.complete hl.1⟩, ⟨_, hup.elsewhere rfl⟩, ⟨?_, h.booked.asked_le⟩, hrelay,
      h.reads, h.writes, h.exit, h.poll⟩
    simp only [List.length_append, List.length_singleton]
    exact hl.2
  | arrive n =>
    simp only [step] at hstep
    cases hstep
    exact ⟨⟨_, _, hdown.arrive n⟩, ⟨_, hup.elsewhere rfl⟩, h.booked.elsewhere rfl rfl rfl, hrelay,
      h.reads, h.writes, h.exit, h.poll⟩
  | boot =>
    simp only [step] at hstep
    split_ifs at hstep with hboot
    obtain ⟨-, hguest, hrequest⟩ := hboot
    cases hstep
    refine ⟨⟨_, _, hdown.boot hguest hrequest⟩, ⟨_, hup.compute ?_ _ ?_⟩,
      h.booked.elsewhere rfl rfl rfl, hrelay, h.reads, h.writes, h.exit, h.poll⟩
    · rw [hguest]
      decide
    · rw [hguest]
      rfl
  | ask calls payload =>
    simp only [step] at hstep
    split_ifs at hstep with hask
    obtain ⟨hasked, hpayload, htraffic⟩ := hl
    cases hstep
    exact ⟨⟨_, _, hdown.printEvent _ _ hask.2 Guest.noConfusion _⟩,
      hup.printEvent hserde rfl hpayload htraffic hask.2 rfl (by simp) _,
      ⟨h.booked.sent_le.trans (Nat.le_add_right _ _), hasked⟩, hrelay, h.reads, h.writes, h.exit,
      h.poll⟩
  | take =>
    simp only [step] at hstep
    split_ifs at hstep with htake
    split at hstep <;> cases hstep
    rename_i bytes rest hnext
    obtain ⟨others, hdown'⟩ := hdown.take htake.2 hnext
    refine ⟨⟨_, _, hdown'⟩, ⟨_, hup.compute ?_ _ ?_⟩, ⟨h.booked.sent_le, ?_⟩, hrelay, h.reads,
      h.writes, h.exit, h.poll⟩
    · rw [htake.2]
      decide
    · rw [htake.2]
      simp [Guest.turn]
    · have hasked := h.booked.asked_le
      simp only [List.length_append, List.length_singleton]
      omega
  | finish kind payload =>
    simp only [step] at hstep
    split_ifs at hstep with hfinish
    obtain ⟨hkind, hpayload, hknown, htraffic⟩ := hl
    obtain ⟨maximum, hmaximum⟩ := Option.ne_none_iff_exists'.mp hknown
    rw [hmaximum] at hpayload
    cases hstep
    exact ⟨⟨_, _, hdown.printEvent _ _ hfinish.2 Guest.noConfusion _⟩,
      hup.printEvent hserde hmaximum hpayload htraffic hfinish.2 rfl (by simpa using hkind) _,
      h.booked.elsewhere rfl rfl rfl, hrelay, h.reads, h.writes, h.exit, h.poll⟩
  | writer n =>
    have hframe := stepWriter_frame hstep
    obtain ⟨piped', hdown'⟩ := hdown.writer_step (fun _ _ => h.reads) hstep
    refine ⟨⟨_, _, hdown'⟩, ⟨_, hup.elsewhere (by rw [hframe])⟩, h.booked.elsewhere ?_ ?_ ?_,
      hrelay, ?_, ?_, ?_, ?_⟩ <;> rw [hframe]
    exacts [h.reads, h.writes, h.exit, h.poll]
  | stdin =>
    have hframe := stepStdin_frame hstep
    obtain ⟨waiting', hdown'⟩ := hdown.stdin_step (h.booked.room hdown) hstep
    refine ⟨⟨_, _, hdown'⟩, ⟨_, hup.elsewhere (by rw [hframe])⟩, h.booked.elsewhere ?_ ?_ ?_,
      hrelay, ?_, ?_, ?_, ?_⟩ <;> rw [hframe]
    exacts [h.reads, h.writes, h.exit, h.poll]
  | reader =>
    have hframe := stepReader_frame hstep
    refine ⟨⟨_, _, hdown.elsewhere (by rw [hframe])⟩,
      hup.reader_step h.relay hdown.taken_le (fun _ => h.writes) hstep,
      h.booked.elsewhere ?_ ?_ ?_, hrelay, ?_, ?_, ?_, ?_⟩ <;> rw [hframe]
    exacts [h.reads, h.writes, h.exit, h.poll]
  | poll late =>
    obtain rfl : late = false := hl
    obtain ⟨hwatching, hframe⟩ := h.poll_step hstep
    refine ⟨⟨_, _, hdown.elsewhere (by rw [hframe])⟩, ⟨_, hup.elsewhere (by rw [hframe])⟩,
      h.booked.elsewhere ?_ ?_ ?_, hrelay, ?_, ?_, ?_, hwatching⟩ <;> rw [hframe]
    exacts [h.reads, h.writes, h.exit]

/-- **The supervisor does not disturb an honest run.** In every reachable state the stdin
thread is in its loop and finds room in the channel for the completion it holds; neither flag
is stored and the reader has not reported anything; what was sent is, in order, what the child
took, what is in its pipe, in the channel, in the hand of the stdin thread and in the port; and
what the child printed is what was forwarded and what is in the other pipe. -/
theorem honest_run (cfg : Config) (hserde : cfg.serde.Lawful) (s : State)
    (h : ((system cfg).restrict fun s l _ => Honest cfg s l).Reachable s) :
    (s.stdin ≠ .leaving ∧ s.stdin ≠ .stored ∧ s.stdin ≠ .gone) ∧
    (∀ left remaining bytes, s.stdin = .sending left remaining bytes →
      s.writer ≠ .gone ∧ s.channel.length < cfg.capacity) ∧
    (s.cancelled = false ∧ s.overflow = false ∧
      ∀ ok, s.reader ≠ .storing ok ∧ s.reader ≠ .done ok) ∧
    (∃ piped waiting : List Bytes,
      s.sent = s.taken ++ piped ++ s.channel ++ s.stdin.hand ++ waiting ∧
      unread cfg s ++ piped.flatMap frameBytes = s.childIn ++ s.writer.rest ∧
      waiting.flatMap frameBytes = s.portIn ++ s.queued) ∧
    ∃ pending : List Relayed, s.events = s.forwarded ++ pending ∧
      s.childOut = pending.flatMap Relayed.bytes := by
  have hind : ((system cfg).restrict fun s l _ => Honest cfg s l).Inductive (Undisturbed cfg) :=
    ⟨fun s hs => hs ▸ undisturbed_start,
      fun s l t hs hst => undisturbed_step hserde hs hst.2 hst.1⟩
  replace h := hind.of_reachable h
  obtain ⟨piped, waiting, hdown⟩ := h.downstream
  obtain ⟨pending, hup⟩ := h.upstream
  have hcounted := hdown.inbound.counted
  refine ⟨⟨fun hl => ?_, fun hl => ?_, fun hl => ?_⟩, fun left remaining bytes hsending => ?_,
    ⟨hdown.cancelled, hup.overflow, fun ok => ?_⟩,
    ⟨piped, waiting, hdown.inbound.sent_eq, hdown.pipe_eq, hdown.inbound.port_eq⟩,
    pending, hup.events_eq, hup.pipe_eq⟩
  · rw [hl] at hcounted
    exact hcounted
  · rw [hl] at hcounted
    exact hcounted
  · rw [hl] at hcounted
    exact hcounted
  · refine ⟨fun hgone => ?_, h.booked.room hdown (by rw [hsending]; exact List.cons_ne_nil _ _)⟩
    have hwriter := hdown.writer
    rw [hgone] at hwriter
    exact hwriter
  · -- a reader that has stored its verdict has seen the end of the stream, which is still open
    have hstage := h.relay.stage
    have hend : ∀ r, s.reader = r → (r = .storing true ∨ r = .done true) → False := by
      rintro r hreader (rfl | rfl) <;> rw [hreader] at hstage <;>
        exact absurd (hstage rfl).2.2 (by rw [h.writes]; decide)
    rcases hup.reader with ⟨left, remaining, hreader⟩ | ⟨-, -, hreader | hreader | hreader⟩
    · rw [hreader]
      exact ⟨Reader.noConfusion, Reader.noConfusion⟩
    · rw [hreader]
      exact ⟨Reader.noConfusion, Reader.noConfusion⟩
    · exact (hend _ hreader (.inl rfl)).elim
    · exact (hend _ hreader (.inr rfl)).elim

/-- The run of the child that was answered once, up to its result. -/
theorem honest_run_answered : ∃ s : State, s.sent = [utf8 "[1]", utf8 "[2]"] ∧
    s.channel = [utf8 "[2]"] ∧ s.cancelled = false ∧
    (s.stdin ≠ .leaving ∧ s.stdin ≠ .stored ∧ s.stdin ≠ .gone) := by
  have hrun : (System.trace (step defaultRun) (Honest defaultRun) (.start defaultRun)
      (promptRun.take 13 ++ [.complete (utf8 "[2]"), .arrive 7, .stdin, .stdin])).map
      (fun s => (s.sent, s.channel)) = some ([utf8 "[1]", utf8 "[2]"], [utf8 "[2]"]) := by
    decide
  obtain ⟨s, hs, hfinal⟩ := Option.map_eq_some_iff.mp hrun
  obtain ⟨hsent, hchannel⟩ := Prod.mk.inj hfinal
  have hhonest := honest_run defaultRun Serde.reference_lawful s (System.reachable_of_trace rfl hs)
  exact ⟨s, hsent, hchannel, hhonest.2.2.1.1, hhonest.1⟩

end Javex.Worker
