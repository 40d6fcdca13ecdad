import Javex.Worker.Inbound

/-!
# The status of a child that ends on its own

Which status `supervise` returns when the BEAM has not cancelled. The flag `cancelled` is also
stored when a write to the child fails, and when the channel is full; the polling loop tells
these from a cancellation only if the child is already waitable when it looks.

* `own_status`: a run in which no thread is refused before the child has ended (`Settled`)
  returns the child's own status, or 126.
* `own_status_lost`: a completion that is written just after the child finished, closed its
  pipes and before it became waitable turns its status 0 into 125.

The polling loop looks at the flag and at the child in one order and the threads set the flag and
see the child's pipes close in another. A child that ends closes its pipes first and can be waited
for only later; between the two, a write to it fails, the flag is stored, and the loop finds the
flag before it finds the status. The condition of `own_status` is that no thread is refused in that
interval, and it is stated about the steps of the run, because the interval is one of the
interleaving and not of the input.

The conclusion is about every state that such a run reaches: a supervisor that has returned has
returned the child's own status, or 126 if the reader thread found its events invalid. A status 125
is then one that the child itself ended with.
-/

namespace Javex.Worker

open Codec Codec.Decoder Isolated Transition

/-- The child is waitable, and the polling loop finds it so before it looks at the flag. -/
def Ended (s : State) : Prop := s.exit.isSome ∧ s.poll ≠ .loadCancelled

instance (s : State) : Decidable (Ended s) := inferInstanceAs (Decidable (_ ∧ _))

/-- The writer thread is in the middle of a frame. -/
def Writer.isWriting : Writer → Bool
  | .writing _ => true
  | _ => false

/-- The writer thread finds the pipe closed at the other end, or the stdin thread finds the
channel full. -/
def Refused (cfg : Config) (s : State) : Label → Prop
  | .writer _ => s.writer.isWriting ∧ s.childReads = false
  | .stdin => s.stdin.hand ≠ [] ∧ cfg.capacity ≤ s.channel.length
  | _ => False

instance (cfg : Config) (s : State) : DecidablePred (Refused cfg s)
  | .writer _ | .stdin => inferInstanceAs (Decidable (_ ∧ _))
  | .complete _ | .cancel | .close | .arrive _ | .write _ | .consume _ | .closeInput
  | .closeOutput | .exit _ | .boot | .ask _ _ | .take | .finish _ _ | .reader | .poll _ =>
    inferInstanceAs (Decidable False)

/-- No thread is refused before the child has ended. -/
def Settled (cfg : Config) (s : State) (l : Label) : Prop := Refused cfg s l → Ended s

instance (cfg : Config) (s : State) : DecidablePred (Settled cfg s) := fun l =>
  inferInstanceAs (Decidable (Refused cfg s l → Ended s))

/-- What the polling loop has decided is the child's own status or an invalid stream. -/
def Own (s : State) : Poll → Prop
  | .killing reason => reason = 126
  | .joining status => s.exit = some status
  | .returned status => status = 126 ∨ s.exit = some status
  | _ => True

/-- The threads are at work and the flag is not stored. -/
structure Working (cfg : Config) (s : State) : Prop where
  cancelled : s.cancelled = false
  writer : s.writer.Live
  inbound : ∃ handed waiting, Inbound cfg s handed waiting

/-- The invariant: the threads are at work or the child has ended, and the polling loop goes by
the child. -/
structure Calm (cfg : Config) (s : State) : Prop where
  working : Working cfg s ∨ Ended s
  own : Own s s.poll

variable {cfg : Config} {s t : State}

theorem calm_start : Calm cfg (.start cfg) where
  working := .inl ⟨rfl, trivial, [], [], inbound_start⟩
  own := trivial

/-- A verdict stands as long as the child's status does. -/
theorem Own.congr {p : Poll} (h : Own s p) (hexit : s.exit.isSome → t.exit = s.exit) :
    Own t p := by
  cases p with
  | joining status => exact (hexit (by rw [show s.exit = _ from h]; rfl)).trans h
  | returned status =>
    rcases h with h | h
    · exact .inl h
    · exact .inr ((hexit (by rw [h]; rfl)).trans h)
  | _ => exact h

/-- A child that has ended stays so in every step but those of the polling loop. -/
theorem Ended.congr (h : Ended s) (hexit : s.exit.isSome → t.exit = s.exit)
    (hpoll : t.poll = s.poll) : Ended t :=
  ⟨by rw [hexit h.1]; exact h.1, hpoll ▸ h.2⟩

/-- A step elsewhere that keeps the threads at work. -/
theorem Calm.elsewhere (h : Calm cfg s) (hexit : s.exit.isSome → t.exit = s.exit)
    (hpoll : t.poll = s.poll) (hworking : Working cfg s → Working cfg t ∨ Ended s) :
    Calm cfg t where
  working := by
    rcases h.working with hs | hs
    · exact (hworking hs).imp_right fun he => he.congr hexit hpoll
    · exact .inr (hs.congr hexit hpoll)
  own := hpoll ▸ h.own.congr hexit

/-- The writer thread stays at work unless it is refused. -/
theorem Working.writer_step (h : Working cfg s) {n : ℕ} (hrefused : ¬ Refused cfg s (.writer n))
    (hstep : stepWriter s n = some t) : Working cfg t := by
  obtain ⟨hcancelled, hlive, handed, waiting, hinbound⟩ := h
  have hframe := stepWriter_frame hstep
  have hin : Inbound cfg t handed waiting := by
    rw [hframe]
    exact hinbound.elsewhere rfl rfl rfl rfl
  cases hwriter : s.writer with
  | writing rest =>
    have hreads : s.childReads = true := by
      simpa [Refused, hwriter, Writer.isWriting] using hrefused
    obtain ⟨chunk, w, hw, -, rfl⟩ := stepWriter_writing hwriter hreads hstep
    exact ⟨hcancelled, hw, _, _, hin⟩
  | receiving =>
    simp only [stepWriter, hwriter] at hstep
    split at hstep
    · cases hstep
      exact ⟨hcancelled, trivial, _, _, hin⟩
    · split_ifs at hstep with hgone
      -- the stdin thread has not left its loop
      have hcounted := hinbound.counted
      rw [hgone] at hcounted
      exact hcounted.elim
  | leaving | stored | gone =>
    rw [hwriter] at hlive
    exact hlive.elim

/-- The stdin thread stays at work unless it is refused. -/
theorem Working.stdin_step (h : Working cfg s) (hrefused : ¬ Refused cfg s .stdin)
    (hstep : stepStdin cfg s = some t) : Working cfg t := by
  obtain ⟨hcancelled, hlive, handed, waiting, hinbound⟩ := h
  have hframe := stepStdin_frame hstep
  have hroom : s.stdin.hand ≠ [] → s.writer ≠ .gone ∧ s.channel.length < cfg.capacity := by
    intro hhand
    refine ⟨fun hgone => ?_, ?_⟩
    · rw [hgone] at hlive
      exact hlive.elim
    · simpa [Refused, hhand] using hrefused
  obtain ⟨new, later, hin, -, hflag⟩ := hinbound.stdin hroom hstep
  refine ⟨hflag.trans hcancelled, ?_, _, _, hin⟩
  rw [hframe]
  exact hlive

/-- The polling loop goes by the child. -/
theorem Calm.poll (h : Calm cfg s) (hstep : stepPoll s false = some t) : Calm cfg t := by
  have hframe := stepPoll_frame hstep
  have hworking : Working cfg s → Working cfg t := by
    rintro ⟨hcancelled, hlive, handed, waiting, hinbound⟩
    rw [hframe]
    exact ⟨hcancelled, hlive, handed, waiting, hinbound.elsewhere rfl rfl rfl rfl⟩
  obtain ⟨hstate, hown⟩ := h
  unfold stepPoll at hstep
  cases hpoll : s.poll with
  | tryWait =>
    simp only [hpoll] at hstep
    split at hstep <;> cases hstep
    · rename_i status hexit
      exact ⟨.inr ⟨by simp [hexit], Poll.noConfusion⟩, hexit⟩
    · rename_i hexit
      refine ⟨hstate.imp hworking fun hended => ?_, trivial⟩
      simp [Ended, hexit] at hended
  | loadCancelled =>
    -- a child that has ended is not looked at here, and the threads at work left the flag alone
    simp only [hpoll] at hstep
    cases hstep
    rcases hstate with hs | hs
    · refine ⟨.inl (hworking hs), ?_⟩
      simp [hs.cancelled, Own]
    · exact absurd hpoll hs.2
  | loadOverflow =>
    simp only [hpoll] at hstep
    cases hstep
    refine ⟨hstate.imp hworking fun hended => ⟨hended.1, ?_⟩, ?_⟩ <;>
      cases s.overflow <;> simp [Own]
  | checkDeadline =>
    simp only [hpoll] at hstep
    cases hstep
    exact ⟨hstate.imp hworking fun hended => ⟨hended.1, by simp⟩, trivial⟩
  | killing reason =>
    rw [hpoll] at hown
    simp only [hpoll] at hstep
    cases hstep
    exact ⟨.inr ⟨rfl, Poll.noConfusion⟩, .inl hown⟩
  | joining status =>
    rw [hpoll] at hown
    have hended : s.exit.isSome := by rw [show s.exit = some status from hown]; rfl
    simp only [hpoll] at hstep
    split_ifs at hstep with hstatus
    · split at hstep <;> cases hstep
      rename_i ok hreader
      refine ⟨.inr ⟨hended, Poll.noConfusion⟩, ?_⟩
      cases ok with
      | true => exact .inr (hown.trans (by simp [hstatus]))
      | false => exact .inl rfl
    · cases hstep
      exact ⟨.inr ⟨hended, Poll.noConfusion⟩, .inr hown⟩
  | returned status =>
    simp only [hpoll] at hstep
    cases hstep

/-- **Every step keeps the calm.** -/
theorem calm_step {l : Label} (h : Calm cfg s) (hl : WellFormed cfg s l ∧ Settled cfg s l)
    (hstep : step cfg s l = some t) : Calm cfg t := by
  obtain ⟨hformed, hsettled⟩ := hl
  -- what the BEAM, the pipes and the child do leaves the threads at work
  have hkeep : (s.exit.isSome → t.exit = s.exit) → t.poll = s.poll →
      t.cancelled = s.cancelled → t.writer = s.writer →
      (∀ handed waiting, Inbound cfg s handed waiting →
        ∃ handed waiting, Inbound cfg t handed waiting) → Calm cfg t := by
    intro hexit hpoll hflag hwriter hinbound
    refine h.elsewhere hexit hpoll fun hs => .inl ⟨hflag.trans hs.cancelled, ?_, ?_⟩
    · rw [hwriter]
      exact hs.writer
    · obtain ⟨handed, waiting, hin⟩ := hs.inbound
      exact hinbound _ _ hin
  cases l with
  | complete bytes =>
    simp only [step] at hstep
    split_ifs at hstep
    cases hstep
    exact hkeep (fun _ => rfl) rfl rfl rfl fun _ _ hin => ⟨_, _, hin.complete hformed⟩
  | cancel | close => exact hformed.elim
  | arrive n =>
    simp only [step] at hstep
    cases hstep
    refine hkeep (fun _ => rfl) rfl rfl rfl fun _ _ hin => ⟨_, _, hin.elsewhere rfl rfl ?_ rfl⟩
    simp only [List.append_assoc, List.take_append_drop]
  | write bytes | consume n | closeInput | closeOutput | boot | ask calls payload
  | finish kind payload =>
    simp only [step] at hstep
    try split at hstep
    all_goals cases hstep
    all_goals exact hkeep (fun _ => rfl) rfl rfl rfl fun _ _ hin =>
      ⟨_, _, hin.elsewhere rfl rfl rfl rfl⟩
  | take =>
    simp only [step] at hstep
    split_ifs at hstep
    split at hstep <;> cases hstep
    exact hkeep (fun _ => rfl) rfl rfl rfl fun _ _ hin => ⟨_, _, hin.elsewhere rfl rfl rfl rfl⟩
  | exit code =>
    simp only [step, stepExit] at hstep
    split_ifs at hstep with hopen
    cases hstep
    refine hkeep (fun hended => ?_) rfl rfl rfl fun _ _ hin =>
      ⟨_, _, hin.elsewhere rfl rfl rfl rfl⟩
    simp [hended] at hopen
  | writer n =>
    have hframe := stepWriter_frame hstep
    refine h.elsewhere (fun _ => by rw [hframe]) (by rw [hframe]) fun hs => ?_
    by_cases hrefused : Refused cfg s (.writer n)
    · exact .inr (hsettled hrefused)
    · exact .inl (hs.writer_step hrefused hstep)
  | stdin =>
    have hframe := stepStdin_frame hstep
    refine h.elsewhere (fun _ => by rw [hframe]) (by rw [hframe]) fun hs => ?_
    by_cases hrefused : Refused cfg s .stdin
    · exact .inr (hsettled hrefused)
    · exact .inl (hs.stdin_step hrefused hstep)
  | reader =>
    have hframe := stepReader_frame hstep
    refine hkeep (fun _ => ?_) ?_ ?_ ?_ fun _ _ hin => ⟨_, _, hin.elsewhere ?_ ?_ ?_ ?_⟩ <;>
      rw [hframe]
  | poll late =>
    obtain rfl : late = false := hformed
    exact h.poll hstep

/-- **A child that ends on its own is reported by its own status**, or by 126 for an invalid
stream, in every run in which neither a failed write to the child nor a full channel comes
before its end. -/
theorem own_status (cfg : Config) (s : State)
    (h : ((system cfg).restrict fun s l _ => WellFormed cfg s l ∧ Settled cfg s l).Reachable s)
    (status : ℕ) (hpoll : s.poll = .returned status) :
    (status = 126 ∨ s.exit = some status) ∧ (status = 125 → s.exit = some 125) := by
  have hind : ((system cfg).restrict fun s l _ => WellFormed cfg s l ∧ Settled cfg s l).Inductive
      (Calm cfg) := ⟨fun s hs => hs ▸ calm_start, fun s l t hs hst => calm_step hs hst.2 hst.1⟩
  have hown := (hind.of_reachable h).own
  rw [hpoll] at hown
  refine ⟨hown, ?_⟩
  rintro rfl
  rcases hown with hinvalid | hexit
  · cases hinvalid
  · exact hexit

/-- A completion that comes after the child has become waitable does not matter. -/
theorem own_status_waitable : ∃ s : State, s.poll = .returned 0 ∧ s.cancelled = true ∧
    (0 = 126 ∨ s.exit = some 0) ∧ (0 = 125 → s.exit = some 125) := by
  have hrun : (System.trace (step defaultRun)
      (fun s l => WellFormed defaultRun s l ∧ Settled defaultRun s l) (.start defaultRun)
      (promptRun ++ [.complete (utf8 "[2]"), .arrive 7, .stdin, .stdin, .writer 0, .exit 0,
        .writer 7, .writer 0, .poll false, .poll false])).map (fun s => (s.poll, s.cancelled)) =
      some (.returned 0, true) := by decide
  obtain ⟨s, hs, hfinal⟩ := Option.map_eq_some_iff.mp hrun
  obtain ⟨hpoll, hcancelled⟩ := Prod.mk.inj hfinal
  exact ⟨s, hpoll, hcancelled,
    own_status defaultRun s (System.reachable_of_trace rfl hs) 0 hpoll⟩

/-- **A finished child can be reported as cancelled.** The second completion is written after
the child closed its pipes; the flag is stored, and the polling loop finds it, before the child
becomes waitable with status 0. -/
theorem own_status_lost : ∃ s : State,
    ((system defaultRun).restrict fun s l _ => WellFormed defaultRun s l).Reachable s ∧
    s.guest = .finished ∧ s.reader = .done true ∧ s.exit = some 0 ∧ s.poll = .returned 125 := by
  have hrun : (System.trace (step defaultRun) (WellFormed defaultRun) (.start defaultRun)
      (promptRun ++ [.complete (utf8 "[2]"), .arrive 7, .stdin, .stdin, .writer 0, .writer 7,
        .writer 0, .poll false, .poll false, .exit 0, .poll false])).map
      (fun s => (s.guest, s.reader, s.exit, s.poll)) =
      some (.finished, .done true, some 0, .returned 125) := by decide
  obtain ⟨s, hs, hfinal⟩ := Option.map_eq_some_iff.mp hrun
  simp only [Prod.mk.injEq] at hfinal
  exact ⟨s, System.reachable_of_trace rfl hs, hfinal⟩

end Javex.Worker
