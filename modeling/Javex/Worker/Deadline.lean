import Javex.Transition.Fairness
import Javex.Worker.Supervisor

/-!
# The deadline of a worker

Once the deadline has passed the supervisor returns, whatever the child and its other threads do:
the polling loop comes round to the deadline in a few turns of its own and kills the child, and the
reader thread, which the loop waits for after a status 0, has a bounded number of events to read and
reads from a pipe that is closed. When the supervisor returns its child has been waited for.

The reader forwards an event with a write to the supervisor's own stdout, the pipe of the port. That
write waits for room, and nothing but the BEAM makes room there: a reader that is kept from its
turns may be one that waits for the BEAM. The polling loop never writes, so the deadline itself does
not depend on the pipe; only a supervisor whose child has ended with status 0 waits for the reader.
Both are said apart, what the loop gets to on its own, and that the supervisor returns if the reader
gets its turns too.

The work that is left is counted in turns of these two threads (`toReturn`, `toDone`).

* `deadline_is_kept`: the turns are bounded, and the supervisor returns.

The count is of turns and not of time: between two turns of the loop any number of steps of the
other threads may pass, and nothing is said about how long they take. A turn that finds nothing to
do still brings the loop to its next place, so that the loop needs a fixed number of turns from
wherever it stands to the kill; for the reader it is the rounds that it has left and the events that
the child had written when it was killed.
-/

namespace Javex.Worker

open Codec Codec.Decoder Isolated Transition

/-! ### The child at the end -/

/-- What the polling loop has come to says about the child. -/
def Verdict (s : State) : Poll → Prop
  | .killing reason => reason ∈ [124, 125, 126]
  | .joining status => s.exit = some status
  | .returned status =>
    s.exit.isSome ∧ (status ∈ [124, 125, 126] ∨ s.exit = some status)
  | _ => True

/-- A child that is waitable has closed its pipes, and the loop goes by the child. -/
structure Reaped (s : State) : Prop where
  reads : s.exit.isSome → s.childReads = false
  writes : s.exit.isSome → s.childWrites = false
  verdict : Verdict s s.poll

variable {cfg : Config} {s t : State}

theorem reaped_start : Reaped (.start cfg) := ⟨nofun, nofun, trivial⟩

/-- What a step of neither the polling loop nor the reader nor the child's end leaves alone. -/
structure Elsewhere (s t : State) : Prop where
  exit : t.exit = s.exit
  poll : t.poll = s.poll
  reader : t.reader = s.reader
  reads : s.childReads = false → t.childReads = false
  writes : s.childWrites = false → t.childWrites = false

/-- A step is a turn of the polling loop, a turn of the reader, the child's end, or elsewhere. -/
theorem step_place {l : Label} (h : step cfg s l = some t) :
    (∃ late, l = .poll late ∧ stepPoll s late = some t) ∨
      (l = .reader ∧ stepReader cfg s = some t) ∨
      (∃ code, l = .exit code ∧ stepExit s code = some t) ∨ Elsewhere s t := by
  cases l with
  | poll late => exact .inl ⟨late, rfl, h⟩
  | reader => exact .inr (.inl ⟨rfl, h⟩)
  | exit code => exact .inr (.inr (.inl ⟨code, rfl, h⟩))
  | writer n =>
    rw [stepWriter_frame h]
    exact .inr (.inr (.inr ⟨rfl, rfl, rfl, id, id⟩))
  | stdin =>
    rw [stepStdin_frame h]
    exact .inr (.inr (.inr ⟨rfl, rfl, rfl, id, id⟩))
  | complete bytes | cancel | close | arrive n | write bytes | consume n | closeInput
  | closeOutput | boot | ask calls payload | finish kind payload =>
    simp only [step] at h
    try split at h
    all_goals cases h
    all_goals exact .inr (.inr (.inr ⟨rfl, rfl, rfl, fun h0 => by first | exact h0 | rfl,
      fun h0 => by first | exact h0 | rfl⟩))
  | take =>
    simp only [step] at h
    split_ifs at h
    split at h <;> cases h
    exact .inr (.inr (.inr ⟨rfl, rfl, rfl, id, id⟩))

theorem Reaped.elsewhere (h : Reaped s) (hst : Elsewhere s t) : Reaped t where
  reads hexit := hst.reads (h.reads (by rwa [hst.exit] at hexit))
  writes hexit := hst.writes (h.writes (by rwa [hst.exit] at hexit))
  verdict := by
    have hverdict := h.verdict
    rw [hst.poll]
    cases hp : s.poll <;> simp only [hp, Verdict] at hverdict ⊢
    · exact hverdict
    · exact hst.exit.trans hverdict
    · rwa [hst.exit]

/-- The child ends while the loop has come to nothing yet, with its pipes closed. -/
theorem Reaped.exit (h : Reaped s) {code : ℕ} (hstep : stepExit s code = some t) : Reaped t := by
  unfold stepExit at hstep
  split_ifs at hstep with hopen
  cases hstep
  simp only [Bool.or_eq_true, not_or, Bool.not_eq_true] at hopen
  obtain ⟨⟨hreads, hwrites⟩, hexit⟩ := hopen
  refine ⟨fun _ => hreads, fun _ => hwrites, ?_⟩
  have hverdict := h.verdict
  cases hp : s.poll <;> simp only [hp, Verdict] at hverdict ⊢
  · exact hverdict
  · simp [hverdict] at hexit
  · simp [hverdict.1] at hexit

/-- The polling loop goes by the status of the child, or kills it. -/
theorem Reaped.poll (h : Reaped s) {late : Bool} (hstep : stepPoll s late = some t) :
    Reaped t := by
  have hmove : ∀ p, Verdict s p → Reaped { s with poll := p } := fun p hp =>
    ⟨h.reads, h.writes, by cases p <;> exact hp⟩
  have hverdict := h.verdict
  unfold stepPoll at hstep
  cases hp : s.poll with
  | tryWait =>
    simp only [hp] at hstep
    split at hstep <;> cases hstep
    · exact hmove _ (by assumption)
    · exact hmove _ trivial
  | loadCancelled | loadOverflow | checkDeadline =>
    simp only [hp] at hstep
    cases hstep
    exact hmove _ (by split <;> simp [Verdict])
  | killing reason =>
    simp only [hp, Verdict] at hstep hverdict
    cases hstep
    exact ⟨fun _ => rfl, fun _ => rfl, rfl, .inl hverdict⟩
  | joining status =>
    simp only [hp, Verdict] at hstep hverdict
    have hexit : s.exit.isSome := by rw [hverdict]; rfl
    split_ifs at hstep with hstatus
    · split at hstep <;> cases hstep
      rename_i ok _
      refine hmove _ ⟨hexit, ?_⟩
      cases ok with
      | true => exact .inr (hstatus ▸ hverdict)
      | false => exact .inl (by decide)
    · cases hstep
      exact hmove _ ⟨hexit, .inr hverdict⟩
  | returned status =>
    simp only [hp] at hstep
    cases hstep

theorem reaped_step {l : Label} (h : Reaped s) (hstep : step cfg s l = some t) : Reaped t := by
  rcases step_place hstep with ⟨late, -, hpoll⟩ | ⟨-, hreader⟩ | ⟨code, -, hexit⟩ | helse
  · exact h.poll hpoll
  · rw [stepReader_frame hreader]
    exact ⟨h.reads, h.writes, h.verdict⟩
  · exact h.exit hexit
  · exact h.elsewhere helse

theorem reaped_of_reachable (h : (system cfg).Reachable s) : Reaped s := by
  have hind : (system cfg).Inductive Reaped :=
    ⟨fun s hs => hs ▸ reaped_start, fun s l t hs hst => reaped_step hs hst⟩
  exact hind.of_reachable h

/-! ### The work left -/

/-- The turns that bring the polling loop to its end, once the deadline has passed. -/
def Poll.toReturn : Poll → ℕ
  | .tryWait => 5
  | .loadCancelled => 4
  | .loadOverflow => 3
  | .checkDeadline => 2
  | .killing _ | .joining _ => 1
  | .returned _ => 0

/-- The turns that bring the reader to its end. -/
def Reader.toDone : Reader → ℕ
  | .reading left _ => left + 3
  | .last => 2
  | .storing _ => 1
  | .done _ => 0

/-- The turns that are left. -/
def State.turns (s : State) : ℕ := s.poll.toReturn + s.reader.toDone

theorem stepPoll_toReturn (h : stepPoll s true = some t) : t.poll.toReturn < s.poll.toReturn := by
  unfold stepPoll at h
  cases hp : s.poll with
  | joining status =>
    simp only [hp] at h
    split_ifs at h
    · split at h <;> cases h
      exact Nat.one_pos
    · cases h
      exact Nat.one_pos
  | returned status =>
    simp only [hp] at h
    cases h
  | tryWait =>
    simp only [hp] at h
    split at h <;> cases h <;> simp [Poll.toReturn]
  | loadCancelled | loadOverflow =>
    simp only [hp] at h
    cases h
    simp only
    split_ifs <;> simp [Poll.toReturn]
  | checkDeadline | killing reason =>
    simp only [hp] at h
    cases h
    simp [Poll.toReturn]

theorem stepPoll_turns (h : stepPoll s true = some t) : t.turns < s.turns := by
  have hreader : t.reader = s.reader := by rw [stepPoll_frame h]
  have hpoll := stepPoll_toReturn h
  rw [State.turns, State.turns, hreader]
  omega

theorem stepReader_toDone (h : stepReader cfg s = some t) :
    t.reader.toDone < s.reader.toDone := by
  unfold stepReader at h
  cases hr : s.reader with
  | reading left remaining =>
    simp only [hr] at h
    split at h
    · split at h <;> cases h
      simp [Reader.toDone]
    · cases h
      simp [Reader.toDone]
    · cases h
      simp only
      split_ifs
      · simp [Reader.toDone]
      · simp [Reader.toDone]
      · simp only [Reader.toDone]
        omega
  | last =>
    simp only [hr] at h
    split_ifs at h <;> cases h <;> simp [Reader.toDone]
  | storing ok =>
    simp only [hr] at h
    cases h
    simp [Reader.toDone]
  | done ok =>
    simp only [hr] at h
    cases h

theorem stepReader_turns (h : stepReader cfg s = some t) : t.turns < s.turns := by
  have hpoll : t.poll = s.poll := by rw [stepReader_frame h]
  have hreader := stepReader_toDone h
  rw [State.turns, State.turns, hpoll]
  omega

/-- The turns that are left are bounded at any time. -/
theorem turns_le_of_reachable (h : (system cfg).Reachable s) :
    s.turns ≤ cfg.maxCallbacks + 9 := by
  have hind : (system cfg).Inductive fun s => s.reader.toDone ≤ cfg.maxCallbacks + 4 := by
    refine ⟨fun s hs => hs ▸ Nat.le_refl _, fun s l t hs hst => ?_⟩
    rcases step_place hst with ⟨late, -, hpoll⟩ | ⟨-, hreader⟩ | ⟨code, -, hexit⟩ | helse
    · rw [stepPoll_frame hpoll]
      exact hs
    · exact (stepReader_toDone hreader).le.trans hs
    · unfold stepExit at hexit
      split_ifs at hexit
      cases hexit
      exact hs
    · rw [helse.reader]
      exact hs
  have hreader := hind.of_reachable h
  have hpoll : s.poll.toReturn ≤ 5 := by cases s.poll <;> simp [Poll.toReturn]
  rw [State.turns]
  omega

/-! ### After the deadline -/

/-- The two threads that the end depends on. -/
inductive Watcher
  | poll | reader
  deriving DecidableEq, Repr

/-- A turn of a thread, after the deadline. -/
def Watcher.turn : Watcher → Label → Prop
  | .poll, l => l = .poll true
  | .reader, l => l = .reader

/-- Whether a step is a turn of one of the two. -/
def isTurn : Label → Bool
  | .poll _ | .reader => true
  | _ => false

/-- The supervisor from its deadline on: when the polling loop looks, it is late. -/
def lateSystem (cfg : Config) : System State Label :=
  (system cfg).restrict fun _ l _ => l ≠ .poll false

/-- The thread whose turn it is: the polling loop, unless it waits for the reader. -/
def State.watcher (s : State) : Watcher :=
  match s.poll, s.reader with
  | .joining 0, .done _ => .poll
  | .joining 0, _ => .reader
  | _, _ => .poll

/-- The supervisor has returned. -/
def Returned (s : State) : Prop := ∃ status, s.poll = .returned status

theorem watcher_congr (hpoll : t.poll = s.poll) (hreader : t.reader = s.reader) :
    t.watcher = s.watcher := by
  rw [State.watcher, State.watcher, hpoll, hreader]

/-- A step elsewhere leaves the turns as they are; the watchers' own use them up. -/
theorem turns_step {l : Label} (h : (lateSystem cfg).step s l t) :
    t.turns < s.turns ∨ isTurn l = false ∧ t.turns = s.turns ∧ t.watcher = s.watcher := by
  obtain ⟨hstep, hlate⟩ := h
  rcases step_place hstep with ⟨late, rfl, hpoll⟩ | ⟨rfl, hreader⟩ | ⟨code, rfl, hexit⟩ | helse
  · cases late with
    | true => exact .inl (stepPoll_turns hpoll)
    | false => exact absurd rfl hlate
  · exact .inl (stepReader_turns hreader)
  · unfold stepExit at hexit
    split_ifs at hexit
    cases hexit
    exact .inr ⟨rfl, rfl, rfl⟩
  · by_cases hturn : isTurn l = true
    · -- a turn of a watcher is the other case
      cases l with
      | poll late =>
        cases late with
        | true => exact .inl (stepPoll_turns hstep)
        | false => exact absurd rfl hlate
      | reader => exact .inl (stepReader_turns hstep)
      | _ => cases hturn
    · refine .inr ⟨by simpa using hturn, ?_, watcher_congr helse.poll helse.reader⟩
      rw [State.turns, State.turns, helse.poll, helse.reader]

/-- The child has ended with status 0, and the loop waits for the reader. -/
def Joins (s : State) : Prop := s.poll = .joining 0

/-- Unless it waits for the reader, the polling loop can take a turn. -/
theorem poll_enabled (hreturned : ¬ Returned s) (hjoins : ¬ Joins s) :
    (lateSystem cfg).Enabled Watcher.poll.turn s := by
  have hturn : (∃ t, stepPoll s true = some t) → (lateSystem cfg).Enabled Watcher.poll.turn s := by
    rintro ⟨t, ht⟩
    exact ⟨.poll true, t, rfl, ht, nofun⟩
  cases hp : s.poll with
  | returned status => exact absurd ⟨status, hp⟩ hreturned
  | tryWait =>
    refine hturn ?_
    cases hexit : s.exit <;> simp [stepPoll, hp, hexit]
  | loadCancelled | loadOverflow | checkDeadline | killing reason =>
    exact hturn (by simp [stepPoll, hp])
  | joining status =>
    cases status with
    | zero => exact absurd hp hjoins
    | succ n => exact hturn (by simp [stepPoll, hp])

/-- The thread whose turn it is can take it. -/
theorem watcher_enabled (h : Reaped s) (hreturned : ¬ Returned s) :
    (lateSystem cfg).Enabled s.watcher.turn s := by
  by_cases hjoins : Joins s
  · -- the reader is at the end of a closed pipe
    have hp : s.poll = .joining 0 := hjoins
    have hverdict := h.verdict
    rw [hp, Verdict] at hverdict
    have hwrites := h.writes (by rw [hverdict]; rfl)
    have hreaderTurn : s.watcher = .reader → (∃ t, stepReader cfg s = some t) →
        (lateSystem cfg).Enabled s.watcher.turn s := by
      rintro hwatcher ⟨t, ht⟩
      rw [hwatcher]
      exact ⟨.reader, t, rfl, ht, nofun⟩
    cases hr : s.reader with
    | done ok =>
      have hwatcher : s.watcher = .poll := by simp [State.watcher, hp, hr]
      rw [hwatcher]
      have hturn : stepPoll s true = some { s with poll := .returned (if ok then 0 else 126) } := by
        simp [stepPoll, hp, hr]
      exact ⟨.poll true, _, rfl, hturn, nofun⟩
    | storing ok =>
      exact hreaderTurn (by simp [State.watcher, hp, hr]) (by simp [stepReader, hr])
    | last =>
      refine hreaderTurn (by simp [State.watcher, hp, hr]) ?_
      by_cases hempty : s.childOut = [] <;> simp [stepReader, hr, hempty, hwrites]
    | reading left remaining =>
      refine hreaderTurn (by simp [State.watcher, hp, hr]) ?_
      simp only [stepReader, hr]
      cases (readEvent cfg.serde cfg.operation cfg.budgets remaining).next s.childOut <;>
        simp [hwrites]
  · have hwatcher : s.watcher = .poll := by
      unfold State.watcher
      split
      · rfl
      · exact absurd ‹_› hjoins
      · rfl
    rw [hwatcher]
    exact poll_enabled hreturned hjoins

/-- The polling loop brings itself to its end, or to where it waits for the reader. -/
theorem helpful_poll (cfg : Config) :
    (lateSystem cfg).Helpful (fun _ => True) (fun s => Returned s ∨ Joins s)
      (fun _ : Unit => (lateSystem cfg).Enabled Watcher.poll.turn) (fun _ => Watcher.poll.turn)
      (fun s => s.poll.toReturn) fun _ => () where
  step _ _ _ _ _ := trivial
  helps s _ hshort := poll_enabled (fun h => hshort (.inl h)) fun h => hshort (.inr h)
  keeps s l t _ _ hstep := by
    obtain ⟨hstep, hlate⟩ := hstep
    have hkeep : t.poll = s.poll → t.poll.toReturn < s.poll.toReturn ∨
        t.poll.toReturn = s.poll.toReturn ∧ () = () := fun hpoll => .inr ⟨by rw [hpoll], rfl⟩
    rcases step_place hstep with ⟨late, rfl, hpoll⟩ | ⟨-, hreader⟩ | ⟨code, -, hexit⟩ | helse
    · cases late with
      | true => exact .inl (stepPoll_toReturn hpoll)
      | false => exact absurd rfl hlate
    · exact hkeep (by rw [stepReader_frame hreader])
    · unfold stepExit at hexit
      split_ifs at hexit
      cases hexit
      exact hkeep rfl
    · exact hkeep helse.poll
  spends s l t _ _ hturn hstep := by
    obtain rfl : l = .poll true := hturn
    exact stepPoll_toReturn hstep.1

/-- The watchers bring the supervisor to its end. -/
theorem helpful_watchers (cfg : Config) :
    (lateSystem cfg).Helpful Reaped Returned (fun w => (lateSystem cfg).Enabled w.turn) Watcher.turn
      State.turns State.watcher where
  step _ _ _ hs hstep := reaped_step hs hstep.1
  helps _ hs hreturned := watcher_enabled hs hreturned
  keeps _ _ _ _ _ hstep := (turns_step hstep).imp_right And.right
  spends s l t _ _ hturn hstep := by
    rcases turns_step hstep with hless | ⟨hnot, -⟩
    · exact hless
    · cases hw : s.watcher <;> rw [hw] at hturn <;> cases hturn <;> cases hnot

/-- **The deadline is kept.** Take any state of the supervisor, from when its child is spawned, and
go on from it with the deadline passed, with any steps of the child, the BEAM and all threads. The
polling loop and the reader take no more than `maxCallbacks + 9` turns altogether. Until the
supervisor has returned, the loop can take a turn, or its child has ended with status 0 and the
reader that it waits for can, once the pipe of the port takes what it forwards. If the loop is not
kept from its turns for ever, it returns or comes to wait for the reader; and if the reader is not
either, the supervisor does return. Then its child has ended with its pipes closed, and the status
is one of the supervisor's own or the child's. -/
theorem deadline_is_kept (cfg : Config) (s : State) (hs : (system cfg).Reachable s) :
    (∀ ls t, (lateSystem cfg).Run s ls t →
      ls.countP isTurn ≤ cfg.maxCallbacks + 9 ∧
        (∀ status, t.poll = .returned status →
          t.exit.isSome ∧ t.childReads = false ∧ t.childWrites = false ∧
            (status ∈ [124, 125, 126] ∨ t.exit = some status)) ∧
        (¬ Returned t → (lateSystem cfg).Enabled Watcher.poll.turn t ∨
          Joins t ∧ t.exit = some 0 ∧ (lateSystem cfg).Enabled Watcher.reader.turn t)) ∧
      ∀ b : (lateSystem cfg).Behaviour, b.state 0 = s → b.WeaklyFair Watcher.poll.turn →
        (∃ i, Returned (b.state i) ∨ Joins (b.state i)) ∧
          (b.WeaklyFair Watcher.reader.turn → ∃ i, Returned (b.state i)) := by
  have hreaped := reaped_of_reachable hs
  refine ⟨fun ls t hrun => ?_, fun b hstart hfair => ⟨?_, fun hreader => ?_⟩⟩
  · have hkept : ∀ s l t, Reaped s → (lateSystem cfg).step s l t → Reaped t :=
      fun _ _ _ hi hstep => reaped_step hi hstep.1
    have ht : Reaped t := hrun.invariant hkept hreaped
    have hle : ∀ s l t, Reaped s → (lateSystem cfg).step s l t → t.turns ≤ s.turns := by
      intro s l t _ hstep
      rcases turns_step hstep with h | ⟨-, h, -⟩ <;> omega
    have hlt : ∀ s l t, isTurn l = true → Reaped s → (lateSystem cfg).step s l t →
        t.turns < s.turns := by
      intro s l t hown _ hstep
      rcases turns_step hstep with h | ⟨h, -⟩
      · exact h
      · rw [hown] at h
        cases h
    have hcount := hrun.countP_add_work_le hkept hle hlt hreaped
    have hbound := turns_le_of_reachable hs
    have hverdict := ht.verdict
    refine ⟨by omega, fun status hstatus => ?_, fun hnot => ?_⟩
    · rw [hstatus, Verdict] at hverdict
      exact ⟨hverdict.1, ht.reads hverdict.1, ht.writes hverdict.1, hverdict.2⟩
    · by_cases hjoins : Joins t
      · rw [show t.poll = .joining 0 from hjoins, Verdict] at hverdict
        have henabled : (lateSystem cfg).Enabled t.watcher.turn t := watcher_enabled ht hnot
        cases hw : t.watcher with
        | poll => exact .inl (hw ▸ henabled)
        | reader => exact .inr ⟨hjoins, hverdict, hw ▸ henabled⟩
      · exact .inl (poll_enabled hnot hjoins)
  · obtain ⟨i, -, hi⟩ := (helpful_poll cfg).eventually b (fun _ => hfair) (i := 0) trivial
    exact ⟨i, hi⟩
  · have hboth : ∀ w : Watcher, b.WeaklyFair w.turn := by
      rintro (_ | _)
      · exact hfair
      · exact hreader
    obtain ⟨i, -, hi⟩ := (helpful_watchers cfg).eventually b hboth (i := 0) (hstart ▸ hreaped)
    exact ⟨i, hi⟩

/-- A child that does nothing at all. -/
theorem deadline_is_kept_hanging : ∃ t : State, t.poll = .returned 124 ∧ t.exit.isSome ∧
    t.childReads = false ∧ t.childWrites = false := by
  have hstart : (system defaultRun).Reachable (.start defaultRun) := .init rfl
  have hturn : ∀ {s t : State}, stepPoll s true = some t →
      (lateSystem defaultRun).Run s [.poll true] t := fun h =>
    System.Run.single ⟨h, by simp⟩
  obtain ⟨ls, t, hrun, hpoll⟩ : ∃ ls t, (lateSystem defaultRun).Run (.start defaultRun) ls t ∧
      t.poll = .returned 124 :=
    ⟨_, _, ((((hturn rfl).trans (hturn rfl)).trans (hturn rfl)).trans (hturn rfl)).trans
      (hturn rfl), rfl⟩
  obtain ⟨hexit, hreads, hwrites, -⟩ :=
    ((deadline_is_kept defaultRun _ hstart).1 ls t hrun).2.1 124 hpoll
  exact ⟨t, hpoll, hexit, hreads, hwrites⟩

end Javex.Worker
