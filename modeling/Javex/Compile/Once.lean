import Javex.Compile.Sound
import Mathlib.Algebra.Ring.Nat

/-!
# Compilation answers once

A step that is no message of somebody else makes the rank of the state smaller, so there are at most
32 of them; and a caller that waits is never stuck.

* `compilation_answers_once`: one result, in a bounded number of steps, and no trace.
* `overtaken_by_death`: a result that has reached the guardian may be lost with the guardian.

A message of somebody else is the only step that is not bounded, and it changes nothing but the rest
of the mailbox; so the bound is on the other steps of a run, wherever such messages come in between.
The rank adds up what each of the three processes has still to do and what is in flight. Progress is
the other half: as long as the caller has not returned, some step is possible that is not such a
message, and with the bound it follows that the caller returns if the processes go on at all.

* `AnswersOnce`: one result, the caller's alias and monitor gone, and nothing of the call left in
  its mailbox or on the way to it.

The exact result is the first one to be sent, unless the guardian dies before the caller has taken
it: then the `:DOWN` may come first.
-/

namespace Javex.Compile

open Transition

variable {ρ : Type} {s t : State ρ} {l : Label ρ}

/-! ### The first result -/

/-- The result is the first that the guardian gets, and goes where it goes. -/
def Carries (x : Reply ρ) (s : State ρ) : Prop :=
  match s.guardian with
  | .unborn | .monitoring | .controlling | .spawning => False
  | .receiving => s.sent = none ∧ ∃ rest, s.inbox = .compiled x :: rest
  | .replying result => s.sent = none ∧ result = x
  | .cancelling | .killing | .leaving | .ended => s.sent = some x
  | .dead => s.sent = none ∨ s.sent = some x

/-- What comes later does not get before it. -/
theorem Carries.tell {x : Reply ρ} (h : Carries x s) (message : GuardianMessage ρ) :
    Carries x (s.tell message) := by
  obtain ⟨guardian, hguardian⟩ : ∃ guardian, s.guardian = guardian := ⟨_, rfl⟩
  cases guardian with
  | unborn | monitoring | controlling | spawning =>
    simp only [Carries, hguardian] at h
  | receiving =>
    simp only [Carries, hguardian] at h
    obtain ⟨hsent, rest, hfirst⟩ := h
    simp only [Carries, State.tell, hguardian, Guardian.alive, if_true]
    exact ⟨hsent, rest ++ [message], by rw [hfirst, List.cons_append]⟩
  | replying | cancelling | killing | leaving | ended | dead =>
    -- in the other places the inbox is of no importance
    rw [tell_frame]
    simp only [Carries, hguardian] at h ⊢
    exact h

/-- **Every step keeps it** first. -/
theorem carries_move {x : Reply ρ} (hs : Sound s) (h : Carries x s) (hmove : Move s l t) :
    Carries x t := by
  cases hmove with
  | spawnGuardian hcaller =>
    simp only [Carries, hs.caller.unborn hcaller] at h
  | monitorCaller hguardian | newControl hguardian | spawnWorker hguardian =>
    simp only [Carries, hguardian] at h
  | @handle message rest hguardian hinbox =>
    simp only [Carries, hguardian] at h
    obtain ⟨hsent, rest', hfirst⟩ := h
    cases hinbox.symm.trans hfirst
    exact ⟨hsent, rfl⟩
  | timeout hguardian hinbox =>
    simp only [Carries, hguardian] at h
    obtain ⟨-, rest, hfirst⟩ := h
    cases hinbox.symm.trans hfirst
  | reply hguardian =>
    simp only [Carries, hguardian] at h
    exact congrArg some h.2
  | cancel hguardian | kill hguardian | leave hguardian =>
    simp only [Carries, hguardian] at h
    exact h
  | guardianDies halive =>
    unfold Carries at h
    split at h
    · exact h.elim
    · exact h.elim
    · exact h.elim
    · exact h.elim
    · exact .inl h.1
    · exact .inl h.1
    · exact .inr h
    · exact .inr h
    · exact .inr h
    · exact .inr h
    · exact h
  | toCaller =>
    rw [arrive_frame]
    exact h
  | fromCaller | fromWorker =>
    refine Carries.tell ?_ _
    exact h
  | _ => exact h

/-- What the caller returns: what the guardian has sent, or that it has sent nothing. -/
theorem CallerSound.returned {y : Reply ρ} (h : CallerSound s) (hcaller : s.caller = .returned y) :
    s.sent = some y ∨
      y = .error "compiler coordinator stopped" ∧ s.guardian.gone = true ∧ s.sent = none := by
  simp only [CallerSound, hcaller] at h
  obtain ⟨-, -, -, -, message, rest, htold, rfl⟩ := h
  cases hsent : s.sent with
  | some result =>
    rw [State.told, hsent] at htold
    cases htold
    exact .inl rfl
  | none =>
    rw [State.told, hsent] at htold
    split_ifs at htold with hgone
    · cases htold
      exact .inr ⟨rfl, hgone, rfl⟩
    · cases htold

/-- It is the first result, if the guardian has not died with it. -/
theorem Carries.returned {x y : Reply ρ} (hs : Sound s) (h : Carries x s)
    (hcaller : s.caller = .returned y) : s.sent = some x ∧ y = x ∨
      y = .error "compiler coordinator stopped" ∧ s.guardian = .dead ∧ s.sent = none := by
  obtain hsent | ⟨herror, hgone, hsent⟩ := hs.caller.returned hcaller
  · left
    suffices y = x from ⟨this ▸ hsent, this⟩
    cases hguardian : s.guardian with
    | unborn | monitoring | controlling | spawning => simp only [Carries, hguardian] at h
    | receiving | replying => simp [Carries, hguardian, hsent] at h
    | cancelling | killing | leaving | ended | dead =>
      simpa [Carries, hguardian, hsent] using h
  · right
    cases hguardian : s.guardian with
    | ended => simp [Carries, hguardian, hsent] at h
    | dead => exact ⟨herror, rfl, hsent⟩
    | _ =>
      rw [hguardian] at hgone
      cases hgone

/-! ### The rank -/

/-- How much the caller has still to do. -/
def Caller.rank : Caller ρ → ℕ
  | entering => 32
  | aliased => 31
  | waiting => 6
  | answered _ => 5
  | unaliased _ => 4
  | returned _ => 3
  | dead => 0

/-- How much the guardian has still to do. -/
def Guardian.rank : Guardian ρ → ℕ
  | monitoring => 24
  | controlling => 19
  | spawning => 18
  | receiving => 10
  | replying _ => 9
  | cancelling => 6
  | killing => 5
  | leaving => 3
  | unborn | ended | dead => 0

/-- How much the worker has still to do. -/
def Worker.rank : Worker ρ → ℕ
  | compiling => 7
  | sending _ => 6
  | leaving => 3
  | unborn | gone => 0

/-- How many steps may come of a signal. -/
def CallerSignal.rank : CallerSignal ρ → ℕ
  | monitor => 4
  | message _ => 2

/-- How much there is still to do. -/
def State.rank (s : State ρ) : ℕ :=
  s.caller.rank + s.guardian.rank + s.worker.rank + (s.toCaller.map CallerSignal.rank).sum +
    2 * s.fromCaller.length + 2 * s.fromWorker.length + s.inbox.length +
    (s.mailbox.filterMap CallerMessage.own?).length + s.killed.toNat

/-- Somebody else sends the caller a message. -/
def Label.isNoise : Label ρ → Bool
  | noise _ => true
  | _ => false

theorem Caller.three_le_rank {c : Caller ρ} (h : c.alive = true) : 3 ≤ c.rank := by
  cases c with
  | dead => cases h
  | _ => simp [rank]

theorem Guardian.three_le_rank {g : Guardian ρ} (h : g.alive = true) : 3 ≤ g.rank := by
  cases g with
  | unborn | ended | dead => cases h
  | _ => simp [rank]

theorem Worker.three_le_rank {w : Worker ρ} (h : w.alive = true) : 3 ≤ w.rank := by
  cases w with
  | unborn | gone => cases h
  | _ => simp [rank]

theorem rank_arrive (s : State ρ) (signal : CallerSignal ρ) :
    (s.arrive signal).rank < s.rank + signal.rank := by
  cases signal with
  | monitor =>
    simp only [State.arrive]
    split_ifs
    · simp [State.rank, CallerSignal.rank]
    · simp [State.rank, CallerSignal.rank]
      omega
  | message message =>
    cases message with
    | reply | down =>
      simp only [State.arrive]
      split_ifs
      · simp [State.rank, State.post, CallerMessage.own?, CallerSignal.rank]
        omega
      · simp [CallerSignal.rank]

theorem rank_tell (s : State ρ) (message : GuardianMessage ρ) :
    (s.tell message).rank ≤ s.rank + 1 := by
  unfold State.tell
  split_ifs
  · simp [State.rank]
    omega
  · omega

theorem rank_stopWorker (halive : s.worker.alive = true) : s.stopWorker.rank < s.rank := by
  have hworker := Worker.three_le_rank halive
  have hgone : (Worker.gone : Worker ρ).rank = 0 := rfl
  simp only [State.rank, State.stopWorker, hgone, List.length_append, List.length_singleton]
  omega

theorem rank_stopGuardian {g : Guardian ρ} (halive : s.guardian.alive = true)
    (hgone : g.rank = 0) : (s.stopGuardian g).rank < s.rank := by
  have hguardian := Guardian.three_le_rank halive
  simp [State.rank, State.stopGuardian, hgone, CallerSignal.rank]
  omega

/-- A step that only changes what the caller does. -/
theorem rank_receive {message : Own ρ}
    (hfirst : s.mailbox.findSome? CallerMessage.own? = some message) :
    ((s.mailbox.eraseP fun m => m.own?.isSome).filterMap CallerMessage.own?).length <
      (s.mailbox.filterMap CallerMessage.own?).length := by
  rw [List.filterMap_eraseP_isSome]
  rw [← List.head?_filterMap] at hfirst
  obtain ⟨rest, hrest⟩ := List.head?_eq_some_iff.mp hfirst
  rw [hrest, List.tail_cons, List.length_cons]
  exact Nat.lt_succ_self _

theorem rank_stopCaller (halive : s.caller.alive = true) : s.stopCaller.rank < s.rank := by
  have hcaller := Caller.three_le_rank halive
  have hdead : (Caller.dead : Caller ρ).rank = 0 := rfl
  have hdown : (if s.watched then [(.callerDown : GuardianMessage ρ)] else []).length ≤ 1 := by
    split_ifs <;> simp
  simp only [State.rank, State.stopCaller, hdead, List.length_append]
  omega

/-- **Every step** but a message of somebody else makes the rank smaller. -/
theorem rank_move (hmove : Move s l t) (hown : l.isNoise = false) : t.rank < s.rank := by
  cases hmove with
  | makeAlias hcaller | unalias hcaller =>
    simp only [State.rank, hcaller, Caller.rank]
    omega
  | spawnGuardian hcaller =>
    have hborn : (Guardian.monitoring : Guardian ρ).rank = 24 := rfl
    simp only [State.rank, hcaller, Caller.rank, hborn]
    omega
  | receive hcaller hfirst =>
    have hmailbox := rank_receive hfirst
    simp only [State.rank, hcaller, Caller.rank]
    omega
  | demonitor hcaller =>
    have hmailbox := (List.eraseP_sublist (p := Own.isDown)
      (l := s.mailbox.filterMap CallerMessage.own?)).length_le
    simp only [State.rank, hcaller, Caller.rank, flush_own]
    omega
  | callerDies halive => exact rank_stopCaller halive
  | monitorCaller hguardian | newControl hguardian | timeout hguardian | cancel hguardian
  | reply hguardian =>
    simp only [State.rank, hguardian, Guardian.rank, List.map_append, List.map_singleton,
      List.sum_append, List.sum_singleton, CallerSignal.rank]
    omega
  | spawnWorker hguardian =>
    have hborn : (Worker.compiling : Worker ρ).rank = 7 := rfl
    simp only [State.rank, hguardian, Guardian.rank, hborn]
    omega
  | @handle message rest hguardian hinbox =>
    cases message with
    | compiled | callerDown | workerDown =>
      simp only [State.rank, State.handle, hguardian, hinbox, Guardian.rank, List.length_cons]
      omega
  | kill hguardian =>
    have hkilled := Bool.toNat_le s.killed
    simp only [State.rank, hguardian, Guardian.rank, Bool.toNat_true]
    omega
  | leave hguardian => exact rank_stopGuardian (by rw [hguardian]; rfl) rfl
  | guardianDies halive => exact rank_stopGuardian halive rfl
  | finish hworker | raise hworker =>
    simp only [State.rank, hworker, Worker.rank]
    omega
  | send hworker =>
    simp only [State.rank, hworker, Worker.rank, List.length_append, List.length_singleton]
    omega
  | workerEnds hworker => exact rank_stopWorker (by rw [hworker]; rfl)
  | workerDies halive => exact rank_stopWorker halive
  | @toCaller signal rest hsignals =>
    refine Nat.lt_of_lt_of_le (rank_arrive _ signal) ?_
    simp only [State.rank, hsignals, List.map_cons, List.sum_cons]
    omega
  | @fromCaller message rest hsignals =>
    refine Nat.lt_of_le_of_lt (rank_tell _ message) ?_
    simp only [State.rank, hsignals, List.length_cons]
    omega
  | @fromWorker message rest hsignals =>
    refine Nat.lt_of_le_of_lt (rank_tell _ message) ?_
    simp only [State.rank, hsignals, List.length_cons]
    omega
  | killWorker hkilled halive =>
    refine Nat.lt_trans (rank_stopWorker halive) ?_
    simp only [State.rank, hkilled, Bool.toNat_true, Bool.toNat_false]
    omega
  | killNobody hkilled =>
    simp only [State.rank, hkilled, Bool.toNat_true, Bool.toNat_false]
    omega
  | noise => cases hown

/-- A message of somebody else leaves the rank as it is. -/
theorem rank_noise {n : ℕ} (hmove : Move s (.noise n) t) : t.rank = s.rank := by
  cases hmove
  simp only [State.rank]
  rw [filterMap_own_post]
  rfl

/-- A run has at most as many steps as the rank says, but for the messages of somebody else. -/
theorem length_run_le {ls : List (Label ρ)} (hrun : (system ρ).Run s ls t) :
    (ls.filter fun l => !l.isNoise).length + t.rank ≤ s.rank := by
  induction hrun with
  | refl => simp
  | @snoc t u ls l _ hst ih =>
    have hmove := move_of_step hst
    rw [List.filter_append, List.length_append]
    cases hown : l.isNoise with
    | true =>
      obtain ⟨n, rfl⟩ : ∃ n, l = .noise n := by
        cases l with
        | noise n => exact ⟨n, rfl⟩
        | _ => cases hown
      rw [rank_noise hmove]
      simpa [Label.isNoise] using ih
    | false =>
      have hrank := rank_move hmove hown
      simp only [List.filter_singleton, hown]
      simp
      omega

/-! ### Progress -/

/-- The steps that are bound to come: what the caller and the guardian do of themselves, and a
signal that arrives. Nobody dies, and the worker does nothing. -/
def Label.due : Label ρ → Bool
  | makeAlias | spawnGuardian | receive | unalias | demonitor => true
  | monitorCaller | newControl | spawnWorker | handle | timeout | reply | cancel | kill | leave =>
    true
  | toCaller | fromCaller | fromWorker | toWorker => true
  | _ => false

/-- A guardian that runs goes on. -/
theorem guardian_goes_on (halive : s.guardian.alive = true) :
    ∃ l t, l.due = true ∧ step s l = some t := by
  cases hguardian : s.guardian with
  | unborn | ended | dead =>
    rw [hguardian] at halive
    cases halive
  | monitoring => exact ⟨.monitorCaller, _, rfl, by simp only [step, hguardian]; rfl⟩
  | controlling => exact ⟨.newControl, _, rfl, by simp only [step, hguardian]; rfl⟩
  | spawning => exact ⟨.spawnWorker, _, rfl, by simp only [step, hguardian]; rfl⟩
  | receiving =>
    cases hinbox : s.inbox with
    | nil => exact ⟨.timeout, _, rfl, by simp only [step, hguardian, hinbox]; rfl⟩
    | cons => exact ⟨.handle, _, rfl, by simp only [step, hguardian, hinbox]; rfl⟩
  | replying => exact ⟨.reply, _, rfl, by simp only [step, hguardian]; rfl⟩
  | cancelling => exact ⟨.cancel, _, rfl, by simp only [step, hguardian]; rfl⟩
  | killing => exact ⟨.kill, _, rfl, by simp only [step, hguardian]; rfl⟩
  | leaving => exact ⟨.leave, _, rfl, by simp only [step, hguardian]; rfl⟩

/-- A caller that has no result goes on, or somebody else does. -/
theorem goes_on (hs : Sound s) (halive : s.caller.alive = true)
    (hwaits : ∀ result, s.caller ≠ .returned result) :
    ∃ l t, l.due = true ∧ step s l = some t := by
  have hcaller := hs.caller
  cases hphase : s.caller with
  | entering => exact ⟨.makeAlias, _, rfl, by simp only [step, hphase]; rfl⟩
  | aliased => exact ⟨.spawnGuardian, _, rfl, by simp only [step, hphase]; rfl⟩
  | answered => exact ⟨.unalias, _, rfl, by simp only [step, hphase]; rfl⟩
  | unaliased => exact ⟨.demonitor, _, rfl, by simp only [step, hphase]; rfl⟩
  | returned result => exact absurd hphase (hwaits result)
  | dead =>
    rw [hphase] at halive
    cases halive
  | waiting =>
    simp only [CallerSound, hphase] at hcaller
    obtain ⟨hborn, -, -, htold⟩ := hcaller
    cases hfirst : s.mailbox.findSome? CallerMessage.own? with
    | some message => exact ⟨.receive, _, rfl, by simp only [step, hphase, hfirst]; rfl⟩
    | none =>
      cases hsignals : s.toCaller with
      | cons => exact ⟨.toCaller, _, rfl, by simp only [step, hsignals]; rfl⟩
      | nil =>
        -- the caller has been told nothing, so the guardian still runs
        have hnone : s.mailbox.filterMap CallerMessage.own? = [] := by
          rwa [← List.head?_filterMap, List.head?_eq_none_iff] at hfirst
        rw [State.stream, hnone, hsignals] at htold
        refine guardian_goes_on ?_
        cases hguardian : s.guardian with
        | unborn => exact absurd hguardian hborn
        | ended | dead =>
          simp [State.told, hguardian, Guardian.gone] at htold
        | _ => rfl

/-! ### The theorem -/

/-- What is so of a call, from a state of it on. -/
structure AnswersOnce (s : State ρ) : Prop where
  /-- It comes to an end: there are at most 32 steps but for the messages of somebody else, -/
  bounded : ∀ ls t, (system ρ).Run s ls t → (ls.filter fun l => !l.isNoise).length ≤ 32
  /-- and there is a step that is bound to come until a living caller has its result. -/
  goes_on : s.caller.alive = true → (∀ result, s.caller ≠ .returned result) →
    ∃ l t, l.due = true ∧ step s l = some t
  /-- A caller that has returned has returned this once, and what is and will be in its mailbox is
  what others have sent. -/
  returned : ∀ result, s.caller = .returned result → ∀ ls t, (system ρ).Run s ls t →
    t.caller = .dead ∨ t.caller = .returned result ∧ t.mailbox = t.arrived.map .other
  /-- A result that is the first to reach the guardian is the one, unless the guardian dies before
  it has sent it. -/
  first : ∀ result rest, s.guardian = .receiving → s.inbox = .compiled result :: rest →
    ∀ ls t answer, (system ρ).Run s ls t → t.caller = .returned answer →
      t.sent = some result ∧ answer = result ∨
        answer = .error "compiler coordinator stopped" ∧ t.guardian = .dead ∧ t.sent = none
  /-- A guardian that has ended has cancelled the control, and has killed the worker: the exit
  signal is on its way, or the worker is gone. -/
  ended : s.guardian = .ended →
    s.cancelled = true ∧ s.worker ≠ .unborn ∧ (s.killed = true ∨ s.worker = .gone)

/-- A caller that has returned does nothing more in the function. -/
theorem returned_move {result : Reply ρ}
    (h : s.caller = .returned result ∨ s.caller = .dead) (hmove : Move s l t) :
    t.caller = .returned result ∨ t.caller = .dead := by
  cases hmove with
  | makeAlias hcaller | spawnGuardian hcaller | receive hcaller | unalias hcaller
  | demonitor hcaller =>
    rw [hcaller] at h
    obtain h | h := h <;> cases h
  | callerDies => exact .inr rfl
  | handle =>
    rw [handle_frame]
    exact h
  | toCaller =>
    rw [arrive_frame]
    exact h
  | fromCaller | fromWorker =>
    rw [tell_frame]
    exact h
  | _ => exact h

/-- **Compilation answers once** and leaves no trace: whatever the caller, the guardian and the
worker do, in whatever order, and whoever dies, and whatever others send the caller. -/
theorem compilation_answers_once (hs : (system ρ).Reachable s) : AnswersOnce s where
  bounded ls t hrun := by
    obtain ⟨_, ks, rfl, hstart⟩ := hs.exists_run
    have hlength := length_run_le (hstart.trans hrun)
    have hrank : (State.start : State ρ).rank = 32 := rfl
    rw [hrank, List.filter_append, List.length_append] at hlength
    omega
  goes_on := goes_on (sound_inductive.of_reachable hs)
  returned result hcaller ls t hrun := by
    have hsound := sound_inductive.of_reachable (hrun.reachable hs)
    have hphase : t.caller = .returned result ∨ t.caller = .dead :=
      hrun.invariant (I := fun u => u.caller = .returned result ∨ u.caller = .dead)
        (fun _ _ _ h hst => returned_move h (move_of_step hst)) (.inl hcaller)
    refine hphase.symm.imp_right fun hreturned => ⟨hreturned, ?_⟩
    have hcaller' := hsound.caller
    simp only [CallerSound, hreturned] at hcaller'
    obtain ⟨-, -, -, hnone, -⟩ := hcaller'
    rw [← hsound.arrived]
    exact eq_map_other hnone
  first result rest hguardian hinbox ls t answer hrun hcaller := by
    have hsound := sound_inductive.of_reachable hs
    have hcarries : Carries result s := by
      have hsent := hsound.guardian
      simp only [GuardianSound, hguardian] at hsent
      simp only [Carries, hguardian]
      exact ⟨hsent.1, rest, hinbox⟩
    have hend : Sound t ∧ Carries result t :=
      hrun.invariant (I := fun u => Sound u ∧ Carries result u)
        (fun _ _ _ h hst =>
          ⟨sound_inductive.step _ _ _ h.1 hst, carries_move h.1 h.2 (move_of_step hst)⟩)
        ⟨hsound, hcarries⟩
    exact hend.2.returned hend.1 hcaller
  ended hguardian := by
    have hsound := (sound_inductive.of_reachable hs).guardian
    simp only [GuardianSound, hguardian] at hsound
    exact hsound

/-- The result of the worker gets to the guardian. -/
def timely : List (Label ℕ) :=
  [.makeAlias, .spawnGuardian, .monitorCaller, .newControl, .spawnWorker, .finish 3, .send,
    .fromWorker]

theorem compilation_answers_once_timely :
    ∃ s : State ℕ, timely.foldlM step .start = some s ∧ AnswersOnce s := by
  obtain ⟨s, hs⟩ : ∃ s : State ℕ, timely.foldlM step .start = some s := ⟨_, rfl⟩
  exact ⟨s, hs, compilation_answers_once ((System.Run.of_foldlM hs).reachable (.init rfl))⟩

/-- The guardian dies with it, and that is what the caller hears. -/
def overtaken : List (Label ℕ) :=
  [.guardianDies, .toCaller, .toCaller, .receive, .unalias, .demonitor]

theorem overtaken_by_death : ¬ ∀ (s : State ℕ) (result : Reply ℕ)
    (rest : List (GuardianMessage ℕ)), (system ℕ).Reachable s → s.guardian = .receiving →
      s.inbox = .compiled result :: rest → ∀ ls t answer, (system ℕ).Run s ls t →
        t.caller = .returned answer → answer = result := by
  intro h
  obtain ⟨s, t, hs, ht, hguardian, hinbox, hcaller⟩ : ∃ s t : State ℕ,
      timely.foldlM step .start = some s ∧ overtaken.foldlM step s = some t ∧
        s.guardian = .receiving ∧ s.inbox = [.compiled (.native 3)] ∧
          t.caller = .returned (.error "compiler coordinator stopped") :=
    ⟨_, _, rfl, rfl, rfl, rfl, rfl⟩
  have hreachable : (system ℕ).Reachable s := (System.Run.of_foldlM hs).reachable (.init rfl)
  cases h s _ _ hreachable hguardian hinbox _ t _ (System.Run.of_foldlM ht) hcaller

end Javex.Compile
