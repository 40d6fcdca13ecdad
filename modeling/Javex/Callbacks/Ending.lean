import Javex.Callbacks.Quotas
import Javex.Transition.Fairness

/-!
# The broker ends

A broker that cleans up has sent an exit signal to every process it waits for, and waits for one
`:DOWN` after the other. An exit signal of reason `:kill` cannot be trapped, so each of these
processes dies some time, whatever its host function does; nothing else that happens meanwhile makes
the broker wait for more.

What is left is counted in jobs whose `:DOWN` has not been taken and in processes among them that
are alive. One of the two kinds of step is due at any time: the death of the process at hand, or a
turn of the broker.

* `broker_ends`: from any world in which the broker cleans up, it ends in every behaviour in which
  the processes that were killed die and the broker is not kept from its turns for ever.

Two things are asked of the environment: that a process that was killed dies some time, and that the
broker is not kept for ever from a turn that it can take. The first is not fairness to an enabled
step, since any process may die at any time and most live as long as they like; it is asked of those
only that have been sent the signal (`World.killed`, which records it). That every process which the
broker waits for is one of them is `doomed_of_reachable`.

What the other parties do meanwhile, the run worker that may be gone, timers that fire, host
functions that still return, is not restricted: none of it adds to what is left (`Onward`).
-/

namespace Javex.Callbacks

open Codec Transition

variable {cfg : Config} {w w' : World}

/-! ### What is killed -/

/-- The processes that a broker waits for have been killed. -/
def Doomed (w : World) : Prop := ∀ rest, w.phase = .cleaning rest → ∀ e ∈ rest, e.1 ∈ w.killed

/-- Cleaning up kills the processes of the jobs. -/
theorem doomed_clean (w : World) (state : State) : Doomed (w.clean state) := by
  have hkilled : ∀ (entries : List (Σ _ : ℕ, Job)) (w : World) (pid : ℕ),
      pid ∈ w.killed ∨ pid ∈ entries.map Sigma.fst →
        pid ∈ (w.performAll (entries.flatMap fun e =>
          [.cancelTimer e.2.timer, .kill e.1])).killed := by
    intro entries
    induction entries with
    | nil =>
      rintro w pid (hold | hnew)
      · exact hold
      · cases hnew
    | cons entry entries ih =>
      intro w pid h
      rw [List.flatMap_cons, performAll_append]
      refine ih _ pid ?_
      rcases h with hold | hnew
      · exact .inl (Finset.mem_insert_of_mem hold)
      · rcases List.mem_cons.mp hnew with rfl | hlater
        · exact .inl (Finset.mem_insert_self _ _)
        · exact .inr hlater
  rintro rest hphase e he
  obtain rfl : state.jobs.entries = rest := Phase.cleaning.inj hphase
  exact hkilled _ _ _ (.inr (List.mem_map_of_mem he))

theorem doomed_of_running (h : w.phase = .running) : Doomed w := by
  intro rest hphase
  rw [h] at hphase
  cases hphase

/-- **Every move keeps the killed.** -/
theorem doomed_move {allowed : Bytes → Prop} {requests requests' : List Json} (h : Doomed w)
    (hmove : Move cfg allowed (w, requests) (w', requests')) : Doomed w' := by
  cases hmove with
  | fatal | fail | stop => exact doomed_clean _ _
  | spawn hphase =>
    refine doomed_of_running ?_
    rw [performAll_frame]
    exact hphase
  | take hphase | frame hphase | deny hphase | record hphase | complete hphase =>
    exact doomed_of_running hphase
  | await hphase =>
    intro rest hrest e he
    cases hrest
    exact h _ hphase e (List.mem_cons_of_mem _ he)
  | exit => exact nofun
  | _ => exact h

theorem doomed_of_reachable (hjason : cfg.jason.Lawful) (h : (system cfg).Reachable w) :
    Doomed w :=
  (invariant_of_moves (I := fun w _ => Doomed w) hjason (doomed_of_running rfl)
    (fun _ _ _ _ _ hw hmove => doomed_move hw hmove) h).2

/-! ### What is left -/

/-- The processes among some jobs that are alive. -/
def alive (w : World) (jobs : List (Σ _ : ℕ, Job)) : ℕ := jobs.countP fun e => e.1 ∈ w.live

/-- The steps that are left while the broker cleans up. -/
def World.left (w : World) : ℕ :=
  match w.phase with
  | .cleaning rest => rest.length + alive w rest + 1
  | _ => 0

/-- What the broker waits for: the death of the process at hand, or its own turn. -/
inductive Wait
  | death (pid : ℕ)
  | turn
  deriving DecidableEq

/-- The steps that it waits for. -/
def Wait.step : Wait → Label → Prop
  | death pid, l => l = .die pid
  | turn, l => l = .await ∨ l = .exit

/-- When such a step is due: a process that was killed dies, and the broker takes a turn that it can
take. -/
def Wait.due (cfg : Config) : Wait → World → Prop
  | death pid, w => pid ∈ w.killed ∧ pid ∈ w.live
  | turn, w => (system cfg).Enabled turn.step w

/-- What the broker waits for now. -/
def World.wait (w : World) : Wait :=
  match w.phase with
  | .cleaning (⟨pid, _⟩ :: _) => if pid ∈ w.live then .death pid else .turn
  | _ => .turn

/-- A world is on the way that another one was on, with some jobs to wait for: it has come to some
last of the jobs and nobody has been brought to life, or it is at the end. -/
def Onward (jobs : List (Σ _ : ℕ, Job)) (v w : World) : Prop :=
  w.phase = .ended ∨
    ∃ rest, rest <:+ jobs ∧ w.phase = .cleaning rest ∧ ∀ pid ∈ w.live, pid ∈ v.live

theorem Onward.not_running {jobs : List (Σ _ : ℕ, Job)} {v : World} (h : Onward jobs v w) :
    w.phase ≠ .running := by
  rcases h with hended | ⟨rest, -, hphase, -⟩
  · rw [hended]
    nofun
  · rw [hphase]
    nofun

/-- A process that changes is alive as it was. -/
theorem Onward.insert {jobs : List (Σ _ : ℕ, Job)} {v : World} (h : Onward jobs v w) {pid : ℕ}
    {old : Callback} (hold : w.live.lookup pid = some old) (callback : Callback)
    (hphase : w'.phase = w.phase) (hlive : w'.live = w.live.insert pid callback) :
    Onward jobs v w' := by
  rcases h with hended | ⟨rest, hsuffix, hcleaning, hsub⟩
  · exact .inl (hphase.trans hended)
  · refine .inr ⟨rest, hsuffix, hphase.trans hcleaning, fun q hq => ?_⟩
    rw [hlive] at hq
    rcases (AList.mem_insert _).mp hq with rfl | hq
    · exact hsub _ (AList.mem_of_lookup hold)
    · exact hsub q hq

/-- **Every move goes on.** -/
theorem onward_move {allowed : Bytes → Prop} {requests requests' : List Json}
    {jobs : List (Σ _ : ℕ, Job)} {v : World} (h : Onward jobs v w)
    (hmove : Move cfg allowed (w, requests) (w', requests')) : Onward jobs v w' := by
  cases hmove with
  | take hphase | frame hphase | spawn hphase | deny hphase | record hphase | complete hphase
    | fatal hphase | fail hphase | stop hphase => exact absurd hphase h.not_running
  | await hphase =>
    rcases h with hended | ⟨rest, hsuffix, hcleaning, hsub⟩
    · cases hphase.symm.trans hended
    · cases hphase.symm.trans hcleaning
      exact .inr ⟨_, (List.suffix_cons _ _).trans hsuffix, rfl, hsub⟩
  | exit => exact .inl rfl
  | call hlive | late hlive | answer hlive => exact h.insert hlive _ rfl rfl
  | die =>
    rcases h with hended | ⟨rest, hsuffix, hcleaning, hsub⟩
    · exact .inl hended
    · exact .inr ⟨rest, hsuffix, hcleaning, fun q hq => hsub q (AList.mem_erase.mp hq).2⟩
  | _ => exact h

/-- A turn of the broker takes it from one phase to the next. -/
theorem phase_ne_of_turn {l : Label} (hturn : Wait.turn.step l) (h : step cfg w l = some w') :
    w'.phase ≠ w.phase := by
  intro hsame
  rcases hturn with rfl | rfl
  · simp only [step] at h
    split at h
    case h_1 pid job rest hphase =>
      split_ifs at h
      cases h
      have hrest : rest = ⟨pid, job⟩ :: rest := Phase.cleaning.inj (hsame.trans hphase)
      exact List.cons_ne_self _ _ hrest.symm
    case h_2 => cases h
  · simp only [step] at h
    split at h
    case h_1 hphase =>
      cases h
      cases hsame.trans hphase
    case h_2 => cases h

/-- Who dies is not alive. -/
theorem not_mem_of_die {pid : ℕ} (h : step cfg w (.die pid) = some w') : pid ∉ w'.live := by
  simp only [step] at h
  split_ifs at h
  cases h
  exact fun hlive => (AList.mem_erase.mp hlive).1 rfl

/-- Whoever is not brought to life was alive. -/
theorem alive_le (h : ∀ pid ∈ w'.live, pid ∈ w.live) (jobs : List (Σ _ : ℕ, Job)) :
    alive w' jobs ≤ alive w jobs :=
  List.countP_mono_left fun e _ he => decide_eq_true (h e.1 (of_decide_eq_true he))

/-- If as many are alive, the process at hand is alive as it was. -/
theorem wait_eq_of_alive {rest : List (Σ _ : ℕ, Job)} (hphase : w.phase = .cleaning rest)
    (hphase' : w'.phase = .cleaning rest) (hsub : ∀ pid ∈ w'.live, pid ∈ w.live)
    (hsame : alive w rest ≤ alive w' rest) : w'.wait = w.wait := by
  cases rest with
  | nil => simp only [World.wait, hphase, hphase']
  | cons e rest =>
    have hlater := alive_le hsub rest
    simp only [World.wait, hphase, hphase']
    simp only [alive, List.countP_cons] at hsame hlater
    by_cases hlive' : e.1 ∈ w'.live
    · rw [if_pos hlive', if_pos (hsub _ hlive')]
    · by_cases hlive : e.1 ∈ w.live
      · simp only [hlive, hlive', decide_true, decide_false, if_true] at hsame
        simp at hsame
        omega
      · rw [if_neg hlive', if_neg hlive]

/-- A process at hand that dies is one less that is alive. -/
theorem alive_lt {e : Σ _ : ℕ, Job} {rest : List (Σ _ : ℕ, Job)}
    (hsub : ∀ pid ∈ w'.live, pid ∈ w.live) (hlive : e.1 ∈ w.live) (hdead : e.1 ∉ w'.live) :
    alive w' (e :: rest) < alive w (e :: rest) := by
  have hlater := alive_le hsub rest
  simp only [alive, List.countP_cons] at hlater ⊢
  simp only [hlive, hdead, decide_true, decide_false, if_true]
  simp
  omega

/-- A step leaves less to do, or the jobs and the broker's turn as they were. -/
theorem left_step (hjason : cfg.jason.Lawful) (hbooks : Books cfg w)
    {rest : List (Σ _ : ℕ, Job)} (hphase : w.phase = .cleaning rest) {l : Label}
    (h : step cfg w l = some w') :
    w'.left < w.left ∨ w'.phase = .cleaning rest ∧ ∀ pid ∈ w'.live, pid ∈ w.live := by
  have honward : Onward rest w w' :=
    (invariant_of_run (I := fun w' _ => Onward rest w w') hjason
      (fun _ _ _ _ _ hw hmove => onward_move hw hmove) (.single h) hbooks
      (.inr ⟨rest, List.suffix_rfl, hphase, fun _ hlive => hlive⟩)).2
  rcases honward with hended | ⟨rest', ⟨taken, rfl⟩, hphase', hsub⟩
  · refine .inl ?_
    simp only [World.left, hphase, hended]
    omega
  · cases taken with
    | nil => exact .inr ⟨hphase', hsub⟩
    | cons e taken =>
      have hlive := alive_le hsub (e :: taken ++ rest')
      have hrest : alive w' rest' ≤ alive w' (e :: taken ++ rest') :=
        (List.sublist_append_right _ _).countP_le
      refine .inl ?_
      simp only [World.left, hphase, hphase', List.length_append, List.length_cons]
      omega

/-- The broker, on its way to its end. -/
structure Cleaning (cfg : Config) (w : World) : Prop where
  reachable : (system cfg).Reachable w
  cleaning : w.phase ≠ .running

theorem Cleaning.exists_rest (hjason : cfg.jason.Lawful) (h : Cleaning cfg w)
    (hnot : w.phase ≠ .ended) : ∃ rest, w.phase = .cleaning rest := by
  have halive := (books_of_reachable hjason h.reachable).alive
  cases hphase : w.phase with
  | running => exact absurd hphase h.cleaning
  | cleaning rest => exact ⟨rest, rfl⟩
  | ended => exact absurd hphase hnot
  | crashed => exact absurd hphase halive

/-- What the broker waits for is due. -/
theorem Cleaning.due (hjason : cfg.jason.Lawful) (h : Cleaning cfg w) (hnot : w.phase ≠ .ended) :
    w.wait.due cfg w := by
  obtain ⟨rest, hphase⟩ := h.exists_rest hjason hnot
  cases rest with
  | nil =>
    have hexit : step cfg w .exit = some { w with phase := .ended } := by
      simp only [step, hphase]
    have hwait : w.wait = .turn := by simp only [World.wait, hphase]
    rw [hwait]
    exact ⟨.exit, _, .inr rfl, hexit⟩
  | cons entry rest =>
    obtain ⟨pid, job⟩ := entry
    by_cases hlive : pid ∈ w.live
    · have hwait : w.wait = .death pid := by simp only [World.wait, hphase, if_pos hlive]
      rw [hwait]
      exact ⟨doomed_of_reachable hjason h.reachable _ hphase _ List.mem_cons_self, hlive⟩
    · have hdown := (books_of_reachable hjason h.reachable).down_of_dead hphase hlive
      have hawait : step cfg w .await = some { w with
          inbox := w.inbox.erase (.down job.ref pid), phase := .cleaning rest } := by
        simp only [step, hphase, hdown, if_true]
      have hwait : w.wait = .turn := by simp only [World.wait, hphase, if_neg hlive]
      rw [hwait]
      exact ⟨.await, _, .inl rfl, hawait⟩

/-- **What is left comes to an end.** -/
theorem helpful_waits (hjason : cfg.jason.Lawful) :
    (system cfg).Helpful (Cleaning cfg) (fun w => w.phase = .ended) (Wait.due cfg) Wait.step
      World.left World.wait where
  step w l w' hw hstep :=
    ⟨hw.reachable.step hstep, (errors_of_run hjason hw.reachable hw.cleaning (.single hstep)).1⟩
  helps w hw hnot := hw.due hjason hnot
  keeps w l w' hw hnot hstep := by
    obtain ⟨rest, hphase⟩ := hw.exists_rest hjason hnot
    rcases left_step hjason (books_of_reachable hjason hw.reachable) hphase hstep with
      hless | ⟨hphase', hsub⟩
    · exact .inl hless
    · have hle := alive_le hsub rest
      by_cases hsame : alive w rest ≤ alive w' rest
      · refine .inr ⟨?_, wait_eq_of_alive hphase hphase' hsub hsame⟩
        simp only [World.left, hphase, hphase', hle.antisymm hsame]
      · refine .inl ?_
        simp only [World.left, hphase, hphase']
        omega
  spends w l w' hw hnot hturn hstep := by
    obtain ⟨rest, hphase⟩ := hw.exists_rest hjason hnot
    rcases left_step hjason (books_of_reachable hjason hw.reachable) hphase hstep with
      hless | ⟨hphase', hsub⟩
    · exact hless
    · -- the phase is the same, so that the process at hand dies
      have hnoTurn : ¬ Wait.turn.step l := fun hl =>
        phase_ne_of_turn hl hstep (hphase'.trans hphase.symm)
      cases rest with
      | nil =>
        simp only [World.wait, hphase] at hturn
        exact absurd hturn hnoTurn
      | cons e rest =>
        simp only [World.wait, hphase] at hturn
        split_ifs at hturn with hlive
        · obtain rfl : l = .die e.1 := hturn
          have hless : alive w' (e :: rest) < alive w (e :: rest) :=
            alive_lt hsub hlive (not_mem_of_die hstep)
          simp only [World.left, hphase, hphase']
          omega
        · exact absurd hturn hnoTurn

/-- **The broker ends.** From any world in which it cleans up, whatever the run worker, the callback
processes and their timers do meanwhile: if no process that was killed lives on for ever, and the
broker is not kept for ever from a turn that it can take, it gets to its end. -/
theorem broker_ends (hjason : cfg.jason.Lawful) (b : (system cfg).Behaviour)
    (hstart : (system cfg).Reachable (b.state 0)) {rest : List (Σ _ : ℕ, Job)}
    (hphase : (b.state 0).phase = .cleaning rest)
    (hdeaths : ∀ pid, b.FairTo (fun w => pid ∈ w.killed ∧ pid ∈ w.live) (· = .die pid))
    (hturns : b.WeaklyFair Wait.turn.step) : ∃ i, (b.state i).phase = .ended := by
  have hfair : ∀ wait : Wait, b.FairTo (wait.due cfg) wait.step := by
    rintro (pid | _)
    · exact hdeaths pid
    · exact hturns
  have hcleaning : Cleaning cfg (b.state 0) := ⟨hstart, by rw [hphase]; nofun⟩
  obtain ⟨i, -, hended⟩ := (helpful_waits hjason).eventually b hfair hcleaning
  exact ⟨i, hended⟩

end Javex.Callbacks
