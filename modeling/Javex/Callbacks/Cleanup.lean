import Javex.Callbacks.Books
import Javex.Callbacks.Reference

/-!
# No callback outlives its run

The run worker reports when its broker has ended, and a broker that has ended waits for nobody;
by `Books` nobody is alive then. The broker itself never waits in vain: the processes of the jobs
it has left are exactly those that are alive or have their one `:DOWN` in the mailbox.

The argument has three parts, each of which is a fact about one state: the report is made after the
broker has ended, the broker has ended only after the last `:DOWN`, and a process whose `:DOWN` has
been taken is dead. That the broker gets there is not part of it, and is the subject of
`Javex.Callbacks.Ending`.
-/

namespace Javex.Callbacks

open Codec Transition

/-- The jobs whose `:DOWN` the broker has not taken. -/
def World.jobs (w : World) : List (Σ _ : ℕ, Job) :=
  match w.phase with
  | .running => w.state.jobs.entries
  | .cleaning rest => rest
  | .ended | .crashed => []

/-- The run worker is past `Callbacks.stop/1` only when the broker has ended. -/
def Stopped (w : World) : Prop :=
  match w.worker with
  | .stopped _ | .reported _ => w.phase = .ended
  | _ => True

variable {cfg : Config} {allowed : Bytes → Prop} {w w' : World}

theorem mem_jobs_iff {pid : ℕ} :
    (∃ job, ⟨pid, job⟩ ∈ w.jobs) ↔ pid ∈ w.phase.waited w.state.jobs := by
  unfold World.jobs Phase.waited
  cases w.phase with
  | running =>
    constructor
    · rintro ⟨job, hjob⟩
      exact List.mem_map.mpr ⟨⟨pid, job⟩, hjob, rfl⟩
    · intro hpid
      obtain ⟨⟨_, job⟩, hjob, rfl⟩ := List.mem_map.mp hpid
      exact ⟨job, hjob⟩
  | cleaning rest =>
    constructor
    · rintro ⟨job, hjob⟩
      exact List.mem_toFinset.mpr (List.mem_map_of_mem hjob)
    · intro hpid
      obtain ⟨⟨_, job⟩, hjob, rfl⟩ := List.mem_map.mp (List.mem_toFinset.mp hpid)
      exact ⟨job, hjob⟩
  | ended | crashed => simp

/-- The jobs that are left are jobs. -/
theorem Books.lookup_of_mem_jobs (h : Books cfg w) {pid : ℕ} {job : Job}
    (hjob : ⟨pid, job⟩ ∈ w.jobs) : w.state.jobs.lookup pid = some job := by
  refine AList.mem_lookup_iff.mpr ?_
  unfold World.jobs at hjob
  split at hjob
  · exact hjob
  · exact (h.rest _ (by assumption)).2 hjob
  · cases hjob
  · cases hjob

theorem worker_clean (w : World) (state : State) : (w.clean state).worker = w.worker := by
  rw [clean_eq]

/-- Every move of a running broker, or of its cleanup, keeps `Stopped`. -/
theorem stopped_move (hbooks : Books cfg w) (h : Stopped w)
    {requests requests' : List Json} (hmove : Move cfg allowed (w, requests) (w', requests')) :
    Stopped w' := by
  -- no move of the broker is left when it has ended
  have hfree : w.phase ≠ .ended → ∀ {v : World}, v.worker = w.worker → Stopped v := by
    intro hphase v hworker
    unfold Stopped at h ⊢
    rw [hworker]
    split
    · rename_i hstopped
      rw [hstopped] at h
      exact absurd h hphase
    · rename_i hreported
      rw [hreported] at h
      exact absurd h hphase
    · trivial
  cases hmove with
  | stopped hworker hphase =>
    rcases hphase with hended | hcrashed
    · exact hended
    · exact absurd hcrashed hbooks.alive
  | report hworker =>
    rw [Stopped, hworker] at h
    exact h
  | fatal hphase | fail hphase | stop hphase =>
    exact hfree (by rw [hphase]; nofun) (worker_clean _ _)
  | take hphase | frame hphase | spawn hphase | deny hphase | record hphase | complete hphase
  | await hphase | exit hphase => exact hfree (by rw [hphase]; nofun) rfl
  | finish | workerDies => trivial
  | _ => exact h

/-- **No callback outlives its run.** When the result of a run is sent, no process it ever started
is alive. Each process of a job that is left has one `:DOWN` to come or in the mailbox, with the
reference of the job; nobody else is alive. So a cleanup never waits in vain. -/
theorem no_callback_outlives_run (hjason : cfg.jason.Lawful) (h : (system cfg).Reachable w) :
    (∀ result, w.worker = .reported result → ∀ pid < w.state.spawned, pid ∉ w.live) ∧
    (∀ pid job, ⟨pid, job⟩ ∈ w.jobs →
      (pid ∈ w.live ∧ w.inbox.countP (isDown pid) = 0) ∨
      (pid ∉ w.live ∧ w.inbox.countP (isDown pid) = 1 ∧ .down job.ref pid ∈ w.inbox)) ∧
    (∀ pid ∈ w.live, pid < w.state.spawned ∧ ∃ job, ⟨pid, job⟩ ∈ w.jobs) ∧
    ∀ rest, w.phase = .cleaning rest →
      ∃ ls w', (system cfg).Run w ls w' ∧ w'.phase = .ended := by
  obtain ⟨hbooks, hstopped⟩ := invariant_of_moves (I := fun w _ => Stopped w) hjason trivial
    (fun _ _ _ _ hbooks hw hmove => stopped_move hbooks hw hmove) h
  refine ⟨fun result hreported pid _ hlive => ?_, fun pid job hjob => ?_, fun pid hlive => ?_,
    fun rest hphase => exists_ended hbooks hphase⟩
  · have hphase : w.phase = .ended := by
      rw [Stopped, hreported] at hstopped
      exact hstopped
    have hwaited := hbooks.waited_of_live hlive
    rw [hphase] at hwaited
    exact absurd hwaited (Finset.notMem_empty pid)
  · have haccount := hbooks.account pid
    rw [if_pos (mem_jobs_iff.mp ⟨job, hjob⟩)] at haccount
    by_cases hlive : pid ∈ w.live
    · rw [if_pos hlive] at haccount
      exact .inl ⟨hlive, by omega⟩
    · rw [if_neg hlive, Nat.zero_add] at haccount
      exact .inr ⟨hlive, haccount, hbooks.down_mem haccount (hbooks.lookup_of_mem_jobs hjob)⟩
  · obtain ⟨c, hc⟩ := AList.exists_lookup_of_mem hlive
    exact ⟨(hbooks.processes pid c hc).1, mem_jobs_iff.mpr (hbooks.waited_of_live hlive)⟩

/-- A batch whose second request repeats the id of the first one, to its end. -/
def midway : List Label :=
  [.dispatch (frameOf [requestOf 1 "echo" "2", requestOf 1 "echo" "3"]), .turn fun _ => 0,
    .finish (.returned (.error ⟨.callbackLimit, "callback budget exceeded"⟩)), .call 0, .die 0,
    .await, .exit, .brokerDown, .report]

theorem no_callback_outlives_run_midway : ∃ w result,
    System.trace (step echoConfig) (fun _ _ => True) .start midway = some w ∧
      w.worker = .reported result ∧ w.state.spawned = 1 ∧ 0 ∉ w.live := by
  have hsome : (System.trace (step echoConfig) (fun _ _ => True) .start midway).map
      (fun w => (w.state.spawned, match w.worker with | .reported _ => true | _ => false)) =
      some (1, true) := by decide +kernel
  obtain ⟨w, htrace, hfacts⟩ := Option.map_eq_some_iff.mp hsome
  obtain ⟨hspawned, hworker⟩ : _ ∧ _ := by simpa only [Prod.mk.injEq] using hfacts
  have htraced : ((system echoConfig).restrict fun _ _ _ => True).Reachable w :=
    System.reachable_of_trace (by rfl) htrace
  split at hworker
  · rename_i result hreported
    have hdead := (no_callback_outlives_run Jason.reference_lawful htraced.of_restrict).1
    exact ⟨w, result, htrace, hreported, hspawned, hdead result hreported 0 (by omega)⟩
  · cases hworker

end Javex.Callbacks
