import Javex.Runtime.Admission
import Javex.Transition.Fairness

/-!
# Every call returns

The other half of `Javex.Runtime.Admission`: what the server, its callers and its workers get to.
The caller of `run/4` or `compile/5` of `lib/javex/runtime.ex` gets the reply, or the exit of a
server that has stopped, from which the function makes an error. A call is answered when its timer
fires at the latest, and the slot of a worker that has ended is free when its `:DOWN` is handled.

`Javex.Runtime.Admission` lets a timer fire and a `:DOWN` come at any moment, and again. What the
virtual machine promises is less: a timer fires once, unless it is cancelled, and a monitor sends
one `:DOWN`. So the first is due only while its job still holds a client (`Armed`), which a handler
of the message clears, and the second only while the dead worker has its job (`Ended`).

* `every_call_returns_once`: in a behaviour in which an armed timer fires, its call returns, and
  what it returns is settled once and for all; in one in which the `:DOWN` of a dead worker comes,
  its slot is free for good.
* `stats_running`: what `:stats` counts.
* `terminate_cancels`: a server that stops in order cancels every worker that is running.

What a caller gets is decided once: the first reply, or the exit of the server. Later messages do
not change it, because the reply is taken by its tag and the tag is gone. The other guarantees are
about the table: a worker that has ended leaves it when its `:DOWN` is handled, and its slot is free
from then on, since a process identifier is not used again.

A caller that waits without an armed timer has been answered, or its server has stopped
(`armed_of_not_settled`); that is why the one fairness assumption is enough.
-/

namespace Javex.Runtime

open Transition

variable {V : Type} {inspect : Term → String} {opts : RuntimeOptions} {plugin pluginHash : Bytes}
  {w w' : World V} {state : State}

/-! ### The code -/

/-- What a call returns once it does, `down` being the message of its function. -/
def World.returned (w : World V) (down : String) (client : From) : Option (Reply V) :=
  match w.replies.find? fun r => r.1 = client with
  | some r => some r.2.1
  | none => if w.server.isNone then some (error .runtimeDown down) else none

/-- `terminate/2`. -/
def terminate (state : State) : List (Effect V) :=
  state.jobs.entries.flatMap fun entry => cancel entry.1 entry.2

/-- `CacheStats` of `native/javex_nif/src/sandbox.rs`. -/
structure CacheStats where
  cachedModules : ℕ
  cacheBytes : ℕ
  cacheHits : ℕ
  deriving DecidableEq

/-- `handle_call/3` for `:stats`, with the statistics of the native runtime if there is one: the
cache, and under `:running` the jobs. -/
def stats (native : CacheStats) (state : State) : CacheStats × ℕ :=
  (if state.backend = .isolated then ⟨0, 0, 0⟩ else native, state.jobs.keys.length)

/-! ### Returning -/

/-- A reply is only ever added, and none by a server that has stopped. -/
theorem replies_step {l : Label V} (h : (system V inspect opts plugin pluginHash).step w l w') :
    (∃ later, w'.replies = w.replies ++ later) ∧
      (w.server = none → w'.server = none ∧ w'.replies = w.replies) := by
  have hsame : ∀ {w' : World V}, w'.server = w.server → w'.replies = w.replies →
      (∃ later, w'.replies = w.replies ++ later) ∧
        (w.server = none → w'.server = none ∧ w'.replies = w.replies) := fun hserver hreplies =>
    ⟨⟨[], by rw [hreplies, List.append_nil]⟩, fun hnone => ⟨hserver.trans hnone, hreplies⟩⟩
  cases l with
  | tick elapsed | other =>
    obtain rfl := h
    exact hsame rfl rfl
  | die pid =>
    obtain ⟨-, rfl⟩ := h
    exact hsame rfl rfl
  | deliver pid result =>
    obtain ⟨-, -, -, rfl⟩ := h
    exact hsame rfl rfl
  | call caller request =>
    obtain ⟨-, state, hs, rfl⟩ := h
    refine ⟨?_, fun hnone => ?_⟩
    · unfold World.handleCall
      cases Runtime.handleCall (V := V) inspect request ⟨caller, w.next⟩ w.now w.fresh state with
      | error exception => exact ⟨[], (List.append_nil _).symm⟩
      | ok result => exact ⟨_, rfl⟩
    · rw [hs] at hnone
      cases hnone
  | info info =>
    obtain ⟨-, state, hs, rfl⟩ := h
    refine ⟨⟨_, rfl⟩, fun hnone => ?_⟩
    rw [hs] at hnone
    cases hnone

/-- **What a call returns is final.** -/
theorem returned_step {l : Label V} (h : (system V inspect opts plugin pluginHash).step w l w')
    {down : String} {client : From} {reply : Reply V}
    (hreturned : w.returned down client = some reply) : w'.returned down client = some reply := by
  obtain ⟨⟨later, hlater⟩, hstopped⟩ := replies_step h
  unfold World.returned at hreturned ⊢
  cases hfind : w.replies.find? fun r => r.1 = client with
  | some r =>
    rw [hfind] at hreturned
    rw [hlater, List.find?_append, hfind]
    exact hreturned
  | none =>
    rw [hfind] at hreturned
    dsimp only at hreturned
    split_ifs at hreturned with hnone
    obtain ⟨hserver, hreplies⟩ := hstopped (Option.isNone_iff_eq_none.mp hnone)
    rw [hreplies, hfind, hserver]
    exact hreturned

/-- A call returns once it has its reply or the server has stopped. -/
theorem exists_returned {client : From} (h : w.Replied client ∨ w.server = none) (down : String) :
    ∃ reply, w.returned down client = some reply := by
  unfold World.returned
  cases hfind : w.replies.find? fun r => r.1 = client with
  | some r => exact ⟨_, rfl⟩
  | none =>
    rcases h with hreplied | hstopped
    · obtain ⟨r, hr, rfl⟩ := List.mem_map.mp hreplied
      have hnot := List.find?_eq_none.mp hfind r hr
      simp at hnot
    · rw [hstopped]
      exact ⟨_, rfl⟩

/-- The timer of a call is armed: its job still holds the client that it is to answer. -/
def Armed (w : World V) (c : Call) : Prop :=
  ∃ state job, w.server = some state ∧ state.jobs.lookup c.worker = some job ∧ job.client ≠ none

/-- While there is a server, the timer of a call that is not settled is armed. -/
theorem armed_of_not_settled (h : Inv w) {c : Call} (hc : c ∈ w.admitted)
    (hs : w.server = some state) (hnot : ¬ w.Settled c) : Armed w c := by
  have ht := h.tracks state hs
  have hmem : c.worker ∈ state.jobs := not_not.mp fun hfree => hnot (ht.settled c hc hfree)
  obtain ⟨job, hl⟩ := AList.exists_lookup_of_mem hmem
  obtain ⟨d, hd⟩ := ht.job _ job hl
  obtain rfl := h.ledger.worker_inj c hc d hd.mem hd.worker.symm
  refine ⟨state, job, hs, hl, ?_⟩
  rcases hd.client with ⟨hclient, -⟩ | ⟨-, hsettled⟩
  · rw [hclient]
    exact Option.some_ne_none _
  · exact absurd hsettled hnot

/-- A timer that fires leaves its call settled. -/
theorem settled_of_timeout (h : Inv w) (hs : w.server = some state) {c : Call}
    (hc : c ∈ w.admitted) {result : State × List (Effect V)}
    (hresult : handleInfo w.now (.timeout c.worker) state = result) :
    (w.perform result.1 result.2).Settled c := by
  have ht := h.tracks state hs
  have hkept : ∀ (client? : Option From) (reply : Reply V),
      repliesOf result.2 = client?.toList.map (fun c => (c, reply)) → w.Settled c →
        (w.perform result.1 result.2).Settled c := fun _ _ hr hsettled =>
    hsettled.mono (fun client hrep => (replied_perform hr client).mpr (.inl hrep)) fun _ hp => hp
  cases hl : state.jobs.lookup c.worker with
  | none =>
    obtain rfl : result = (state, []) := by simpa [handleInfo, hl] using hresult.symm
    refine hkept none (error .timeout "execution timed out") rfl (ht.settled c hc fun hmem => ?_)
    obtain ⟨job, hjob⟩ := AList.exists_lookup_of_mem hmem
    rw [hl] at hjob
    cases hjob
  | some job =>
    obtain ⟨d, hd⟩ := ht.job _ job hl
    obtain rfl := h.ledger.worker_inj c hc d hd.mem hd.worker.symm
    obtain rfl : result = (forgetClient state c.worker job, cancel c.worker job ++
        replyIfWaiting job (error .timeout "execution timed out")) := by
      simpa [handleInfo, hl] using hresult.symm
    have hr := repliesOf_answer (repliesOf_cancel c.worker job) job
      (error .timeout "execution timed out" : Reply V)
    rcases hd.client with ⟨hclient, -⟩ | ⟨-, hsettled⟩
    · exact .inl ((replied_perform hr c.client).mpr (.inr hclient))
    · exact hkept _ _ hr hsettled

/-! ### Slots -/

/-- The names of the jobs: each comes with the next ones, and no two overlap. -/
structure Named (w : World V) (state : State) : Prop where
  monitor : ∀ pid job, state.jobs.lookup pid = some job → job.monitor = pid + 1
  callerMonitor : ∀ pid job, state.jobs.lookup pid = some job → job.callerMonitor = pid + 2
  lt : ∀ pid ∈ state.jobs, pid + 5 ≤ w.next
  apart : ∀ pid ∈ state.jobs, ∀ q ∈ state.jobs, pid < q → pid + 6 ≤ q

/-- What a step does to the jobs of a server that goes on: it adds one with new names, or each that
is there was there before, with the same names. -/
inductive JobsStep (w w' : World V) (state state' : State) : Prop
  | kept : w.next ≤ w'.next → (∀ pid job', state'.jobs.lookup pid = some job' → ∃ job,
      state.jobs.lookup pid = some job ∧ job'.monitor = job.monitor ∧
        job'.callerMonitor = job.callerMonitor) → JobsStep w w' state state'
  | added (client : From) (started : ℤ) (timeout : ℕ) : w'.next = w.next + 6 →
      state' = addJob state client started timeout w.fresh → JobsStep w w' state state'

theorem jobs_step {l : Label V} (h : (system V inspect opts plugin pluginHash).step w l w')
    {state' : State} (hs' : w'.server = some state') :
    ∃ state, w.server = some state ∧ JobsStep w w' state state' := by
  have hsame : w.next ≤ w'.next → w'.server = w.server →
      ∃ state, w.server = some state ∧ JobsStep w w' state state' := fun hnext hserver =>
    ⟨state', hserver ▸ hs', .kept hnext fun pid job' hl => ⟨job', hl, rfl, rfl⟩⟩
  cases l with
  | tick elapsed =>
    obtain rfl := h
    exact hsame le_rfl rfl
  | other =>
    obtain rfl := h
    exact hsame (Nat.le_succ _) rfl
  | die pid =>
    obtain ⟨-, rfl⟩ := h
    exact hsame le_rfl rfl
  | deliver pid result =>
    obtain ⟨-, -, -, rfl⟩ := h
    exact hsame le_rfl rfl
  | call caller request =>
    obtain ⟨-, state, hs, rfl⟩ := h
    refine ⟨state, hs, ?_⟩
    unfold World.handleCall at hs' ⊢
    cases hcall : Runtime.handleCall (V := V) inspect request ⟨caller, w.next⟩ w.now w.fresh
      state with
    | error exception =>
      rw [hcall] at hs'
      cases hs'
    | ok result =>
      rw [hcall] at hs'
      have hout := handleCall_outcome hcall
      cases hout with
      | refused e =>
        cases hs'
        exact .kept (Nat.le_add_right _ _) fun pid job' hl => ⟨job', hl, rfl, rfl⟩
      | admitted started timeout =>
        cases hs'
        exact .added _ started timeout rfl rfl
  | info info =>
    obtain ⟨-, state, hs, rfl⟩ := h
    refine ⟨state, hs, .kept le_rfl fun pid job' hl => ?_⟩
    have hout := handleInfo_outcome w.now info state
    generalize handleInfo w.now info state = result at hout hs' hl
    cases hout with
    | ignored =>
      cases hs'
      exact ⟨job', hl, rfl, rfl⟩
    | delivered | stopped =>
      cases hs'
      exact ⟨job', (AList.lookup_erase_eq_some hl).2, rfl, rfl⟩
    | @timedOut q job hq | @callerDown q job hq =>
      cases hs'
      rcases AList.lookup_insert_eq_some hl with ⟨rfl, rfl⟩ | ⟨-, hl'⟩
      · exact ⟨job, hq, rfl, rfl⟩
      · exact ⟨job', hl', rfl, rfl⟩

theorem Named.step {l : Label V} (h : ∀ state, w.server = some state → Named w state)
    (hstep : (system V inspect opts plugin pluginHash).step w l w') {state' : State}
    (hs' : w'.server = some state') : Named w' state' := by
  obtain ⟨state, hs, hjobs⟩ := jobs_step hstep hs'
  have hnamed := h state hs
  cases hjobs with
  | kept hnext hkept =>
    have hmem : ∀ pid ∈ state'.jobs, pid ∈ state.jobs := by
      intro pid hpid
      obtain ⟨job', hl⟩ := AList.exists_lookup_of_mem hpid
      obtain ⟨job, hl', -⟩ := hkept pid job' hl
      exact AList.mem_of_lookup hl'
    refine ⟨fun pid job' hl => ?_, fun pid job' hl => ?_, fun pid hpid => ?_,
      fun pid hpid q hq => hnamed.apart pid (hmem pid hpid) q (hmem q hq)⟩
    · obtain ⟨job, hl', hmonitor, -⟩ := hkept pid job' hl
      exact hmonitor.trans (hnamed.monitor pid job hl')
    · obtain ⟨job, hl', -, hcaller⟩ := hkept pid job' hl
      exact hcaller.trans (hnamed.callerMonitor pid job hl')
    · exact (hnamed.lt pid (hmem pid hpid)).trans hnext
  | added client started timeout hnext heq =>
    subst heq
    have hmem : ∀ pid ∈ (addJob state client started timeout w.fresh).jobs,
        pid = w.next + 1 ∨ pid ∈ state.jobs := fun pid hpid => (AList.mem_insert _).mp hpid
    refine ⟨fun pid job' hl => ?_, fun pid job' hl => ?_, fun pid hpid => ?_,
      fun pid hpid q hq hlt => ?_⟩
    · rcases AList.lookup_insert_eq_some hl with ⟨rfl, rfl⟩ | ⟨-, hl'⟩
      · rfl
      · exact hnamed.monitor pid job' hl'
    · rcases AList.lookup_insert_eq_some hl with ⟨rfl, rfl⟩ | ⟨-, hl'⟩
      · rfl
      · exact hnamed.callerMonitor pid job' hl'
    · rcases hmem pid hpid with rfl | hold
      · omega
      · have hlt := hnamed.lt pid hold
        omega
    · rcases hmem pid hpid with rfl | holdp <;> rcases hmem q hq with rfl | holdq
      · omega
      · have hle := hnamed.lt q holdq
        omega
      · have hle := hnamed.lt pid holdp
        omega
      · exact hnamed.apart pid holdp q holdq hlt

theorem named_of_reachable (h : (system V inspect opts plugin pluginHash).Reachable w)
    (hs : w.server = some state) : Named w state := by
  induction h generalizing state with
  | init hinit =>
    obtain rfl := Option.some.inj (hs.symm.trans hinit.1)
    refine ⟨fun pid job hl => ?_, fun pid job hl => ?_, fun pid hpid => ?_, fun pid hpid => ?_⟩
    · cases hl
    · cases hl
    · exact absurd hpid (AList.notMem_empty pid)
    · exact absurd hpid (AList.notMem_empty pid)
  | step _ hstep ih => exact Named.step (fun state hs => ih hs) hstep hs

/-- The `:DOWN` of a worker removes its job. -/
theorem not_mem_of_down (h : Named w state) {pid : ℕ} {job : Job}
    (hl : state.jobs.lookup pid = some job) (now : ℤ) :
    pid ∉ (handleInfo now (.down job.monitor : Info V) state).1.jobs := by
  have hmem : (⟨pid, job⟩ : Σ _ : ℕ, Job) ∈ state.jobs.entries := AList.mem_lookup_iff.mp hl
  cases hfind : state.jobs.entries.find? fun entry =>
      entry.2.monitor == job.monitor || entry.2.callerMonitor == job.monitor with
  | none =>
    have hnot := List.find?_eq_none.mp hfind _ hmem
    simp at hnot
  | some entry =>
    obtain ⟨q, found⟩ := entry
    have hq : state.jobs.lookup q = some found :=
      AList.mem_lookup_iff.mpr (List.mem_of_find?_eq_some hfind)
    have href := List.find?_some hfind
    simp only [Bool.or_eq_true, beq_iff_eq, h.monitor pid job hl, h.monitor q found hq,
      h.callerMonitor q found hq] at href
    -- the monitor of a caller comes with another worker, whose names are elsewhere
    have hsame : q = pid := by
      have hapart := h.apart q (AList.mem_of_lookup hq) pid (AList.mem_of_lookup hl)
      omega
    subst hsame
    obtain rfl := Option.some.inj (hq.symm.trans hl)
    simp only [handleInfo, hfind, if_true]
    exact fun hpid => (AList.mem_erase.mp hpid).1 rfl

/-- What only ever grows. -/
theorem grows_step {l : Label V} (h : (system V inspect opts plugin pluginHash).step w l w') :
    w.next ≤ w'.next ∧ (∀ pid ∈ w.dead, pid ∈ w'.dead) ∧ ∀ c ∈ w.admitted, c ∈ w'.admitted := by
  cases l with
  | tick elapsed =>
    obtain rfl := h
    exact ⟨le_rfl, fun _ hp => hp, fun _ hc => hc⟩
  | other =>
    obtain rfl := h
    exact ⟨Nat.le_succ _, fun _ hp => hp, fun _ hc => hc⟩
  | die pid =>
    obtain ⟨-, rfl⟩ := h
    exact ⟨le_rfl, fun _ hp => List.mem_cons_of_mem _ hp, fun _ hc => hc⟩
  | deliver pid result =>
    obtain ⟨-, -, -, rfl⟩ := h
    exact ⟨le_rfl, fun _ hp => hp, fun _ hc => hc⟩
  | call caller request =>
    obtain ⟨-, state, -, rfl⟩ := h
    unfold World.handleCall
    cases Runtime.handleCall (V := V) inspect request ⟨caller, w.next⟩ w.now w.fresh state with
    | error exception => exact ⟨Nat.le_add_right _ _, fun _ hp => hp, fun _ hc => hc⟩
    | ok result =>
      exact ⟨Nat.le_add_right _ _, fun _ hp => hp, fun _ hc => List.mem_append_left _ hc⟩
  | info info =>
    obtain ⟨-, state, -, rfl⟩ := h
    exact ⟨le_rfl, fun _ hp => hp, fun _ hc => hc⟩

/-- A slot that is free stays free of a worker that has had it. -/
theorem free_step {l : Label V} (h : (system V inspect opts plugin pluginHash).step w l w')
    {pid : ℕ} (hlt : pid < w.next) (hfree : ∀ state, w.server = some state → pid ∉ state.jobs)
    {state' : State} (hs' : w'.server = some state') : pid ∉ state'.jobs := by
  intro hmem
  obtain ⟨job', hl⟩ := AList.exists_lookup_of_mem hmem
  obtain ⟨state, hs, hjobs⟩ := jobs_step h hs'
  cases hjobs with
  | kept _ hkept =>
    obtain ⟨job, hl', -⟩ := hkept pid job' hl
    exact hfree state hs (AList.mem_of_lookup hl')
  | added client started timeout _ heq =>
    subst heq
    rcases (AList.mem_insert _).mp hmem with rfl | hold
    · exact absurd hlt (by simp [World.fresh])
    · exact hfree state hs hold

/-! ### The result -/

/-- A job of a worker that is dead, with its monitor. -/
def Ended (w : World V) (pid monitor : ℕ) : Prop :=
  pid < w.next ∧ pid ∈ w.dead ∧
    ∃ state job, w.server = some state ∧ state.jobs.lookup pid = some job ∧ job.monitor = monitor

/-- The slot of a worker is free. -/
def Free (w : World V) (pid : ℕ) : Prop := ∀ state, w.server = some state → pid ∉ state.jobs

theorem ended_step {l : Label V} (h : (system V inspect opts plugin pluginHash).step w l w')
    {pid monitor : ℕ} (hended : Ended w pid monitor) : Ended w' pid monitor ∨ Free w' pid := by
  obtain ⟨hlt, hdead, state, job, hs, hl, rfl⟩ := hended
  obtain ⟨hnext, hgrows, -⟩ := grows_step h
  by_cases hfree : Free w' pid
  · exact .inr hfree
  · simp only [Free, not_forall, not_not] at hfree
    obtain ⟨state', hs', hmem⟩ := hfree
    obtain ⟨job', hl'⟩ := AList.exists_lookup_of_mem hmem
    refine .inl ⟨hlt.trans_le hnext, hgrows pid hdead, state', job', hs', hl', ?_⟩
    obtain ⟨before, hbefore, hjobs⟩ := jobs_step h hs'
    obtain rfl := Option.some.inj (hbefore.symm.trans hs)
    cases hjobs with
    | kept _ hkept =>
      obtain ⟨old, hold, hmonitor, -⟩ := hkept pid job' hl'
      obtain rfl := Option.some.inj (hold.symm.trans hl)
      exact hmonitor
    | added client started timeout _ heq =>
      subst heq
      rcases AList.lookup_insert_eq_some hl' with ⟨rfl, -⟩ | ⟨-, hold⟩
      · exact absurd hlt (by simp [World.fresh])
      · obtain rfl := Option.some.inj (hold.symm.trans hl)
        rfl

/-- **A server that stops in order cancels every worker that is running.** -/
theorem terminate_cancels (h : (system V inspect opts plugin pluginHash).Reachable w)
    (hs : w.server = some state) {c : Call} (hc : c ∈ w.admitted) (hrunning : w.Running c) :
    (.sendCancel c.worker : Effect V) ∈ terminate state := by
  obtain ⟨job, hl⟩ :=
    AList.exists_lookup_of_mem (((Inv.of_reachable h).tracks state hs).running c hc hrunning)
  refine List.mem_flatMap.mpr ⟨⟨c.worker, job⟩, AList.mem_lookup_iff.mp hl, ?_⟩
  exact List.mem_append_right _ (List.mem_singleton_self _)

/-- What `:stats` counts as running: all workers that are, and no more than there are slots. -/
theorem stats_running (h : (system V inspect opts plugin pluginHash).Reachable w)
    (hs : w.server = some state) (native : CacheStats) :
    (stats native state).2 ≤ opts.maxConcurrency ∧
      ∀ calls : List Call, calls.Nodup → (∀ c ∈ calls, c ∈ w.admitted ∧ w.Running c) →
        calls.length ≤ (stats native state).2 := by
  have hinv := Inv.of_reachable h
  refine ⟨?_, fun calls hnodup hrunning => ?_⟩
  · have hpool := pool_card_le (admission_refines_pool.reachable h)
    rwa [occupied_of_server hs] at hpool
  · have hworkers : (calls.map Call.worker).Nodup := hnodup.map_on fun c hc d hd =>
      hinv.ledger.worker_inj c (hrunning c hc).1 d (hrunning d hd).1
    have hkeys : calls.map Call.worker ⊆ state.jobs.keys := by
      intro pid hpid
      obtain ⟨c, hc, rfl⟩ := List.mem_map.mp hpid
      exact (hinv.tracks state hs).running c (hrunning c hc).1 (hrunning c hc).2
    have hle := (hworkers.subperm hkeys).length_le
    rwa [List.length_map] at hle

/-- **Every call returns, once.** Take any behaviour of the server, its callers and its workers,
from any state it can reach. If the timer of an admitted call does not stay armed for ever without
being handled, then either the caller dies or from some point on the call has returned, with a reply
or because the server has stopped, and what it has returned never changes. If a worker is dead that
still has its slot, and its `:DOWN` does not stay due for ever without being handled, then from some
point on the slot is free of it for good. And at any moment a server that stops in order cancels
every worker that is running. -/
theorem every_call_returns_once (b : (system V inspect opts plugin pluginHash).Behaviour)
    (hstart : (system V inspect opts plugin pluginHash).Reachable (b.state 0)) (i : ℕ) :
    (∀ c ∈ (b.state i).admitted, b.FairTo (Armed · c) (· = .info (.timeout c.worker)) → ∀ down,
      ∃ j, i ≤ j ∧ (c.client.pid ∈ (b.state j).dead ∨
        ∃ reply, ∀ k, j ≤ k → (b.state k).returned down c.client = some reply)) ∧
    (∀ pid monitor, Ended (b.state i) pid monitor →
      b.FairTo (Ended · pid monitor) (· = .info (.down monitor)) →
        ∃ j, i ≤ j ∧ ∀ k, j ≤ k → Free (b.state k) pid) ∧
    ∀ state c, (b.state i).server = some state → c ∈ (b.state i).admitted →
      (b.state i).Running c → (.sendCancel c.worker : Effect V) ∈ terminate state := by
  have hreachable : ∀ i, (system V inspect opts plugin pluginHash).Reachable (b.state i) :=
    fun i => b.invariant (fun _ _ _ hs hstep => hs.step hstep) (Nat.zero_le i) hstart
  refine ⟨fun c hc hfair down => ?_, fun pid monitor hended hfair => ?_,
    fun state c hs hc hrunning => terminate_cancels (hreachable i) hs hc hrunning⟩
  · -- the timer stays armed until the call is settled or the server has stopped
    obtain ⟨j, hij, hgoal⟩ := b.leads_to
      (I := fun w => (system V inspect opts plugin pluginHash).Reachable w ∧ c ∈ w.admitted)
      (G := fun w => w.Settled c ∨ w.server = none)
      (fun w l w' hi hstep => .inl ⟨hi.1.step hstep, (grows_step hstep).2.2 c hi.2⟩)
      (fun w hi hnot => by
        obtain ⟨hunsettled, hserver⟩ := not_or.mp hnot
        obtain ⟨state, hs⟩ := Option.ne_none_iff_exists'.mp hserver
        exact armed_of_not_settled (Inv.of_reachable hi.1) hi.2 hs hunsettled)
      (fun w l w' hi hkind hstep => by
        subst hkind
        obtain ⟨-, state, hs, rfl⟩ := hstep
        exact .inl (settled_of_timeout (Inv.of_reachable hi.1) hs hi.2 rfl))
      hfair ⟨hreachable i, hc⟩
    have hsettled : (b.state j).Replied c.client ∨ (b.state j).server = none ∨
        c.client.pid ∈ (b.state j).dead := by
      rcases hgoal with (hreplied | hdead) | hstopped
      · exact .inl hreplied
      · exact .inr (.inr hdead)
      · exact .inr (.inl hstopped)
    rw [← or_assoc] at hsettled
    rcases hsettled with hreturns | hdead
    · obtain ⟨reply, hreturned⟩ := exists_returned hreturns down
      refine ⟨j, hij, .inr ⟨reply, fun k hjk => ?_⟩⟩
      exact b.invariant (fun _ _ _ hs hstep => returned_step hstep hs) hjk hreturned
    · exact ⟨j, hij, .inl hdead⟩
  · obtain ⟨j, hij, hfree⟩ := b.leads_to
      (I := fun w => (system V inspect opts plugin pluginHash).Reachable w ∧ Ended w pid monitor)
      (G := fun w => pid < w.next ∧ Free w pid)
      (fun w l w' hi hstep => by
        have hlt := hi.2.1.trans_le (grows_step hstep).1
        exact (ended_step hstep hi.2).imp (⟨hi.1.step hstep, ·⟩) (⟨hlt, ·⟩))
      (fun w hi _ => hi.2)
      (fun w l w' hi hkind hstep => by
        subst hkind
        obtain ⟨hlt, -, state, job, hs, hl, rfl⟩ := hi.2
        refine ⟨hlt.trans_le (grows_step hstep).1, fun state' hs' => ?_⟩
        obtain ⟨-, before, hbefore, rfl⟩ := hstep
        obtain rfl := Option.some.inj (hbefore.symm.trans hs)
        cases hs'
        exact not_mem_of_down (named_of_reachable hi.1 hs) hl w.now)
      hfair ⟨hreachable i, hended⟩
    refine ⟨j, hij, fun k hjk => ?_⟩
    have hkept := b.invariant
      (fun w l w' (hs : pid < w.next ∧ Free w pid) hstep =>
        (⟨hs.1.trans_le (grows_step hstep).1, fun _ hs' => free_step hstep hs.1 hs.2 hs'⟩ :
          pid < w'.next ∧ Free w' pid)) hjk hfree
    exact hkept.2

/-- The server handles a message. -/
def handling (w : World Unit) (info : Info Unit) : World Unit :=
  match w.server with
  | none => w
  | some state => w.perform (handleInfo w.now info state).1 (handleInfo w.now info state).2

/-- `compiling` when the timer of its worker has fired. -/
def fired : World Unit := handling { compiling with now := 5000 } (.timeout 2)

/-- `fired` when the worker has died, and its `:DOWN` has been handled. -/
def released : World Unit := handling { fired with dead := [2] } (.down 3)

/-- A worker that is still compiling when its timer fires, and dies of it. Each of the two messages
comes once, and then time goes by. -/
def overdue : (system Unit (fun _ => "") oneSlot [] []).Behaviour where
  state
    | 0 => compiling
    | 1 => { compiling with now := 5000 }
    | 2 => fired
    | 3 => { fired with dead := [2] }
    | n + 4 => { released with now := 5000 + n }
  label
    | 0 => .tick 5000
    | 1 => .info (.timeout 2)
    | 2 => .die 2
    | 3 => .info (.down 3)
    | _ + 4 => .tick 1
  step
    | 0 => rfl
    | 1 => ⟨trivial, _, rfl, rfl⟩
    | 2 => ⟨by decide, rfl⟩
    | 3 => ⟨⟨2, by decide, by decide⟩, _, rfl, rfl⟩
    | n + 4 => by
      have hnow : (5000 : ℤ) + (n + 1 : ℕ) = 5000 + n + (1 : ℕ) := by omega
      change { released with now := 5000 + ((n + 1 : ℕ) : ℤ) } = _
      rw [hnow]

/-- Its server has no jobs in the end. -/
theorem free_overdue (n : ℕ) {state : State} (hs : (overdue.state (n + 4)).server = some state) :
    state.jobs.lookup 2 = none := by
  cases hs
  rfl

/-- The call has returned from some point on, and its slot is free. -/
theorem every_call_returns_once_overdue :
    (∃ j, ∃ reply : Reply Unit, ∀ k, j ≤ k →
      (overdue.state k).returned "runtime is not available" ⟨0, 1⟩ = some reply) ∧
    ∃ j, ∀ k, j ≤ k → Free (overdue.state k) 2 := by
  have hidle : (system Unit (fun _ => "") oneSlot [] []).Reachable idle :=
    .init ⟨rfl, rfl, rfl, rfl, rfl⟩
  have hstart : (system Unit (fun _ => "") oneSlot [] []).Reachable compiling :=
    hidle.step (l := .call 0 (.compile [] false none ⟨.builtin, 1⟩ 0))
      ⟨by decide, start oneSlot [] [], rfl, rfl⟩
  -- neither message is due in the end
  have hdue : ∀ {P : ℕ → Prop} (i : ℕ), (∀ j, i ≤ j → ∃ state job,
      (overdue.state j).server = some state ∧ state.jobs.lookup 2 = some job) →
      ∃ j, i ≤ j ∧ P j := by
    intro P i hjob
    obtain ⟨state, job, hs, hl⟩ := hjob (i + 4) (Nat.le_add_right _ _)
    rw [free_overdue i hs] at hl
    cases hl
  constructor
  · obtain ⟨j, -, hfinal⟩ := (every_call_returns_once overdue hstart 0).1 ⟨2, ⟨0, 1⟩, 5000⟩
      (by decide) (fun i harmed => hdue i fun j hij => by
        obtain ⟨state, job, hs, hl, -⟩ := harmed j hij
        exact ⟨state, job, hs, hl⟩) "runtime is not available"
    rcases hfinal with hcaller | ⟨reply, hreply⟩
    · have hlive : ∀ n, 0 ∉ (overdue.state n).dead
        | 0 | 1 | 2 | 3 => by decide
        | n + 4 => by
          change 0 ∉ released.dead
          decide
      exact absurd hcaller (hlive j)
    · exact ⟨j, reply, hreply⟩
  · obtain ⟨j, -, hfree⟩ := (every_call_returns_once overdue hstart 3).2.1 2 3
      ⟨by decide, by decide, _, _, rfl, rfl, rfl⟩ (fun i hended => hdue i fun j hij => by
        obtain ⟨-, -, state, job, hs, hl, -⟩ := hended j hij
        exact ⟨state, job, hs, hl⟩)
    exact ⟨j, hfree⟩

end Javex.Runtime
