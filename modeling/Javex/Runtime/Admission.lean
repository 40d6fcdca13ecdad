import Javex.Runtime.Server
import Javex.Transition.Pool

/-!
# Admission, replies and deadlines

The server of `Runtime/Server.lean` in the world it runs in: callers and workers that may
die at any moment, workers that deliver one result, timers and `:DOWN` messages. The world
is generous to the adversary. A `{:timeout, pid}` may be handled at any moment for any pid,
as if no timer were ever cancelled; a result that was sent and a `:DOWN` whose process is
dead may be handled at any later moment and again, as if nothing were flushed. So every
order of the messages, stale ones included, is a run of `system`.

Three ghost fields record what happened: the calls that were admitted with their deadline,
the results that were sent and the replies with the time they were sent at. A handler reads
the clock once, so that reading is also the time of its reply.

* `admission_refines_pool`: the jobs are a bounded pool of slots.
* `Ledger` and `Tracks`: what the ghost fields and the job table have to do with each other.
* `admission_and_replies`: the guarantees of the server in every reachable state.

The invariant is `Inv`, with a part for the ghost fields alone (`Ledger`) and a part for each job of
the table (`TracksJob`): who is waiting, since when, and what has been sent. A handler removes a
client at most once, and only then replies; a job whose client is gone stays until the `:DOWN` of
its worker, so its slot is not free before. `repliesOf` and `monitorsOf` read a list of effects, and
the case analyses of the handlers are those of `Runtime/Server.lean`, so the code is not looked at
again here.

The mailbox of a caller is not modelled: a reply is recorded when it is sent, with its time.
-/

namespace Javex.Runtime

open Transition

variable {V : Type}

/-- An admitted call: its worker, its client and its deadline. -/
structure Call where
  worker : ℕ
  client : From
  deadline : ℤ
  deriving DecidableEq

/-- The server and its surroundings; `server` is `none` once a handler has raised. -/
structure World (V : Type) where
  server : Option State
  now : ℤ
  /-- Every pid, reference and tag in use is below this. -/
  next : ℕ
  monitored : List (ℕ × ℕ)
  dead : List ℕ
  results : List (ℕ × Reply V)
  admitted : List Call
  replies : List (From × Reply V × ℤ)

/-- What may happen next. -/
inductive Label (V : Type)
  | tick (elapsed : ℕ)
  | other
  | die (pid : ℕ)
  | deliver (pid : ℕ) (result : Reply V)
  | call (caller : ℕ) (request : Request)
  | info (info : Info V)

namespace World

/-- Some process that is no worker starts. -/
def other (w : World V) : World V := { w with next := w.next + 1 }

/-- Five unused names. -/
def fresh (w : World V) : Fresh :=
  ⟨w.next + 1, w.next + 2, w.next + 3, w.next + 4, w.next + 5⟩

/-- The world after a handler returned `state` and `effects`, having read the clock once. -/
def perform (w : World V) (state : State) (effects : List (Effect V)) : World V :=
  { w with
    server := some state
    monitored := w.monitored ++ monitorsOf effects
    replies := w.replies ++ (repliesOf effects).map fun r => (r.1, r.2, w.now) }

/-- The calls a handler admitted for `client`. -/
def admittedBy (client : From) (state : State) (effects : List (Effect V)) : List Call :=
  (spawnsOf effects).filterMap fun pid =>
    (state.jobs.lookup pid).map fun job => ⟨pid, client, job.deadline⟩

/-- The names of `fresh` and the tag of a call are taken. -/
def reserve (w : World V) : World V := { w with next := w.next + 6 }

/-- The world after `handle_call/3` returned or raised. -/
def called (w : World V) (client : From) : Except Raise (State × List (Effect V)) → World V
  | .error _ => { w.reserve with server := none }
  | .ok (state, effects) =>
    { w.reserve.perform state effects with
      admitted := w.admitted ++ admittedBy client state effects }

/-- `handle_call/3`, with a new tag for the call and new names for its job. -/
def handleCall (w : World V) (inspect : Term → String) (caller : ℕ) (request : Request)
    (state : State) : World V :=
  w.called ⟨caller, w.next⟩
    (Runtime.handleCall inspect request ⟨caller, w.next⟩ w.now w.fresh state)

/-- The messages that were sent to the server. -/
def Sent (w : World V) : Info V → Prop
  | .result pid result => (pid, result) ∈ w.results
  | .timeout _ => True
  | .down ref => ∃ pid, (ref, pid) ∈ w.monitored ∧ pid ∈ w.dead

/-- The client of a call was answered. -/
def Replied (w : World V) (client : From) : Prop := client ∈ w.replies.map Prod.fst

/-- The call needs no answer any more: it has one, or its caller is dead. -/
def Settled (w : World V) (c : Call) : Prop := w.Replied c.client ∨ c.client.pid ∈ w.dead

/-- The worker of a call is still running: it has neither delivered nor died. -/
def Running (w : World V) (c : Call) : Prop :=
  c.worker ∉ w.results.map Prod.fst ∧ c.worker ∉ w.dead

end World

/-- A server started with `opts`, among its callers and workers. -/
def system (V : Type) (inspect : Term → String) (opts : RuntimeOptions)
    (plugin pluginHash : Bytes) : System (World V) (Label V) where
  init w := w.server = some (start opts plugin pluginHash) ∧ w.monitored = [] ∧
    w.results = [] ∧ w.admitted = [] ∧ w.replies = []
  step w
    | .tick elapsed, w' => w' = { w with now := w.now + elapsed }
    | .other, w' => w' = w.other
    | .die pid, w' => pid < w.next ∧ w' = { w with dead := pid :: w.dead }
    | .deliver pid result, w' => pid ∈ w.admitted.map Call.worker ∧ pid ∉ w.dead ∧
        pid ∉ w.results.map Prod.fst ∧ w' = { w with results := (pid, result) :: w.results }
    | .call caller request, w' => caller < w.next ∧
        ∃ state, w.server = some state ∧ w' = w.handleCall inspect caller request state
    | .info info, w' => w.Sent info ∧ ∃ state, w.server = some state ∧
        w' = w.perform (handleInfo w.now info state).1 (handleInfo w.now info state).2

/-! ### The invariant -/

/-- What holds of the names and the ghost records, whatever became of the server. -/
structure Ledger (w : World V) : Prop where
  worker_lt : ∀ c ∈ w.admitted, c.worker < w.next
  tag_lt : ∀ c ∈ w.admitted, c.client.tag < w.next
  replied_lt : ∀ client, w.Replied client → client.tag < w.next
  ref_lt : ∀ m ∈ w.monitored, m.1 < w.next
  worker_inj : ∀ c ∈ w.admitted, ∀ d ∈ w.admitted, c.worker = d.worker → c = d
  client_inj : ∀ c ∈ w.admitted, ∀ d ∈ w.admitted, c.client = d.client → c = d
  monitored_inj : ∀ r p q, (r, p) ∈ w.monitored → (r, q) ∈ w.monitored → p = q
  replies_nodup : (w.replies.map Prod.fst).Nodup
  ok_before : ∀ c ∈ w.admitted, ∀ v t, (c.client, .ok v, t) ∈ w.replies → t < c.deadline

/-- A job belongs to an admitted call, watches its worker and its caller, and still holds the
client exactly if that was neither answered nor given up. -/
structure TracksJob (w : World V) (pid : ℕ) (job : Job) (c : Call) : Prop where
  mem : c ∈ w.admitted
  worker : c.worker = pid
  deadline : c.deadline = job.deadline
  monitor : (job.monitor, pid) ∈ w.monitored
  callerMonitor : (job.callerMonitor, c.client.pid) ∈ w.monitored
  client : (job.client = some c.client ∧ ¬ w.Replied c.client) ∨
    (job.client = none ∧ w.Settled c)

/-- How the job table reflects the admitted calls. -/
structure Tracks (w : World V) (state : State) : Prop where
  running : ∀ c ∈ w.admitted, w.Running c → c.worker ∈ state.jobs
  job : ∀ pid job, state.jobs.lookup pid = some job → ∃ c, TracksJob w pid job c
  settled : ∀ c ∈ w.admitted, c.worker ∉ state.jobs → w.Settled c

/-- The invariant of the world. -/
structure Inv (w : World V) : Prop where
  ledger : Ledger w
  tracks : ∀ state, w.server = some state → Tracks w state

/-! ### Steps that leave the server alone -/

theorem World.Settled.mono {w w' : World V} {c : Call} (h : w.Settled c)
    (hreplies : ∀ client, w.Replied client → w'.Replied client)
    (hdead : ∀ pid ∈ w.dead, pid ∈ w'.dead) : w'.Settled c :=
  h.imp (hreplies _) (hdead _)

/-- The invariant survives any change of the clock, any new name, any death and any result. -/
theorem Inv.environment {w w' : World V} (h : Inv w) (hserver : w'.server = w.server)
    (hadmitted : w'.admitted = w.admitted) (hmonitored : w'.monitored = w.monitored)
    (hreplies : w'.replies = w.replies) (hnext : w.next ≤ w'.next)
    (hdead : ∀ pid ∈ w.dead, pid ∈ w'.dead)
    (hresults : ∀ pid ∈ w.results.map Prod.fst, pid ∈ w'.results.map Prod.fst) : Inv w' := by
  have hreplied : ∀ client, w'.Replied client ↔ w.Replied client := by
    intro client
    rw [World.Replied, World.Replied, hreplies]
  have hsettled : ∀ c, w.Settled c → w'.Settled c := fun c hc =>
    hc.mono (fun client => (hreplied client).mpr) hdead
  refine ⟨⟨?_, ?_, ?_, ?_, ?_, ?_, ?_, ?_, ?_⟩, ?_⟩
  · rw [hadmitted]
    exact fun c hc => (h.ledger.worker_lt c hc).trans_le hnext
  · rw [hadmitted]
    exact fun c hc => (h.ledger.tag_lt c hc).trans_le hnext
  · exact fun client hc => (h.ledger.replied_lt client ((hreplied client).mp hc)).trans_le hnext
  · rw [hmonitored]
    exact fun m hm => (h.ledger.ref_lt m hm).trans_le hnext
  · rw [hadmitted]
    exact h.ledger.worker_inj
  · rw [hadmitted]
    exact h.ledger.client_inj
  · rw [hmonitored]
    exact h.ledger.monitored_inj
  · rw [hreplies]
    exact h.ledger.replies_nodup
  · rw [hadmitted, hreplies]
    exact h.ledger.ok_before
  · intro state hs
    have ht := h.tracks state (hserver ▸ hs)
    refine ⟨?_, ?_, ?_⟩
    · rw [hadmitted]
      exact fun c hc hrun => ht.running c hc
        ⟨fun hmem => hrun.1 (hresults _ hmem), fun hmem => hrun.2 (hdead _ hmem)⟩
    · intro pid job hl
      obtain ⟨c, hc⟩ := ht.job pid job hl
      refine ⟨c, hadmitted ▸ hc.mem, hc.worker, hc.deadline, hmonitored ▸ hc.monitor,
        hmonitored ▸ hc.callerMonitor, ?_⟩
      exact hc.client.imp (fun hw => ⟨hw.1, fun hr => hw.2 ((hreplied _).mp hr)⟩)
        fun hw => ⟨hw.1, hsettled c hw.2⟩
    · rw [hadmitted]
      exact fun c hc hnot => hsettled c (ht.settled c hc hnot)

/-! ### Steps of the server -/

section Perform

variable {w : World V} {state' : State} {effects : List (Effect V)} {client? : Option From}
  {reply : Reply V}

/-- A handler's effects answer at most one client, `client?`. -/
theorem replied_perform (hr : repliesOf effects = client?.toList.map fun c => (c, reply))
    (client : From) :
    (w.perform state' effects).Replied client ↔ w.Replied client ∨ client? = some client := by
  cases client? with
  | none => simp [World.Replied, World.perform, hr]
  | some c => simp [World.Replied, World.perform, hr, eq_comm]

/-- Answering one client that was not answered, and with a success only before its deadline,
keeps the ledger. -/
theorem Ledger.perform (h : Ledger w)
    (hr : repliesOf effects = client?.toList.map fun c => (c, reply))
    (hm : monitorsOf effects = [])
    (htag : ∀ client, client? = some client → client.tag < w.next)
    (hnew : ∀ client, client? = some client → ¬ w.Replied client)
    (hok : ∀ client, client? = some client → ∀ v, reply = .ok v →
      ∀ c ∈ w.admitted, c.client = client → w.now < c.deadline) :
    Ledger (w.perform state' effects) := by
  have hmon : (w.perform state' effects).monitored = w.monitored := by
    simp [World.perform, hm]
  refine ⟨h.worker_lt, h.tag_lt, ?_, ?_, h.worker_inj, h.client_inj, ?_, ?_, ?_⟩
  · intro client hc
    rcases (replied_perform hr client).mp hc with hold | hthis
    · exact h.replied_lt client hold
    · exact htag client hthis
  · rw [hmon]
    exact h.ref_lt
  · rw [hmon]
    exact h.monitored_inj
  · cases client? with
    | none => simpa [World.perform, hr] using h.replies_nodup
    | some client =>
      have hnodup : (w.replies.map Prod.fst ++ [client]).Nodup := by
        refine List.Nodup.append h.replies_nodup (List.nodup_singleton _) ?_
        rw [List.disjoint_singleton]
        exact hnew client rfl
      simpa [World.perform, hr] using hnodup
  · intro c hc v t hmem
    have hmem' : (c.client, .ok v, t) ∈ w.replies ++
        (client?.toList.map fun client => (client, reply)).map fun r => (r.1, r.2, w.now) := by
      rw [← hr]
      exact hmem
    rcases List.mem_append.mp hmem' with hold | hthis
    · exact h.ok_before c hc v t hold
    · simp only [List.map_map, List.mem_map, Option.mem_toList, Function.comp] at hthis
      obtain ⟨client, hclient, heq⟩ := hthis
      simp only [Prod.mk.injEq] at heq
      obtain ⟨rfl, hval, rfl⟩ := heq
      exact hok c.client hclient v hval c hc rfl

/-- A job whose client is not the one answered keeps its tracking. -/
theorem TracksJob.perform {pid : ℕ} {job : Job} {c : Call} (h : TracksJob w pid job c)
    (hr : repliesOf effects = client?.toList.map fun c => (c, reply))
    (hm : monitorsOf effects = []) (hne : client? ≠ some c.client) :
    TracksJob (w.perform state' effects) pid job c := by
  have hmon : (w.perform state' effects).monitored = w.monitored := by
    simp [World.perform, hm]
  refine ⟨h.mem, h.worker, h.deadline, hmon ▸ h.monitor, hmon ▸ h.callerMonitor, ?_⟩
  refine h.client.imp (fun hw => ⟨hw.1, fun hrep => ?_⟩) fun hw => ⟨hw.1, ?_⟩
  · exact ((replied_perform hr c.client).mp hrep).elim hw.2 hne
  · exact hw.2.mono (fun client hc => (replied_perform hr client).mpr (.inl hc)) fun _ hp => hp

end Perform

section Info

variable {w : World V} {state : State} {effects : List (Effect V)} {pid : ℕ} {job : Job}
  {reply : Reply V}

/-- The client a job holds is an unanswered client of the job's own call. -/
theorem TracksJob.client_eq {c : Call} (h : TracksJob w pid job c) {client : From}
    (hc : job.client = some client) : client = c.client ∧ ¬ w.Replied client := by
  rcases h.client with ⟨heq, hnot⟩ | ⟨hnone, -⟩
  · obtain rfl : client = c.client := Option.some.inj (hc.symm.trans heq)
    exact ⟨rfl, hnot⟩
  · rw [hnone] at hc
    cases hc

/-- Answering the client a job holds, with a success only before the deadline, keeps the
ledger. -/
theorem Inv.ledger_perform (h : Inv w) (hs : w.server = some state)
    (hl : state.jobs.lookup pid = some job) {state' : State}
    (hr : repliesOf effects = job.client.toList.map fun c => (c, reply))
    (hm : monitorsOf effects = [])
    (hok : ∀ v, reply = .ok v → w.now < job.deadline) : Ledger (w.perform state' effects) := by
  obtain ⟨c, hc⟩ := (h.tracks state hs).job pid job hl
  refine h.ledger.perform hr hm ?_ ?_ ?_
  · intro client hclient
    obtain ⟨rfl, -⟩ := hc.client_eq hclient
    exact h.ledger.tag_lt c hc.mem
  · exact fun client hclient => (hc.client_eq hclient).2
  · intro client hclient v hv d hd hdc
    obtain ⟨rfl, -⟩ := hc.client_eq hclient
    obtain rfl := h.ledger.client_inj d hd c hc.mem hdc
    exact hc.deadline ▸ hok v hv

/-- The calls of two different jobs have different clients, so answering the one leaves the
other waiting. -/
theorem Inv.client_ne (h : Inv w) (hs : w.server = some state)
    (hl : state.jobs.lookup pid = some job) {d : Call} (hd : d ∈ w.admitted)
    (hne : d.worker ≠ pid) : job.client ≠ some d.client := by
  obtain ⟨c, hc⟩ := (h.tracks state hs).job pid job hl
  intro hclient
  have heq := (hc.client_eq hclient).1
  exact hne (h.ledger.client_inj d hd c hc.mem heq ▸ hc.worker)

/-- **Release.** Removing a job whose worker has delivered or died, and answering the client
it holds, keeps the invariant. -/
theorem Inv.release (h : Inv w) (hs : w.server = some state)
    (hl : state.jobs.lookup pid = some job)
    (hr : repliesOf effects = job.client.toList.map fun c => (c, reply))
    (hm : monitorsOf effects = [])
    (hok : ∀ v, reply = .ok v → w.now < job.deadline)
    (hgone : pid ∈ w.results.map Prod.fst ∨ pid ∈ w.dead) :
    Inv (w.perform { state with jobs := state.jobs.erase pid } effects) := by
  have ht := h.tracks state hs
  refine ⟨h.ledger_perform hs hl hr hm hok, ?_⟩
  rintro _ ⟨⟩
  refine ⟨?_, ?_, ?_⟩
  · intro c hc hrun
    have hne : c.worker ≠ pid := by
      rintro rfl
      exact hgone.elim hrun.1 hrun.2
    exact AList.mem_erase.mpr ⟨hne, ht.running c hc hrun⟩
  · intro q other hlq
    obtain ⟨hne, hlq'⟩ := AList.lookup_erase_eq_some hlq
    obtain ⟨d, hd⟩ := ht.job q other hlq'
    exact ⟨d, hd.perform hr hm (h.client_ne hs hl hd.mem (hd.worker.symm ▸ hne))⟩
  · intro d hd hnot
    have keep : w.Settled d → (w.perform { state with jobs := state.jobs.erase pid }
        effects).Settled d := fun hset =>
      hset.mono (fun client hc => (replied_perform hr client).mpr (.inl hc)) fun _ hp => hp
    by_cases heq : d.worker = pid
    · -- the call of the removed job: answered now, or settled before
      obtain ⟨c, hc⟩ := ht.job pid job hl
      obtain rfl := h.ledger.worker_inj d hd c hc.mem (heq.trans hc.worker.symm)
      rcases hc.client with ⟨hclient, -⟩ | ⟨-, hset⟩
      · exact .inl ((replied_perform hr d.client).mpr (.inr hclient))
      · exact keep hset
    · exact keep (ht.settled d hd fun hmem => hnot (AList.mem_erase.mpr ⟨heq, hmem⟩))

/-- **Detach.** Keeping a job but forgetting its client, which is answered with an error or
whose process is dead, keeps the invariant. -/
theorem Inv.detach (h : Inv w) (hs : w.server = some state)
    (hl : state.jobs.lookup pid = some job) (client? : Option From) (e : Error)
    (hr : repliesOf effects = client?.toList.map fun c => (c, .error e))
    (hm : monitorsOf effects = [])
    (hclient : client? = job.client ∨
      (client? = none ∧ ∀ c, TracksJob w pid job c → c.client.pid ∈ w.dead)) :
    Inv (w.perform (forgetClient state pid job) effects) := by
  have ht := h.tracks state hs
  obtain ⟨c, hc⟩ := ht.job pid job hl
  have hof : ∀ client, client? = some client → job.client = some client := by
    intro client hsome
    rcases hclient with rfl | ⟨rfl, -⟩
    · exact hsome
    · cases hsome
  have keep : ∀ d, w.Settled d → (w.perform (forgetClient state pid job) effects).Settled d :=
    fun d hset =>
      hset.mono (fun client hc => (replied_perform hr client).mpr (.inl hc)) fun _ hp => hp
  refine ⟨?_, ?_⟩
  · refine h.ledger.perform hr hm ?_ ?_ ?_
    · intro client hsome
      obtain ⟨rfl, -⟩ := hc.client_eq (hof client hsome)
      exact h.ledger.tag_lt c hc.mem
    · exact fun client hsome => (hc.client_eq (hof client hsome)).2
    · intro client _ v hv
      cases hv
  · rintro _ ⟨⟩
    refine ⟨?_, ?_, ?_⟩
    · intro d hd hrun
      exact (AList.mem_insert _).mpr (.inr (ht.running d hd hrun))
    · intro q other hlq
      rcases AList.lookup_insert_eq_some hlq with ⟨rfl, rfl⟩ | ⟨hne, hlq'⟩
      · refine ⟨c, hc.mem, hc.worker, hc.deadline, ?_, ?_, .inr ⟨rfl, ?_⟩⟩
        · exact List.mem_append_left _ hc.monitor
        · exact List.mem_append_left _ hc.callerMonitor
        · rcases hclient with rfl | ⟨-, hdead⟩
          · rcases hc.client with ⟨hsome, -⟩ | ⟨-, hset⟩
            · exact .inl ((replied_perform hr c.client).mpr (.inr hsome))
            · exact keep c hset
          · exact .inr (hdead c hc)
      · obtain ⟨d, hd⟩ := ht.job q other hlq'
        refine ⟨d, hd.perform hr hm fun hsome => ?_⟩
        exact h.client_ne hs hl hd.mem (hd.worker.symm ▸ hne) (hof _ hsome)
    · intro d hd hnot
      exact keep d (ht.settled d hd fun hmem => hnot ((AList.mem_insert _).mpr (.inr hmem)))

/-- A step of `handle_info/2` keeps the invariant. -/
theorem Inv.info (h : Inv w) (hs : w.server = some state) {info : Info V}
    (hsent : w.Sent info) :
    Inv (w.perform (handleInfo w.now info state).1 (handleInfo w.now info state).2) := by
  have ht := h.tracks state hs
  have hout := handleInfo_outcome w.now info state
  generalize handleInfo w.now info state = result at hout
  cases hout with
  | ignored =>
    have hsame : w.perform state [] = w := by
      cases w
      cases hs
      simp [World.perform, monitorsOf, repliesOf]
    rw [hsame]
    exact h
  | delivered result hl =>
    refine h.release hs hl (repliesOf_answer rfl _ _) (by simp) ?_
      (.inl (List.mem_map.mpr ⟨_, hsent, rfl⟩))
    intro v hv
    by_contra hlate
    rw [settle, if_pos (by omega)] at hv
    cases hv
  | @stopped pid job hl =>
    refine h.release hs hl (repliesOf_answer rfl _ _) (by simp) ?_ (.inr ?_)
    · intro v hv
      cases hv
    · obtain ⟨c, hc⟩ := ht.job pid job hl
      obtain ⟨q, hq, hdead⟩ := hsent
      exact h.ledger.monitored_inj _ _ _ hq hc.monitor ▸ hdead
  | @timedOut pid job hl =>
    exact h.detach hs hl job.client _ (repliesOf_answer (repliesOf_cancel pid job) _ _)
      (by simp) (.inl rfl)
  | @callerDown pid job hl =>
    refine h.detach hs hl none (.reason .nil) (by simp) (by simp) (.inr ⟨rfl, fun c hc => ?_⟩)
    obtain ⟨q, hq, hdead⟩ := hsent
    exact h.ledger.monitored_inj _ _ _ hq hc.callerMonitor ▸ hdead

end Info

section Call

variable {w : World V} {state : State} {effects : List (Effect V)}

theorem Inv.reserve (h : Inv w) : Inv w.reserve :=
  h.environment rfl rfl rfl rfl (Nat.le_add_right _ _) (fun _ hp => hp) fun _ hp => hp

/-- Refusing a call answers a client nobody has answered before. -/
theorem Inv.refused (h : Inv w) (hs : w.server = some state) (caller : ℕ) (e : Error) :
    Inv (w.reserve.perform state [.reply ⟨caller, w.next⟩ (.error e)]) := by
  have hnew : ∀ client, w.Replied client → client ≠ ⟨caller, w.next⟩ := by
    rintro _ hrep rfl
    exact (h.ledger.replied_lt _ hrep).ne rfl
  have hr : repliesOf [Effect.reply (V := V) ⟨caller, w.next⟩ (.error e)] =
      (some (⟨caller, w.next⟩ : From)).toList.map fun c => (c, .error e) := rfl
  have ht := h.reserve.tracks state hs
  refine ⟨h.reserve.ledger.perform hr rfl ?_ ?_ ?_, ?_⟩
  · rintro _ ⟨⟩
    exact Nat.lt_add_of_pos_right (by decide)
  · rintro _ ⟨⟩ hrep
    exact hnew _ hrep rfl
  · rintro _ ⟨⟩ v ⟨⟩
  · rintro _ ⟨⟩
    refine ⟨ht.running, fun pid job hl => ?_, fun c hc hnot => ?_⟩
    · obtain ⟨c, hc⟩ := ht.job pid job hl
      refine ⟨c, hc.perform hr rfl fun heq => ?_⟩
      have htag := h.ledger.tag_lt c hc.mem
      rw [← Option.some.inj heq] at htag
      exact htag.ne rfl
    · exact (ht.settled c hc hnot).mono
        (fun client hrep => (replied_perform hr client).mpr (.inl hrep)) fun _ hp => hp

/-- What an admission adds to a world: a call, and the monitors of its worker and of its caller. -/
structure Admits (w w' : World V) (caller : ℕ) (deadline : ℤ) : Prop where
  next : w'.next = w.next + 6
  replies : w'.replies = w.replies
  monitored : w'.monitored = w.monitored ++ [(w.next + 2, w.next + 1), (w.next + 3, caller)]
  admitted : w'.admitted = w.admitted ++ [⟨w.next + 1, ⟨caller, w.next⟩, deadline⟩]

section Admits

variable {w' : World V} {caller : ℕ} {deadline : ℤ}

theorem Admits.replied_iff (ha : Admits w w' caller deadline) (client : From) :
    w'.Replied client ↔ w.Replied client := by
  rw [World.Replied, World.Replied, ha.replies]

theorem Admits.mem_admitted (ha : Admits w w' caller deadline) {c : Call} :
    c ∈ w'.admitted ↔ c ∈ w.admitted ∨ c = ⟨w.next + 1, ⟨caller, w.next⟩, deadline⟩ := by
  rw [ha.admitted, List.mem_append, List.mem_singleton]

theorem Admits.mem_monitored (ha : Admits w w' caller deadline) {m : ℕ × ℕ} :
    m ∈ w'.monitored ↔
      m ∈ w.monitored ∨ m = (w.next + 2, w.next + 1) ∨ m = (w.next + 3, caller) := by
  rw [ha.monitored, List.mem_append, List.mem_pair]

/-- The names of an admission are new, so it keeps the ledger. -/
theorem Ledger.of_admits (h : Ledger w) (ha : Admits w w' caller deadline) : Ledger w' := by
  have hnext := ha.next
  refine ⟨?_, ?_, ?_, ?_, ?_, ?_, ?_, ?_, ?_⟩
  · intro c hc
    rcases ha.mem_admitted.mp hc with hold | rfl
    · exact (h.worker_lt c hold).trans (by omega)
    · exact hnext ▸ Nat.add_lt_add_left (by decide) _
  · intro c hc
    rcases ha.mem_admitted.mp hc with hold | rfl
    · exact (h.tag_lt c hold).trans (by omega)
    · exact hnext ▸ Nat.lt_add_of_pos_right (by decide)
  · exact fun client hc => (h.replied_lt client ((ha.replied_iff client).mp hc)).trans (by omega)
  · intro m hm
    rcases ha.mem_monitored.mp hm with hold | rfl | rfl
    · exact (h.ref_lt m hold).trans (by omega)
    · omega
    · omega
  · intro c hc d hd heq
    rcases ha.mem_admitted.mp hc with holdc | rfl <;>
      rcases ha.mem_admitted.mp hd with holdd | rfl
    · exact h.worker_inj c holdc d holdd heq
    · exact absurd heq ((h.worker_lt c holdc).trans (Nat.lt_succ_self _)).ne
    · exact absurd heq.symm ((h.worker_lt d holdd).trans (Nat.lt_succ_self _)).ne
    · rfl
  · intro c hc d hd heq
    rcases ha.mem_admitted.mp hc with holdc | rfl <;>
      rcases ha.mem_admitted.mp hd with holdd | rfl
    · exact h.client_inj c holdc d holdd heq
    · exact absurd (congrArg From.tag heq) (h.tag_lt c holdc).ne
    · exact absurd (congrArg From.tag heq).symm (h.tag_lt d holdd).ne
    · rfl
  · intro r p q hp hq
    have hlt : ∀ p, (r, p) ∈ w.monitored → r < w.next := fun p hp => h.ref_lt _ hp
    simp only [ha.mem_monitored, Prod.mk.injEq] at hp hq
    rcases hp with hp | ⟨rfl, rfl⟩ | ⟨rfl, rfl⟩ <;> rcases hq with hq | ⟨hr, rfl⟩ | ⟨hr, rfl⟩
    · exact h.monitored_inj r p q hp hq
    · have := hlt p hp
      omega
    · have := hlt p hp
      omega
    · have := hlt q hq
      omega
    · rfl
    · omega
    · have := hlt q hq
      omega
    · omega
    · rfl
  · rw [ha.replies]
    exact h.replies_nodup
  · intro c hc v t hmem
    rw [ha.replies] at hmem
    rcases ha.mem_admitted.mp hc with hold | rfl
    · exact h.ok_before c hold v t hmem
    · exact absurd (h.replied_lt _ (List.mem_map.mpr ⟨_, hmem, rfl⟩)) (lt_irrefl _)

end Admits

/-- Admitting a call adds a job that tracks it. -/
theorem Inv.admit (h : Inv w) (hs : w.server = some state) (caller : ℕ) (started : ℤ)
    (timeout : ℕ) (hreplies : repliesOf effects = [])
    (hmonitors : monitorsOf effects =
      [(w.fresh.monitor, w.fresh.pid), (w.fresh.callerMonitor, caller)])
    (hspawns : spawnsOf effects = [w.fresh.pid]) :
    Inv (w.called ⟨caller, w.next⟩
      (.ok (addJob state ⟨caller, w.next⟩ started timeout w.fresh, effects))) := by
  set w' := w.called ⟨caller, w.next⟩
    (.ok (addJob state ⟨caller, w.next⟩ started timeout w.fresh, effects)) with hw'
  have ht := h.tracks state hs
  have ha : Admits w w' caller (started + timeout) := by
    refine ⟨rfl, ?_, ?_, ?_⟩
    · simp [hw', World.called, World.perform, World.reserve, hreplies]
    · simp [hw', World.called, World.perform, World.reserve, hmonitors, World.fresh]
    · simp [hw', World.called, World.admittedBy, hspawns, addJob, newJob, World.fresh]
  have hsettled : ∀ c, w.Settled c → w'.Settled c := fun c hc =>
    hc.mono (fun client => (ha.replied_iff client).mpr) fun _ hp => hp
  refine ⟨h.ledger.of_admits ha, ?_⟩
  rintro _ ⟨⟩
  refine ⟨?_, ?_, ?_⟩
  · intro c hc hrun
    rcases ha.mem_admitted.mp hc with hold | rfl
    · exact (AList.mem_insert _).mpr (.inr (ht.running c hold hrun))
    · exact (AList.mem_insert _).mpr (.inl rfl)
  · intro pid job hlookup
    rcases AList.lookup_insert_eq_some hlookup with ⟨rfl, rfl⟩ | ⟨hne, hlookup'⟩
    · refine ⟨⟨w.next + 1, ⟨caller, w.next⟩, started + timeout⟩, ha.mem_admitted.mpr (.inr rfl),
        rfl, rfl, ha.mem_monitored.mpr (.inr (.inl rfl)), ha.mem_monitored.mpr (.inr (.inr rfl)),
        .inl ⟨rfl, ?_⟩⟩
      exact fun hr => (h.ledger.replied_lt _ ((ha.replied_iff _).mp hr)).ne rfl
    · obtain ⟨c, hc⟩ := ht.job pid job hlookup'
      refine ⟨c, ha.mem_admitted.mpr (.inl hc.mem), hc.worker, hc.deadline,
        ha.mem_monitored.mpr (.inl hc.monitor), ha.mem_monitored.mpr (.inl hc.callerMonitor), ?_⟩
      exact hc.client.imp (fun hx => ⟨hx.1, fun hr => hx.2 ((ha.replied_iff _).mp hr)⟩)
        fun hx => ⟨hx.1, hsettled c hx.2⟩
  · intro c hc hnot
    rcases ha.mem_admitted.mp hc with hold | rfl
    · exact hsettled c (ht.settled c hold fun hmem =>
        hnot ((AList.mem_insert _).mpr (.inr hmem)))
    · exact absurd ((AList.mem_insert _).mpr (.inl rfl)) hnot

/-- A step of `handle_call/3` keeps the invariant. -/
theorem Inv.call (h : Inv w) (hs : w.server = some state) (inspect : Term → String)
    (caller : ℕ) (request : Request) : Inv (w.handleCall inspect caller request state) := by
  unfold World.handleCall
  cases hcall : Runtime.handleCall (V := V) inspect request ⟨caller, w.next⟩ w.now w.fresh
    state with
  | error exception =>
    have hl := h.reserve.ledger
    exact ⟨{ hl with }, fun _ hnone => by cases hnone⟩
  | ok result =>
    have hout := handleCall_outcome hcall
    cases hout with
    | refused e =>
      simpa [World.called, World.admittedBy, spawnsOf, World.reserve, World.perform]
        using h.refused hs caller e
    | admitted started timeout effects hroom hreplies hmonitors hspawns =>
      exact h.admit hs caller started timeout hreplies hmonitors hspawns

end Call

/-- The invariant holds in every reachable state. -/
theorem Inv.of_reachable {inspect : Term → String} {opts : RuntimeOptions}
    {plugin pluginHash : Bytes} {w : World V}
    (h : (system V inspect opts plugin pluginHash).Reachable w) : Inv w := by
  have hind : (system V inspect opts plugin pluginHash).Inductive Inv := by
    refine ⟨?_, ?_⟩
    · rintro w ⟨hserver, hmon, hres, hadm, hrep⟩
      refine ⟨⟨?_, ?_, ?_, ?_, ?_, ?_, ?_, ?_, ?_⟩, ?_⟩
      all_goals try simp [hmon, hadm, hrep, World.Replied]
      rintro state hs
      obtain rfl := Option.some.inj (hs.symm.trans hserver)
      refine ⟨?_, ?_, ?_⟩ <;> simp [hadm, start]
    · intro w l w' hw hstep
      cases l with
      | tick elapsed =>
        obtain rfl := hstep
        exact hw.environment rfl rfl rfl rfl le_rfl (fun _ hp => hp) fun _ hp => hp
      | other =>
        obtain rfl := hstep
        exact hw.environment rfl rfl rfl rfl (Nat.le_succ _) (fun _ hp => hp) fun _ hp => hp
      | die pid =>
        obtain ⟨-, rfl⟩ := hstep
        exact hw.environment rfl rfl rfl rfl le_rfl (fun _ hp => List.mem_cons_of_mem _ hp)
          fun _ hp => hp
      | deliver pid result =>
        obtain ⟨-, -, -, rfl⟩ := hstep
        exact hw.environment rfl rfl rfl rfl le_rfl (fun _ hp => hp)
          fun _ hp => List.mem_cons_of_mem _ hp
      | call caller request =>
        obtain ⟨-, state, hs, rfl⟩ := hstep
        exact hw.call hs inspect caller request
      | info info =>
        obtain ⟨hsent, state, hs, rfl⟩ := hstep
        exact hw.info hs hsent
  exact hind.of_reachable h

/-! ### The jobs are a bounded pool -/

section Reachable

variable {inspect : Term → String} {opts : RuntimeOptions} {plugin pluginHash : Bytes}
  {w : World V} {state : State}

/-- The workers that occupy a slot. -/
def occupied (w : World V) : Finset ℕ :=
  match w.server with
  | some state => state.jobs.keyset
  | none => ∅

theorem occupied_of_server (h : w.server = some state) : occupied w = state.jobs.keyset := by
  simp [occupied, h]

/-- A message only releases slots, and changes nothing but the jobs. -/
theorem handleInfo_releases (now : ℤ) (info : Info V) (state : State) :
    (handleInfo now info state).1.jobs.keyset ⊆ state.jobs.keyset ∧
      ∃ jobs, (handleInfo now info state).1 = { state with jobs } := by
  have hout := handleInfo_outcome now info state
  generalize handleInfo now info state = result at hout
  cases hout with
  | ignored => exact ⟨subset_rfl, _, rfl⟩
  | delivered _ hl | stopped hl =>
    refine ⟨?_, _, rfl⟩
    rw [AList.keyset_erase]
    exact Finset.erase_subset _ _
  | timedOut hl | callerDown hl =>
    refine ⟨?_, _, rfl⟩
    rw [forgetClient, AList.keyset_insert_of_mem (AList.mem_of_lookup hl)]

/-- Whatever happens, the server keeps the options it was started with. -/
theorem config_of_reachable
    (h : (system V inspect opts plugin pluginHash).Reachable w) (hs : w.server = some state) :
    ∃ jobs, state = { start opts plugin pluginHash with jobs } := by
  induction h generalizing state with
  | init h0 =>
    obtain rfl := Option.some.inj (hs.symm.trans h0.1)
    exact ⟨_, rfl⟩
  | @step w w' l _ hstep ih =>
    cases l with
    | tick elapsed | other =>
      obtain rfl := hstep
      exact ih hs
    | die pid =>
      obtain ⟨-, rfl⟩ := hstep
      exact ih hs
    | deliver pid result =>
      obtain ⟨-, -, -, rfl⟩ := hstep
      exact ih hs
    | call caller request =>
      obtain ⟨-, state₀, hs₀, rfl⟩ := hstep
      obtain ⟨jobs, rfl⟩ := ih hs₀
      unfold World.handleCall at hs
      cases hcall : Runtime.handleCall (V := V) inspect request ⟨caller, w.next⟩ w.now w.fresh
        { start opts plugin pluginHash with jobs } with
      | error exception =>
        rw [hcall] at hs
        cases hs
      | ok result =>
        rw [hcall] at hs
        cases handleCall_outcome hcall <;> cases hs <;> exact ⟨_, rfl⟩
    | info info =>
      obtain ⟨-, state₀, hs₀, rfl⟩ := hstep
      obtain ⟨jobs, rfl⟩ := ih hs₀
      cases hs
      obtain ⟨jobs', heq⟩ := (handleInfo_releases w.now info _).2
      exact ⟨jobs', heq⟩

theorem maxConcurrency_of_reachable
    (h : (system V inspect opts plugin pluginHash).Reachable w) (hs : w.server = some state) :
    state.maxConcurrency = opts.maxConcurrency := by
  obtain ⟨jobs, rfl⟩ := config_of_reachable h hs
  rfl

/-- The name of a new worker is none that has a job. -/
theorem Inv.fresh_pid (h : Inv w) (hs : w.server = some state) : w.fresh.pid ∉ state.jobs := by
  intro hmem
  obtain ⟨job, hl⟩ := AList.exists_lookup_of_mem hmem
  obtain ⟨c, hc⟩ := (h.tracks state hs).job _ job hl
  have hlt := h.ledger.worker_lt c hc.mem
  rw [hc.worker] at hlt
  exact absurd hlt (by simp [World.fresh])

/-- **The job table is a pool of `max_concurrency` slots**: a call takes a free one, messages
only give slots back, and a stopped server holds none. -/
theorem admission_refines_pool :
    Refinement (system V inspect opts plugin pluginHash) (pool ℕ opts.maxConcurrency)
      occupied := by
  refine ⟨?_, ?_⟩
  · rintro w ⟨hserver, -⟩
    exact occupied_of_server hserver
  · intro w l w' hr hstep
    cases l with
    | tick elapsed | other =>
      obtain rfl := hstep
      exact ⟨[], .refl _⟩
    | die pid =>
      obtain ⟨-, rfl⟩ := hstep
      exact ⟨[], .refl _⟩
    | deliver pid result =>
      obtain ⟨-, -, -, rfl⟩ := hstep
      exact ⟨[], .refl _⟩
    | call caller request =>
      obtain ⟨-, state, hs, rfl⟩ := hstep
      rw [occupied_of_server hs]
      unfold World.handleCall
      cases hcall : Runtime.handleCall (V := V) inspect request ⟨caller, w.next⟩ w.now w.fresh
        state with
      | error exception => exact pool_run_of_subset (Finset.empty_subset _)
      | ok result =>
        cases handleCall_outcome hcall with
        | refused e => exact ⟨[], .refl _⟩
        | admitted started timeout effects hroom =>
          have hnot : w.fresh.pid ∉ state.jobs.keyset := (Inv.of_reachable hr).fresh_pid hs
          have hfree : state.jobs.keyset.card < opts.maxConcurrency := by
            rw [AList.card_keyset, ← maxConcurrency_of_reachable hr hs]
            exact hroom
          have hkeys : (addJob state ⟨caller, w.next⟩ started timeout w.fresh).jobs.keyset =
              insert w.fresh.pid state.jobs.keyset := AList.keyset_insert ..
          exact ⟨_, hkeys ▸ pool_run_acquire hnot hfree⟩
    | info info =>
      obtain ⟨-, state, hs, rfl⟩ := hstep
      rw [occupied_of_server hs]
      exact pool_run_of_subset (handleInfo_releases w.now info state).1

/-- A result that is handled at or after the deadline of its job is reported as a timeout. -/
theorem late_result_is_timeout {now : ℤ} {pid : ℕ} {job : Job} {client : From}
    (hl : state.jobs.lookup pid = some job) (hc : job.client = some client)
    (hlate : job.deadline ≤ now) (result : Reply V) :
    repliesOf (handleInfo now (.result pid result) state).2 =
      [(client, error .timeout "execution timed out")] := by
  simp [handleInfo, hl, hc, settle, hlate]

/-- **Admission, replies and deadlines of the runtime server.** In every reachable state:
the jobs are at most `max_concurrency` and every worker that has neither delivered nor died
has one; no call is answered twice and an admitted call without a job is answered or its
caller is dead; no success is sent at or after a deadline, and a late result is a timeout. -/
theorem admission_and_replies
    (h : (system V inspect opts plugin pluginHash).Reachable w) :
    (∀ state, w.server = some state → state.jobs.keys.length ≤ opts.maxConcurrency ∧
      ∀ c ∈ w.admitted, w.Running c → c.worker ∈ state.jobs) ∧
    ((w.replies.map Prod.fst).Nodup ∧
      ∀ state, w.server = some state →
        ∀ c ∈ w.admitted, c.worker ∉ state.jobs → w.Settled c) ∧
    ((∀ c ∈ w.admitted, ∀ v t, (c.client, .ok v, t) ∈ w.replies → t < c.deadline) ∧
      ∀ state pid job client (result : Reply V), w.server = some state →
        state.jobs.lookup pid = some job → job.client = some client → job.deadline ≤ w.now →
        repliesOf (handleInfo w.now (.result pid result) state).2 =
          [(client, error .timeout "execution timed out")]) := by
  have hinv := Inv.of_reachable h
  have hpool := pool_card_le (admission_refines_pool.reachable h)
  refine ⟨fun state hs => ⟨?_, (hinv.tracks state hs).running⟩,
    ⟨hinv.ledger.replies_nodup, fun state hs => (hinv.tracks state hs).settled⟩,
    hinv.ledger.ok_before, fun state pid job client result _ hl hc hlate => ?_⟩
  · rw [occupied_of_server hs] at hpool
    exact hpool
  · exact late_result_is_timeout hl hc hlate result

end Reachable

/-! ### A run -/

/-- A runtime with one slot. -/
def oneSlot : RuntimeOptions := ⟨.builtin, .inProcess, 1, 1, 0, 0⟩

/-- The one-slot runtime before its first call, at time `0`. -/
def idle : World Unit := ⟨some (start oneSlot [] []), 0, 1, [], [], [], [], []⟩

/-- The runtime after process `0` had some source compiled with the default limits. -/
def compiling : World Unit :=
  idle.handleCall (fun _ => "") 0 (.compile [] false none ⟨.builtin, 1⟩ 0) (start oneSlot [] [])

/-- `compiling`, `5000` milliseconds later and with the result of its worker. -/
def finished : World Unit :=
  { compiling with now := compiling.now + 5000, results := [(2, .ok ())] }

theorem finished_reachable : (system Unit (fun _ => "") oneSlot [] []).Reachable finished := by
  have h₀ : (system Unit (fun _ => "") oneSlot [] []).Reachable idle :=
    .init ⟨rfl, rfl, rfl, rfl, rfl⟩
  have h₁ : (system Unit (fun _ => "") oneSlot [] []).Reachable compiling :=
    h₀.step (l := .call 0 (.compile [] false none ⟨.builtin, 1⟩ 0))
      ⟨by decide, start oneSlot [] [], rfl, rfl⟩
  have h₂ : (system Unit (fun _ => "") oneSlot [] []).Reachable
      { compiling with now := compiling.now + 5000 } := h₁.step (l := .tick 5000) rfl
  exact h₂.step (l := .deliver 2 (.ok ())) ⟨by decide, by decide, by decide, rfl⟩

/-- The worker's success arrives at the deadline, so its client is told of a timeout. -/
theorem admission_and_replies_finished :
    ∃ state job client, finished.server = some state ∧ state.jobs.lookup 2 = some job ∧
      job.client = some client ∧
      repliesOf (handleInfo finished.now (.result 2 (.ok ())) state).2 =
        [(client, (error .timeout "execution timed out" : Reply Unit))] :=
  ⟨_, _, _, rfl, rfl, rfl,
    (admission_and_replies finished_reachable).2.2.2 _ 2 _ _ (.ok ()) rfl rfl rfl (by decide)⟩

end Javex.Runtime
