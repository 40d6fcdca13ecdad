import Javex.Callbacks.Run
import Mathlib.Data.List.Count

/-!
# Processes and their `:DOWN`

The bookkeeping behind the broker's cleanup. The broker waits for a set of processes: those of
its jobs while it runs, those it has not yet received the `:DOWN` of while it cleans up. The
invariant `Books` says that each of them is either alive or has exactly one `:DOWN` in the
mailbox, and that no other process is alive or has one there. So the broker never waits for a
message that has been consumed, and nobody is alive when it ends.

* `books_move`: every move keeps the books.
* `books_of_reachable`: so they hold in every reachable world, and the broker never crashes.
* `exists_ended`: a cleanup can always go on to its end.

The account is an equation between numbers, one for a process that is alive and one for each of its
`:DOWN`s in the mailbox, because two of them would be as wrong as none. Each move is checked against
it once; what a later module needs is read off: that a process which is alive is waited for
(`waited_of_live`), that one which is waited for and dead has its message in the mailbox
(`down_of_dead`), and that there are no more processes than the concurrency allows (`card_live_le`).

`invariant_of_moves` is the induction for every further invariant of the broker: it is enough to
look at one move from a world with the books kept.
-/

namespace Javex.Callbacks

open Codec Transition

/-- The processes whose `:DOWN` the broker waits for. -/
def Phase.waited (jobs : AList fun _ : ℕ => Job) : Phase → Finset ℕ
  | .running => jobs.keyset
  | .cleaning rest => (rest.map Sigma.fst).toFinset
  | .ended | .crashed => ∅

/-- The `:DOWN` of a process. -/
def isDown (pid : ℕ) : Message → Bool
  | .down _ p => p == pid
  | _ => false

/-- The books of the broker. -/
structure Books (cfg : Config) (w : World) : Prop where
  alive : w.phase ≠ .crashed
  account : ∀ pid, (if pid ∈ w.live then 1 else 0) + w.inbox.countP (isDown pid) =
    if pid ∈ w.phase.waited w.state.jobs then 1 else 0
  refs : ∀ ref pid, .down ref pid ∈ w.inbox → ref = pid
  jobs : ∀ pid job, w.state.jobs.lookup pid = some job → pid < w.state.spawned ∧ job.ref = pid
  room : w.state.jobs.keyset.card ≤ cfg.maxConcurrency
  rest : ∀ rest, w.phase = .cleaning rest →
    (rest.map Sigma.fst).Nodup ∧ rest ⊆ w.state.jobs.entries
  recorded : Recorded w
  answers : ∀ pid result, .result pid result ∈ w.inbox → pid < w.state.spawned ∧
    ∀ job, w.state.jobs.lookup pid = some job → result.For job.id
  processes : ∀ pid c, w.live.lookup pid = some c → pid < w.state.spawned ∧
    ∀ job, w.state.jobs.lookup pid = some job → job.id = c.process.id

variable {cfg : Config} {allowed : Bytes → Prop} {w w' : World}

theorem books_start : Books cfg .start where
  alive := nofun
  account _ := rfl
  refs _ _ h := absurd h List.not_mem_nil
  jobs _ _ h := by cases h
  room := Nat.zero_le _
  rest _ h := by cases h
  recorded _ _ h := by cases h
  answers _ _ h := absurd h List.not_mem_nil
  processes _ _ h := by cases h

/-- The books do not look at events, timers, the run worker or the records of the calls. -/
theorem Books.congr (h : Books cfg w) (hstate : w'.state = w.state) (hphase : w'.phase = w.phase)
    (hinbox : w'.inbox = w.inbox) (hlive : w'.live = w.live) : Books cfg w' := by
  obtain ⟨state, phase, inbox, live, timers, worker, events, invoked, finished⟩ := w'
  subst hstate hphase hinbox hlive
  exact ⟨h.alive, h.account, h.refs, h.jobs, h.room, h.rest, h.recorded, h.answers, h.processes⟩

/-- A message that is no `:DOWN` and no result arrives. -/
theorem Books.post (h : Books cfg w) (message : Message)
    (hdown : ∀ ref pid, message ≠ .down ref pid)
    (hresult : ∀ pid result, message ≠ .result pid result) : Books cfg (w.post message) where
  alive := h.alive
  account pid := by
    have hno : isDown pid message = false := by
      cases message <;> first | rfl | exact absurd rfl (hdown _ _)
    refine Eq.trans ?_ (h.account pid)
    change _ + (w.inbox ++ [message]).countP (isDown pid) = _
    rw [List.countP_append, List.countP_singleton, hno]
    rfl
  refs ref pid hmem := by
    rcases List.mem_append.mp hmem with hold | hthis
    · exact h.refs ref pid hold
    · exact absurd (List.mem_singleton.mp hthis).symm (hdown ref pid)
  jobs := h.jobs
  room := h.room
  rest := h.rest
  recorded := h.recorded
  answers pid result hmem := by
    rcases List.mem_append.mp hmem with hold | hthis
    · exact h.answers pid result hold
    · exact absurd (List.mem_singleton.mp hthis).symm (hresult pid result)
  processes := h.processes

/-- A process goes on with its work. -/
theorem Books.progress (h : Books cfg w) {pid : ℕ} {process : Process} {before after : Status}
    (hlive : w.live.lookup pid = some ⟨process, before⟩) :
    Books cfg { w with live := w.live.insert pid ⟨process, after⟩ } where
  alive := h.alive
  account p := by
    have hsame : p ∈ w.live.insert pid ⟨process, after⟩ ↔ p ∈ w.live := by
      rw [AList.mem_insert, or_iff_right_iff_imp]
      rintro rfl
      exact AList.mem_of_lookup hlive
    simp only [hsame]
    exact h.account p
  refs := h.refs
  jobs := h.jobs
  room := h.room
  rest := h.rest
  recorded := h.recorded
  answers := h.answers
  processes p c hc := by
    rcases AList.lookup_insert_eq_some hc with ⟨rfl, rfl⟩ | ⟨-, hold⟩
    · exact h.processes p ⟨process, before⟩ hlive
    · exact h.processes p c hold

/-- A process sends its result. -/
theorem Books.answer (h : Books cfg w) {pid : ℕ} {c : Callback} {result : Result}
    (hlive : w.live.lookup pid = some c) (hfor : result.For c.process.id) :
    Books cfg (w.post (.result pid result)) where
  alive := h.alive
  account p := by
    refine Eq.trans ?_ (h.account p)
    change _ + (w.inbox ++ [_]).countP (isDown p) = _
    rw [List.countP_append, List.countP_singleton]
    rfl
  refs ref p hmem := by
    rcases List.mem_append.mp hmem with hold | hthis
    · exact h.refs ref p hold
    · cases List.mem_singleton.mp hthis
  jobs := h.jobs
  room := h.room
  rest := h.rest
  recorded := h.recorded
  answers p r hmem := by
    rcases List.mem_append.mp hmem with hold | hthis
    · exact h.answers p r hold
    · cases List.mem_singleton.mp hthis
      obtain ⟨hlt, hid⟩ := h.processes pid c hlive
      exact ⟨hlt, fun job hjob => (hid job hjob).symm ▸ hfor⟩
  processes := h.processes

/-- A process dies. -/
theorem Books.die (h : Books cfg w) {pid : ℕ} (hlive : pid ∈ w.live) :
    Books cfg { w.post (.down pid pid) with live := w.live.erase pid } where
  alive := h.alive
  account p := by
    refine Eq.trans ?_ (h.account p)
    by_cases hp : p = pid
    · subst hp
      simp [World.post, AList.mem_erase, hlive, isDown, Nat.add_comm]
    · have hno : isDown p (.down pid pid) = false := beq_eq_false_iff_ne.mpr (Ne.symm hp)
      simp [World.post, AList.mem_erase, hp, hno]
  refs ref p hmem := by
    rcases List.mem_append.mp hmem with hold | hthis
    · exact h.refs ref p hold
    · cases List.mem_singleton.mp hthis
      rfl
  jobs := h.jobs
  room := h.room
  rest := h.rest
  recorded := h.recorded
  answers p r hmem := by
    rcases List.mem_append.mp hmem with hold | hthis
    · exact h.answers p r hold
    · cases List.mem_singleton.mp hthis
  processes p c hc := h.processes p c (AList.lookup_erase_eq_some hc).2

/-- A message leaves the mailbox that is not the `:DOWN` of a job. -/
theorem Books.take (h : Books cfg w) (hphase : w.phase = .running) {message : Message}
    {rest : List Message} (hinbox : w.inbox = message :: rest)
    (hdown : ∀ ref pid, message = .down ref pid → pid ∉ w.state.jobs) :
    Books cfg { w with inbox := rest } where
  alive := h.alive
  account p := by
    have hold := h.account p
    have hno : isDown p message = false := by
      cases message with
      | down ref pid =>
        refine beq_eq_false_iff_ne.mpr ?_
        rintro rfl
        -- a stray `:DOWN` would be in the books
        have hwaited : pid ∉ w.phase.waited w.state.jobs := by
          rw [hphase]
          exact hdown ref pid rfl
        rw [if_neg hwaited, hinbox, List.countP_cons_of_pos (by simp [isDown])] at hold
        omega
      | _ => rfl
    rw [hinbox, List.countP_cons_of_neg (by simp [hno])] at hold
    exact hold
  refs ref p hmem := h.refs ref p (hinbox ▸ List.mem_cons_of_mem _ hmem)
  jobs := h.jobs
  room := h.room
  rest := h.rest
  recorded := h.recorded
  answers p r hmem := h.answers p r (hinbox ▸ List.mem_cons_of_mem _ hmem)
  processes := h.processes

/-- A process is started for a request. -/
theorem Books.spawn (h : Books cfg w) (hphase : w.phase = .running)
    (hroom : w.state.jobs.keys.length < cfg.maxConcurrency) {id : ℕ} {process : Process}
    (hid : process.id = id) {state : State}
    (hjobs : state.jobs = w.state.jobs.insert w.state.spawned
      ⟨id, w.state.spawned, w.state.spawned, none⟩)
    (hspawned : state.spawned = w.state.spawned + 1) :
    Books cfg { w with
      state, live := w.live.insert w.state.spawned ⟨process, .started⟩ } := by
  have hfresh : w.state.spawned ∉ w.state.jobs := by
    intro hmem
    obtain ⟨job, hjob⟩ := AList.exists_lookup_of_mem hmem
    exact Nat.lt_irrefl _ (h.jobs _ _ hjob).1
  have hunborn : w.state.spawned ∉ w.live := by
    intro hmem
    obtain ⟨c, hc⟩ := AList.exists_lookup_of_mem hmem
    exact Nat.lt_irrefl _ (h.processes _ _ hc).1
  refine ⟨h.alive, fun p => ?_, h.refs, fun p job hjob => ?_, ?_, fun rest hrest => ?_,
    fun p job hjob => ?_, fun p r hmem => ?_, fun p c hc => ?_⟩
  · have hold := h.account p
    simp only [hphase, Phase.waited, AList.mem_keyset] at hold
    simp only [hphase, Phase.waited, hjobs, AList.mem_keyset, AList.mem_insert]
    by_cases hp : p = w.state.spawned
    · subst hp
      simp only [hunborn, hfresh, if_false] at hold
      simp only [true_or, if_true]
      omega
    · simpa [hp] using hold
  · simp only [hjobs] at hjob
    rcases AList.lookup_insert_eq_some hjob with ⟨rfl, rfl⟩ | ⟨-, hold⟩
    · exact ⟨by simp [hspawned], rfl⟩
    · have := h.jobs p job hold
      exact ⟨by simp only [hspawned]; omega, this.2⟩
  · simp only [hjobs, AList.keyset_insert]
    rw [Finset.card_insert_of_notMem (by simpa using hfresh), AList.card_keyset]
    exact hroom
  · rw [show w.phase = .cleaning rest from hrest] at hphase
    cases hphase
  · simp only [hjobs] at hjob
    rcases AList.lookup_insert_eq_some hjob with ⟨rfl, rfl⟩ | ⟨-, hold⟩
    · rintro _ ⟨⟩
    · exact h.recorded p job hold
  · obtain ⟨hlt, hfor⟩ := h.answers p r hmem
    refine ⟨by simp only [hspawned]; omega, fun job hjob => ?_⟩
    simp only [hjobs] at hjob
    rcases AList.lookup_insert_eq_some hjob with ⟨rfl, rfl⟩ | ⟨-, hold⟩
    · exact absurd hlt (Nat.lt_irrefl _)
    · exact hfor job hold
  · simp only [hjobs, hspawned]
    rcases AList.lookup_insert_eq_some hc with ⟨rfl, rfl⟩ | ⟨hne, hold⟩
    · refine ⟨Nat.lt_succ_self _, fun job hjob => ?_⟩
      rcases AList.lookup_insert_eq_some hjob with ⟨-, rfl⟩ | ⟨hne, -⟩
      · exact hid.symm
      · exact absurd rfl hne
    · obtain ⟨hlt, hids⟩ := h.processes p c hold
      refine ⟨Nat.lt_succ_of_lt hlt, fun job hjob => ?_⟩
      rcases AList.lookup_insert_eq_some hjob with ⟨rfl, -⟩ | ⟨-, hjob'⟩
      · exact absurd rfl hne
      · exact hids job hjob'

/-- A result is recorded. -/
theorem Books.record (h : Books cfg w) (hphase : w.phase = .running) {pid : ℕ} {result : Result}
    {job : Job} (hjob : w.state.jobs.lookup pid = some job) (hfor : result.For job.id) :
    Books cfg { w with
      state := { w.state with
        jobs := w.state.jobs.insert pid { job with result := some result } } } := by
  have hmem := AList.mem_of_lookup hjob
  -- the job keeps its id and its reference
  have hlookup : ∀ {p j}, (w.state.jobs.insert pid { job with result := some result }).lookup p =
      some j → ∃ old, w.state.jobs.lookup p = some old ∧ j.id = old.id ∧ j.ref = old.ref ∧
        (j.result = old.result ∨ p = pid ∧ j.result = some result) := by
    intro p j hj
    rcases AList.lookup_insert_eq_some hj with ⟨rfl, rfl⟩ | ⟨-, hold⟩
    · exact ⟨job, hjob, rfl, rfl, .inr ⟨rfl, rfl⟩⟩
    · exact ⟨j, hold, rfl, rfl, .inl rfl⟩
  have hkeys : (w.state.jobs.insert pid { job with result := some result }).keyset =
      w.state.jobs.keyset := AList.keyset_insert_of_mem hmem
  refine ⟨h.alive, fun p => ?_, h.refs, fun p j hj => ?_, ?_, fun rest hrest => ?_,
    fun p j hj r hr => ?_, fun p r hr => ?_, fun p c hc => ?_⟩
  · have hold := h.account p
    simp only [hphase, Phase.waited] at hold ⊢
    rw [hkeys]
    exact hold
  · obtain ⟨old, hold, -, href, -⟩ := hlookup hj
    obtain ⟨hlt, hpid⟩ := h.jobs p old hold
    exact ⟨hlt, href.trans hpid⟩
  · simp only [hkeys]
    exact h.room
  · rw [show w.phase = .cleaning rest from hrest] at hphase
    cases hphase
  · obtain ⟨old, hold, hid, -, hsame | ⟨rfl, hthis⟩⟩ := hlookup hj
    · exact hid ▸ h.recorded p old hold r (hsame ▸ hr)
    · cases hthis.symm.trans hr
      cases hold.symm.trans hjob
      exact hid ▸ hfor
  · obtain ⟨hlt, hall⟩ := h.answers p r hr
    refine ⟨hlt, fun j hj => ?_⟩
    obtain ⟨old, hold, hid, -⟩ := hlookup hj
    exact hid ▸ hall old hold
  · obtain ⟨hlt, hall⟩ := h.processes p c hc
    refine ⟨hlt, fun j hj => ?_⟩
    obtain ⟨old, hold, hid, -⟩ := hlookup hj
    exact hid.trans (hall old hold)

/-- The `:DOWN` of a job is consumed and the job is popped. -/
theorem Books.pop (h : Books cfg w) (hphase : w.phase = .running) {ref pid : ℕ}
    {rest : List Message} {job : Job} (hinbox : w.inbox = .down ref pid :: rest)
    (hjob : w.state.jobs.lookup pid = some job) :
    Books cfg { w with
      inbox := rest, state := { w.state with jobs := w.state.jobs.erase pid } } := by
  have hlookup : ∀ {p j}, (w.state.jobs.erase pid).lookup p = some j →
      w.state.jobs.lookup p = some j := fun hj => (AList.lookup_erase_eq_some hj).2
  refine ⟨h.alive, fun p => ?_, fun r p hmem => ?_, fun p j hj => h.jobs p j (hlookup hj), ?_,
    fun rest hrest => ?_, fun p j hj => h.recorded p j (hlookup hj), fun p r hr => ?_,
    fun p c hc => ?_⟩
  · have hold := h.account p
    simp only [hphase, Phase.waited, AList.mem_keyset] at hold
    simp only [hphase, Phase.waited, AList.keyset_erase, Finset.mem_erase, AList.mem_keyset]
    by_cases hp : p = pid
    · subst hp
      rw [if_pos (AList.mem_of_lookup hjob), hinbox,
        List.countP_cons_of_pos (by simp [isDown])] at hold
      simp only [ne_eq, not_true, false_and, if_false]
      omega
    · have hno : isDown p (.down ref pid) = false := beq_eq_false_iff_ne.mpr (Ne.symm hp)
      rw [hinbox, List.countP_cons_of_neg (by simp [hno])] at hold
      simpa [hp] using hold
  · exact h.refs r p (hinbox ▸ List.mem_cons_of_mem _ hmem)
  · simp only [AList.keyset_erase]
    exact Finset.card_erase_le.trans h.room
  · rw [show w.phase = .cleaning rest from hrest] at hphase
    cases hphase
  · obtain ⟨hlt, hall⟩ := h.answers p r (hinbox ▸ List.mem_cons_of_mem _ hr)
    exact ⟨hlt, fun j hj => hall j (hlookup hj)⟩
  · obtain ⟨hlt, hall⟩ := h.processes p c hc
    exact ⟨hlt, fun j hj => hall j (hlookup hj)⟩

/-- The broker starts to clean up: it waits for the processes of its jobs. -/
theorem Books.clean (h : Books cfg w) (hphase : w.phase = .running) :
    Books cfg (w.clean w.state) := by
  rw [clean_eq]
  refine ⟨nofun, fun p => ?_, h.refs, h.jobs, h.room, fun rest hrest => ?_, h.recorded,
    h.answers, h.processes⟩
  · have hold := h.account p
    have hsame : p ∈ (w.state.jobs.entries.map Sigma.fst).toFinset ↔ p ∈ w.state.jobs.keyset :=
      List.mem_toFinset
    simp only [hphase, Phase.waited] at hold
    simp only [Phase.waited, hsame]
    exact hold
  · cases hrest
    exact ⟨w.state.jobs.nodupKeys, List.Subset.refl _⟩

/-- The `:DOWN` that the broker waits for first is consumed. -/
theorem Books.await (h : Books cfg w) {pid : ℕ} {job : Job} {rest : List (Σ _ : ℕ, Job)}
    (hphase : w.phase = .cleaning (⟨pid, job⟩ :: rest)) (hdown : .down job.ref pid ∈ w.inbox) :
    Books cfg { w with inbox := w.inbox.erase (.down job.ref pid), phase := .cleaning rest } := by
  obtain ⟨hnodup, hsub⟩ := h.rest _ hphase
  rw [List.map_cons, List.nodup_cons] at hnodup
  refine ⟨nofun, fun p => ?_, fun r p hmem => h.refs r p (List.mem_of_mem_erase hmem), h.jobs,
    h.room, fun rest hrest => ?_, h.recorded,
    fun p r hr => h.answers p r (List.mem_of_mem_erase hr), h.processes⟩
  · have hold := h.account p
    simp only [hphase, Phase.waited, List.map_cons, List.toFinset_cons, Finset.mem_insert,
      List.mem_toFinset] at hold
    simp only [Phase.waited, List.mem_toFinset, List.countP_erase, hdown, true_and]
    by_cases hp : p = pid
    · subst hp
      have hpos : 0 < w.inbox.countP (isDown p) :=
        List.countP_pos_iff.mpr ⟨_, hdown, by simp [isDown]⟩
      simp only [true_or, if_true] at hold
      simp only [hnodup.1, isDown, beq_self_eq_true, if_true, if_false]
      omega
    · have hno : isDown p (.down job.ref pid) = false := beq_eq_false_iff_ne.mpr (Ne.symm hp)
      simp only [hp, false_or] at hold
      simp only [hno, Bool.false_eq_true, if_false, Nat.sub_zero]
      exact hold
  · cases hrest
    exact ⟨hnodup.2, fun e he => hsub (List.mem_cons_of_mem _ he)⟩

/-- **Every move keeps the books.** -/
theorem books_move (hjason : cfg.jason.Lawful) (h : Books cfg w) {requests requests' : List Json}
    (hmove : Move cfg allowed (w, requests) (w', requests')) : Books cfg w' := by
  cases hmove with
  | take hphase hinbox hdown => exact h.take hphase hinbox hdown
  | frame hphase hinbox => exact h.take hphase hinbox nofun
  | spawn hphase hjson hrequest hcallback clock =>
    exact (h.spawn hphase hrequest.room rfl rfl rfl).congr rfl rfl rfl rfl
  | deny hphase hjson hrequest hcallback htext =>
    exact ⟨h.alive, h.account, h.refs, h.jobs, h.room, h.rest, h.recorded, h.answers,
      h.processes⟩
  | record hphase hinbox hjob =>
    have hfor := (h.answers _ _ (hinbox ▸ List.mem_cons_self)).2 _ hjob
    have htake := h.take hphase hinbox nofun
    exact htake.record hphase hjob hfor
  | complete hphase hinbox hjob hresult htext =>
    exact (h.pop hphase hinbox hjob).congr rfl rfl rfl rfl
  | fatal hphase hinbox hjob hstate message =>
    subst hstate
    have hpop := (h.pop hphase hinbox hjob).clean hphase
    rw [clean_eq] at hpop ⊢
    exact hpop.congr rfl rfl rfl rfl
  | fail hphase requests kind hkind message =>
    have hevent : Books cfg (w.perform (.error kind message)) := h.congr rfl rfl rfl rfl
    exact hevent.clean hphase
  | stop hphase hinbox hmessage =>
    refine (h.take hphase hinbox ?_).clean hphase
    rcases hmessage with rfl | rfl <;> nofun
  | await hphase hdown => exact h.await hphase hdown
  | exit hphase =>
    refine ⟨nofun, fun pid => ?_, h.refs, h.jobs, h.room, nofun, h.recorded, h.answers,
      h.processes⟩
    have hold := h.account pid
    rw [hphase] at hold
    exact hold
  | call hlive => exact (h.progress hlive).congr rfl rfl rfl rfl
  | answer hlive hresult =>
    obtain ⟨result, hok, hfor⟩ := invoke_ok hjason _ _
    cases hok.symm.trans hresult
    exact ((h.answer hlive hfor).progress hlive).congr rfl rfl rfl rfl
  | @late _ pid process hlive =>
    have hpost := h.post (.callbackTimeout pid) nofun nofun
    exact (hpost.progress hlive).congr rfl rfl rfl rfl
  | die hlive => exact h.die hlive
  | fire timer =>
    exact (h.post (.callbackTimeout timer) nofun nofun).congr rfl rfl rfl rfl
  | noise => exact h.post .other nofun nofun
  | dispatch hworker hbytes => exact h.post (.dispatch _) nofun nofun
  | finish hworker ending => exact (h.post .stop nofun nofun).congr rfl rfl rfl rfl
  | stopped hworker hphase => exact h.congr rfl rfl rfl rfl
  | report hworker => exact h.congr rfl rfl rfl rfl
  | workerDies => exact (h.post .parentDown nofun nofun).congr rfl rfl rfl rfl

/-- A process is alive only while the broker waits for it. -/
theorem Books.waited_of_live (h : Books cfg w) {pid : ℕ} (hlive : pid ∈ w.live) :
    pid ∈ w.phase.waited w.state.jobs := by
  have haccount := h.account pid
  rw [if_pos hlive] at haccount
  by_contra hnot
  rw [if_neg hnot] at haccount
  omega

theorem Books.waited_subset (h : Books cfg w) :
    w.phase.waited w.state.jobs ⊆ w.state.jobs.keyset := by
  cases hphase : w.phase with
  | running => exact Finset.Subset.refl _
  | cleaning rest =>
    intro pid hpid
    obtain ⟨entry, hentry, rfl⟩ := List.mem_map.mp (List.mem_toFinset.mp hpid)
    exact List.mem_map_of_mem ((h.rest rest hphase).2 hentry)
  | ended | crashed => exact Finset.empty_subset _

/-- A `:DOWN` in the mailbox bears the reference of its job. -/
theorem Books.down_mem (h : Books cfg w) {pid : ℕ} {job : Job}
    (hcount : w.inbox.countP (isDown pid) = 1) (hjob : w.state.jobs.lookup pid = some job) :
    .down job.ref pid ∈ w.inbox := by
  obtain ⟨message, hmem, hdown⟩ := List.countP_pos_iff.mp (hcount ▸ Nat.one_pos)
  cases message with
  | down ref p =>
    obtain rfl : p = pid := eq_of_beq hdown
    rw [(h.jobs p job hjob).2]
    exact h.refs ref p hmem ▸ hmem
  | _ => cases hdown

/-- The `:DOWN` that a broker waits for is there once the process is dead. -/
theorem Books.down_of_dead (h : Books cfg w) {pid : ℕ} {job : Job} {rest : List (Σ _ : ℕ, Job)}
    (hphase : w.phase = .cleaning (⟨pid, job⟩ :: rest)) (hdead : pid ∉ w.live) :
    .down job.ref pid ∈ w.inbox := by
  have haccount := h.account pid
  rw [if_neg hdead, hphase, if_pos (by simp [Phase.waited]), Nat.zero_add] at haccount
  exact h.down_mem haccount (AList.mem_lookup_iff.mpr ((h.rest _ hphase).2 List.mem_cons_self))

/-- **The processes that are alive keep within the concurrency.** -/
theorem Books.card_live_le (h : Books cfg w) : w.live.keyset.card ≤ cfg.maxConcurrency :=
  (Finset.card_le_card fun _ hlive => h.waited_subset (h.waited_of_live hlive)).trans h.room

section Invariants

variable {I : World → List Json → Prop}

/-- What every move keeps is kept by a step. -/
theorem invariant_of_step (hjason : cfg.jason.Lawful)
    (hmove : ∀ w requests w' requests', Books cfg w → I w requests →
      Move cfg allowed (w, requests) (w', requests') → I w' requests')
    {l : Label} (hallowed : ∀ bytes, l = .dispatch bytes → allowed bytes)
    (h : step cfg w l = some w') (hbooks : Books cfg w) (hw : I w []) :
    Books cfg w' ∧ I w' [] := by
  have hmoves : ∀ {p q : World × List Json}, Moves cfg allowed p q → Books cfg p.1 → I p.1 p.2 →
      Books cfg q.1 ∧ I q.1 q.2 := by
    intro p q hmoves hbooks hp
    induction hmoves with
    | refl => exact ⟨hbooks, hp⟩
    | tail _ hlast ih => exact ⟨books_move hjason ih.1 hlast, hmove _ _ _ _ ih.1 ih.2 hlast⟩
  exact hmoves (moves_of_step hjason hbooks.recorded hallowed h) hbooks hw

/-- What every move keeps holds along a run. -/
theorem invariant_of_run (hjason : cfg.jason.Lawful)
    (hmove : ∀ w requests w' requests', Books cfg w → I w requests →
      Move cfg (fun _ => True) (w, requests) (w', requests') → I w' requests')
    {ls : List Label} (h : (system cfg).Run w ls w') (hbooks : Books cfg w) (hw : I w []) :
    Books cfg w' ∧ I w' [] := by
  induction h with
  | refl => exact ⟨hbooks, hw⟩
  | snoc _ hst ih => exact invariant_of_step hjason hmove (fun _ _ => trivial) hst ih.1 ih.2

/-- What holds initially and is kept by every move holds in every reachable world. -/
theorem invariant_of_moves (hjason : cfg.jason.Lawful) (hstart : I .start [])
    (hmove : ∀ w requests w' requests', Books cfg w → I w requests →
      Move cfg (fun _ => True) (w, requests) (w', requests') → I w' requests')
    (h : (system cfg).Reachable w) : Books cfg w ∧ I w [] := by
  obtain ⟨s, ls, rfl, hrun⟩ := h.exists_run
  exact invariant_of_run hjason hmove hrun books_start hstart

end Invariants

theorem books_of_reachable (hjason : cfg.jason.Lawful) (h : (system cfg).Reachable w) :
    Books cfg w :=
  (invariant_of_moves (I := fun _ _ => True) hjason trivial (fun _ _ _ _ _ _ _ => trivial) h).1

/-- **Cleaning up comes to an end**: whatever the broker waits for is there, or its process is
alive and has been killed. -/
theorem exists_ended (h : Books cfg w) {rest : List (Σ _ : ℕ, Job)}
    (hphase : w.phase = .cleaning rest) :
    ∃ ls w', (system cfg).Run w ls w' ∧ w'.phase = .ended := by
  induction rest generalizing w with
  | nil =>
    have hexit : step cfg w .exit = some { w with phase := .ended } := by
      simp only [step, hphase]
    exact ⟨_, _, .single hexit, rfl⟩
  | cons entry rest ih =>
    obtain ⟨pid, job⟩ := entry
    have hjob : w.state.jobs.lookup pid = some job :=
      AList.mem_lookup_iff.mpr ((h.rest _ hphase).2 List.mem_cons_self)
    -- the `:DOWN` may be taken once it is there
    have hawait : ∀ w : World, Books cfg w → w.phase = .cleaning (⟨pid, job⟩ :: rest) →
        .down job.ref pid ∈ w.inbox → ∃ ls w', (system cfg).Run w ls w' ∧ w'.phase = .ended := by
      intro w h hphase hdown
      have hstep : step cfg w .await = some { w with
          inbox := w.inbox.erase (.down job.ref pid), phase := .cleaning rest } := by
        simp only [step, hphase, hdown, if_true]
      obtain ⟨ls, w', hrun, hended⟩ := ih (h.await hphase hdown) rfl
      exact ⟨_, w', (System.Run.single hstep).trans hrun, hended⟩
    by_cases hlive : pid ∈ w.live
    · have hdie : step cfg w (.die pid) = some { w.post (.down pid pid) with
          live := w.live.erase pid } := by
        simp only [step, hlive, if_true]
      obtain ⟨ls, w', hrun, hended⟩ := hawait _ (h.die hlive) hphase
        (by rw [(h.jobs pid job hjob).2]; exact List.mem_append_right _ List.mem_cons_self)
      exact ⟨_, w', (System.Run.single hdie).trans hrun, hended⟩
    · exact hawait w h hphase (h.down_of_dead hphase hlive)

end Javex.Callbacks
