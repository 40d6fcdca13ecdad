import Javex.Callbacks.Books
import Javex.Callbacks.Frames
import Javex.Callbacks.Reference

/-!
# Every quota is enforced

The broker against any frames, in any order with what the callback processes and their timers
do. The invariant `Ledger` ties the ids that were seen to the requests behind them, and the
processes, alive or past, to these requests; so each accepted id is used for one call at most.

A frame beyond the limits (`FrameFits`) is the end of the broker: `errors_of_run` shows that the
error it sends is its last, and `exists_ended` that its cleanup comes to an end.

The quotas are of two kinds. Those on one frame or one request (lengths, the shape of a request, the
number of requests of a frame) are checked where the frame is read. Those on a run (the number of
calls, the ids that were used, the jobs that are running) are about the state of the broker, and
`Ledger` says that this state is what has happened: each id seen belongs to one accepted request,
and each process that was ever started to one of them.

That the error is the last thing the broker says is a fact about its phases: it cleans up from then
on, takes no further message but a `:DOWN`, and says nothing about those.
-/

namespace Javex.Callbacks

open Codec Transition

/-- The process was started for an accepted request, with the argument of that request. -/
def Granted (cfg : Config) (w : World) (process : Process) : Prop :=
  ∃ r ∈ w.state.accepted, r.id = process.id ∧
    cfg.limits.callbacks.lookup r.name = some process.callback ∧ r.argument = process.argument

/-- The requests, the processes and the calls of a run. -/
structure Ledger (cfg : Config) (w : World) : Prop where
  seen : w.state.seen = (w.state.accepted.map Request.id).toFinset
  distinct : (w.state.accepted.map Request.id).Nodup
  calls : w.state.accepted.length ≤ cfg.maxCalls
  sound : ∀ r ∈ w.state.accepted, r.Sound cfg
  live : ∀ pid c, w.live.lookup pid = some c → Granted cfg w c.process
  apart : ∀ pid pid' c c', w.live.lookup pid = some c → w.live.lookup pid' = some c' →
    c.process.id = c'.process.id → pid = pid'
  invoked : ∀ p ∈ w.invoked, Granted cfg w p
  once : (w.invoked.map Process.id).Nodup
  uncalled : ∀ pid p, w.live.lookup pid = some ⟨p, .started⟩ → p.id ∉ w.invoked.map Process.id

variable {cfg : Config} {allowed : Bytes → Prop} {w w' : World}

theorem Books.numbered (h : Books cfg w) : w.state.Numbered := by
  intro pid hpid
  obtain ⟨job, hjob⟩ := AList.exists_lookup_of_mem hpid
  exact (h.jobs pid job hjob).1

theorem ledger_start : Ledger cfg .start where
  seen := rfl
  distinct := List.nodup_nil
  calls := Nat.zero_le _
  sound := nofun
  live _ _ h := by cases h
  apart _ _ _ _ h := by cases h
  invoked := nofun
  once := List.nodup_nil
  uncalled _ _ h := by cases h

/-- The ledger looks at the requests, the processes that are alive and the calls. -/
theorem Ledger.congr (h : Ledger cfg w) (hseen : w'.state.seen = w.state.seen)
    (haccepted : w'.state.accepted = w.state.accepted) (hlive : w'.live = w.live)
    (hinvoked : w'.invoked = w.invoked) : Ledger cfg w' := by
  have hgranted : ∀ p, Granted cfg w' p ↔ Granted cfg w p := by
    intro p
    rw [Granted, Granted, haccepted]
  refine ⟨?_, ?_, ?_, ?_, ?_, ?_, ?_, ?_, ?_⟩
  · rw [hseen, haccepted]
    exact h.seen
  · rw [haccepted]
    exact h.distinct
  · rw [haccepted]
    exact h.calls
  · rw [haccepted]
    exact h.sound
  · simp only [hlive, hgranted]
    exact h.live
  · rw [hlive]
    exact h.apart
  · simp only [hinvoked, hgranted]
    exact h.invoked
  · rw [hinvoked]
    exact h.once
  · rw [hlive, hinvoked]
    exact h.uncalled

/-- One more request is accepted. -/
theorem Ledger.accept (h : Ledger cfg w) {request : Request}
    (hrequest : Accepts cfg w.state request) :
    Ledger cfg { w with state := w.state.accept request } := by
  have hfresh : request.id ∉ w.state.accepted.map Request.id := by
    have hseen := hrequest.fresh
    rwa [h.seen, List.mem_toFinset] at hseen
  have hgrow : ∀ p, Granted cfg w p →
      Granted cfg { w with state := w.state.accept request } p := by
    rintro p ⟨r, hr, hp⟩
    exact ⟨r, List.mem_append_left _ hr, hp⟩
  refine ⟨?_, ?_, ?_, ?_, fun pid c hc => hgrow _ (h.live pid c hc), h.apart,
    fun p hp => hgrow p (h.invoked p hp), h.once, h.uncalled⟩
  · change insert request.id w.state.seen =
      ((w.state.accepted ++ [request]).map Request.id).toFinset
    rw [h.seen, List.map_append, List.toFinset_append, Finset.union_comm]
    rfl
  · change ((w.state.accepted ++ [request]).map Request.id).Nodup
    rw [List.map_append, List.nodup_append]
    refine ⟨h.distinct, List.nodup_singleton _, fun a ha b hb => ?_⟩
    rintro rfl
    exact hfresh (List.mem_singleton.mp hb ▸ ha)
  · -- the ids seen are as many as the requests
    have hcalls := hrequest.calls
    rw [h.seen, List.toFinset_card_of_nodup h.distinct, List.length_map] at hcalls
    change (w.state.accepted ++ [request]).length ≤ _
    rw [List.length_append]
    exact hcalls
  · intro r hr
    rcases List.mem_append.mp hr with hold | hnew
    · exact h.sound r hold
    · exact List.mem_singleton.mp hnew ▸ hrequest.toSound

/-- The process of a new request is started. -/
theorem Ledger.spawn (h : Ledger cfg w) {request : Request} {callback : ℕ}
    (hrequest : Accepts cfg w.state request)
    (hcallback : cfg.limits.callbacks.lookup request.name = some callback) {process : Process}
    (hprocess : process.id = request.id ∧ process.callback = callback ∧
      process.argument = request.argument) (pid : ℕ) :
    Ledger cfg { w with
      state := w.state.accept request, live := w.live.insert pid ⟨process, .started⟩ } := by
  obtain ⟨hid, rfl, hargument⟩ := hprocess
  have haccept := h.accept hrequest
  -- no process before it has its id
  have hold : ∀ p, Granted cfg w p → p.id ≠ process.id := by
    rintro p ⟨r, hr, hrp, -⟩ heq
    refine hrequest.fresh ?_
    rw [h.seen, List.mem_toFinset, ← hid, ← heq, ← hrp]
    exact List.mem_map_of_mem hr
  refine ⟨haccept.seen, haccept.distinct, haccept.calls, haccept.sound, fun p c hc => ?_,
    fun p p' c c' hc hc' heq => ?_, haccept.invoked, haccept.once, fun p q hq => ?_⟩
  · rcases AList.lookup_insert_eq_some hc with ⟨rfl, rfl⟩ | ⟨-, hbefore⟩
    · exact ⟨request, List.mem_append_right _ List.mem_cons_self, hid.symm, hcallback,
        hargument.symm⟩
    · exact haccept.live p c hbefore
  · rcases AList.lookup_insert_eq_some hc with ⟨rfl, rfl⟩ | ⟨-, hbefore⟩
    · rcases AList.lookup_insert_eq_some hc' with ⟨rfl, rfl⟩ | ⟨-, hbefore'⟩
      · rfl
      · exact absurd heq.symm (hold _ (h.live p' c' hbefore'))
    · rcases AList.lookup_insert_eq_some hc' with ⟨rfl, rfl⟩ | ⟨-, hbefore'⟩
      · exact absurd heq (hold _ (h.live p c hbefore))
      · exact h.apart p p' c c' hbefore hbefore' heq
  · rcases AList.lookup_insert_eq_some hq with ⟨rfl, hnew⟩ | ⟨-, hbefore⟩
    · cases hnew
      intro hmem
      obtain ⟨p, hp, heq⟩ := List.mem_map.mp hmem
      exact hold p (h.invoked p hp) heq
    · exact h.uncalled p q hbefore

/-- A process that has begun goes on. -/
theorem Ledger.progress (h : Ledger cfg w) {pid : ℕ} {process : Process} {before : Status}
    (hlive : w.live.lookup pid = some ⟨process, before⟩) (after : Status)
    (hafter : after ≠ .started) :
    Ledger cfg { w with live := w.live.insert pid ⟨process, after⟩ } := by
  have hlookup : ∀ {p c}, (w.live.insert pid ⟨process, after⟩).lookup p = some c →
      ∃ old, w.live.lookup p = some old ∧ c.process = old.process := by
    intro p c hc
    rcases AList.lookup_insert_eq_some hc with ⟨rfl, rfl⟩ | ⟨-, hold⟩
    · exact ⟨_, hlive, rfl⟩
    · exact ⟨c, hold, rfl⟩
  refine ⟨h.seen, h.distinct, h.calls, h.sound, fun p c hc => ?_, fun p p' c c' hc hc' heq => ?_,
    h.invoked, h.once, fun p q hq => ?_⟩
  · obtain ⟨old, hold, hsame⟩ := hlookup hc
    exact hsame ▸ h.live p old hold
  · obtain ⟨old, hold, hsame⟩ := hlookup hc
    obtain ⟨old', hold', hsame'⟩ := hlookup hc'
    exact h.apart p p' old old' hold hold' (hsame ▸ hsame' ▸ heq)
  · rcases AList.lookup_insert_eq_some hq with ⟨rfl, hthis⟩ | ⟨-, hold⟩
    · cases hthis
      exact absurd rfl hafter
    · exact h.uncalled p q hold

/-- A process calls its host function. -/
theorem Ledger.call (h : Ledger cfg w) {pid : ℕ} {process : Process}
    (hlive : w.live.lookup pid = some ⟨process, .started⟩) :
    Ledger cfg { w with
      live := w.live.insert pid ⟨process, .calling⟩, invoked := w.invoked ++ [process] } := by
  have hnext := h.progress hlive .calling nofun
  have huncalled := h.uncalled pid process hlive
  refine ⟨h.seen, h.distinct, h.calls, h.sound, hnext.live, hnext.apart, fun p hp => ?_, ?_,
    fun p q hq => ?_⟩
  · rcases List.mem_append.mp hp with hold | hnew
    · exact h.invoked p hold
    · exact List.mem_singleton.mp hnew ▸ h.live pid _ hlive
  · change ((w.invoked ++ [process]).map Process.id).Nodup
    rw [List.map_append, List.nodup_append]
    refine ⟨h.once, List.nodup_singleton _, fun a ha b hb => ?_⟩
    rintro rfl
    exact huncalled (List.mem_singleton.mp hb ▸ ha)
  · rcases AList.lookup_insert_eq_some hq with ⟨rfl, hthis⟩ | ⟨hne, hold⟩
    · cases hthis
    · change q.id ∉ (w.invoked ++ [process]).map Process.id
      rw [List.map_append, List.mem_append, not_or]
      refine ⟨h.uncalled p q hold, fun hmem => hne ?_⟩
      exact h.apart p pid _ _ hold hlive (List.mem_singleton.mp hmem)

/-- A process dies. -/
theorem Ledger.die (h : Ledger cfg w) (pid : ℕ) :
    Ledger cfg { w with live := w.live.erase pid } where
  seen := h.seen
  distinct := h.distinct
  calls := h.calls
  sound := h.sound
  live p c hc := h.live p c (AList.lookup_erase_eq_some hc).2
  apart p p' c c' hc hc' heq := h.apart p p' c c' (AList.lookup_erase_eq_some hc).2
    (AList.lookup_erase_eq_some hc').2 heq
  invoked := h.invoked
  once := h.once
  uncalled p q hq := h.uncalled p q (AList.lookup_erase_eq_some hq).2

/-- **Every move keeps the ledger.** -/
theorem ledger_move (h : Ledger cfg w) {requests requests' : List Json}
    (hmove : Move cfg allowed (w, requests) (w', requests')) : Ledger cfg w' := by
  cases hmove with
  | spawn hphase hjson hrequest hcallback clock =>
    exact (h.spawn hrequest hcallback ⟨rfl, rfl, rfl⟩ w.state.spawned).congr rfl rfl rfl rfl
  | deny hphase hjson hrequest hcallback htext => exact (h.accept hrequest).congr rfl rfl rfl rfl
  | call hlive => exact h.call hlive
  | answer hlive hresult => exact (h.progress hlive .answered nofun).congr rfl rfl rfl rfl
  | late hlive => exact (h.progress hlive .answered nofun).congr rfl rfl rfl rfl
  | die hlive => exact (h.die _).congr rfl rfl rfl rfl
  | fatal hphase hinbox hjob hstate message =>
    subst hstate
    rw [clean_eq]
    exact h.congr rfl rfl rfl rfl
  | fail hphase requests kind hkind message =>
    rw [clean_eq]
    exact h.congr rfl rfl rfl rfl
  | stop hphase hinbox hmessage =>
    rw [clean_eq]
    exact h.congr rfl rfl rfl rfl
  | _ => exact h.congr rfl rfl rfl rfl

/-! ### The error of the broker -/

/-- The error that an effect sends. -/
def Effect.error? : Effect → Option (Kind × String)
  | .error kind message => some (kind, message)
  | _ => none

/-- The errors among the messages to the parent. -/
def World.errors (w : World) : List (Kind × String) :=
  w.events.filterMap fun
    | .error kind message => some (kind, message)
    | .reply _ _ => none

/-- A move that sends an error is the last of a broker that runs. -/
theorem errors_move {requests requests' : List Json}
    (h : Move cfg allowed (w, requests) (w', requests')) :
    (w.phase = .running ∧ w'.phase ≠ .running) ∨
      (w'.phase = .running ↔ w.phase = .running) ∧ w'.errors = w.errors := by
  cases h with
  | fatal hphase | fail hphase | stop hphase =>
    rw [clean_eq]
    exact .inl ⟨hphase, nofun⟩
  | deny | complete => exact .inr ⟨Iff.rfl, by simp [World.errors]⟩
  | await hphase | exit hphase => exact .inr ⟨by simp [hphase], rfl⟩
  | _ => exact .inr ⟨Iff.rfl, rfl⟩

/-- A broker that runs has sent no error. -/
theorem errors_running (hjason : cfg.jason.Lawful) (h : (system cfg).Reachable w)
    (hphase : w.phase = .running) : w.errors = [] := by
  refine (invariant_of_moves (I := fun w _ => w.phase = .running → w.errors = []) hjason
    (fun _ => rfl) (fun w _ w' _ _ hw hmove hrunning => ?_) h).2 hphase
  rcases errors_move hmove with ⟨-, hstopped⟩ | ⟨hsame, herrors⟩
  · exact absurd hrunning hstopped
  · exact herrors.trans (hw (hsame.mp hrunning))

/-- **A broker that has stopped sends no error** and does not start again. -/
theorem errors_of_run (hjason : cfg.jason.Lawful) (h : (system cfg).Reachable w)
    (hphase : w.phase ≠ .running) {ls : List Label} (hrun : (system cfg).Run w ls w') :
    w'.phase ≠ .running ∧ w'.errors = w.errors := by
  refine (invariant_of_run hjason (I := fun w' _ => w'.phase ≠ .running ∧ w'.errors = w.errors)
    (fun u _ v _ _ hu hmove => ?_) hrun (books_of_reachable hjason h) ⟨hphase, rfl⟩).2
  rcases errors_move hmove with ⟨hrunning, -⟩ | ⟨hsame, herrors⟩
  · exact absurd hrunning hu.1
  · exact ⟨fun hrunning => hu.1 (hsame.mp hrunning), herrors.trans hu.2⟩

theorem errors_performAll (w : World) (effects : List Effect) :
    (w.performAll effects).errors = w.errors ++ effects.filterMap Effect.error? := by
  induction effects generalizing w with
  | nil => rw [performAll_nil, List.filterMap_nil, List.append_nil]
  | cons effect effects ih =>
    rw [performAll_cons, ih, List.filterMap_cons]
    cases effect <;> simp [World.perform, World.errors, Effect.error?]

/-- Serving requests sends no error. -/
theorem quiet_dispatchBatch (hjason : cfg.jason.Lawful) {clock : ℕ → ℤ} {state : State}
    (requests : List Json) :
    (dispatchBatch cfg clock state requests).1.filterMap Effect.error? = [] := by
  induction requests generalizing state with
  | nil => rfl
  | cons json requests ih =>
    unfold dispatchBatch
    split
    · rename_i effects state' hok
      have hquiet : effects.filterMap Effect.error? = [] := by
        obtain ⟨request, -, -, ⟨callback, -, hstart⟩ | ⟨-, -, text, -, rfl, -⟩⟩ :=
          dispatchRequest_cases hjason hok
        · obtain ⟨rfl, -⟩ := Prod.mk.inj hstart
          rfl
        · rfl
      rw [List.filterMap_append, hquiet, ih]
      rfl
    · rfl

theorem quiet_dispatchRequests (hjason : cfg.jason.Lawful) (clock : ℕ → ℤ) (state : State)
    (bytes : Bytes) :
    (dispatchRequests cfg clock state bytes).1.filterMap Effect.error? = [] := by
  unfold dispatchRequests
  split_ifs
  · split
    · split_ifs
      · exact quiet_dispatchBatch hjason _
      · rfl
    · rfl
  · rfl

/-- **A frame beyond the limits** makes the broker send one error and clean up. -/
theorem turn_of_not_fits (hjason : cfg.jason.Lawful) (h : (system cfg).Reachable w)
    (hphase : w.phase = .running) {bytes : Bytes} {rest : List Message}
    (hinbox : w.inbox = .dispatch bytes :: rest) (hframe : ¬ FrameFits cfg w.state bytes)
    (clock : ℕ → ℤ) :
    ∃ w', step cfg w (.turn clock) = some w' ∧ (∃ jobs, w'.phase = .cleaning jobs) ∧
      ∃ message, w'.errors = [(.callbackLimit, message)] := by
  have hnumbered := (books_of_reachable hjason h).numbered
  obtain ⟨refusal, hrefusal⟩ := Option.ne_none_iff_exists'.mp
    (mt (frameFits_iff hjason hnumbered clock bytes).mpr hframe)
  obtain ⟨message, rfl⟩ := dispatchRequests_error hjason hrefusal
  have hquiet := quiet_dispatchRequests hjason clock w.state bytes
  have hnone := errors_running hjason h hphase
  cases hdispatch : dispatchRequests cfg clock w.state bytes with
  | mk effects next =>
    obtain ⟨state', stop⟩ := next
    rw [hdispatch] at hrefusal hquiet
    obtain rfl : stop = some (.error .callbackLimit message) := hrefusal
    simp only [step, hphase, hinbox, handle, hdispatch, fail, World.resume]
    refine ⟨_, rfl, ⟨_, rfl⟩, message, ?_⟩
    rw [clean_eq]
    change World.errors (World.performAll _ _) = _
    rw [errors_performAll, List.filterMap_append, hquiet]
    exact congrArg (· ++ _) hnone

/-! ### The quotas -/

/-- **Every quota is enforced.** -/
theorem quotas_hold (hjason : cfg.jason.Lawful) (h : (system cfg).Reachable w) :
    w.live.keyset.card ≤ cfg.maxConcurrency ∧
    (w.state.seen = (w.state.accepted.map Request.id).toFinset ∧
      w.state.accepted.length ≤ cfg.maxCalls ∧ (w.state.accepted.map Request.id).Nodup ∧
      ∀ r ∈ w.state.accepted, 1 ≤ r.id ∧ r.id ≤ 1024) ∧
    ((w.invoked.map Process.id).Nodup ∧
      ∀ p ∈ w.invoked, ∃ r ∈ w.state.accepted, r.id = p.id ∧
        cfg.limits.callbacks.lookup r.name = some p.callback ∧
        cfg.jason.decode r.text = some p.argument ∧ r.text.length ≤ cfg.maxInput) ∧
    ∀ bytes rest, w.phase = .running → w.inbox = .dispatch bytes :: rest →
      ¬ FrameFits cfg w.state bytes → ∀ clock, ∃ w' message,
        step cfg w (.turn clock) = some w' ∧
        (∃ ls w'', (system cfg).Run w' ls w'' ∧ w''.phase = .ended) ∧
        ∀ ls w'', (system cfg).Run w' ls w'' →
          w''.phase ≠ .running ∧ w''.errors = [(.callbackLimit, message)] := by
  obtain ⟨hbooks, hledger⟩ := invariant_of_moves (I := fun w _ => Ledger cfg w) hjason
    ledger_start (fun _ _ _ _ _ hw hmove => ledger_move hw hmove) h
  refine ⟨?_, ⟨hledger.seen, hledger.calls, hledger.distinct, fun r hr => ?_⟩,
    ⟨hledger.once, fun p hp => ?_⟩, fun bytes rest hphase hinbox hframe clock => ?_⟩
  · exact hbooks.card_live_le
  · exact ⟨(hledger.sound r hr).id_pos, (hledger.sound r hr).id_le⟩
  · obtain ⟨r, hr, hid, hcallback, hargument⟩ := hledger.invoked p hp
    have hsound := hledger.sound r hr
    exact ⟨r, hr, hid, hcallback, hargument ▸ hsound.decoded, hsound.text_le⟩
  · obtain ⟨w', hstep, ⟨jobs, hcleaning⟩, message, herrors⟩ :=
      turn_of_not_fits hjason h hphase hinbox hframe clock
    have hreachable : (system cfg).Reachable w' := h.step hstep
    have hstopped : w'.phase ≠ .running := by rw [hcleaning]; nofun
    refine ⟨w', message, hstep, exists_ended (books_of_reachable hjason hreachable) hcleaning,
      fun ls w'' hrun => ?_⟩
    obtain ⟨hphase'', herrors''⟩ := errors_of_run hjason hreachable hstopped hrun
    exact ⟨hphase'', herrors''.trans herrors⟩

/-- A frame that the guest sends twice. -/
def replay : List Label :=
  [.dispatch twice, .turn fun _ => 0, .dispatch twice]
where
  twice := frameOf [requestOf 1 "echo" "2"]

theorem quotas_hold_replay : ∃ w,
    System.trace (step echoConfig) (fun _ _ => True) .start replay = some w ∧
      w.live.keyset.card ≤ echoConfig.maxConcurrency ∧
      (w.state.accepted.map Request.id).Nodup ∧
      ∃ w' message, step echoConfig w (.turn fun _ => 0) = some w' ∧
        ∀ ls w'', (system echoConfig).Run w' ls w'' → w''.errors = [(.callbackLimit, message)] := by
  have hsome : (System.trace (step echoConfig) (fun _ _ => True) .start replay).map
      (fun w => (w.phase, w.inbox,
        (dispatchRequests echoConfig (fun _ => 0) w.state replay.twice).2.2.isNone)) =
      some (.running, [.dispatch replay.twice], false) := by decide +kernel
  obtain ⟨w, htrace, hfacts⟩ := Option.map_eq_some_iff.mp hsome
  obtain ⟨hphase, hinbox, hframe⟩ : _ ∧ _ ∧ _ := by simpa only [Prod.mk.injEq] using hfacts
  have htraced : ((system echoConfig).restrict fun _ _ _ => True).Reachable w :=
    System.reachable_of_trace (by rfl) htrace
  have hreachable := htraced.of_restrict
  have hbeyond : ¬ FrameFits echoConfig w.state replay.twice := by
    intro hfits
    have hnumbered := (books_of_reachable Jason.reference_lawful hreachable).numbered
    rw [(frameFits_iff Jason.reference_lawful hnumbered (fun _ => 0) _).mp hfits] at hframe
    cases hframe
  obtain ⟨hlive, ⟨-, -, hdistinct, -⟩, -, hframes⟩ := quotas_hold Jason.reference_lawful hreachable
  obtain ⟨w', message, hstep, -, hrun⟩ := hframes _ _ hphase hinbox hbeyond fun _ => 0
  exact ⟨w, htrace, hlive, hdistinct, w', message, hstep, fun ls w'' h => (hrun ls w'' h).2⟩

end Javex.Callbacks
