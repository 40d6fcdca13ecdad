import Javex.Callbacks.Reference
import Javex.Callbacks.Replies
import Mathlib.Logic.Basic

/-!
# What a failed callback reveals

How a callback process may come to its end (`Behaviour`), with all that comes with it, and what the
guest learns of a failure. There are two kinds of failure, and `verdict` is the message of the
broker for either; nothing else of the failure is in it.

The result of a host function reaches the broker before the `:DOWN` of its process. The invariant
`Delivered` follows it there, so the broker takes a process to have failed without a result only if
it sent none.

* `failures_leak_nothing`: what the broker sends when a callback has failed, in every run.

A behaviour carries what the failure carries in the source, the exception and its message, the value
that was thrown, the reason of the exit, the term that is no JSON; the statement is that the message
of the broker is the same for two behaviours of one kind, which is a statement about a function of
the behaviour. The kinds are told apart by nothing but the field `message`: a host function that
failed, or one that returned something else than it may.

A callback process sends its result before it ends, so the result is ahead of the `:DOWN` in the
mailbox and the broker never takes a process for failed that has sent one. `Ahead` is this order,
and it is kept because nothing is ever put in front of a message.
-/

namespace Javex.Callbacks

open Codec Transition

/-! ### Failures -/

/-- How a callback process ends: its host function returns, raises, throws or exits, or the process
is killed before it has sent anything. -/
inductive Behaviour
  | returned (value : Term)
  | raised (exception : Term)
  | threw (value : Term)
  | exited (reason : Term)
  | killed (reason : Term)

/-- What the process makes of it in `invoke/5`: `rescue` and `catch` drop what they catch. A process
that is killed makes nothing. -/
def Behaviour.outcome? : Behaviour → Option Outcome
  | returned value => some (.returned value)
  | raised _ | threw _ | exited _ => some .failed
  | killed _ => none

/-- The two kinds of failure. -/
inductive Failure
  | failed | invalid
  deriving DecidableEq

/-- The message of a failure. -/
def Failure.message : Failure → Bytes
  | failed => utf8 "Host callback failed"
  | invalid => utf8 "Host callback returned an invalid result"

/-- The kind of failure that a behaviour is, if it is one. A value in which `json?/1` gets to the
tail of an improper list, and an error that cannot be encoded, raise; a value that is not JSON or
cannot be encoded, and whatever is not of a declared shape, are invalid. -/
def Behaviour.failure? (jason : Jason) : Behaviour → Option Failure
  | returned (.tuple [.atom "ok", value]) =>
    match json? value with
    | .error _ => some .failed
    | .ok false => some .invalid
    | .ok true => if (jason.encode value).isSome then none else some .invalid
  | returned (.tuple [.atom "error", .map entries]) =>
    match fetch (utf8 "code") entries, fetch (utf8 "message") entries with
    | some (.binary code), some (.binary message) =>
      if (jason.encode (record [("code", .binary code), ("message", .binary message)])).isSome
      then none else some .failed
    | _, _ => some .invalid
  | returned _ => some .invalid
  | raised _ | threw _ | exited _ | killed _ => some .failed

/-- What the broker sends for a failure: a completion, or the fatal error if its error is too
long. -/
def verdict (jason : Jason) (maxOutput id : ℕ) (failure : Failure) : Event :=
  let code := utf8 "callback_failed"
  let error := record [("code", .binary code), ("message", .binary failure.message)]
  let completion := Completion.error id code failure.message
  if ((jason.encode error).getD []).length ≤ maxOutput then
    .reply completion ((jason.encode (.cons (record completion.fields) .nil)).getD [])
  else .error .callbackLimit "callback error exceeds max_callback_output"

/-- What `encode_error/4` makes of a failure. -/
def failureResult (cfg : Config) (id : ℕ) : Failure → Except Raise Result
  | .failed => callbackFailed cfg id
  | .invalid => invalidResult cfg id

variable {cfg : Config} {allowed : Bytes → Prop} {w w' : World}

/-- A failure always has a result. -/
theorem failureResult_eq (hjason : cfg.jason.Lawful) (id : ℕ) (failure : Failure) :
    failureResult cfg id failure = .ok (
      let code := utf8 "callback_failed"
      let error := record [("code", .binary code), ("message", .binary failure.message)]
      if ((cfg.jason.encode error).getD []).length ≤ cfg.maxOutput then
        .completion (.error id code failure.message)
      else .fatal "callback error exceeds max_callback_output") := by
  have hmessage : validString failure.message = true := by
    cases failure <;> exact validString_utf8 _
  have hsome := (hjason.encode_record [("code", .binary (utf8 "callback_failed")),
    ("message", .binary failure.message)] (by simp)).mpr (by
      simp only [List.forall_mem_cons]
      exact ⟨validString_utf8 _, hmessage, nofun⟩)
  obtain ⟨text, htext⟩ := Option.isSome_iff_exists.mp hsome
  have hencode := encode!_eq_ok.mpr htext
  have herror : failureResult cfg id failure =
      encodeError cfg id (utf8 "callback_failed") failure.message := by
    cases failure <;> rfl
  rw [herror]
  simp only [encodeError, hencode, htext, Option.getD_some]
  rfl

/-- What `encode_result/3` makes of a failure: it raises, or it has the error of an invalid
result. -/
theorem encodeResult_of_failure {value : Term} {failure : Failure}
    (h : (Behaviour.returned value).failure? cfg.jason = some failure) (id : ℕ) :
    (failure = .failed ∧ ∃ raise, encodeResult cfg id value = .error raise) ∨
      (failure = .invalid ∧ encodeResult cfg id value = invalidResult cfg id) := by
  unfold encodeResult
  split
  · rename_i value
    simp only [Behaviour.failure?] at h
    cases hjson : json? value with
    | error raise =>
      rw [hjson] at h
      cases h
      exact .inl ⟨rfl, raise, rfl⟩
    | ok isJson =>
      rw [hjson] at h
      cases isJson with
      | false =>
        cases h
        exact .inr ⟨rfl, rfl⟩
      | true =>
        simp only [Option.ite_none_left_eq_some, Option.some.injEq] at h
        obtain ⟨hnone, rfl⟩ := h
        rw [Option.not_isSome_iff_eq_none] at hnone
        refine .inr ⟨rfl, ?_⟩
        simp only [bind, Except.bind, if_true, hnone]
  · rename_i entries
    simp only [Behaviour.failure?] at h
    split
    · rename_i code message hcode hmessage
      simp only [hcode, hmessage, Option.ite_none_left_eq_some, Option.some.injEq] at h
      obtain ⟨hnone, rfl⟩ := h
      rw [Option.not_isSome_iff_eq_none] at hnone
      refine .inl ⟨rfl, .encodeError, ?_⟩
      simp only [encodeError, Jason.encode!, hnone]
      rfl
    · rename_i hother
      split at h
      · rename_i code message hcode hmessage
        exact absurd hmessage (hother code message hcode)
      · cases h
        exact .inr ⟨rfl, rfl⟩
  · rename_i hok herror
    unfold Behaviour.failure? at h
    split at h
    · rename_i heq
      cases heq
      exact absurd rfl (hok _)
    · rename_i heq
      cases heq
      exact absurd rfl (herror _)
    · cases h
      exact .inr ⟨rfl, rfl⟩
    · rename_i heq
      cases heq
    all_goals cases h; contradiction

/-- **A failure of a kind has one result**, whatever it comes with. -/
theorem invoke_of_failure (hjason : cfg.jason.Lawful) {b : Behaviour} {failure : Failure}
    (h : b.failure? cfg.jason = some failure) {outcome : Outcome}
    (houtcome : b.outcome? = some outcome) (id : ℕ) :
    invoke cfg id outcome = failureResult cfg id failure := by
  cases b with
  | returned value =>
    cases houtcome
    rcases encodeResult_of_failure h id with ⟨rfl, raise, hraise⟩ | ⟨rfl, hinvalid⟩
    · rw [invoke, hraise]
      rfl
    · rw [invoke, hinvalid]
      have hok := failureResult_eq hjason id .invalid
      simp only [failureResult] at hok ⊢
      rw [hok]
  | raised | threw | exited =>
    cases houtcome
    cases h
    rfl
  | killed => cases houtcome

/-! ### Results come before their `:DOWN` -/

/-- A result is in the mailbox, and no `:DOWN` of its process before it. -/
def Ahead (inbox : List Message) (pid : ℕ) (result : Result) : Prop :=
  ∃ before after, inbox = before ++ .result pid result :: after ∧ ∀ ref, .down ref pid ∉ before

section Ahead

variable {inbox : List Message} {pid : ℕ} {result : Result}

theorem Ahead.append (h : Ahead inbox pid result) (message : Message) :
    Ahead (inbox ++ [message]) pid result := by
  obtain ⟨before, after, rfl, hdown⟩ := h
  exact ⟨before, after ++ [message], by simp, hdown⟩

theorem ahead_last (h : ∀ ref, .down ref pid ∉ inbox) :
    Ahead (inbox ++ [.result pid result]) pid result :=
  ⟨inbox, [], rfl, h⟩

/-- The first message is the result, or the result is behind it and it is no `:DOWN` of the
process. -/
theorem Ahead.cases_cons {message : Message} {rest : List Message}
    (h : Ahead (message :: rest) pid result) : message = .result pid result ∨
      Ahead rest pid result ∧ ∀ ref, message ≠ .down ref pid := by
  obtain ⟨before, after, heq, hdown⟩ := h
  cases before with
  | nil => exact .inl (List.cons.inj heq).1
  | cons first before =>
    obtain ⟨rfl, rfl⟩ := List.cons.inj heq
    refine .inr ⟨⟨before, after, rfl, fun ref hmem => hdown ref (List.mem_cons_of_mem _ hmem)⟩,
      fun ref hfirst => hdown ref (hfirst ▸ List.mem_cons_self)⟩

theorem Ahead.erase (h : Ahead inbox pid result) (ref p : ℕ) :
    Ahead (inbox.erase (.down ref p)) pid result := by
  obtain ⟨before, after, rfl, hdown⟩ := h
  by_cases hmem : .down ref p ∈ before
  · rw [List.erase_append_left _ hmem]
    exact ⟨_, after, rfl, fun ref' hmem' => hdown ref' (List.mem_of_mem_erase hmem')⟩
  · rw [List.erase_append_right _ hmem, List.erase_cons_tail (by simp)]
    exact ⟨before, _, rfl, hdown⟩

end Ahead

/-- The result that the callback of a request has come to: what its host function came to, or a
failure if that came to nothing. -/
def Settles (cfg : Config) (w : World) (id : ℕ) (result : Result) : Prop :=
  (∃ p outcome, (p, outcome) ∈ w.finished ∧ p.id = id ∧ invoke cfg id outcome = .ok result) ∨
    (∀ p outcome, (p, outcome) ∈ w.finished → p.id ≠ id) ∧ callbackFailed cfg id = .ok result

/-- What the host functions came to is on its way to the broker, recorded, or sent. -/
structure Delivered (cfg : Config) (w : World) : Prop where
  known : ∀ p outcome, (p, outcome) ∈ w.finished → p.id ∈ w.state.accepted.map Request.id
  single : ∀ p outcome p' outcome', (p, outcome) ∈ w.finished → (p', outcome') ∈ w.finished →
    p.id = p'.id → outcome = outcome'
  unfinished : ∀ pid process status, w.live.lookup pid = some ⟨process, status⟩ →
    status ≠ .answered → ∀ p outcome, (p, outcome) ∈ w.finished → p.id ≠ process.id
  pending : ∀ pid job p outcome result, w.state.jobs.lookup pid = some job →
    (p, outcome) ∈ w.finished → p.id = job.id → invoke cfg job.id outcome = .ok result →
    job.result = some result ∨ Ahead w.inbox pid result
  sent : ∀ c text r, (c, text) ∈ w.replies → r ∈ w.state.accepted → r.id = c.id →
    (cfg.limits.callbacks.lookup r.name).isSome → Settles cfg w c.id (.completion c)

theorem delivered_start : Delivered cfg .start where
  known _ _ h := by cases h
  single _ _ _ _ h := by cases h
  unfinished _ _ _ h := by cases h
  pending _ _ _ _ _ h := by cases h
  sent _ _ _ h := by cases h

/-- No host function comes to an end, nothing is sent and no job is new. -/
theorem Delivered.mono (h : Delivered cfg w)
    (hjobs : ∀ pid job, w'.state.jobs.lookup pid = some job → w.state.jobs.lookup pid = some job)
    (haccepted : w'.state.accepted = w.state.accepted) (hreplies : w'.replies = w.replies)
    (hfinished : w'.finished = w.finished)
    (hlive : ∀ pid process status, w'.live.lookup pid = some ⟨process, status⟩ →
      status ≠ .answered → ∃ status', w.live.lookup pid = some ⟨process, status'⟩ ∧
        status' ≠ .answered)
    (hinbox : ∀ pid job result, w'.state.jobs.lookup pid = some job →
      Ahead w.inbox pid result → Ahead w'.inbox pid result) : Delivered cfg w' := by
  refine ⟨fun p o hp => ?_, fun p o p' o' hp hp' => ?_, fun pid process status hl hs p o hp => ?_,
    fun pid job p o result hjob hp hid hresult => ?_, fun c text r hc hr hid hsome => ?_⟩
  · rw [haccepted]
    exact h.known p o (hfinished ▸ hp)
  · exact h.single p o p' o' (hfinished ▸ hp) (hfinished ▸ hp')
  · obtain ⟨status', hl', hs'⟩ := hlive pid process status hl hs
    exact h.unfinished pid process status' hl' hs' p o (hfinished ▸ hp)
  · exact (h.pending pid job p o result (hjobs pid job hjob) (hfinished ▸ hp) hid hresult).imp_right
      (hinbox pid job result hjob)
  · rw [hreplies] at hc
    rw [haccepted] at hr
    unfold Settles
    rw [hfinished]
    exact h.sent c text r hc hr hid hsome

/-- The broker takes a message that is no result of a job. -/
theorem Ahead.tail {message : Message} {rest : List Message} {state : State}
    (hinbox : w.inbox = message :: rest)
    (hresult : ∀ pid result, message = .result pid result → pid ∉ state.jobs) {pid : ℕ} {job : Job}
    {result : Result} (hjob : state.jobs.lookup pid = some job) (h : Ahead w.inbox pid result) :
    Ahead rest pid result := by
  rw [hinbox] at h
  rcases h.cases_cons with rfl | ⟨hrest, -⟩
  · exact absurd (AList.mem_of_lookup hjob) (hresult pid result rfl)
  · exact hrest

/-- No host function has come to an end for a request that is new. -/
theorem Delivered.fresh (h : Delivered cfg w) (hledger : Ledger cfg w) {request : Request}
    (hrequest : Accepts cfg w.state request) {p : Process} {outcome : Outcome}
    (hp : (p, outcome) ∈ w.finished) : p.id ≠ request.id := by
  intro hid
  have hseen := hrequest.fresh
  rw [hledger.seen, List.mem_toFinset] at hseen
  exact hseen (hid ▸ h.known p outcome hp)

/-- A request is accepted and its process is started. -/
theorem Delivered.spawn (h : Delivered cfg w) (hreplies : Replies cfg w) (hledger : Ledger cfg w)
    {request : Request} (hrequest : Accepts cfg w.state request) {state : State} {job : Job}
    {process : Process} (hjob : job.id = request.id) (hprocess : process.id = request.id)
    (hjobs : state.jobs = w.state.jobs.insert w.state.spawned job)
    (haccepted : state.accepted = w.state.accepted ++ [request])
    {live : AList fun _ : ℕ => Callback}
    (hlive : live = w.live.insert w.state.spawned ⟨process, .started⟩) {timers : Finset ℕ} :
    Delivered cfg { w with state, live, timers } := by
  refine ⟨fun p o hp => ?_, h.single, fun pid process' status hl hs p o hp => ?_,
    fun pid job' p o result hl hp hid hresult => ?_, fun c text r hc hr hid hsome => ?_⟩
  · rw [haccepted, List.map_append]
    exact List.mem_append_left _ (h.known p o hp)
  · rw [show _ = _ from hlive] at hl
    rcases AList.lookup_insert_eq_some hl with ⟨-, heq⟩ | ⟨-, hold⟩
    · cases heq
      exact hprocess ▸ h.fresh hledger hrequest hp
    · exact h.unfinished pid process' status hold hs p o hp
  · rw [show _ = _ from hjobs] at hl
    rcases AList.lookup_insert_eq_some hl with ⟨-, rfl⟩ | ⟨-, hold⟩
    · exact absurd (hid.trans hjob) (h.fresh hledger hrequest hp)
    · exact h.pending pid job' p o result hold hp hid hresult
  · rw [show _ = _ from haccepted] at hr
    rcases List.mem_append.mp hr with hold | hnew
    · exact h.sent c text r hc hold hid hsome
    · obtain rfl := List.mem_singleton.mp hnew
      refine absurd ?_ (hreplies.fresh hledger hrequest).1
      rw [hid]
      exact List.mem_map_of_mem (f := fun reply : Completion × Bytes => reply.1.id) hc

/-- A request is accepted and denied. -/
theorem Delivered.deny (h : Delivered cfg w) (hledger : Ledger cfg w)
    {request : Request} (hrequest : Accepts cfg w.state request)
    (hcallback : cfg.limits.callbacks.lookup request.name = none) (text : Bytes) :
    Delivered cfg { w with
      state := w.state.accept request
      events := w.events ++ [.reply (denial request.id) text] } := by
  refine ⟨fun p o hp => ?_, h.single, h.unfinished, h.pending, fun c text' r hc hr hid hsome => ?_⟩
  · rw [State.accept, List.map_append]
    exact List.mem_append_left _ (h.known p o hp)
  · rw [replies_reply rfl] at hc
    rcases List.mem_append.mp hr with hold | hnew
    · rcases List.mem_append.mp hc with hc | hc
      · exact h.sent c text' r hc hold hid hsome
      · -- the denial is not for an older request
        cases List.mem_singleton.mp hc
        have hseen := hrequest.fresh
        rw [hledger.seen, List.mem_toFinset] at hseen
        have hthis : request.id ∈ w.state.accepted.map Request.id :=
          (show r.id = request.id from hid) ▸ List.mem_map_of_mem hold
        exact absurd hthis hseen
    · obtain rfl := List.mem_singleton.mp hnew
      rw [hcallback] at hsome
      cases hsome

/-- A result is recorded in its job. -/
theorem Delivered.record (h : Delivered cfg w) (hreplies : Replies cfg w) {pid : ℕ}
    {result : Result}
    {rest : List Message} {job : Job} (hinbox : w.inbox = .result pid result :: rest)
    (hjob : w.state.jobs.lookup pid = some job) :
    Delivered cfg { w with
      inbox := rest
      state := { w.state with
        jobs := w.state.jobs.insert pid { job with result := some result } } } := by
  refine ⟨h.known, h.single, h.unfinished, fun p j p' o r hj hp hid hr => ?_, h.sent⟩
  rcases AList.lookup_insert_eq_some hj with ⟨rfl, rfl⟩ | ⟨hne, hold⟩
  · -- the host function came to one end, so this is its result
    obtain ⟨q, o', hq, hqid, -, hinvoke⟩ :=
      hreplies.results p result (hinbox ▸ List.mem_cons_self) job hjob
    obtain rfl := h.single p' o q o' hp hq (hid.trans hqid.symm)
    cases hinvoke.symm.trans hr
    exact .inl rfl
  · refine (h.pending p j p' o r hold hp hid hr).imp_right fun hahead => ?_
    rw [hinbox] at hahead
    rcases hahead.cases_cons with heq | ⟨hrest, -⟩
    · cases heq
      exact absurd rfl hne
    · exact hrest

/-- The result of a job whose `:DOWN` is at hand is what its callback has come to. -/
theorem Delivered.comes (h : Delivered cfg w) (hjason : cfg.jason.Lawful) (hreplies : Replies cfg w)
    {ref pid : ℕ} {rest : List Message} {job : Job} (hinbox : w.inbox = .down ref pid :: rest)
    (hjob : w.state.jobs.lookup pid = some job) {result : Result} (hcomes : job.Comes cfg result) :
    Settles cfg w job.id result := by
  rcases hcomes with hrecorded | ⟨hnone, hfailed⟩
  · obtain ⟨p, o, hp, hid, -, hinvoke⟩ := hreplies.recorded pid job result hjob hrecorded
    exact .inl ⟨p, o, hp, hid, hinvoke⟩
  · refine .inr ⟨fun p o hp hid => ?_, hfailed⟩
    obtain ⟨r, hr, -⟩ := invoke_ok hjason job.id o
    rcases h.pending pid job p o r hjob hp hid hr with hsome | hahead
    · rw [hnone] at hsome
      cases hsome
    · rw [hinbox] at hahead
      rcases hahead.cases_cons with heq | ⟨-, hno⟩
      · cases heq
      · exact hno ref rfl

/-- A completion is sent for a job. -/
theorem Delivered.complete (h : Delivered cfg w) (hjason : cfg.jason.Lawful)
    (hbooks : Books cfg w) (hreplies : Replies cfg w)
    {ref pid : ℕ} {rest : List Message} {job : Job} {c : Completion} {text : Bytes}
    (hinbox : w.inbox = .down ref pid :: rest) (hjob : w.state.jobs.lookup pid = some job)
    (hcomes : job.Comes cfg (.completion c)) :
    Delivered cfg { w with
      inbox := rest
      state := { w.state with jobs := w.state.jobs.erase pid }
      timers := w.timers.erase job.timer
      events := w.events ++ [.reply c text] } := by
  have hsettles := h.comes hjason hreplies hinbox hjob hcomes
  refine ⟨h.known, h.single, h.unfinished, fun p j p' o r hj hp hid hr => ?_,
    fun d text' r hd hr hid hsome => ?_⟩
  · have hold := (AList.lookup_erase_eq_some hj).2
    refine (h.pending p j p' o r hold hp hid hr).imp_right fun hahead => ?_
    exact hahead.tail hinbox nofun hold
  · rw [replies_reply rfl] at hd
    rcases List.mem_append.mp hd with hd | hd
    · exact h.sent d text' r hd hr hid hsome
    · cases List.mem_singleton.mp hd
      have hcid : c.id = job.id := by
        rcases hcomes with hrecorded | ⟨-, hfailed⟩
        · exact (hbooks.recorded pid job hjob _ hrecorded).1
        · obtain ⟨result, hok, hfor⟩ := callbackFailed_ok hjason job.id
          cases hok.symm.trans hfailed
          exact hfor.1
      rw [hcid]
      exact hsettles

/-- A host function comes to an end and its process sends the result. -/
theorem Delivered.answer (h : Delivered cfg w) (hbooks : Books cfg w) (hledger : Ledger cfg w)
    (hreplies : Replies cfg w) {pid : ℕ} {process : Process} {outcome : Outcome} {result : Result}
    (hlive : w.live.lookup pid = some ⟨process, .calling⟩)
    (hresult : invoke cfg process.id outcome = .ok result) :
    Delivered cfg { w.post (.result pid result) with
      live := w.live.insert pid ⟨process, .answered⟩
      finished := w.finished ++ [(process, outcome)] } := by
  have hnone := h.unfinished pid process .calling hlive nofun
  have hmem : pid ∈ w.live := AList.mem_of_lookup hlive
  -- the process has a job, and no `:DOWN` yet
  obtain ⟨job, hjob⟩ : ∃ job, w.state.jobs.lookup pid = some job :=
    AList.exists_lookup_of_mem (hbooks.waited_subset (hbooks.waited_of_live hmem))
  have hjobid : job.id = process.id := (hbooks.processes pid _ hlive).2 job hjob
  have hdown : ∀ ref, .down ref pid ∉ w.inbox := by
    intro ref hin
    have haccount := hbooks.account pid
    rw [if_pos hmem] at haccount
    have hpos : 0 < w.inbox.countP (isDown pid) :=
      List.countP_pos_iff.mpr ⟨_, hin, by simp [isDown]⟩
    split_ifs at haccount <;> omega
  have hother : ∀ {p o}, (p, o) ∈ w.finished ++ [(process, outcome)] →
      (p, o) ∈ w.finished ∨ p = process ∧ o = outcome := by
    intro p o hp
    rcases List.mem_append.mp hp with hold | hnew
    · exact .inl hold
    · cases List.mem_singleton.mp hnew
      exact .inr ⟨rfl, rfl⟩
  refine ⟨fun p o hp => ?_, fun p o p' o' hp hp' hid => ?_,
    fun pid' process' status hl hs p o hp => ?_, fun pid' j p o r hj hp hid hr => ?_,
    fun c text r hc hr hid hsome => ?_⟩
  · rcases hother hp with hold | ⟨rfl, rfl⟩
    · exact h.known p o hold
    · obtain ⟨r, hr, hid, -⟩ := hledger.live pid _ hlive
      exact (show r.id = p.id from hid) ▸ List.mem_map_of_mem hr
  · rcases hother hp with hold | ⟨rfl, rfl⟩ <;> rcases hother hp' with hold' | ⟨rfl, rfl⟩
    · exact h.single p o p' o' hold hold' hid
    · exact absurd hid (hnone p o hold)
    · exact absurd hid.symm (hnone p' o' hold')
    · rfl
  · rcases AList.lookup_insert_eq_some hl with ⟨-, heq⟩ | ⟨hne, hl'⟩
    · cases heq
      exact absurd rfl hs
    · rcases hother hp with hold | ⟨rfl, rfl⟩
      · exact h.unfinished pid' process' status hl' hs p o hold
      · intro hid
        exact hne (hledger.apart pid' pid _ _ hl' hlive hid.symm)
  · rcases hother hp with hold | ⟨rfl, rfl⟩
    · exact (h.pending pid' j p o r hj hold hid hr).imp_right fun hahead => hahead.append _
    · obtain rfl := hreplies.apart pid' pid j job hj hjob (hid.symm.trans hjobid.symm)
      cases hj.symm.trans hjob
      rw [hjobid, hresult] at hr
      cases hr
      exact .inr (ahead_last hdown)
  · rcases h.sent c text r hc hr hid hsome with ⟨p, o, hp, hpid, hinvoke⟩ | ⟨hno, hfailed⟩
    · exact .inl ⟨p, o, List.mem_append_left _ hp, hpid, hinvoke⟩
    · refine .inr ⟨fun p o hp => ?_, hfailed⟩
      rcases hother hp with hold | ⟨rfl, rfl⟩
      · exact hno p o hold
      · intro hpid
        refine hreplies.left pid job hjob ?_
        rw [hjobid, hpid]
        exact List.mem_map_of_mem (f := fun reply : Completion × Bytes => reply.1.id) hc

/-- **Every move delivers** what the host functions came to. -/
theorem delivered_move (hjason : cfg.jason.Lawful) (hbooks : Books cfg w) (hledger : Ledger cfg w)
    (hreplies : Replies cfg w) (h : Delivered cfg w) {requests requests' : List Json}
    (hmove : Move cfg allowed (w, requests) (w', requests')) : Delivered cfg w' := by
  have hsame : ∀ pid process status, w.live.lookup pid = some ⟨process, status⟩ →
      status ≠ .answered → ∃ status', w.live.lookup pid = some ⟨process, status'⟩ ∧
        status' ≠ .answered := fun _ _ status hl hs => ⟨status, hl, hs⟩
  cases hmove with
  | take hphase hinbox hdown hresult =>
    exact h.mono (fun _ _ => id) rfl rfl rfl hsame
      fun _ _ _ hjob hahead => hahead.tail hinbox hresult hjob
  | frame hphase hinbox =>
    exact h.mono (fun _ _ => id) rfl rfl rfl hsame
      fun _ _ _ hjob hahead => hahead.tail hinbox (by rintro _ _ ⟨⟩) hjob
  | spawn hphase hjson hrequest hcallback clock =>
    exact h.spawn hreplies hledger hrequest rfl rfl rfl rfl rfl
  | deny hphase hjson hrequest hcallback htext => exact h.deny hledger hrequest hcallback _
  | record hphase hinbox hjob => exact h.record hreplies hinbox hjob
  | complete hphase hinbox hjob hcomes htext =>
    exact h.complete hjason hbooks hreplies hinbox hjob hcomes
  | fatal hphase hinbox hjob hstate message =>
    subst hstate
    rw [clean_eq]
    exact h.mono (fun _ _ hj => (AList.lookup_erase_eq_some hj).2) rfl
      (by simp [World.replies, World.perform, Event.reply?]) rfl hsame
      fun _ _ _ hjob hahead => hahead.tail hinbox (by rintro _ _ ⟨⟩) hjob
  | fail hphase requests kind hkind message =>
    rw [clean_eq]
    exact h.mono (fun _ _ => id) rfl (by simp [World.replies, World.perform, Event.reply?]) rfl
      hsame fun _ _ _ _ hahead => hahead
  | stop hphase hinbox hmessage =>
    rw [clean_eq]
    refine h.mono (fun _ _ => id) rfl rfl rfl hsame
      fun _ _ _ hjob hahead => hahead.tail hinbox ?_ hjob
    rintro _ _ rfl
    rcases hmessage with heq | heq <;> cases heq
  | await hphase hdown =>
    exact h.mono (fun _ _ => id) rfl rfl rfl hsame fun _ _ _ _ hahead => hahead.erase _ _
  | exit | stopped | report =>
    exact h.mono (fun _ _ => id) rfl rfl rfl hsame fun _ _ _ _ hahead => hahead
  | @call _ pid process hlive =>
    refine h.mono (fun _ _ => id) rfl rfl rfl (fun pid' process' status hl hs => ?_)
      fun _ _ _ _ hahead => hahead
    rcases AList.lookup_insert_eq_some hl with ⟨rfl, heq⟩ | ⟨-, hold⟩
    · cases heq
      exact ⟨.started, hlive, by rintro ⟨⟩⟩
    · exact ⟨status, hold, hs⟩
  | answer hlive hresult => exact h.answer hbooks hledger hreplies hlive hresult
  | @late _ pid process hlive =>
    refine h.mono (fun _ _ => id) rfl rfl rfl (fun pid' process' status hl hs => ?_)
      fun _ _ _ _ hahead => hahead.append _
    rcases AList.lookup_insert_eq_some hl with ⟨-, heq⟩ | ⟨-, hold⟩
    · cases heq
      exact absurd rfl hs
    · exact ⟨status, hold, hs⟩
  | die hlive =>
    exact h.mono (fun _ _ => id) rfl rfl rfl
      (fun _ _ status hl hs => ⟨status, (AList.lookup_erase_eq_some hl).2, hs⟩)
      fun _ _ _ _ hahead => hahead.append _
  | fire | noise | dispatch | finish | workerDies =>
    exact h.mono (fun _ _ => id) rfl rfl rfl hsame fun _ _ _ _ hahead => hahead.append _

/-- **Requests, processes, replies and results** agree in every reachable world. -/
theorem delivered_of_reachable (hjason : cfg.jason.Lawful) (h : (system cfg).Reachable w) :
    Books cfg w ∧ Replies cfg w ∧ Delivered cfg w := by
  have hinv := invariant_of_moves
    (I := fun w _ => Ledger cfg w ∧ Replies cfg w ∧ Delivered cfg w) hjason
    ⟨ledger_start, replies_start, delivered_start⟩ ?_ h
  · exact ⟨hinv.1, hinv.2.2⟩
  · rintro w requests w' requests' hbooks ⟨hledger, hreplies, hdelivered⟩ hmove
    exact ⟨ledger_move hledger hmove, replies_move hjason hbooks hledger hreplies hmove,
      delivered_move hjason hbooks hledger hreplies hdelivered hmove⟩

/-! ### What is sent -/

/-- The callback of a request has come to an end with a behaviour: its process has sent what this
comes to, or it has sent nothing. -/
def Ended (w : World) (id : ℕ) (b : Behaviour) : Prop :=
  match b.outcome? with
  | some outcome => ∃ p, (p, outcome) ∈ w.finished ∧ p.id = id
  | none => ∀ p outcome, (p, outcome) ∈ w.finished → p.id ≠ id

/-- What the broker is sent for a behaviour, or makes of one that sends nothing. -/
def Behaviour.result (cfg : Config) (id : ℕ) (b : Behaviour) : Except Raise Result :=
  match b.outcome? with
  | some outcome => invoke cfg id outcome
  | none => callbackFailed cfg id

/-- A failure has the result of its kind. -/
theorem result_of_failure (hjason : cfg.jason.Lawful) {b : Behaviour} {failure : Failure}
    (h : b.failure? cfg.jason = some failure) (id : ℕ) :
    b.result cfg id = failureResult cfg id failure := by
  unfold Behaviour.result
  cases houtcome : b.outcome? with
  | some outcome => exact invoke_of_failure hjason h houtcome id
  | none =>
    cases b with
    | killed =>
      cases h
      rfl
    | returned | raised | threw | exited => cases houtcome

/-- A callback that has ended has come to the result of its behaviour. -/
theorem Delivered.result_eq (h : Delivered cfg w) {id : ℕ} {b : Behaviour} (hended : Ended w id b)
    {result : Result} (hsettles : Settles cfg w id result) : b.result cfg id = .ok result := by
  unfold Ended at hended
  unfold Behaviour.result
  cases houtcome : b.outcome? with
  | some outcome =>
    rw [houtcome] at hended
    obtain ⟨p, hp, hid⟩ := hended
    rcases hsettles with ⟨q, o, hq, hqid, hinvoke⟩ | ⟨hno, -⟩
    · obtain rfl := h.single p outcome q o hp hq (hid.trans hqid.symm)
      exact hinvoke
    · exact absurd hid (hno p outcome hp)
  | none =>
    rw [houtcome] at hended
    rcases hsettles with ⟨q, o, hq, hqid, -⟩ | ⟨-, hfailed⟩
    · exact absurd hqid (hended q o hq)
    · exact hfailed

/-- The completion of a failure is its verdict. -/
theorem verdict_of_completion (hjason : cfg.jason.Lawful) {id : ℕ} {failure : Failure}
    {c : Completion} {text : Bytes} (h : failureResult cfg id failure = .ok (.completion c))
    (htext : completionText cfg c = .ok text) :
    verdict cfg.jason cfg.maxOutput id failure = .reply c text := by
  rw [failureResult_eq hjason] at h
  unfold verdict
  have hencode := encode!_eq_ok.mp htext
  simp only [Except.ok.injEq] at h ⊢
  split_ifs at h ⊢
  cases h
  rw [hencode, Option.getD_some]

/-- So is its fatal error. -/
theorem verdict_of_fatal (hjason : cfg.jason.Lawful) {id : ℕ} {failure : Failure}
    {message : String} (h : failureResult cfg id failure = .ok (.fatal message)) :
    verdict cfg.jason cfg.maxOutput id failure = .error .callbackLimit message := by
  rw [failureResult_eq hjason] at h
  unfold verdict
  simp only [Except.ok.injEq] at h ⊢
  split_ifs at h ⊢
  cases h
  rfl

/-- What the broker sends for a result: the completion with its text, or the fatal error. -/
def Result.Sends (cfg : Config) : Result → Event → Prop
  | .completion c, event => ∃ text, completionText cfg c = .ok text ∧ event = .reply c text
  | .fatal message, event => event = .error .callbackLimit message

/-- The turn on the `:DOWN` of a callback sends the result of its behaviour. -/
theorem Delivered.turn_down (h : Delivered cfg w) (hjason : cfg.jason.Lawful)
    (hbooks : Books cfg w) (hreplies : Replies cfg w) {ref pid : ℕ} {rest : List Message}
    {job : Job}
    (hphase : w.phase = .running) (hinbox : w.inbox = .down ref pid :: rest)
    (hjob : w.state.jobs.lookup pid = some job) {b : Behaviour} (hended : Ended w job.id b)
    (clock : ℕ → ℤ) :
    ∃ result event w', b.result cfg job.id = .ok result ∧ result.For job.id ∧
      result.Sends cfg event ∧ step cfg w (.turn clock) = some w' ∧
        w'.events = w.events ++ [event] := by
  obtain ⟨result, hresult, hcomes, hfor⟩ := exists_comes hjason hbooks.recorded hjob
  have hsettles := h.comes hjason hreplies hinbox hjob hcomes
  have hended := h.result_eq hended hsettles
  simp only [step, hphase, hinbox, handle, hjob, finishJob, hresult]
  cases result with
  | completion c =>
    obtain ⟨text, -, htext, -⟩ := completionText_ok hjason hfor.2.1
    refine ⟨.completion c, .reply c text, _, hended, hfor, ⟨text, htext, rfl⟩, rfl, ?_⟩
    simp only [htext]
    rfl
  | fatal message =>
    refine ⟨.fatal message, .error .callbackLimit message, _, hended, hfor, rfl, rfl, ?_⟩
    simp only [fail, World.resume]
    rw [clean_eq]
    rfl

/-- For a failed callback this is its verdict. -/
theorem verdict_of_sends (hjason : cfg.jason.Lawful) {id : ℕ} {failure : Failure} {result : Result}
    {event : Event} (h : failureResult cfg id failure = .ok result)
    (hsends : result.Sends cfg event) :
    event = verdict cfg.jason cfg.maxOutput id failure := by
  cases result with
  | completion c =>
    obtain ⟨text, htext, rfl⟩ := hsends
    exact (verdict_of_completion hjason h htext).symm
  | fatal message =>
    obtain rfl := hsends
    exact (verdict_of_fatal hjason h).symm

/-! ### Every failure comes to the broker -/

/-- A request was accepted, and no process of it is alive. -/
structure Over (id : ℕ) (w : World) : Prop where
  accepted : id ∈ w.state.accepted.map Request.id
  ended : ∀ pid c, w.live.lookup pid = some c → c.process.id ≠ id

variable {id : ℕ}

theorem Over.mono (h : Over id w) (haccepted : w.state.accepted ⊆ w'.state.accepted)
    (hlive : ∀ pid c, w'.live.lookup pid = some c →
      ∃ status, w.live.lookup pid = some ⟨c.process, status⟩) : Over id w' := by
  constructor
  · exact List.map_subset _ haccepted h.accepted
  · intro pid c hc
    obtain ⟨status, hold⟩ := hlive pid c hc
    exact h.ended pid ⟨c.process, status⟩ hold

/-- No move starts a process for a request again. -/
theorem over_move (hledger : Ledger cfg w) (h : Over id w) {requests requests' : List Json}
    (hmove : Move cfg allowed (w, requests) (w', requests')) : Over id w' := by
  have hprogress : ∀ {pid : ℕ} {process : Process} {before after : Status},
      w.live.lookup pid = some ⟨process, before⟩ → ∀ p c,
        (w.live.insert pid ⟨process, after⟩).lookup p = some c →
          ∃ status, w.live.lookup p = some ⟨c.process, status⟩ := by
    intro pid process before after hlive p c hc
    rcases AList.lookup_insert_eq_some hc with ⟨rfl, rfl⟩ | ⟨-, hold⟩
    · exact ⟨before, hlive⟩
    · exact ⟨c.status, hold⟩
  cases hmove with
  | spawn hphase hjson hrequest hcallback clock =>
    constructor
    · exact List.map_subset _ (List.subset_append_left _ _) h.accepted
    · intro pid c hc
      rcases AList.lookup_insert_eq_some hc with ⟨-, rfl⟩ | ⟨-, hold⟩
      · -- the id of an accepted request has been seen
        rintro rfl
        refine hrequest.fresh ?_
        rw [hledger.seen, List.mem_toFinset]
        exact h.accepted
      · exact h.ended pid c hold
  | deny =>
    exact h.mono (List.subset_append_left _ _) fun _ c hc => ⟨c.status, hc⟩
  | call hlive | answer hlive | late hlive => exact h.mono (List.Subset.refl _) (hprogress hlive)
  | die =>
    exact h.mono (List.Subset.refl _) fun _ c hc => ⟨c.status, (AList.lookup_erase_eq_some hc).2⟩
  | fatal hphase hinbox hjob hstate =>
    subst hstate
    rw [clean_eq]
    exact h.mono (List.Subset.refl _) fun _ c hc => ⟨c.status, hc⟩
  | fail | stop =>
    rw [clean_eq]
    exact h.mono (List.Subset.refl _) fun _ c hc => ⟨c.status, hc⟩
  | _ => exact h.mono (List.Subset.refl _) fun _ c hc => ⟨c.status, hc⟩

/-- A turn takes one message. -/
theorem inbox_turn {message : Message} {rest : List Message} (hphase : w.phase = .running)
    (hinbox : w.inbox = message :: rest) (clock : ℕ → ℤ) :
    ∃ w', step cfg w (.turn clock) = some w' ∧ w'.inbox = rest := by
  simp only [step, hphase, hinbox]
  refine ⟨_, rfl, ?_⟩
  cases (handle cfg clock w.state message).2 with
  | loop | raised =>
    simp only [World.resume]
    rw [performAll_frame]
  | cleanup =>
    simp only [World.resume]
    rw [clean_eq, performAll_frame]

/-- **The turns of the broker alone** settle a request whose process has ended. -/
theorem exists_settled (hjason : cfg.jason.Lawful) (h : (system cfg).Reachable w)
    (hover : Over id w) : ∃ ls w',
      ((system cfg).restrict fun _ l _ => ∃ clock, l = .turn clock).Run w ls w' ∧
        (w'.phase = .running → id ∈ w'.replies.map (·.1.id)) := by
  refine System.exists_run_of_ranking (fun w => w.inbox.length)
    (I := fun w => (system cfg).Reachable w ∧ Over id w) ?_ ⟨h, hover⟩
  rintro w ⟨hreach, hover⟩ hgoal
  obtain ⟨hrunning, hunsent⟩ := Classical.not_imp.mp hgoal
  obtain ⟨hbooks, hledger, hreplies, -⟩ := replies_of_reachable hjason hreach
  -- the request has its job, and the `:DOWN` of the job is in the mailbox
  obtain ⟨r, hr, rfl⟩ := List.mem_map.mp hover.accepted
  obtain ⟨pid, job, hjob, hid⟩ := (hreplies.all hrunning r hr).resolve_left hunsent
  have hdead : pid ∉ w.live := by
    intro hlive
    obtain ⟨c, hc⟩ := AList.exists_lookup_of_mem hlive
    exact hover.ended pid c hc (((hbooks.processes pid c hc).2 job hjob).symm.trans hid)
  have hwaits : pid ∈ w.phase.waited w.state.jobs := by
    rw [hrunning]
    exact AList.mem_of_lookup hjob
  have hcount := hbooks.account pid
  rw [if_neg hdead, if_pos hwaits, Nat.zero_add] at hcount
  obtain ⟨message, rest, hinbox⟩ := List.exists_cons_of_ne_nil
    (List.ne_nil_of_mem (hbooks.down_mem hcount hjob))
  obtain ⟨w', hstep, hrest⟩ := @inbox_turn cfg w _ _ hrunning hinbox fun _ => 0
  have hover' := @invariant_of_step cfg (fun _ => True) _ _
    (fun w _ => Ledger cfg w ∧ Over r.id w) hjason (fun _ _ _ _ _ hw hmove =>
      ⟨ledger_move hw.1 hmove, over_move hw.1 hw.2 hmove⟩) _ (fun _ _ => trivial) hstep hbooks
    ⟨hledger, hover⟩
  refine ⟨_, w', ⟨hstep, _, rfl⟩, ⟨hreach.step hstep, hover'.2.2⟩, ?_⟩
  rw [hinbox, hrest]
  exact Nat.lt_succ_self _

/-! ### What the guest learns -/

/-- A granted request whose callback has come to a failure of a kind. -/
structure Fails (cfg : Config) (w : World) (request : Request) (failure : Failure) : Prop where
  accepted : request ∈ w.state.accepted
  granted : (cfg.limits.callbacks.lookup request.name).isSome
  behaved : ∃ b, Ended w request.id b ∧ b.failure? cfg.jason = some failure

variable {request : Request} {failure : Failure}

/-- The completion of a request whose callback has failed. -/
theorem reply_of_fails (hjason : cfg.jason.Lawful) (h : (system cfg).Reachable w)
    (hfails : Fails cfg w request failure) {c : Completion} {text : Bytes}
    (hsent : (c, text) ∈ w.replies) (hid : c.id = request.id) :
    .reply c text = verdict cfg.jason cfg.maxOutput request.id failure := by
  obtain ⟨-, hreplies, hdelivered⟩ := delivered_of_reachable hjason h
  obtain ⟨b, hended, hfailure⟩ := hfails.behaved
  have hsettles := hdelivered.sent c text request hsent hfails.accepted hid.symm hfails.granted
  rw [hid] at hsettles
  have hresult := hdelivered.result_eq hended hsettles
  rw [result_of_failure hjason hfailure] at hresult
  exact verdict_of_sends hjason hresult ⟨text, (hreplies.sent c text hsent).1, rfl⟩

/-- **Failures leak nothing.** The broker does not crash. For a granted request whose callback has
failed, whatever it came to: what the guest is sent is the verdict on the id, the limit and the kind
of failure, so two runs that agree on these send the same; the `:DOWN` of the process sends just
that; there is one completion at most, and while the broker runs there is one or a job; and once no
process of the request is alive, the turns of the broker alone lead to the completion, unless the
run worker stops the broker or the error of the run is sent. -/
theorem failures_leak_nothing (hjason : cfg.jason.Lawful) (h : (system cfg).Reachable w) :
    w.phase ≠ .crashed ∧
    (w.replies.map (·.1.id)).Nodup ∧
    (∀ request failure, Fails cfg w request failure →
      (∀ c text, (c, text) ∈ w.replies → c.id = request.id →
        .reply c text = verdict cfg.jason cfg.maxOutput request.id failure) ∧
      (w.phase = .running → Xor (request.id ∈ w.replies.map (·.1.id))
        (∃ pid job, w.state.jobs.lookup pid = some job ∧ job.id = request.id)) ∧
      (∀ ref pid rest job, w.phase = .running → w.inbox = .down ref pid :: rest →
        w.state.jobs.lookup pid = some job → job.id = request.id → ∀ clock,
          ∃ w', step cfg w (.turn clock) = some w' ∧
            w'.events = w.events ++ [verdict cfg.jason cfg.maxOutput request.id failure]) ∧
      ((∀ pid c, w.live.lookup pid = some c → c.process.id ≠ request.id) → ∃ ls w',
        ((system cfg).restrict fun _ l _ => ∃ clock, l = .turn clock).Run w ls w' ∧
          (w'.worker = .working → w'.errors = [] → request.id ∈ w'.replies.map (·.1.id)))) ∧
    ∀ cfg' w', cfg'.jason = cfg.jason → cfg'.maxOutput = cfg.maxOutput →
      (system cfg').Reachable w' → ∀ request request' failure, request'.id = request.id →
        Fails cfg w request failure → Fails cfg' w' request' failure →
          ∀ c text c' text', (c, text) ∈ w.replies → (c', text') ∈ w'.replies →
            c.id = request.id → c'.id = request.id → c' = c ∧ text' = text := by
  obtain ⟨hbooks, hreplies, hdelivered⟩ := delivered_of_reachable hjason h
  refine ⟨hbooks.alive, hreplies.once, fun request failure hfails =>
    ⟨fun c text hsent hid => reply_of_fails hjason h hfails hsent hid, fun hrunning => ?_,
      fun ref pid rest job hphase hinbox hjob hid clock => ?_, fun hended => ?_⟩, ?_⟩
  · -- a job whose completion has been sent is gone
    rcases hreplies.all hrunning request hfails.accepted with hsent | ⟨pid, job, hjob, hid⟩
    · refine .inl ⟨hsent, ?_⟩
      rintro ⟨pid, job, hjob, hid⟩
      exact hreplies.left pid job hjob (hid ▸ hsent)
    · exact .inr ⟨⟨pid, job, hjob, hid⟩, hid ▸ hreplies.left pid job hjob⟩
  · obtain ⟨b, hended, hfailure⟩ := hfails.behaved
    rw [← hid] at hended ⊢
    obtain ⟨result, event, w', hresult, -, hsends, hstep, hevents⟩ :=
      hdelivered.turn_down hjason hbooks hreplies hphase hinbox hjob hended clock
    rw [result_of_failure hjason hfailure] at hresult
    rw [verdict_of_sends hjason hresult hsends] at hevents
    exact ⟨w', hstep, hevents⟩
  · have hover : Over request.id w := ⟨List.mem_map_of_mem hfails.accepted, hended⟩
    obtain ⟨ls, w', hrun, hsettled⟩ := exists_settled hjason h hover
    refine ⟨ls, w', hrun, fun hworking hnone => hsettled ?_⟩
    have hreach : (system cfg).Reachable w' :=
      hrun.invariant (fun _ _ _ hs hst => hs.step hst.1) h
    exact ((replies_of_reachable hjason hreach).2.2.2 hworking hnone).1
  · intro cfg' w' hsame houtput h' request request' failure hids hfails hfails' c text c' text'
      hsent hsent' hid hid'
    have hone := reply_of_fails hjason h hfails hsent hid
    have hother := reply_of_fails (hsame ▸ hjason) h' hfails' hsent' (hid'.trans hids.symm)
    rw [hsame, houtput, hids, ← hone] at hother
    cases hother
    exact ⟨rfl, rfl⟩

/-- A callback process that is killed before it has sent anything. -/
def killed : List Label :=
  [.dispatch (frameOf [requestOf 1 "echo" "2"]), .turn fun _ => 0, .call 0, .die 0]

theorem failures_leak_nothing_killed : ∃ w w',
    System.trace (step echoConfig) (fun _ _ => True) .start killed = some w ∧
      step echoConfig w (.turn fun _ => 0) = some w' ∧
        w'.events = w.events ++ [verdict .reference echoConfig.maxOutput 1 .failed] := by
  have hsome : (System.trace (step echoConfig) (fun _ _ => True) .start killed).map
      (fun w => (w.phase, w.inbox, (w.state.jobs.lookup 0).map Job.id, w.finished.length)) =
      some (.running, [.down 0 0], some 1, 0) := by decide +kernel
  obtain ⟨w, htrace, hfacts⟩ := Option.map_eq_some_iff.mp hsome
  obtain ⟨hphase, hinbox, hjob, hfinished⟩ : _ ∧ _ ∧ _ ∧ _ := by
    simpa only [Prod.mk.injEq] using hfacts
  have htraced : ((system echoConfig).restrict fun _ _ _ => True).Reachable w :=
    System.reachable_of_trace (by rfl) htrace
  obtain ⟨job, hjob, hid⟩ := Option.map_eq_some_iff.mp hjob
  have hreplies := (replies_of_reachable Jason.reference_lawful htraced.of_restrict).2.2.1
  obtain ⟨request, haccepted, hrequest, hgranted⟩ := hreplies.granted 0 job hjob
  have hended : Ended w request.id (.killed (.atom "kill")) := by
    intro p outcome hp
    rw [List.eq_nil_of_length_eq_zero hfinished] at hp
    cases hp
  have hleak := (failures_leak_nothing Jason.reference_lawful htraced.of_restrict).2.2.1
  obtain ⟨w', hstep, hevents⟩ := (hleak request .failed ⟨haccepted, hgranted, _, hended, rfl⟩).2.2.1
    0 0 [] job hphase hinbox hjob hrequest.symm fun _ => 0
  rw [hrequest, hid] at hevents
  exact ⟨w, w', htrace, hstep, hevents⟩

end Javex.Callbacks
