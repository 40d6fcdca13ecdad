import Javex.Callbacks.Quotas

/-!
# Each accepted request is answered once

What the broker sends for the requests it has accepted. `Answers` says what a completion may be:
what the host function granted under the name of the request came to, with the decoded argument
of the request, or the denial or the failure of this very request. The invariant `Replies` follows
a result from the process that sent it into the job and out again; it keeps the completions and
the jobs apart, and together, while the broker runs, they are the accepted requests.

A completion that is sent rests on something that happened earlier: the host function was called
with the argument of the request, it came to something, and the process sent that. `Produced` and
`Answers` say so by what is recorded in the world, and neither is ever undone (`Produced.mono`,
`Answers.mono`), so that what held when the result was sent holds when it is forwarded.

While the broker runs, an accepted request is either among the jobs or has been answered, and not
both: the ids of the replies are distinct (`once`), no job has an id that was answered (`left`), and
every accepted request is in one of the two places (`all`).
-/

namespace Javex.Callbacks

open Codec Transition

/-- The completion in a message to the parent. -/
def Event.reply? : Event → Option (Completion × Bytes)
  | .reply completion text => some (completion, text)
  | .error _ _ => none

/-- The completions the broker has sent. -/
def World.replies (w : World) : List (Completion × Bytes) := w.events.filterMap Event.reply?

/-- The result of a call for the id. -/
def Produced (cfg : Config) (w : World) (id : ℕ) (result : Result) : Prop :=
  ∃ p outcome, (p, outcome) ∈ w.finished ∧ p.id = id ∧ Granted cfg w p ∧
    invoke cfg id outcome = .ok result

/-- What the completion of a request may be. -/
def Answers (cfg : Config) (w : World) (request : Request) (c : Completion) : Prop :=
  match cfg.limits.callbacks.lookup request.name with
  | some callback =>
    (∃ deadline outcome,
      (⟨request.id, callback, request.argument, deadline⟩, outcome) ∈ w.finished ∧
      invoke cfg request.id outcome = .ok (.completion c)) ∨
    callbackFailed cfg request.id = .ok (.completion c)
  | none => c = denial request.id

/-- The completions, the jobs and the results on their way to them. -/
structure Replies (cfg : Config) (w : World) : Prop where
  granted : ∀ pid job, w.state.jobs.lookup pid = some job →
    ∃ r ∈ w.state.accepted, r.id = job.id ∧ (cfg.limits.callbacks.lookup r.name).isSome
  recorded : ∀ pid job result, w.state.jobs.lookup pid = some job → job.result = some result →
    Produced cfg w job.id result
  results : ∀ pid result, .result pid result ∈ w.inbox →
    ∀ job, w.state.jobs.lookup pid = some job → Produced cfg w job.id result
  sent : ∀ c text, (c, text) ∈ w.replies → completionText cfg c = .ok text ∧ c.Valid ∧
    c.Readable ∧ ∃ r ∈ w.state.accepted, r.id = c.id ∧ Answers cfg w r c
  once : (w.replies.map (·.1.id)).Nodup
  apart : ∀ pid pid' job job', w.state.jobs.lookup pid = some job →
    w.state.jobs.lookup pid' = some job' → job.id = job'.id → pid = pid'
  left : ∀ pid job, w.state.jobs.lookup pid = some job → job.id ∉ w.replies.map (·.1.id)
  all : w.phase = .running → ∀ r ∈ w.state.accepted, r.id ∈ w.replies.map (·.1.id) ∨
    ∃ pid job, w.state.jobs.lookup pid = some job ∧ job.id = r.id

variable {cfg : Config} {allowed : Bytes → Prop} {w w' : World}

theorem replies_start : Replies cfg .start where
  granted _ _ h := by cases h
  recorded _ _ _ h := by cases h
  results _ _ h := by cases h
  sent _ _ h := by cases h
  once := List.nodup_nil
  apart _ _ _ _ h := by cases h
  left _ _ h := by cases h
  all _ _ h := by cases h

/-! ### What a reply rests on stays -/

theorem Produced.mono {id : ℕ} {result : Result} (h : Produced cfg w id result)
    (haccepted : w.state.accepted ⊆ w'.state.accepted) (hfinished : w.finished ⊆ w'.finished) :
    Produced cfg w' id result := by
  obtain ⟨p, outcome, hmem, hid, ⟨r, hr, hgranted⟩, hinvoke⟩ := h
  exact ⟨p, outcome, hfinished hmem, hid, ⟨r, haccepted hr, hgranted⟩, hinvoke⟩

theorem Answers.mono {r : Request} {c : Completion} (h : Answers cfg w r c)
    (hfinished : w.finished ⊆ w'.finished) : Answers cfg w' r c := by
  unfold Answers at h ⊢
  split
  · rename_i callback hcallback
    simp only [hcallback] at h
    rcases h with ⟨deadline, outcome, hmem, hinvoke⟩ | hfailed
    · exact .inl ⟨deadline, outcome, hfinished hmem, hinvoke⟩
    · exact .inr hfailed
  · rename_i hcallback
    simpa only [hcallback] using h

/-- Ids tell accepted requests apart. -/
theorem Ledger.unique (h : Ledger cfg w) {r s : Request} (hr : r ∈ w.state.accepted)
    (hs : s ∈ w.state.accepted) (hid : r.id = s.id) : r = s :=
  List.inj_on_of_nodup_map h.distinct hr hs hid

/-- A result of a job is an answer to its request. -/
theorem Produced.answers (hledger : Ledger cfg w) {r : Request} (hr : r ∈ w.state.accepted)
    {c : Completion} (h : Produced cfg w r.id (.completion c)) : Answers cfg w r c := by
  obtain ⟨⟨id, callback, argument, deadline⟩, outcome, hmem, rfl, ⟨s, hs, hid, hcallback,
    rfl⟩, hinvoke⟩ := h
  obtain rfl := hledger.unique hs hr hid
  unfold Answers
  rw [hcallback]
  exact .inl ⟨deadline, outcome, hmem, hinvoke⟩

/-! ### What the moves do -/

/-- Nothing is sent and no job is new. -/
theorem Replies.mono (h : Replies cfg w)
    (hjobs : ∀ pid job, w'.state.jobs.lookup pid = some job → w.state.jobs.lookup pid = some job)
    (haccepted : w'.state.accepted = w.state.accepted) (hreplies : w'.replies = w.replies)
    (hfinished : w.finished ⊆ w'.finished)
    (hinbox : ∀ pid result, .result pid result ∈ w'.inbox → .result pid result ∈ w.inbox)
    (hphase : w'.phase = .running → w.phase = .running ∧ w'.state.jobs = w.state.jobs) :
    Replies cfg w' := by
  have hgrow : w.state.accepted ⊆ w'.state.accepted := haccepted ▸ List.Subset.refl _
  refine ⟨fun pid job hjob => ?_, fun pid job result hjob hresult => ?_,
    fun pid result hmem job hjob => ?_, fun c text hmem => ?_, ?_,
    fun pid pid' job job' hjob hjob' => h.apart _ _ _ _ (hjobs _ _ hjob) (hjobs _ _ hjob'),
    fun pid job hjob => ?_, fun hrunning r hr => ?_⟩
  · rw [haccepted]
    exact h.granted pid job (hjobs pid job hjob)
  · exact (h.recorded pid job result (hjobs pid job hjob) hresult).mono hgrow hfinished
  · exact (h.results pid result (hinbox pid result hmem) job (hjobs pid job hjob)).mono hgrow
      hfinished
  · rw [hreplies] at hmem
    obtain ⟨htext, hvalid, hreadable, r, hr, hid, hanswers⟩ := h.sent c text hmem
    exact ⟨htext, hvalid, hreadable, r, hgrow hr, hid, hanswers.mono hfinished⟩
  · rw [hreplies]
    exact h.once
  · rw [hreplies]
    exact h.left pid job (hjobs pid job hjob)
  · obtain ⟨hrunning', hsame⟩ := hphase hrunning
    rw [hreplies, hsame]
    exact h.all hrunning' r (haccepted ▸ hr)

/-- A process sends what its host function came to. -/
theorem Replies.answer (h : Replies cfg w) (hbooks : Books cfg w) (hledger : Ledger cfg w)
    {pid : ℕ} {process : Process} {outcome : Outcome} {result : Result}
    (hlive : w.live.lookup pid = some ⟨process, .calling⟩)
    (hresult : invoke cfg process.id outcome = .ok result) {live : AList fun _ : ℕ => Callback} :
    Replies cfg { w.post (.result pid result) with
      live, finished := w.finished ++ [(process, outcome)] } := by
  have hgrow : w.finished ⊆ w.finished ++ [(process, outcome)] := List.subset_append_left _ _
  have hmono : Replies cfg { w with live, finished := w.finished ++ [(process, outcome)] } :=
    h.mono (fun _ _ => id) rfl rfl hgrow (fun _ _ => id) fun hphase => ⟨hphase, rfl⟩
  refine ⟨hmono.granted, hmono.recorded, fun p r hmem job hjob => ?_, hmono.sent, hmono.once,
    hmono.apart, hmono.left, hmono.all⟩
  rcases List.mem_append.mp hmem with hold | hnew
  · exact hmono.results p r hold job hjob
  · cases List.mem_singleton.mp hnew
    rw [(hbooks.processes pid _ hlive).2 job hjob]
    exact ⟨process, outcome, List.mem_append_right _ List.mem_cons_self, rfl,
      hledger.live pid _ hlive, hresult⟩

/-- A result is recorded in its job. -/
theorem Replies.record (h : Replies cfg w) {pid : ℕ} {result : Result} {rest : List Message}
    {job : Job} (hinbox : w.inbox = .result pid result :: rest)
    (hjob : w.state.jobs.lookup pid = some job) :
    Replies cfg { w with
      inbox := rest
      state := { w.state with
        jobs := w.state.jobs.insert pid { job with result := some result } } } := by
  -- every job is an old one, but for its result
  have hlookup : ∀ {p j}, (w.state.jobs.insert pid { job with result := some result }).lookup p =
      some j → ∃ old, w.state.jobs.lookup p = some old ∧ j.id = old.id ∧
        (j.result = old.result ∨ p = pid ∧ j.result = some result) := by
    intro p j hj
    rcases AList.lookup_insert_eq_some hj with ⟨rfl, rfl⟩ | ⟨-, hold⟩
    · exact ⟨job, hjob, rfl, .inr ⟨rfl, rfl⟩⟩
    · exact ⟨j, hold, rfl, .inl rfl⟩
  refine ⟨fun p j hj => ?_, fun p j r hj hr => ?_, fun p r hmem j hj => ?_, h.sent, h.once,
    fun p p' j j' hj hj' heq => ?_, fun p j hj => ?_, fun hphase r hr => ?_⟩
  · obtain ⟨old, hold, hid, -⟩ := hlookup hj
    exact hid ▸ h.granted p old hold
  · obtain ⟨old, hold, hid, hsame | ⟨rfl, hthis⟩⟩ := hlookup hj
    · exact hid ▸ h.recorded p old r hold (hsame ▸ hr)
    · cases hthis.symm.trans hr
      cases hold.symm.trans hjob
      exact hid ▸ h.results p result (hinbox ▸ List.mem_cons_self) job hjob
  · obtain ⟨old, hold, hid, -⟩ := hlookup hj
    exact hid ▸ h.results p r (hinbox ▸ List.mem_cons_of_mem _ hmem) old hold
  · obtain ⟨old, hold, hid, -⟩ := hlookup hj
    obtain ⟨old', hold', hid', -⟩ := hlookup hj'
    exact h.apart p p' old old' hold hold' (hid ▸ hid' ▸ heq)
  · obtain ⟨old, hold, hid, -⟩ := hlookup hj
    exact hid ▸ h.left p old hold
  · rcases h.all hphase r hr with hsent | ⟨p, j, hj, hid⟩
    · exact .inl hsent
    · by_cases hp : p = pid
      · subst hp
        cases hj.symm.trans hjob
        exact .inr ⟨p, _, AList.lookup_insert _, hid⟩
      · exact .inr ⟨p, j, (AList.lookup_insert_ne hp).trans hj, hid⟩

/-- The ids of the jobs and of the completions are those of accepted requests. -/
theorem Replies.mem_accepted (h : Replies cfg w) {c : Completion} {text : Bytes}
    (hmem : (c, text) ∈ w.replies) : c.id ∈ w.state.accepted.map Request.id := by
  obtain ⟨-, -, -, r, hr, hid, -⟩ := h.sent c text hmem
  exact hid ▸ List.mem_map_of_mem hr

theorem Replies.fresh (h : Replies cfg w) (hledger : Ledger cfg w) {request : Request}
    (hrequest : Accepts cfg w.state request) :
    request.id ∉ w.replies.map (·.1.id) ∧
      ∀ pid job, w.state.jobs.lookup pid = some job → job.id ≠ request.id := by
  have hseen := hrequest.fresh
  rw [hledger.seen, List.mem_toFinset] at hseen
  refine ⟨fun hmem => ?_, fun pid job hjob heq => ?_⟩
  · obtain ⟨⟨c, text⟩, hsent, hid⟩ := List.mem_map.mp hmem
    exact hseen (hid ▸ h.mem_accepted hsent)
  · obtain ⟨r, hr, hid, -⟩ := h.granted pid job hjob
    exact hseen (heq ▸ hid ▸ List.mem_map_of_mem hr)

/-- A request is accepted and its process is started. -/
theorem Replies.spawn (h : Replies cfg w) (hbooks : Books cfg w) (hledger : Ledger cfg w)
    {request : Request} (hrequest : Accepts cfg w.state request)
    (hgranted : (cfg.limits.callbacks.lookup request.name).isSome) {state : State}
    (hjobs : state.jobs = w.state.jobs.insert w.state.spawned
      ⟨request.id, w.state.spawned, w.state.spawned, none⟩)
    (haccepted : state.accepted = w.state.accepted ++ [request])
    {live : AList fun _ : ℕ => Callback} {timers : Finset ℕ} :
    Replies cfg { w with state, live, timers } := by
  have hgrow : w.state.accepted ⊆ state.accepted := haccepted ▸ List.subset_append_left _ _
  obtain ⟨hunsent, hother⟩ := h.fresh hledger hrequest
  have hlookup : ∀ {p j}, state.jobs.lookup p = some j →
      (p = w.state.spawned ∧ j = ⟨request.id, w.state.spawned, w.state.spawned, none⟩) ∨
        w.state.jobs.lookup p = some j := by
    intro p j hj
    rw [hjobs] at hj
    exact (AList.lookup_insert_eq_some hj).imp id And.right
  refine ⟨fun p j hj => ?_, fun p j r hj hr => ?_, fun p r hmem j hj => ?_, fun c text hmem => ?_,
    h.once, fun p p' j j' hj hj' heq => ?_, fun p j hj => ?_, fun hphase r hr => ?_⟩
  · rcases hlookup hj with ⟨-, rfl⟩ | hold
    · exact ⟨request, haccepted ▸ List.mem_append_right _ List.mem_cons_self, rfl, hgranted⟩
    · obtain ⟨r, hr, hid, hsome⟩ := h.granted p j hold
      exact ⟨r, hgrow hr, hid, hsome⟩
  · rcases hlookup hj with ⟨-, rfl⟩ | hold
    · cases hr
    · exact (h.recorded p j r hold hr).mono hgrow (List.Subset.refl _)
  · rcases hlookup hj with ⟨rfl, -⟩ | hold
    · exact absurd (hbooks.answers _ r hmem).1 (Nat.lt_irrefl _)
    · exact (h.results p r hmem j hold).mono hgrow (List.Subset.refl _)
  · obtain ⟨htext, hvalid, hreadable, r, hr, hid, hanswers⟩ := h.sent c text hmem
    exact ⟨htext, hvalid, hreadable, r, hgrow hr, hid, hanswers⟩
  · rcases hlookup hj with ⟨rfl, rfl⟩ | hold <;> rcases hlookup hj' with ⟨rfl, rfl⟩ | hold'
    · rfl
    · exact absurd heq.symm (hother p' j' hold')
    · exact absurd heq (hother p j hold)
    · exact h.apart p p' j j' hold hold' heq
  · rcases hlookup hj with ⟨rfl, rfl⟩ | hold
    · exact hunsent
    · exact h.left p j hold
  · rw [show _ = _ from haccepted] at hr
    rcases List.mem_append.mp hr with hold | hnew
    · rcases h.all hphase r hold with hsent | ⟨p, j, hj, hid⟩
      · exact .inl hsent
      · refine .inr ⟨p, j, ?_, hid⟩
        have hne : p ≠ w.state.spawned := Nat.ne_of_lt (hbooks.jobs p j hj).1
        rw [show _ = _ from hjobs, AList.lookup_insert_ne hne]
        exact hj
    · obtain rfl := List.mem_singleton.mp hnew
      refine .inr ⟨w.state.spawned, ⟨r.id, w.state.spawned, w.state.spawned, none⟩, ?_, rfl⟩
      rw [show _ = _ from hjobs, AList.lookup_insert]

theorem replies_reply {w' : World} {c : Completion} {text : Bytes}
    (h : w'.events = w.events ++ [.reply c text]) : w'.replies = w.replies ++ [(c, text)] := by
  rw [World.replies, h, List.filterMap_append]
  rfl

/-- A completion is sent for a request that has none. -/
theorem Replies.reply (h : Replies cfg w) {c : Completion} {text : Bytes}
    (htext : completionText cfg c = .ok text) (hvalid : c.Valid) (hreadable : c.Readable)
    {r : Request} (hr : r ∈ w'.state.accepted) (hid : r.id = c.id) (hanswers : Answers cfg w r c)
    (hunsent : c.id ∉ w.replies.map (·.1.id))
    (hjobs : ∀ pid job, w'.state.jobs.lookup pid = some job →
      w.state.jobs.lookup pid = some job ∧ job.id ≠ c.id)
    (hkept : ∀ pid job, w.state.jobs.lookup pid = some job →
      w'.state.jobs.lookup pid = some job ∨ job.id = c.id)
    (hgrow : w.state.accepted ⊆ w'.state.accepted)
    (hnew : ∀ s ∈ w'.state.accepted, s ∈ w.state.accepted ∨ s.id = c.id)
    (hevents : w'.events = w.events ++ [.reply c text]) (hfinished : w'.finished = w.finished)
    (hinbox : ∀ pid result, .result pid result ∈ w'.inbox → .result pid result ∈ w.inbox)
    (hphase : w'.phase = w.phase) : Replies cfg w' := by
  have hreplies := replies_reply hevents
  have hsame : w.finished ⊆ w'.finished := hfinished ▸ List.Subset.refl _
  refine ⟨fun p j hj => ?_, fun p j result hj hresult => ?_, fun p result hmem j hj => ?_,
    fun d text' hmem => ?_, ?_, fun p p' j j' hj hj' => h.apart p p' j j' (hjobs p j hj).1
      (hjobs p' j' hj').1, fun p j hj => ?_, fun hrunning s hs => ?_⟩
  · obtain ⟨s, hs, hsid, hsome⟩ := h.granted p j (hjobs p j hj).1
    exact ⟨s, hgrow hs, hsid, hsome⟩
  · exact (h.recorded p j result (hjobs p j hj).1 hresult).mono hgrow hsame
  · exact (h.results p result (hinbox p result hmem) j (hjobs p j hj).1).mono hgrow hsame
  · rw [hreplies] at hmem
    rcases List.mem_append.mp hmem with hold | hthis
    · obtain ⟨htext', hvalid', hreadable', s, hs, hsid, hs'⟩ := h.sent d text' hold
      exact ⟨htext', hvalid', hreadable', s, hgrow hs, hsid, hs'.mono hsame⟩
    · cases List.mem_singleton.mp hthis
      exact ⟨htext, hvalid, hreadable, r, hr, hid, hanswers.mono hsame⟩
  · rw [hreplies, List.map_append, List.nodup_append]
    refine ⟨h.once, List.nodup_singleton _, fun a ha b hb => ?_⟩
    intro heq
    obtain rfl : b = c.id := List.mem_singleton.mp hb
    exact hunsent (heq ▸ ha)
  · rw [hreplies, List.map_append, List.mem_append, not_or]
    exact ⟨h.left p j (hjobs p j hj).1, fun hthis => (hjobs p j hj).2 (List.mem_singleton.mp hthis)⟩
  · have hthis : c.id ∈ w'.replies.map (·.1.id) := by
      rw [hreplies, List.map_append]
      exact List.mem_append_right _ List.mem_cons_self
    have hmore : ∀ id ∈ w.replies.map (·.1.id), id ∈ w'.replies.map (·.1.id) := by
      intro id hmem
      rw [hreplies, List.map_append]
      exact List.mem_append_left _ hmem
    rcases hnew s hs with hold | heq
    · rcases h.all (hphase ▸ hrunning) s hold with hsent | ⟨p, j, hj, hjid⟩
      · exact .inl (hmore _ hsent)
      · rcases hkept p j hj with hj' | heq
        · exact .inr ⟨p, j, hj', hjid⟩
        · exact .inl (hjid ▸ heq ▸ hthis)
    · exact .inl (heq ▸ hthis)

theorem denial_valid (id : ℕ) : (denial id).Valid := by
  simp only [Completion.Valid, denial, Completion.fields, List.forall_mem_cons]
  exact ⟨trivial, trivial, validString_utf8 _, validString_utf8 _, List.forall_mem_nil _⟩

/-- **Every move keeps the replies.** -/
theorem replies_move (hjason : cfg.jason.Lawful) (hbooks : Books cfg w) (hledger : Ledger cfg w)
    (h : Replies cfg w) {requests requests' : List Json}
    (hmove : Move cfg allowed (w, requests) (w', requests')) : Replies cfg w' := by
  cases hmove with
  | take hphase hinbox | frame hphase hinbox =>
    exact h.mono (fun _ _ => id) rfl rfl (List.Subset.refl _)
      (fun _ _ hmem => hinbox ▸ List.mem_cons_of_mem _ hmem) fun hrunning => ⟨hrunning, rfl⟩
  | spawn hphase hjson hrequest hcallback clock =>
    exact h.spawn hbooks hledger hrequest (by rw [hcallback]; rfl) rfl rfl
  | @deny _ json _ request text hphase hjson hrequest hcallback htext =>
    obtain ⟨hunsent, hother⟩ := h.fresh hledger hrequest
    have hanswers : Answers cfg w request (denial request.id) := by
      rw [Answers, hcallback]
    refine h.reply htext (denial_valid _) trivial (List.mem_append_right _ List.mem_cons_self) rfl
      hanswers hunsent (fun pid job hjob => ⟨hjob, hother pid job hjob⟩) (fun _ _ hjob => .inl hjob)
      (List.subset_append_left _ _) (fun s hs => ?_) rfl rfl (fun _ _ => id) rfl
    exact (List.mem_append.mp hs).imp id fun hnew =>
      congrArg Request.id (List.mem_singleton.mp hnew)
  | record hphase hinbox hjob => exact h.record hinbox hjob
  | @complete _ ref pid rest job c text hphase hinbox hjob hresult htext =>
    obtain ⟨r, hr, hid, hgranted⟩ := h.granted pid job hjob
    have hfor : c.id = job.id ∧ c.Valid ∧ c.Readable := by
      rcases hresult with hrecorded | ⟨-, hfailed⟩
      · exact hbooks.recorded pid job hjob _ hrecorded
      · obtain ⟨result, hok, hfor⟩ := callbackFailed_ok hjason job.id
        cases hok.symm.trans hfailed
        exact hfor
    obtain ⟨hcid, hvalid, hreadable⟩ := hfor
    have hanswers : Answers cfg w r c := by
      rcases hresult with hrecorded | ⟨-, hfailed⟩
      · exact (hid ▸ h.recorded pid job _ hjob hrecorded).answers hledger hr
      · obtain ⟨callback, hcallback⟩ := Option.isSome_iff_exists.mp hgranted
        rw [Answers, hcallback]
        exact .inr (hid ▸ hfailed)
    refine h.reply htext hvalid hreadable hr (hid.trans hcid.symm) hanswers
      (hcid ▸ h.left pid job hjob) (fun p j hj => ?_) (fun p j hj => ?_) (List.Subset.refl _)
      (fun s hs => .inl hs) rfl rfl (fun _ _ hmem => hinbox ▸ List.mem_cons_of_mem _ hmem) rfl
    · obtain ⟨hne, hold⟩ := AList.lookup_erase_eq_some hj
      exact ⟨hold, fun heq => hne (h.apart p pid j job hold hjob (heq.trans hcid))⟩
    · by_cases hp : p = pid
      · subst hp
        cases hj.symm.trans hjob
        exact .inr hcid.symm
      · exact .inl ((AList.lookup_erase_ne hp).trans hj)
  | fatal hphase hinbox hjob hstate message =>
    subst hstate
    rw [clean_eq]
    exact h.mono (fun _ _ hj => (AList.lookup_erase_eq_some hj).2) rfl
      (by simp [World.replies, World.perform, Event.reply?]) (List.Subset.refl _)
      (fun _ _ hmem => hinbox ▸ List.mem_cons_of_mem _ hmem) (by rintro ⟨⟩)
  | fail hphase requests kind hkind message =>
    rw [clean_eq]
    exact h.mono (fun _ _ => id) rfl (by simp [World.replies, World.perform, Event.reply?])
      (List.Subset.refl _) (fun _ _ => id) (by rintro ⟨⟩)
  | stop hphase hinbox hmessage =>
    rw [clean_eq]
    exact h.mono (fun _ _ => id) rfl rfl (List.Subset.refl _)
      (fun _ _ hmem => hinbox ▸ List.mem_cons_of_mem _ hmem) (by rintro ⟨⟩)
  | await hphase hdown =>
    exact h.mono (fun _ _ => id) rfl rfl (List.Subset.refl _)
      (fun _ _ hmem => List.mem_of_mem_erase hmem) (by rintro ⟨⟩)
  | exit hphase =>
    exact h.mono (fun _ _ => id) rfl rfl (List.Subset.refl _) (fun _ _ => id) (by rintro ⟨⟩)
  | answer hlive hresult => exact h.answer hbooks hledger hlive hresult
  | call hlive =>
    exact h.mono (fun _ _ => id) rfl rfl (List.Subset.refl _) (fun _ _ => id)
      fun hrunning => ⟨hrunning, rfl⟩
  | late | die | fire | noise | dispatch | finish | workerDies =>
    refine h.mono (fun _ _ => id) rfl rfl (List.Subset.refl _) (fun _ _ hmem => ?_)
      fun hrunning => ⟨hrunning, rfl⟩
    rcases List.mem_append.mp hmem with hold | hnew
    · exact hold
    · cases List.mem_singleton.mp hnew
  | stopped | report =>
    exact h.mono (fun _ _ => id) rfl rfl (List.Subset.refl _) (fun _ _ => id)
      fun hrunning => ⟨hrunning, rfl⟩

/-! ### While the run goes on -/

/-- The broker runs as long as the run worker works and no error has been sent. -/
def Ongoing (w : World) : Prop :=
  w.worker = .working → w.errors = [] →
    w.phase = .running ∧ .stop ∉ w.inbox ∧ .parentDown ∉ w.inbox

theorem errors_reply {c : Completion} {text : Bytes}
    (h : w'.events = w.events ++ [.reply c text]) : w'.errors = w.errors := by
  rw [World.errors, h, List.filterMap_append]
  exact List.append_nil _

theorem Ongoing.mono (h : Ongoing w) (hworker : w'.worker = w.worker)
    (herrors : w'.errors = w.errors)
    (hphase : w'.phase = w.phase)
    (hinbox : ∀ message ∈ w'.inbox, message ∈ w.inbox ∨ message ≠ .stop ∧ message ≠ .parentDown) :
    Ongoing w' := by
  intro hworking hnone
  obtain ⟨hrunning, hstop, hdown⟩ := h (hworker ▸ hworking) (herrors ▸ hnone)
  refine ⟨hphase ▸ hrunning, fun hmem => ?_, fun hmem => ?_⟩
  · exact (hinbox _ hmem).elim hstop fun hne => hne.1 rfl
  · exact (hinbox _ hmem).elim hdown fun hne => hne.2 rfl

/-- Every move keeps the broker running until the run worker stops or an error is sent. -/
theorem ongoing_move (h : Ongoing w) {requests requests' : List Json}
    (hmove : Move cfg allowed (w, requests) (w', requests')) : Ongoing w' := by
  cases hmove with
  | take hphase hinbox | frame hphase hinbox | record hphase hinbox =>
    exact h.mono rfl rfl rfl fun _ hmem => .inl (hinbox ▸ List.mem_cons_of_mem _ hmem)
  | complete hphase hinbox =>
    exact h.mono rfl (errors_reply rfl) rfl fun _ hmem =>
      .inl (hinbox ▸ List.mem_cons_of_mem _ hmem)
  | deny => exact h.mono rfl (errors_reply rfl) rfl fun _ hmem => .inl hmem
  | spawn | call => exact h.mono rfl rfl rfl fun _ hmem => .inl hmem
  | fatal | fail =>
    rw [clean_eq]
    intro _ hnone
    simp [World.errors, World.perform] at hnone
  | stop hphase hinbox hmessage =>
    rw [clean_eq]
    intro hworking hnone
    obtain ⟨-, hstop, hdown⟩ := h hworking hnone
    rcases hmessage with rfl | rfl
    · exact absurd (hinbox ▸ List.mem_cons_self) hstop
    · exact absurd (hinbox ▸ List.mem_cons_self) hdown
  | await hphase | exit hphase =>
    intro hworking hnone
    have hrunning := (h hworking hnone).1
    rw [hphase] at hrunning
    cases hrunning
  | answer | late | die | fire | noise | dispatch =>
    refine h.mono rfl rfl rfl fun message hmem => (List.mem_append.mp hmem).imp_right fun hnew => ?_
    cases List.mem_singleton.mp hnew
    constructor <;> rintro ⟨⟩
  | finish | stopped | report | workerDies => rintro ⟨⟩

/-- **Requests, processes and replies** agree in every reachable world. -/
theorem replies_of_reachable (hjason : cfg.jason.Lawful) (h : (system cfg).Reachable w) :
    Books cfg w ∧ Ledger cfg w ∧ Replies cfg w ∧ Ongoing w := by
  refine invariant_of_moves (I := fun w _ => Ledger cfg w ∧ Replies cfg w ∧ Ongoing w) hjason
    ⟨ledger_start, replies_start, fun _ _ => ⟨rfl, nofun, nofun⟩⟩ ?_ h
  rintro w requests w' requests' hbooks ⟨hledger, hreplies, hongoing⟩ hmove
  exact ⟨ledger_move hledger hmove, replies_move hjason hbooks hledger hreplies hmove,
    ongoing_move hongoing hmove⟩

end Javex.Callbacks
