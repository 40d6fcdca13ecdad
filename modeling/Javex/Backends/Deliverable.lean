import Javex.Callbacks.Sizes
import Javex.ForMathlib.Except
import Javex.Native.Execution
import Javex.Worker.Supervisor

/-!
# Completions are deliverable

A completion on its way from the broker to the guest. Its text is a JSON text in a JSON text, and
the bounds that it has to keep to are those of `Budgets::callback_completion_limit`: the stdin
thread of the supervisor reads a frame of at most so many bytes, takes an empty one for the end,
and `Execution::advance` checks once more. No admitted budget comes to the cap of that limit.

* `completions_deliverable`: whatever the broker sends is within the bounds, and what comes of a
  callback is sent exactly if the text that the quota is about is within the quota.

An error of a host function is bounded by a text that holds the code and the message, a value by its
own text; both are strings of the completion, which is quoted once more. The denial of a request
that has no grant is a constant text but for the id, and is held against the same quota: a quota
that is smaller than the denial ends the run, as it does for an answer that is too long.
-/

namespace Javex.Backends

open Codec Codec.Decoder Transition Callbacks

/-- A completion that comes through: its text is within the limit, reads back as the completion, and
is passed on by the stdin thread of the supervisor, as far as its cumulative cap allows, and by the
checks of `Execution::advance`. -/
structure Deliverable (cfg : Config) (c : Completion) (text : Bytes) : Prop where
  nonempty : text ≠ []
  length_le : ∀ opts : Native.Budgets, opts.maxCallbackOutput = cfg.maxOutput →
    ∀ w, mib64 < 2 ^ w → text.length ≤ opts.completionLimit w
  reads : ∃ members, Json.parse text = some (.arr [.obj members]) ∧
    ∀ key, (Json.obj members).get (utf8 key) = (c.fields.lookup key).map Scalar.toJson
  stdin : ∀ (worker : Worker.Config) (s : Worker.State) (left remaining : ℕ) (rest : Bytes),
    worker.budgets = cfg.limits.budgets → s.stdin = .reading left remaining →
      s.portIn = frameBytes text ++ rest → text.length ≤ remaining →
        Worker.stepStdin worker s = some { s with
          portIn := rest, stdin := .sending left (remaining - text.length) text }
  advance : ∀ (opts : Native.Budgets) (fromSlice : Bytes → Except Bytes Json) (life : Native.Life)
    (e : Native.Execution), opts.maxCallbackOutput = cfg.maxOutput →
      (Native.Life.system opts fromSlice).Reachable life → life.execution? = some e →
        ∀ message, Native.ensure (text.length ≤ e.maxCompletion) message = pure () ∧
          Native.ensure (text.length < 2 ^ 32) message = pure ()

variable {cfg : Config}

/-- A budget of the options does not come to the cap. -/
theorem completionLimit_lt (cfg : Config) : 6 * cfg.maxOutput + 4096 < mib64 := by
  have hle := cfg.limits.budgets.maxCallbackOutput_le
  rw [Config.maxOutput, mib64]
  omega

/-- **A valid completion with strings within the quota is deliverable.** -/
theorem deliverable_of_size (hjason : cfg.jason.Lawful) (hsized : cfg.jason.Sized) {c : Completion}
    (hvalid : c.Valid) (hid : c.id ≤ 1024) {text : Bytes} (htext : completionText cfg c = .ok text)
    (hsize : 6 * c.size + 140 ≤ 6 * cfg.maxOutput + 4096) : Deliverable cfg c text := by
  have hlength := (length_text_le hsized hid htext).trans hsize
  have hcap := completionLimit_lt cfg
  have hlimit : ∀ opts : Native.Budgets, opts.maxCallbackOutput = cfg.maxOutput →
      opts.callbackCompletionLimit = 6 * cfg.maxOutput + 4096 := by
    intro opts hopts
    rw [Native.Budgets.callbackCompletionLimit, hopts, Nat.mul_comm,
      min_eq_left (Nat.le_of_lt hcap)]
  constructor
  case nonempty => exact text_ne_nil hjason hvalid htext
  case length_le =>
    intro opts hopts w hw
    rw [Native.Budgets.completionLimit_eq opts hw, hlimit opts hopts]
    exact hlength
  case reads =>
    obtain ⟨text', members, htext', hparse, hget⟩ := completionText_ok hjason hvalid
    cases htext.symm.trans htext'
    exact ⟨members, hparse, hget⟩
  case stdin =>
    intro worker s left remaining rest hbudgets hstdin hport hremaining
    have hmaximum : worker.completionMaximum = 6 * cfg.maxOutput + 4096 := by
      rw [Worker.Config.completionMaximum, Worker.callbackCompletionLimit, hbudgets, Nat.mul_comm]
      exact min_eq_left (Nat.le_of_lt hcap)
    have hword : text.length < 4294967296 :=
      (hlength.trans (Nat.le_of_lt hcap)).trans_lt (by decide)
    have hframe : (frame (min remaining worker.completionMaximum)).next (frameBytes text ++ rest) =
        .done text rest := frame_next (le_min hremaining (hmaximum ▸ hlength)) hword rest
    simp only [Worker.stepStdin, hstdin, hport, hframe, if_neg (text_ne_nil hjason hvalid htext)]
  case advance =>
    intro opts fromSlice life e hopts hlife he message
    have hmaximum := (Native.Life.maxCompletion_of_reachable hlife e he).trans (hlimit opts hopts)
    have hword : text.length < 2 ^ 32 := (hlength.trans (Nat.le_of_lt hcap)).trans_lt (by decide)
    exact ⟨if_pos (hmaximum ▸ hlength), if_pos hword⟩

/-- A completion within the quota is deliverable. -/
theorem deliverable_of_encoded (hjason : cfg.jason.Lawful) (hsized : cfg.jason.Sized)
    {c : Completion} (hvalid : c.Valid) (hid : c.id ≤ 1024) {text : Bytes}
    (htext : completionText cfg c = .ok text)
    (hencoded : (c.encoded cfg.jason).length ≤ cfg.maxOutput) : Deliverable cfg c text := by
  have hsize := size_le_encoded hjason hsized hvalid
  exact deliverable_of_size hjason hsized hvalid hid htext (by omega)

/-- So is a denial, whatever the quota. -/
theorem deliverable_denial (hjason : cfg.jason.Lawful) (hsized : cfg.jason.Sized) {id : ℕ}
    (hid : id ≤ 1024) {text : Bytes} (htext : completionText cfg (denial id) = .ok text) :
    Deliverable cfg (denial id) text := by
  have hsize : (denial id).size = 40 := by
    simp only [denial, Completion.size, Completion.fields, Scalar.size, List.map_cons, List.map_nil,
      List.sum_cons, List.sum_nil]
    decide
  refine deliverable_of_size hjason hsized (denial_valid id) hid htext ?_
  rw [hsize]
  omega

/-- A completion that a callback comes to is within the quota. -/
theorem encoded_le_of_result (hjason : cfg.jason.Lawful) {id : ℕ} {b : Behaviour} {c : Completion}
    (h : b.result cfg id = .ok (.completion c)) : (c.encoded cfg.jason).length ≤ cfg.maxOutput := by
  obtain ⟨c', hyields⟩ := exists_yields cfg.jason id b
  obtain ⟨message, hresult⟩ := result_of_yields hjason hyields
  rw [hresult] at h
  split_ifs at h with hle
  · cases h
    exact hle
  · cases h

/-- A completion that answers a request is deliverable. -/
theorem deliverable_of_answers (hjason : cfg.jason.Lawful) (hsized : cfg.jason.Sized) {w : World}
    {request : Request} {c : Completion} (hid : request.id ≤ 1024) (hcid : request.id = c.id)
    (hvalid : c.Valid) (hanswers : Answers cfg w request c) {text : Bytes}
    (htext : completionText cfg c = .ok text) : Deliverable cfg c text := by
  have hresult : ∀ b : Behaviour, b.result cfg request.id = .ok (.completion c) →
      Deliverable cfg c text := fun b hb => deliverable_of_encoded hjason hsized hvalid
    (hcid ▸ hid) htext (encoded_le_of_result hjason hb)
  unfold Answers at hanswers
  split at hanswers
  · rcases hanswers with ⟨deadline, outcome, -, hinvoke⟩ | hfailed
    · cases outcome with
      | returned value => exact hresult (.returned value) hinvoke
      | failed => exact hresult (.raised .nil) hinvoke
    · exact hresult (.killed .nil) hfailed
  · subst hanswers
    exact deliverable_denial hjason hsized hid htext

/-- The error of a denial is within the quota exactly if its text is. -/
theorem denialFits_iff (hjason : cfg.jason.Lawful) (id : ℕ) :
    cfg.DenialFits ↔ ((denial id).encoded cfg.jason).length ≤ cfg.maxOutput := by
  have hsome := (hjason.encode_record [("code", .binary (utf8 "capability_denied")),
    ("message", .binary (utf8 "Callback is not granted"))] (by simp)).mpr (by
      simp only [List.forall_mem_cons]
      exact ⟨validString_utf8 _, validString_utf8 _, nofun⟩)
  obtain ⟨bytes, hbytes⟩ := Option.isSome_iff_exists.mp hsome
  simp only [Config.DenialFits, encode!_eq_ok, denial, Completion.encoded, Completion.errorFields,
    hbytes, Option.some.injEq, exists_eq_left', Option.getD_some]

/-- A frame with a request that is not granted is beyond the limits if the denial is. -/
theorem not_frameFits (hjason : cfg.jason.Lawful) {state : State} {bytes : Bytes} {json j : Json}
    {jsons : List Json} {request : Request} (hdecode : cfg.jason.decode bytes = some json)
    (hget : json.get (utf8 "requests") = some (.arr jsons)) (hmem : j ∈ jsons)
    (hjson : IsRequest j request) (hnone : cfg.limits.callbacks.lookup request.name = none)
    (hlong : cfg.maxOutput < ((denial request.id).encoded cfg.jason).length) :
    ¬ FrameFits cfg state bytes := by
  rintro ⟨-, json', jsons', requests, hdecode', hget', -, hforall, hwithin⟩
  cases hdecode.symm.trans hdecode'
  cases hget.symm.trans hget'
  obtain ⟨other, hother, hisRequest⟩ := hforall.exists_mem hmem
  have hname : request.name = other.name := by
    injection hjson.2.1.symm.trans hisRequest.2.1 with hname
    injection hname
  have hfits := hwithin.denials other hother (by rw [Request.granted, ← hname, hnone]; rfl)
  exact Nat.not_le_of_lt hlong ((denialFits_iff hjason request.id).mp hfits)

/-- The one error of a run is the one that stopped its broker. -/
theorem errors_after (hjason : cfg.jason.Lawful) {w w' : World} (h : (system cfg).Reachable w)
    {error : Kind × String} (herrors : w.errors = [error]) {ls : List Label}
    (hrun : (system cfg).Run w ls w') : w'.errors = [error] := by
  -- a broker that runs has sent no error
  have hstopped : w.phase ≠ .running := by
    intro hrunning
    rw [errors_running hjason h hrunning] at herrors
    cases herrors
  exact (errors_of_run hjason h hstopped hrun).2.trans herrors

/-- **Completions are deliverable.** Whatever a run has sent comes through, whichever outcome or
denial it is. A callback that has ended with a behaviour, of which there is always a completion to
be had, is answered with just that completion if the encoded value, or the encoded code and message,
are within `max_callback_output`, and with `callback_limit` as the one error of the run otherwise; a
request that is denied is treated likewise. -/
theorem completions_deliverable (hjason : cfg.jason.Lawful) (hsized : cfg.jason.Sized) {w : World}
    (h : (system cfg).Reachable w) :
    (∀ c text, (c, text) ∈ w.replies → Deliverable cfg c text) ∧
    (∀ id b, ∃ c, Behaviour.Yields cfg.jason id b c) ∧
    (∀ ref pid rest job b c clock, w.phase = .running → w.inbox = .down ref pid :: rest →
      w.state.jobs.lookup pid = some job → Ended w job.id b → b.Yields cfg.jason job.id c →
        ∃ w', step cfg w (.turn clock) = some w' ∧
          ((c.encoded cfg.jason).length ≤ cfg.maxOutput ∧
              (∃ text, w'.events = w.events ++ [.reply c text] ∧ Deliverable cfg c text) ∨
            cfg.maxOutput < (c.encoded cfg.jason).length ∧
              ∃ message, w'.events = w.events ++ [.error .callbackLimit message] ∧
                ∀ ls w'', (system cfg).Run w' ls w'' →
                  w''.errors = [(.callbackLimit, message)])) ∧
    (∀ state json request clock, IsRequest json request → Accepts cfg state request →
      cfg.limits.callbacks.lookup request.name = none →
        ((denial request.id).encoded cfg.jason).length ≤ cfg.maxOutput ∧
            (∃ text, dispatchRequest cfg clock state json =
                .ok ([.reply (denial request.id) text], state.accept request) ∧
              Deliverable cfg (denial request.id) text) ∨
          cfg.maxOutput < ((denial request.id).encoded cfg.jason).length ∧
            dispatchRequest cfg clock state json = .error (.error .callbackLimit
              "callback error exceeds max_callback_output")) ∧
    ∀ bytes rest json jsons j request clock, w.phase = .running →
      w.inbox = .dispatch bytes :: rest →
      cfg.jason.decode bytes = some json → json.get (utf8 "requests") = some (.arr jsons) →
        j ∈ jsons → IsRequest j request → cfg.limits.callbacks.lookup request.name = none →
          cfg.maxOutput < ((denial request.id).encoded cfg.jason).length →
            ∃ w' message, step cfg w (.turn clock) = some w' ∧
              ∀ ls w'', (system cfg).Run w' ls w'' → w''.errors = [(.callbackLimit, message)] := by
  obtain ⟨hbooks, hledger, hreplies, -⟩ := replies_of_reachable hjason h
  obtain ⟨-, -, hdelivered⟩ := delivered_of_reachable hjason h
  refine ⟨fun c text hsent => ?_, exists_yields cfg.jason, ?_, ?_, ?_⟩
  · obtain ⟨htext, hvalid, -, request, hrequest, hid, hanswers⟩ := hreplies.sent c text hsent
    exact deliverable_of_answers hjason hsized (hledger.sound request hrequest).id_le hid hvalid
      hanswers htext
  · intro ref pid rest job b c clock hphase hinbox hjob hended hyields
    obtain ⟨result, event, w', hresult, hfor, hsends, hstep, hevents⟩ :=
      hdelivered.turn_down hjason hbooks hreplies hphase hinbox hjob hended clock
    obtain ⟨message, hquota⟩ := result_of_yields hjason hyields
    have hid : job.id ≤ 1024 := by
      obtain ⟨request, hrequest, hid, -⟩ := hreplies.granted pid job hjob
      exact hid ▸ (hledger.sound request hrequest).id_le
    rw [hquota] at hresult
    refine ⟨w', hstep, ?_⟩
    by_cases hle : (c.encoded cfg.jason).length ≤ cfg.maxOutput
    · rw [if_pos hle] at hresult
      cases hresult
      obtain ⟨hcid, hvalid, -⟩ := hfor
      obtain ⟨text, htext, rfl⟩ := hsends
      exact .inl ⟨hle, text, hevents,
        deliverable_of_encoded hjason hsized hvalid (hcid ▸ hid) htext hle⟩
    · rw [if_neg hle] at hresult
      cases hresult
      obtain rfl : event = .error .callbackLimit message := hsends
      have hreach : (system cfg).Reachable w' := h.step hstep
      have herrors : w'.errors = [(.callbackLimit, message)] := by
        have hnone := errors_running hjason h hphase
        unfold World.errors at hnone ⊢
        rw [hevents, List.filterMap_append, hnone]
        rfl
      exact .inr ⟨Nat.lt_of_not_le hle, message, hevents, fun ls w'' hrun =>
        errors_after hjason hreach herrors hrun⟩
  · intro state json request clock hjson haccepts hnone
    have hfits := denialFits_iff hjason request.id
    rw [dispatchRequest_eq clock hjson haccepts, dispatchGranted, hnone]
    rcases rejectRequest_cases hjason (state.accept request) request.id with
      ⟨hfit, text, htext, hreject⟩ | ⟨hlong, hreject⟩
    · exact .inl ⟨hfits.mp hfit, text, hreject,
        deliverable_denial hjason hsized haccepts.id_le htext⟩
    · exact .inr ⟨Nat.lt_of_not_le (mt hfits.mpr hlong), hreject⟩
  · intro bytes rest json jsons j request clock hphase hinbox hdecode hget hmem hjson hnone hlong
    obtain ⟨w', hstep, -, message, herrors⟩ := turn_of_not_fits hjason h hphase hinbox
      (not_frameFits hjason hdecode hget hmem hjson hnone hlong) clock
    exact ⟨w', message, hstep, fun ls w'' hrun =>
      errors_after hjason (h.step hstep) herrors hrun⟩

/-- A callback that returns a value, and whose process is done. -/
def answered : List Label :=
  [.dispatch (frameOf [requestOf 1 "echo" "2"]), .turn fun _ => 0, .call 0,
    .answer 0 (.returned (.tuple [.atom "ok", .binary [0x22]])), .turn fun _ => 0, .die 0,
    .turn fun _ => 0]

theorem completions_deliverable_answered : ∃ w c text,
    System.trace (step echoConfig) (fun _ _ => True) .start answered = some w ∧
      w.replies = [(c, text)] ∧ Deliverable echoConfig c text := by
  have hsome : (System.trace (step echoConfig) (fun _ _ => True) .start answered).map
      (fun w => w.replies.length) = some 1 := by decide +kernel
  obtain ⟨w, htrace, hlength⟩ := Option.map_eq_some_iff.mp hsome
  obtain ⟨⟨c, text⟩, hreplies⟩ := List.length_eq_one_iff.mp hlength
  have htraced : ((system echoConfig).restrict fun _ _ _ => True).Reachable w :=
    System.reachable_of_trace (by rfl) htrace
  obtain ⟨hdeliverable, -⟩ := completions_deliverable Jason.reference_lawful Jason.reference_sized
    htraced.of_restrict
  exact ⟨w, c, text, htrace, hreplies, hdeliverable c text (hreplies ▸ List.mem_cons_self)⟩

end Javex.Backends
