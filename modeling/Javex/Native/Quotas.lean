import Javex.Native.Execution

/-!
# An exceeded quota is final

A write that overran a stream and a growth that was refused leave a flag that nothing takes down,
and every way out of a call that ran guest code looks at the flags first. The one way out that
does not, an advance without a bridge, comes after a start that did.

* `quotas_are_final`: after an overrun or a refusal no call returns anything but an error, and the
  bytes of a result are all that was written.

The log of a sandbox says which writes and growths were refused, and `Honest` says that the flags
say the same; a flag that is up stays up because no code takes it down. What remains is to look at
every way out of `start` and `advance`, and to see that between the last host call and the result
there is a check of the flags. `Execution.Final` is what is known of an execution between two calls:
it is within its quotas, or every further call returns an error.

The exact bytes of a result come from the same place: `finish` hands over the whole of stdout, and a
stream that was not overrun holds all that was written to it.
-/

namespace Javex.Native

open Codec Transition

variable {α : Type} {opts : Budgets} {s : Sandbox} {now : Moment}

theorem Calls.exceeded {log : List Event} {kind : Kind} (h : Calls log kind) : Exceeded log := by
  cases h with
  | oom h => exact .inl h
  | outputLimit _ h => exact .inr (.inl h)
  | diagnosticLimit _ _ h => exact .inr (.inr h)

/-- When it may look at the flags, `finish` returns the error that the host calls call for. -/
theorem Sandbox.Honest.finish_eq (h : s.Honest opts) {kind : Kind} (hcalls : Calls s.log kind)
    (hcancelled : now.cancelled = false) (hlate : now.late = false) (result : Except Failure α) :
    ∃ message, s.finish now result = .error (kind, message) := by
  simp only [Sandbox.finish, hcancelled, hlate, Bool.false_eq_true, if_false]
  cases hcalls with
  | oom hgrowth =>
    rw [if_pos (h.limiter.mpr hgrowth)]
    exact ⟨_, rfl⟩
  | outputLimit hgrowth houtput =>
    rw [if_neg (mt h.limiter.mp hgrowth), if_pos (h.stdout.exceeded_iff.mpr houtput)]
    exact ⟨_, rfl⟩
  | diagnosticLimit hgrowth houtput hdiagnostic =>
    rw [if_neg (mt h.limiter.mp hgrowth), if_neg (mt h.stdout.exceeded_iff.mp houtput),
      if_pos (h.stderr.exceeded_iff.mpr hdiagnostic)]
    exact ⟨_, rfl⟩

/-- A value that `finish` lets through is the value of the result. -/
theorem Sandbox.eq_of_finish {result : Except Failure α} {value : α}
    (h : s.finish now result = .ok value) : result = .ok value := by
  simp only [Sandbox.finish] at h
  cases result with
  | ok a =>
    simp only at h
    split_ifs at h
    cases h
    rfl
  | error failure =>
    cases failure <;> simp only at h <;> split_ifs at h

/-- `finish` lets a value through only while no quota is exceeded. -/
theorem Sandbox.Honest.of_finish (h : s.Honest opts) {result : Except Failure α} {value : α}
    (hfinish : s.finish now result = .ok value) : ¬ Exceeded s.log := by
  simp only [Sandbox.finish] at hfinish
  split_ifs at hfinish with hcancelled hlate hgrowth houtput hdiagnostic
  all_goals
    rw [Exceeded, ← h.limiter, ← h.stdout.exceeded_iff, ← h.stderr.exceeded_iff]
    tauto

/-- The bytes of a stream that was not overrun. -/
theorem Sandbox.Honest.stdout_eq (h : s.Honest opts) (hnot : ¬ Exceeded s.log) :
    s.stdout.bytes = written s.log ∧ (written s.log).length ≤ opts.maxOutput ∧
      (diagnostics s.log).length ≤ opts.maxStderr := by
  have hout : s.stdout.exceeded = false := by
    rw [← Bool.not_eq_true, h.stdout.exceeded_iff]
    exact fun hoverrun => hnot (.inr (.inl hoverrun))
  have herr : s.stderr.exceeded = false := by
    rw [← Bool.not_eq_true, h.stderr.exceeded_iff]
    exact fun hoverrun => hnot (.inr (.inr hoverrun))
  have hbytes := h.stdout.bytes_eq hout
  exact ⟨hbytes, hbytes ▸ h.stdout.length_le, h.stderr.bytes_eq herr ▸ h.stderr.length_le⟩

/-- A closure leaves an honest sandbox. -/
theorem Host.Keeps.honest {m : Host α} (hm : Host.Keeps m) (h : s.Honest opts) :
    (m.run.run s).2.Honest opts :=
  hm (Sandbox.Honest opts) (fun _ action hs => hs.perform action) s h

/-! ### The calls -/

/-- A start leaves an honest sandbox, and it succeeds only while no quota is exceeded. -/
theorem Execution.start_spec {wasm input : Bytes} {launch : Launch}
    {result : Except (Kind × Bytes) Execution} {left : Sandbox}
    (h : Execution.start wasm input opts launch now = (result, left)) :
    left.Honest opts ∧
      (∀ e, result = .ok e → e.sandbox = left ∧ ¬ Exceeded left.log) ∧
      ∀ error, result = .error error → ∀ kind, Calls left.log kind → now.cancelled = false →
        now.late = false → error.1 = kind := by
  have hnew := Sandbox.Honest.new opts launch.limits
  have hnone : ∀ kind, ¬ Calls (Sandbox.new opts launch.limits).log kind := by
    intro kind hcalls
    have hexceeded := hcalls.exceeded
    simp [Sandbox.new, Exceeded, GrowthRefused, OutputOverrun, DiagnosticOverrun] at hexceeded
  have hleft := (launch.body_keeps opts).honest hnew
  have hstart := Execution.start_cases wasm input opts launch now
  rw [h] at hstart
  cases hstart with
  | refused => exact ⟨hnew, by simp, fun _ _ kind hcalls => absurd hcalls (hnone kind)⟩
  | @failed inner _ _ hrun hfinish =>
    rw [hrun] at hleft
    refine ⟨hleft, by simp, ?_⟩
    rintro _ ⟨⟩ kind hcalls hcancelled hlate
    obtain ⟨message, heq⟩ := hleft.finish_eq hcalls hcancelled hlate inner
    rw [hfinish] at heq
    cases heq
    rfl
  | unexported hrun hfinish =>
    rw [hrun] at hleft
    have hnot := hleft.of_finish hfinish
    exact ⟨hleft, by simp, fun _ _ kind hcalls => absurd hcalls.exceeded hnot⟩
  | started hrun hfinish =>
    rw [hrun] at hleft
    have hnot := hleft.of_finish hfinish
    refine ⟨hleft, ?_, by simp⟩
    rintro e ⟨⟩
    exact ⟨rfl, hnot⟩

/-- What is claimed of the result of an advance. -/
structure Execution.Final (opts : Budgets) (e : Execution) (now : Moment)
    (result : Except (Kind × Bytes) Progress) : Prop where
  error : Exceeded e.sandbox.log → ∃ error, result = .error error
  kind : ∀ kind, Calls e.sandbox.log kind → now.cancelled = false → now.late = false →
    ∃ message, result = .error (kind, message)
  done : ∀ bytes, result = .ok (.done bytes) → bytes = written e.sandbox.log ∧
    bytes.length ≤ opts.maxOutput ∧ (diagnostics e.sandbox.log).length ≤ opts.maxStderr

/-- Whatever is concluded while no quota is exceeded is final. -/
theorem Execution.Final.of_not_exceeded {e : Execution} (h : e.sandbox.Honest opts)
    (hnot : ¬ Exceeded e.sandbox.log) {result : Except (Kind × Bytes) Progress}
    (hdone : ∀ bytes, result = .ok (.done bytes) → bytes = e.sandbox.stdout.bytes) :
    e.Final opts now result := by
  obtain ⟨hbytes, hout, herr⟩ := h.stdout_eq hnot
  refine ⟨fun hexceeded => absurd hexceeded hnot, fun kind hcalls => ?_, fun bytes hresult => ?_⟩
  · exact absurd hcalls.exceeded hnot
  · rw [hdone bytes hresult, hbytes]
    exact ⟨rfl, hout, herr⟩

theorem conclude_done {fromSlice : Bytes → Except Bytes Json} {stdout bytes : Bytes}
    {record : ℕ × Bytes} (h : conclude fromSlice stdout record = .ok (.done bytes)) :
    bytes = stdout := by
  simp only [conclude] at h
  split_ifs at h
  split at h
  · cases h
  · split_ifs at h
    · cases h
      rfl
    · cases h

/-- An advance leaves an honest sandbox, and what it returns is final. An execution without a
bridge has to be one whose start has looked at the flags. -/
theorem Execution.advance_spec {fromSlice : Bytes → Except Bytes Json} {e e' : Execution}
    {completion : Bytes} {turn : Turn} {result : Except (Kind × Bytes) Progress}
    (h : e.sandbox.Honest opts) (hbridge : e.bridge = false → ¬ Exceeded e.sandbox.log)
    (hadvance : e.advance fromSlice completion turn now = (result, e')) :
    e'.sandbox.Honest opts ∧ e'.bridge = e.bridge ∧
      (e'.bridge = false → ¬ Exceeded e'.sandbox.log) ∧ e'.Final opts now result := by
  unfold Execution.advance at hadvance
  cases hb : e.bridge with
  | false =>
    simp only [hb, Bool.not_false, if_true] at hadvance
    cases hadvance
    refine ⟨h, hb, hbridge, .of_not_exceeded h (hbridge hb) ?_⟩
    rintro bytes ⟨⟩
    rfl
  | true =>
    simp only [hb, Bool.not_true, Bool.false_eq_true, if_false] at hadvance
    have hleft := (e.body_keeps completion turn).honest h
    cases hrun : (e.body completion turn).run.run e.sandbox with
    | mk inner sandbox =>
      rw [hrun] at hadvance hleft
      simp only at hadvance hleft
      cases hadvance
      refine ⟨hleft, rfl, by simp, ?_⟩
      cases hfinish : sandbox.finish now inner with
      | error error =>
        refine ⟨fun _ => ⟨error, rfl⟩, fun kind hcalls hcancelled hlate => ?_, ?_⟩
        · obtain ⟨message, heq⟩ := hleft.finish_eq hcalls hcancelled hlate inner
          rw [hfinish] at heq
          cases heq
          exact ⟨message, rfl⟩
        · rintro bytes ⟨⟩
      | ok record =>
        have hnot := hleft.of_finish hfinish
        exact .of_not_exceeded hleft hnot fun bytes hdone => conclude_done hdone

/-! ### Whole lives -/

namespace Life

variable {fromSlice : Bytes → Except Bytes Json}

/-- What holds along a life. -/
def Sound (opts : Budgets) : Life → Prop
  | idle => True
  | failed left now error => left.Honest opts ∧ ∀ kind, Calls left.log kind →
      now.cancelled = false → now.late = false → error.1 = kind
  | started e => e.sandbox.Honest opts ∧ ¬ Exceeded e.sandbox.log
  | advanced e now result => e.sandbox.Honest opts ∧
      (e.bridge = false → ¬ Exceeded e.sandbox.log) ∧ e.Final opts now result

/-- An execution that can be advanced. -/
theorem Sound.execution {life : Life} (h : life.Sound opts) {e : Execution}
    (he : life.execution? = some e) :
    e.sandbox.Honest opts ∧ (e.bridge = false → ¬ Exceeded e.sandbox.log) := by
  cases life with
  | idle => cases he
  | failed left now error => cases he
  | started e' =>
    cases he
    exact ⟨h.1, fun _ => h.2⟩
  | advanced e' now result =>
    cases he
    exact ⟨h.1, h.2.1⟩

/-- One call. -/
theorem Sound.step {life next : Life} (h : life.Sound opts) {l : Label}
    (hstep : Life.step opts fromSlice life l = some next) : next.Sound opts := by
  cases step_cases hstep with
  | started hstart =>
    obtain ⟨hleft, hok, -⟩ := Execution.start_spec hstart
    obtain ⟨rfl, hnot⟩ := hok _ rfl
    exact ⟨hleft, hnot⟩
  | failed hstart =>
    obtain ⟨hleft, -, herror⟩ := Execution.start_spec hstart
    exact ⟨hleft, herror _ rfl⟩
  | advanced he hadvance =>
    obtain ⟨hhonest, hbridge⟩ := h.execution he
    obtain ⟨hleft, -, hnot, hfinal⟩ := Execution.advance_spec hhonest hbridge hadvance
    exact ⟨hleft, hnot, hfinal⟩

/-- Every reachable state. -/
theorem sound_of_reachable {life : Life} (h : (system opts fromSlice).Reachable life) :
    life.Sound opts := by
  refine System.Inductive.of_reachable (I := Sound opts) ⟨?_, ?_⟩ h
  · rintro life rfl
    trivial
  · intro life l next hsound hstep
    exact hsound.step hstep

end Life

/-- **An exceeded quota is final.** A start that failed after an overrun or a refusal reports the
error that they call for, unless it was cancelled or late. After an advance: if a quota has been
exceeded at any time, the result is an error, and that one; the bytes of a result are all that was
written to stdout, and both streams have kept to their limits. -/
theorem quotas_are_final (opts : Budgets) (fromSlice : Bytes → Except Bytes Json) {life : Life}
    (h : (Life.system opts fromSlice).Reachable life) :
    (∀ left now error, life = .failed left now error → ∀ kind, Calls left.log kind →
        now.cancelled = false → now.late = false → error.1 = kind) ∧
      ∀ e now result, life = .advanced e now result →
        (Exceeded e.sandbox.log → ∃ error, result = .error error) ∧
        (∀ kind, Calls e.sandbox.log kind → now.cancelled = false → now.late = false →
          ∃ message, result = .error (kind, message)) ∧
        ∀ bytes, result = .ok (.done bytes) → bytes = written e.sandbox.log ∧
          bytes.length ≤ opts.maxOutput ∧
          (diagnostics e.sandbox.log).length ≤ opts.maxStderr := by
  have hsound := Life.sound_of_reachable h
  refine ⟨?_, ?_⟩
  · rintro left now error rfl
    exact hsound.2
  · rintro e now result rfl
    exact ⟨hsound.2.2.error, hsound.2.2.kind, hsound.2.2.done⟩

/-- The default budgets, but one byte of stdout and of stderr. -/
def tiny : Budgets where
  fuel := 100000000
  maxMemory := 67108864
  maxInput := 1048576
  maxOutput := 1
  maxStderr := 1
  maxModule := 8388608
  maxCallbackCalls := 32
  maxCallbackConcurrency := 4
  maxCallbackInput := 65536
  maxCallbackOutput := 262144
  env := []
  staticMode := false

/-- A start in which the guest does nothing but `main`, on the bundled bridge. -/
def Launch.plain (main : Call Unit) : Launch where
  limits := ⟨fun _ _ _ => .granted, fun _ _ _ => .granted⟩
  created := .ok ()
  checked := .ok ()
  compiled := .ok ()
  rechecked := .ok ()
  plugin := ⟨[], .ok ()⟩
  guest := ⟨[], .ok ()⟩
  resumable := true
  configure := ⟨[], .ok ()⟩
  main
  exported := .ok ()

/-- An advance whose step makes some host calls and leaves a record of this tag and these bytes. -/
def Turn.plain (actions : List Action) (tag : UInt8) (bytes : Bytes) : Turn where
  checked := .ok ()
  realloc := ⟨[], .ok 0⟩
  size := 64
  step := ⟨actions, .ok 0⟩
  memory := [tag, 0, 0, 0, 12, 0, 0, 0, UInt8.ofNat bytes.length, 0, 0, 0] ++ bytes
  free := ⟨[], .ok ()⟩

/-- `serde_json::from_slice`, by the parser of this development. -/
def parseState (bytes : Bytes) : Except Bytes Json :=
  match Json.parse bytes with
  | some json => .ok json
  | none => .error (utf8 "expected value")

/-- The guest writes two bytes where one is allowed, and its provider reports that it is done. -/
theorem quotas_are_final_tiny : ∃ e result,
    (Life.system tiny parseState).Reachable (.advanced e ⟨false, false⟩ result) ∧
      OutputOverrun e.sandbox.log ∧ ∃ message, result = .error (.outputLimit, message) := by
  obtain ⟨e, result, hreach, hlog⟩ : ∃ e result,
      (Life.system tiny parseState).Reachable (.advanced e ⟨false, false⟩ result) ∧
        e.sandbox.log = [.stdout [1, 2] false] :=
    ⟨_, _, .step (l := .advance (utf8 "[]")
        (.plain [.stdout [1, 2]] 0 (utf8 "\x7b\"done\":true\x7d")) ⟨false, false⟩)
      (.step (l := .start [] [] (.plain ⟨[], .ok ()⟩) ⟨false, false⟩) (.init rfl) rfl) rfl, rfl⟩
  have hoverrun : OutputOverrun e.sandbox.log := ⟨[1, 2], by rw [hlog]; simp⟩
  have hcalls : Calls e.sandbox.log .outputLimit :=
    .outputLimit (by rw [GrowthRefused, hlog]; simp) hoverrun
  exact ⟨e, result, hreach, hoverrun,
    ((quotas_are_final tiny parseState hreach).2 e _ result rfl).2.1 _ hcalls rfl rfl⟩

end Javex.Native
