import Javex.Native.Quotas

/-!
# The length of JavaScript diagnostics

The message of a `js_error` is a lossy text: of what the guest wrote to stderr before it trapped,
or of the record with tag 1 that its provider returned. The quota `max_stderr` bounds those bytes,
and the message is longer than they are by what the replacements of invalid sequences add.

* `js_error_message_le_iff`: exactly when a message keeps within `max_stderr`.
* `js_error_message_exceeds`: one byte that is not UTF-8 makes a message of three.

The message is formed at the very end, when the result of the guest has been classified, from bytes
that were bounded when they were taken: stderr by its own quota, and a record by the check of its
length. So the whole question is what the lossy decoding adds, and `js_error_message_le_iff` states
the answer in terms of the bytes and their invalid sequences, with no more said about the run than
which bytes they are.

For a provider of JavaScript that writes text, which is UTF-8, the two lengths are equal; a guest
that is not such a provider decides about its bytes itself.
-/

namespace Javex.Native

open Codec Transition

variable {opts : Budgets} {fromSlice : Bytes → Except Bytes Json}

/-! ### The bytes behind a message -/

/-- The diagnostic that the guest leaves when a closure ends: what it wrote to stderr before it
trapped as unreachable. -/
def trapped {α : Type} : Except Failure α × Sandbox → Option Bytes
  | (.error (.unreachable _), sandbox) => some sandbox.stderr.bytes
  | _ => none

/-- The diagnostic of a start. -/
def Launch.raw (opts : Budgets) (launch : Launch) : Option Bytes :=
  trapped ((launch.body opts).run.run (Sandbox.new opts launch.limits))

/-- The diagnostic of an advance: also the record with tag 1. -/
def Execution.raw (e : Execution) (completion : Bytes) (turn : Turn) : Option Bytes :=
  match (e.body completion turn).run.run e.sandbox with
  | (.ok (1, bytes), _) => some bytes
  | ended => trapped ended

namespace Life

/-- The diagnostic of a call. -/
def raw (opts : Budgets) (life : Life) : Label → Option Bytes
  | .start _ _ launch _ => launch.raw opts
  | .advance completion turn _ => life.execution?.bind fun e => e.raw completion turn

/-- The error of the last call. -/
def error? : Life → Option (Kind × Bytes)
  | failed _ _ error | advanced _ _ (.error error) => some error
  | idle | started _ | advanced _ _ (.ok _) => none

/-- The message of a `js_error` keeps within `max_stderr`. -/
def Within (opts : Budgets) (life : Life) : Prop :=
  ∀ message, life.error? = some (.jsError, message) → message.length ≤ opts.maxStderr

/-- The diagnostic of a call fits `max_stderr` with three bytes for each maximal invalid
sequence. -/
def Fits (opts : Budgets) (life : Life) (l : Label) : Prop :=
  ∀ bytes ∈ raw opts life l, bytes.length + growth (invalidSequences bytes) ≤ opts.maxStderr

end Life

/-- The message of a `js_error` from `finish` is a lossy text of stderr. -/
theorem Sandbox.finish_js_error {α : Type} {s : Sandbox} {now : Moment} {result : Except Failure α}
    {message : Bytes} (h : s.finish now result = .error (.jsError, message)) :
    message = lossy s.stderr.bytes ∧ ∃ text, result = .error (.unreachable text) := by
  simp only [Sandbox.finish] at h
  cases result with
  | ok a =>
    simp only at h
    split_ifs at h <;> cases h
  | error failure =>
    cases failure with
    | outOfFuel =>
      simp only at h
      split_ifs at h <;> cases h
    | unreachable text =>
      simp only at h
      split_ifs at h <;> cases h
      exact ⟨rfl, text, rfl⟩
    | other text =>
      simp only at h
      split_ifs at h <;> cases h

/-- The message of a start. -/
theorem Execution.start_js_error {wasm input : Bytes} {launch : Launch} {now : Moment}
    {left : Sandbox} {message : Bytes}
    (h : Execution.start wasm input opts launch now = (.error (.jsError, message), left)) :
    ∃ bytes, launch.raw opts = some bytes ∧ message = lossy bytes := by
  have hstart := Execution.start_cases wasm input opts launch now
  rw [h] at hstart
  cases hstart with
  | refused hkind => exact absurd rfl hkind
  | failed hrun hfinish =>
    obtain ⟨hmessage, text, rfl⟩ := Sandbox.finish_js_error hfinish
    exact ⟨_, by rw [Launch.raw, hrun, trapped], hmessage⟩

/-- A state is not concluded to be a `js_error`. -/
theorem kind_of_conclude_state {stdout bytes message : Bytes} {kind : Kind}
    (h : conclude fromSlice stdout (0, bytes) = .error (kind, message)) :
    kind = .trap ∨ kind = .callbackLimit := by
  simp only [conclude] at h
  rw [if_neg (by decide), if_neg (by decide)] at h
  split at h
  · cases h
    exact .inl rfl
  · split_ifs at h
    cases h
    exact .inr rfl

/-- The message of an advance. -/
theorem Execution.advance_js_error {e e' : Execution} {completion : Bytes} {turn : Turn}
    {now : Moment} {message : Bytes}
    (h : e.advance fromSlice completion turn now = (.error (.jsError, message), e')) :
    ∃ bytes, e.raw completion turn = some bytes ∧ message = lossy bytes := by
  unfold Execution.advance at h
  split_ifs at h
  · cases h
  · have hrecord := e.body_returns completion turn e.sandbox
    unfold Execution.raw
    cases hrun : (e.body completion turn).run.run e.sandbox with
    | mk inner sandbox =>
      rw [hrun] at h
      simp only [Prod.mk.injEq] at h
      obtain ⟨hresult, -⟩ := h
      cases hfinish : sandbox.finish now inner with
      | error error =>
        rw [hfinish] at hresult
        cases hresult
        obtain ⟨hmessage, text, rfl⟩ := Sandbox.finish_js_error hfinish
        exact ⟨_, rfl, hmessage⟩
      | ok record =>
        -- the error is that of the record then
        rw [hfinish] at hresult
        have hinner := Sandbox.eq_of_finish hfinish
        subst hinner
        cases hrecord record sandbox hrun with
        | state _ => exact absurd (kind_of_conclude_state hresult) (by decide)
        | error _ =>
          cases hresult
          exact ⟨_, rfl, rfl⟩
        | long => cases hresult

namespace Life

/-- **The length of a message.** It is that of the bytes behind it, with three bytes for each
maximal invalid sequence. -/
theorem within_iff {life next : Life} {l : Label} (hstep : step opts fromSlice life l = some next)
    {message : Bytes} (herror : next.error? = some (.jsError, message)) :
    message.length ≤ opts.maxStderr ↔ Fits opts life l := by
  have hmessage : ∃ bytes, raw opts life l = some bytes ∧ message = lossy bytes := by
    cases step_cases hstep with
    | started _ => cases herror
    | failed hstart =>
      cases herror
      exact Execution.start_js_error hstart
    | @advanced _ completion turn now e e' result he hadvance =>
      cases result with
      | ok progress => cases herror
      | error error =>
        cases herror
        simp only [raw, he, Option.bind_some]
        exact Execution.advance_js_error hadvance
  obtain ⟨bytes, hraw, rfl⟩ := hmessage
  rw [length_lossy, Fits, hraw]
  simp

end Life

/-! ### Diagnostics in UTF-8 -/

/-- A diagnostic on stderr is within the quota. -/
theorem length_trapped_le {α : Type} {ended : Except Failure α × Sandbox} {bytes : Bytes}
    (h : ended.2.Honest opts) (htrapped : trapped ended = some bytes) :
    bytes.length ≤ opts.maxStderr := by
  unfold trapped at htrapped
  split at htrapped
  · cases htrapped
    exact h.stderr.length_le
  · cases htrapped

/-- The diagnostic of an advance is within the quota. -/
theorem Execution.length_raw_le {e : Execution} (h : e.sandbox.Honest opts)
    (hdiagnostic : e.maxDiagnostic = opts.maxStderr) {completion : Bytes} {turn : Turn}
    {bytes : Bytes} (hraw : e.raw completion turn = some bytes) :
    bytes.length ≤ opts.maxStderr := by
  have hleft := (e.body_keeps completion turn).honest h
  have hrecord := e.body_returns completion turn e.sandbox
  unfold Execution.raw at hraw
  split at hraw
  case h_1 record sandbox hrun =>
    cases hraw
    cases hrecord _ _ hrun with
    | error hlength => exact hdiagnostic ▸ hlength
  case h_2 => exact length_trapped_le hleft hraw

namespace Life

/-- The bound on the diagnostics of an execution is that of its budgets. -/
def Configured (opts : Budgets) (life : Life) : Prop :=
  ∀ e, life.execution? = some e → e.maxDiagnostic = opts.maxStderr

theorem configured_of_reachable {life : Life} (h : (system opts fromSlice).Reachable life) :
    life.Configured opts := by
  refine System.Inductive.of_reachable (I := Configured opts) ⟨?_, ?_⟩ h
  · rintro life rfl e ⟨⟩
  · intro life l next hconfigured hstep e he
    cases step_cases hstep with
    | started hstart =>
      cases he
      exact (Execution.start_limits hstart).2
    | failed _ => cases he
    | advanced he' hadvance =>
      cases he
      exact (Execution.advance_limits hadvance).2.trans (hconfigured _ he')

/-- Diagnostics that are UTF-8 meet the condition. -/
theorem fits_of_isUtf8 {life : Life} (h : (system opts fromSlice).Reachable life) {l : Label}
    (hutf8 : ∀ bytes ∈ raw opts life l, IsUtf8 bytes) : Fits opts life l := by
  intro bytes hbytes
  rw [invalidSequences_eq_nil (hutf8 bytes hbytes)]
  cases l with
  | start wasm input launch now =>
    exact length_trapped_le ((launch.body_keeps opts).honest (.new opts launch.limits)) hbytes
  | advance completion turn now =>
    obtain ⟨e, he, hraw⟩ := Option.bind_eq_some_iff.mp hbytes
    have hsound := (sound_of_reachable h).execution he
    exact Execution.length_raw_le hsound.1 (configured_of_reachable h e he) hraw

end Life

/-- **When diagnostics respect `max_stderr`.** In every run whose calls keep to the condition,
every message of a `js_error` is within the quota; and a call of any run that returns a `js_error`
returns such a message exactly when the bytes behind it fit with three bytes for each maximal
invalid sequence. -/
theorem js_error_message_le_iff (opts : Budgets) (fromSlice : Bytes → Except Bytes Json) :
    (∀ life, ((Life.system opts fromSlice).restrict fun life l _ => Life.Fits opts life l).Reachable
        life → life.Within opts) ∧
      ∀ life l next, (Life.system opts fromSlice).Reachable life →
        Life.step opts fromSlice life l = some next →
        ∀ message, next.error? = some (.jsError, message) →
          (message.length ≤ opts.maxStderr ↔ Life.Fits opts life l) := by
  refine ⟨fun life h => ?_, fun life l next _ hstep message herror =>
    Life.within_iff hstep herror⟩
  cases h with
  | init hinit =>
    cases hinit
    intro message herror
    cases herror
  | step _ hstep =>
    intro message herror
    exact (Life.within_iff hstep.1 herror).mpr hstep.2

/-- The guest writes a letter to stderr, where one byte is allowed, and traps. -/
theorem js_error_message_le_iff_letter : ∃ life,
    ((Life.system tiny parseState).restrict fun life l _ => Life.Fits tiny life l).Reachable life ∧
      life.error? = some (.jsError, [0x41]) ∧ life.Within tiny := by
  have hreach : ∃ life, ((Life.system tiny parseState).restrict
      fun life l _ => Life.Fits tiny life l).Reachable life ∧
        life.error? = some (.jsError, [0x41]) :=
    ⟨_, .step (l := .start [] []
        (.plain ⟨[.stderr [0x41]], .error (.unreachable (utf8 "unreachable"))⟩) ⟨false, false⟩)
      (.init rfl) ⟨rfl, by rintro bytes ⟨⟩; decide⟩, rfl⟩
  obtain ⟨life, hlife, herror⟩ := hreach
  exact ⟨life, hlife, herror, (js_error_message_le_iff tiny parseState).1 life hlife⟩

/-- The guest writes one byte that is not UTF-8 to stderr, where one byte is allowed, and traps. -/
theorem js_error_message_exceeds : ∃ life message, (Life.system tiny parseState).Reachable life ∧
    life.error? = some (.jsError, message) ∧ ¬ message.length ≤ tiny.maxStderr :=
  ⟨_, [0xef, 0xbf, 0xbd], .step (l := .start [] []
      (.plain ⟨[.stderr [0xff]], .error (.unreachable (utf8 "unreachable"))⟩) ⟨false, false⟩)
    (.init rfl) rfl, rfl, by decide⟩

end Javex.Native
