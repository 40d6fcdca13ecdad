import Javex.Bridge.Reentrancy
import Javex.Native.Quotas

/-!
# A fatal bridge ends the run

An execution and its instance of the provider. `advance` calls `step`, and returns when that has
left its record in the memory, or without a record: because a check fails, or `step` traps. The
field `results` records what the calls of `advance` have returned.

* `fatal_is_terminal`: once the bridge is fatal no call of `advance` returns a success, whatever
  the guest does; and unless something else ends the run first, it ends with `callback_limit`.

Once the flag is set, a report of the provider can only be the one that says so, or no report at
all. The first is turned into `callback_limit` by the execution and the second into another error; a
success needs a report that has been ruled out. So the invariant has to follow the report from the
closure through the memory into the execution, and to know for each of these places whether what is
there was written before the flag was set or after it.

That the run really ends needs that something is still running, and is stated for what the host does
next: the next call of `advance` that gets to an end returns an error, and that error is
`callback_limit` if neither a trap nor a limit of the host comes first.
-/

namespace Javex.Bridge

open Codec Transition Callbacks

/-- `step` has returned a pointer, and the memory holds the record there. -/
def holds (turn : Native.Turn) (record : ℕ × Bytes) : Bool :=
  match turn.step.result with
  | .error _ => false
  | .ok pointer =>
    match Native.readMemory turn.memory pointer 12 with
    | .error _ => false
    | .ok fields =>
      Native.word (fields.take 4) == record.1 &&
        Native.word ((fields.drop 8).take 4) == record.2.length &&
        match Native.readMemory turn.memory (Native.word ((fields.drop 4).take 4))
          record.2.length with
        | .error _ => false
        | .ok bytes => bytes == record.2

/-- An execution with its instance; `completion` is the argument of the call of `advance` that is
under way. -/
structure Driven where
  provider : Instance
  execution : Native.Execution
  completion : Option Bytes
  results : List (Except (Kind × Bytes) Native.Progress)

namespace Driven

/-- What may happen: a step within the instance, a call of `advance` that gets to `step`, and the
two ways in which it returns. -/
inductive Label
  | inner (label : Instance.Label)
  | advance (completion message : Bytes)
  | finish (turn : Native.Turn) (now : Native.Moment)
  | fail (completion : Bytes) (turn : Native.Turn) (now : Native.Moment)

variable (cfg : Config) (serde : Bytes → Except Bytes Json) (s : Driven)

/-- A call of `advance` returns. -/
def returned (completion : Bytes) (turn : Native.Turn) (now : Native.Moment) (phase : Phase) :
    Driven where
  provider := { s.provider with phase }
  execution := (s.execution.advance serde completion turn now).2
  completion := none
  results := s.results ++ [(s.execution.advance serde completion turn now).1]

/-- The closure of `advance` fails. -/
def fails (completion : Bytes) (turn : Native.Turn) : Bool :=
  match ((s.execution.body completion turn).run.run s.execution.sandbox).1 with
  | .error _ => true
  | .ok _ => false

/-- One step. -/
def step : Label → Option Driven
  | .inner (.step _ _) | .inner .take => none
  | .inner label => (s.provider.act cfg serde label).map fun provider => { s with provider }
  | .advance completion message =>
    (s.provider.act cfg serde (.step completion message)).map fun provider =>
      { s with provider, completion := some completion }
  | .finish turn now =>
    match s.provider.phase, s.completion with
    | .returned _ record, some completion =>
      if holds turn record then some (s.returned serde completion turn now .idle) else none
    | _, _ => none
  | .fail completion turn now =>
    if s.fails completion turn then
      match s.provider.phase, s.completion with
      | .idle, none => some (s.returned serde completion turn now .idle)
      | .dead, some current =>
        if completion = current then some (s.returned serde completion turn now .dead) else none
      | _, _ => none
    else none

/-- An execution that has been started on the bundled provider, or is being started. -/
def system : System Driven Label :=
  .ofStep (fun s => (s.provider = .start ∨ s.provider = { Instance.start with phase := .idle }) ∧
    s.execution.bridge = true ∧ s.completion = none ∧ s.results = []) fun s l => s.step cfg serde l

/-- Nothing else ends the run in this call of `advance`: its closure returns, and `finish` sees
no other quota exceeded, no cancellation and no deadline. -/
def Untroubled (completion : Bytes) (turn : Native.Turn) (now : Native.Moment) : Prop :=
  ∃ record sandbox,
    (s.execution.body completion turn).run.run s.execution.sandbox = (.ok record, sandbox) ∧
      sandbox.finish now (.ok record) = .ok record

variable {cfg serde s}

/-- What a label does to an execution with its instance. -/
inductive Step (cfg : Config) (serde : Bytes → Except Bytes Json) (s : Driven) :
    Label → Driven → Prop
  | inner {label : Instance.Label} {provider : Instance} :
      s.provider.act cfg serde label = some provider →
      Step cfg serde s (.inner label) { s with provider }
  | advance {completion message : Bytes} {provider : Instance} :
      s.provider.act cfg serde (.step completion message) = some provider →
      Step cfg serde s (.advance completion message)
        { s with provider, completion := some completion }
  | finish {turn : Native.Turn} {now : Native.Moment} {normal : Bool} {record : ℕ × Bytes}
      {completion : Bytes} : s.provider.phase = .returned normal record →
      s.completion = some completion → holds turn record = true →
      Step cfg serde s (.finish turn now) (s.returned serde completion turn now .idle)
  | fail {completion : Bytes} {turn : Native.Turn} {now : Native.Moment} :
      s.fails completion turn = true → s.provider.phase = .idle ∨ s.provider.phase = .dead →
      Step cfg serde s (.fail completion turn now)
        (s.returned serde completion turn now s.provider.phase)

theorem step_cases {l : Label} {t : Driven} (h : s.step cfg serde l = some t) :
    Step cfg serde s l t := by
  cases l with
  | inner label =>
    have hmap : (s.provider.act cfg serde label).map (fun provider => { s with provider }) =
        some t := by
      cases label <;> first | exact h | cases h
    obtain ⟨provider, hact, rfl⟩ := Option.map_eq_some_iff.mp hmap
    exact .inner hact
  | advance completion message =>
    obtain ⟨provider, hact, rfl⟩ := Option.map_eq_some_iff.mp h
    exact .advance hact
  | finish turn now =>
    simp only [step] at h
    split at h
    case h_1 normal record completion hphase hcompletion =>
      split_ifs at h with hholds
      cases h
      exact .finish hphase hcompletion hholds
    case h_2 => cases h
  | fail completion turn now =>
    simp only [step] at h
    split_ifs at h with hfails
    split at h
    case h_1 hphase hcompletion =>
      cases h
      have hstep : Step cfg serde s (.fail completion turn now) _ := .fail hfails (.inl hphase)
      rwa [hphase] at hstep
    case h_2 current hphase hcompletion =>
      split_ifs at h
      cases h
      have hstep : Step cfg serde s (.fail completion turn now) _ := .fail hfails (.inr hphase)
      rwa [hphase] at hstep
    case h_3 => cases h

end Driven

/-! ### What an advance makes of the record -/

/-- The closure of `advance` returns the record, or that its diagnostic is too long. -/
theorem returns_of_holds {turn : Native.Turn} {record : ℕ × Bytes} (h : holds turn record = true)
    (e : Native.Execution) (completion : Bytes) :
    Native.Host.Returns (e.body completion turn) fun r =>
      r = record ∨ r = (2, []) ∧ record.1 = 1 := by
  unfold Native.Execution.body
  refine .bind (.any _) fun _ _ => .bind (.any _) fun _ _ => .bind (.any _) fun _ _ => ?_
  refine .bind (.any _) fun _ _ => .bind (.any _) fun _ _ => ?_
  refine .bind (.call _) fun pointer hpointer => .bind (.lift _) fun fields hfields => ?_
  simp only [holds, hpointer, hfields, Bool.and_eq_true, beq_iff_eq] at h
  obtain ⟨⟨htag, hlength⟩, hbytes⟩ := h
  rw [htag, hlength]
  refine .bind (.any _) fun _ _ => ?_
  by_cases hlong : record.1 = 1 ∧ e.maxDiagnostic < record.2.length
  · rw [if_pos hlong]
    exact .pure (.inr ⟨rfl, hlong.1⟩)
  · rw [if_neg hlong]
    refine .bind (.lift _) fun bytes hread => .bind (.any _) fun _ _ => .pure (.inl ?_)
    rw [hread, beq_iff_eq] at hbytes
    rw [hbytes]

/-- An advance that succeeds has concluded so from what its closure returned. -/
theorem conclude_of_advance {e : Native.Execution} {serde : Bytes → Except Bytes Json}
    {completion : Bytes} {turn : Native.Turn} {now : Native.Moment} {progress : Native.Progress}
    (hbridge : e.bridge = true) (h : (e.advance serde completion turn now).1 = .ok progress) :
    ∃ record sandbox, (e.body completion turn).run.run e.sandbox = (.ok record, sandbox) ∧
      Native.conclude serde sandbox.stdout.bytes record = .ok progress := by
  simp only [Native.Execution.advance, hbridge, Bool.not_true, Bool.false_eq_true, if_false] at h
  cases hrun : (e.body completion turn).run.run e.sandbox with
  | mk result sandbox =>
    rw [hrun] at h
    simp only at h
    cases hfinish : sandbox.finish now result with
    | error error =>
      rw [hfinish] at h
      cases h
    | ok record =>
      rw [hfinish] at h
      rw [Native.Sandbox.eq_of_finish hfinish]
      exact ⟨record, sandbox, rfl, h⟩

/-- The records that no advance takes for a success: a state that says `fatal`, or an error. -/
def Terminal (serde : Bytes → Except Bytes Json) (record : ℕ × Bytes) : Prop :=
  record.1 = 1 ∨ record.1 = 0 ∧ ∀ state, serde record.2 = .ok state →
    Native.isTrue state "fatal" = true

theorem conclude_of_terminal {serde : Bytes → Except Bytes Json} {record : ℕ × Bytes}
    (h : Terminal serde record) (stdout : Bytes) (progress : Native.Progress) :
    Native.conclude serde stdout record ≠ .ok progress := by
  intro hok
  obtain ⟨tag, bytes⟩ := record
  rcases h with rfl | ⟨rfl, hfatal⟩
  · cases hok
  · simp only [Native.conclude] at hok
    cases hserde : serde bytes with
    | error message =>
      rw [hserde] at hok
      cases hok
    | ok state =>
      have htrue := hfatal state hserde
      rw [hserde] at hok
      simp [htrue] at hok

/-- An advance with such a record does not succeed. -/
theorem advance_of_terminal {e : Native.Execution} {serde : Bytes → Except Bytes Json}
    {turn : Native.Turn} {record : ℕ × Bytes} (hbridge : e.bridge = true)
    (hterminal : Terminal serde record) (hholds : holds turn record = true) (completion : Bytes)
    (now : Native.Moment) (progress : Native.Progress) :
    (e.advance serde completion turn now).1 ≠ .ok progress := by
  intro hok
  obtain ⟨r, sandbox, hrun, hconclude⟩ := conclude_of_advance hbridge hok
  rcases returns_of_holds hholds e completion _ r sandbox hrun with rfl | ⟨rfl, -⟩
  · exact conclude_of_terminal hterminal _ progress hconclude
  · cases hconclude

/-- An advance whose closure fails does not succeed. -/
theorem advance_of_fails {s : Driven} {serde : Bytes → Except Bytes Json} {completion : Bytes}
    {turn : Native.Turn} (hbridge : s.execution.bridge = true)
    (hfails : s.fails completion turn = true) (now : Native.Moment) (progress : Native.Progress) :
    (s.execution.advance serde completion turn now).1 ≠ .ok progress := by
  intro hok
  obtain ⟨record, sandbox, hrun, -⟩ := conclude_of_advance hbridge hok
  simp only [Driven.fails, hrun] at hfails
  cases hfails

/-- With nothing else in its way, an advance with a state that says `fatal` ends the run. -/
theorem advance_of_untroubled {s : Driven} {serde : Bytes → Except Bytes Json}
    {completion : Bytes} {turn : Native.Turn} {now : Native.Moment} {bytes : Bytes} {state : Json}
    (hbridge : s.execution.bridge = true) (hholds : holds turn (0, bytes) = true)
    (hserde : serde bytes = .ok state) (hfatal : Native.isTrue state "fatal" = true)
    (h : s.Untroubled completion turn now) :
    (s.execution.advance serde completion turn now).1 =
      .error (.callbackLimit, utf8 "callback budget exceeded") := by
  obtain ⟨record, sandbox, hrun, hfinish⟩ := h
  have hreturns := returns_of_holds hholds s.execution completion _ record sandbox hrun
  obtain rfl : record = (0, bytes) := by
    rcases hreturns with rfl | ⟨-, htag⟩
    · rfl
    · cases htag
  have hconclude : Native.conclude serde sandbox.stdout.bytes (0, bytes) =
      .error (.callbackLimit, utf8 "callback budget exceeded") := by
    simp [Native.conclude, hserde, hfatal]
  simp only [Native.Execution.advance, hbridge, hrun, hfinish, Bool.not_true, Bool.false_eq_true,
    if_false]
  exact hconclude

/-! ### What the provider makes of the flag -/

/-- `serde_json` reads nothing into the state of a bridge that is not there. -/
def Faithful (serde : Bytes → Except Bytes Json) : Prop :=
  ∀ done fatal requests state, serde (frame done fatal requests) = .ok state →
    Json.parse (frame done fatal requests) = some state

theorem isTrue_of_faithful {serde : Bytes → Except Bytes Json} (h : Faithful serde)
    {done fatal : Bool} {requests : List Call} {state : Json}
    (hserde : serde (frame done fatal requests) = .ok state) :
    Native.isTrue state "fatal" = fatal := by
  have hparse := h done fatal requests state hserde
  rw [frame, Json.parse_print] at hparse
  cases hparse
  have hkey : (utf8 "fatal" == utf8 "requests") = false := by decide
  simp [Native.isTrue, Json.get, List.lookup_cons, hkey]

namespace Instance

variable {cfg : Config} {serde : Bytes → Except Bytes Json} {i j : Instance}

/-- **A fatal bridge shows.** Code of the guest has made it so, hence there is a root or the module
is still being evaluated; and the record of `step` is an error, or the state that says so. -/
structure Shown (serde : Bytes → Except Bytes Json) (i : Instance) : Prop where
  rooted : i.bridge.fatal = true → i.rooted = false → i.phase = .evaluating ∨ i.phase = .dead
  thrown : ∀ record, i.phase = .returned false record → record.1 = 1
  record : i.bridge.fatal = true → ∀ record, i.phase = .returned true record → record.1 = 0 ∧
    ∃ state, serde record.2 = .ok state ∧ Native.isTrue state "fatal" = true

/-- Outside of `_start` a bridge is fatal only where there is a root. -/
theorem Shown.root (h : Shown serde i) (hphase : i.phase ≠ .evaluating ∧ i.phase ≠ .dead)
    (hfatal : i.bridge.fatal = true) : i.rooted = true := by
  cases hrooted : i.rooted with
  | true => rfl
  | false => exact ((h.rooted hfatal hrooted).elim hphase.1 hphase.2).elim

/-- The instance is not at the end of `step`. -/
theorem Shown.of_rooted (hphase : ∀ normal record, j.phase ≠ .returned normal record)
    (hrooted : j.bridge.fatal = true → j.rooted = true) : Shown serde j := by
  refine ⟨fun hfatal hnot => ?_, fun _ h => absurd h (hphase _ _),
    fun _ _ h => absurd h (hphase _ _)⟩
  rw [hrooted hfatal] at hnot
  cases hnot

theorem Shown.of_dead (hphase : j.phase = .dead) : Shown serde j := by
  refine ⟨fun _ _ => .inr hphase, fun record h => ?_, fun _ record h => ?_⟩
  · rw [hphase] at h
    cases h
  · rw [hphase] at h
    cases h

/-- One of the two calls of the bridge has thrown. -/
theorem Shown.of_thrown {message : Bytes} (hphase : j.phase = .returned false (1, message))
    (hrooted : j.bridge.fatal = true → j.rooted = true) : Shown serde j := by
  refine ⟨fun hfatal hnot => ?_, fun record h => ?_, fun _ record h => ?_⟩
  · rw [hrooted hfatal] at hnot
    cases hnot
  · rw [hphase] at h
    cases h
    rfl
  · rw [hphase] at h
    cases h

/-- Code of the guest, which may have made the bridge fatal. -/
theorem Shown.of_runs (hruns : i.runs = true) (hphase : j.phase = i.phase)
    (hrooted : j.rooted = i.rooted) : Shown serde j := by
  have hreturned : ∀ normal record, j.phase ≠ .returned normal record := by
    intro normal record h
    rw [hphase] at h
    rw [runs, h] at hruns
    cases hruns
  refine ⟨fun _ hnot => .inl ?_, fun _ h => absurd h (hreturned _ _),
    fun _ _ h => absurd h (hreturned _ _)⟩
  rw [hrooted] at hnot
  simp only [runs, hnot] at hruns
  rw [hphase]
  split at hruns
  case h_1 heq => exact heq
  all_goals cases hruns

/-- The second call of the bridge has returned. -/
theorem Shown.report (hfaithful : Faithful serde) (h : Shown serde i) {root : Root}
    (hphase : i.phase = .reporting root) : Shown serde (i.report serde root) := by
  have hrooted : i.bridge.fatal = true → i.rooted = true := h.root (by simp [hphase])
  unfold Instance.report
  cases hserde : serde (i.state root.done) with
  | error message => exact .of_dead rfl
  | ok state =>
    have htrue := isTrue_of_faithful hfaithful hserde
    cases hfatal : i.bridge.fatal with
    | true =>
      rw [hfatal] at htrue
      simp only [htrue]
      refine ⟨fun _ hnot => ?_, nofun, fun _ record heq => ?_⟩
      · exact absurd ((hrooted hfatal).symm.trans hnot) (by decide)
      · cases heq
        exact ⟨rfl, state, hserde, htrue⟩
    | false =>
      have hquiet : ∀ record, Shown serde { i.emit root.done with
          phase := .returned true record } := fun record =>
        ⟨fun h => absurd (h.symm.trans hfatal) (by decide), nofun,
          fun h => absurd (h.symm.trans hfatal) (by decide)⟩
      dsimp only
      split
      · exact hquiet _
      · exact hquiet _

/-- **One step.** -/
theorem Shown.act (hfaithful : Faithful serde) (h : Shown serde i) {l : Label}
    (hact : i.act cfg serde l = some j) : Shown serde j := by
  cases act_cases hact with
  | enter hruns => exact .of_runs hruns rfl rfl
  | leave hruns => exact .of_runs hruns rfl rfl
  | saved hphase => exact .of_rooted nofun fun _ => rfl
  | step hphase => exact .of_rooted nofun (h.root (by simp [hphase]))
  | unread hphase => exact .of_thrown rfl (h.root (by simp [hphase]))
  | settle hphase hinside hsettle =>
    obtain ⟨id, call, settlement, -, -, rfl⟩ := Closure.settle_cases hsettle
    exact .of_rooted nofun (h.root (by simp [hphase]))
  | unsettled hphase =>
    refine .of_thrown rfl fun hfatal => h.root (by simp [hphase]) ?_
    exact (Closure.forget_fatal _ _).symm.trans hfatal
  | @thrown removed message value values hphase =>
    refine .of_thrown rfl fun hfatal => h.root (by simp [hphase]) ?_
    cases removed with
    | true => exact (Closure.forget_fatal _ _).symm.trans hfatal
    | false => exact hfatal
  | failed hphase =>
    refine .of_thrown rfl (h.root ?_)
    rcases hphase with ⟨hphase, -⟩ | ⟨root, hphase⟩ <;> simp [hphase]
  | delivered hphase hinside hrooted => exact .of_rooted nofun fun _ => hrooted
  | rootless hphase hinside hrooted =>
    have hnot : i.bridge.fatal ≠ true := by
      intro hfatal
      rw [h.root (by simp [hphase]) hfatal] at hrooted
      cases hrooted
    exact ⟨fun hfatal => absurd hfatal hnot, nofun, fun hfatal => absurd hfatal hnot⟩
  | root hphase => exact .of_rooted nofun (h.root (by simp [hphase]))
  | report hphase => exact h.report hfaithful hphase
  | take hphase => exact .of_rooted nofun (h.root (by simp [hphase]))
  | trap => exact .of_dead rfl

/-- The record of a fatal bridge is no success. -/
theorem Shown.terminal (h : Shown serde i) (hfatal : i.bridge.fatal = true) {normal : Bool}
    {record : ℕ × Bytes} (hphase : i.phase = .returned normal record) :
    Terminal serde record := by
  cases normal with
  | false => exact .inl (h.thrown record hphase)
  | true =>
    obtain ⟨htag, state, hserde, htrue⟩ := h.record hfatal record hphase
    refine .inr ⟨htag, fun state' hserde' => ?_⟩
    rw [hserde] at hserde'
    cases hserde'
    exact htrue

/-- A call that is over one of the budgets, by the length that the bridge reads. -/
def Over (cfg : Config) (i : Instance) : Label → Prop
  | .enter _ _ =>
    cfg.maxCalls < i.bridge.count + 1 ∨ cfg.maxConcurrency ≤ i.bridge.pending.keys.length
  | .leave (some _) measured => cfg.maxInput < measured
  | _ => False

/-- It makes the bridge fatal. -/
theorem fatal_of_over {l : Label} (hover : Over cfg i l) (hact : i.act cfg serde l = some j) :
    j.bridge.fatal = true := by
  cases act_cases hact with
  | @enter name measured =>
    change (i.bridge.enter cfg name measured).1.fatal = true
    unfold Closure.enter
    rw [if_pos (show cfg.maxCalls < i.bridge.count + 1 ∨ _ from hover)]
  | @leave json measured id name =>
    cases json with
    | none => exact hover.elim
    | some json =>
      change (i.bridge.leave cfg id name (some json) measured).fatal = true
      simp only [Closure.leave, if_pos (show cfg.maxInput < measured from hover)]
  | _ => exact hover.elim

end Instance

/-! ### Whole runs -/

namespace Driven

variable {cfg : Config} {serde : Bytes → Except Bytes Json} {s t : Driven}

/-- What holds of an execution on the bundled provider. -/
structure Sound (serde : Bytes → Except Bytes Json) (s : Driven) : Prop where
  shown : s.provider.Shown serde
  bridge : s.execution.bridge = true

theorem advance_bridge (serde : Bytes → Except Bytes Json) (e : Native.Execution)
    (completion : Bytes) (turn : Native.Turn) (now : Native.Moment) :
    (e.advance serde completion turn now).2.bridge = e.bridge := by
  unfold Native.Execution.advance
  split <;> rfl

theorem Sound.step (hfaithful : Faithful serde) (h : s.Sound serde) {l : Label}
    (hstep : s.step cfg serde l = some t) : t.Sound serde := by
  cases step_cases hstep with
  | inner hact => exact ⟨h.shown.act hfaithful hact, h.bridge⟩
  | advance hact => exact ⟨h.shown.act hfaithful hact, h.bridge⟩
  | finish hphase =>
    refine ⟨.of_rooted nofun (h.shown.root (by simp [hphase])), ?_⟩
    exact (advance_bridge _ _ _ _ _).trans h.bridge
  | fail => exact ⟨h.shown, (advance_bridge _ _ _ _ _).trans h.bridge⟩

theorem sound_of_reachable (hfaithful : Faithful serde) (h : (system cfg serde).Reachable s) :
    s.Sound serde := by
  have hind : (system cfg serde).Inductive (Sound serde) := by
    refine ⟨fun s hs => ?_, fun s l t hs hstep => hs.step hfaithful hstep⟩
    obtain ⟨hprovider, hbridge, -, -⟩ := hs
    refine ⟨.of_rooted ?_ ?_, hbridge⟩
    all_goals rcases hprovider with h | h <;> rw [h] <;> nofun
  exact hind.of_reachable h

/-- One step after the bridge has become fatal: if it ends a call of `advance`, that has not
succeeded. -/
theorem Sound.results_of_fatal (h : s.Sound serde) (hfatal : s.provider.bridge.fatal = true)
    {l : Label} (hstep : s.step cfg serde l = some t) :
    t.provider.bridge.fatal = true ∧
      ∃ later, t.results = s.results ++ later ∧ ∀ progress, .ok progress ∉ later := by
  have hnone : ∃ later, s.results = s.results ++ later ∧
      ∀ progress : Native.Progress, (.ok progress : Except (Kind × Bytes) _) ∉ later :=
    ⟨[], (List.append_nil _).symm, fun _ => List.not_mem_nil⟩
  cases step_cases hstep with
  | inner hact => exact ⟨Instance.step_fatal hact hfatal, hnone⟩
  | advance hact => exact ⟨Instance.step_fatal hact hfatal, hnone⟩
  | finish hphase hcompletion hholds =>
    refine ⟨hfatal, _, rfl, fun progress hmem => ?_⟩
    exact advance_of_terminal h.bridge (h.shown.terminal hfatal hphase) hholds _ _ progress
      (List.mem_singleton.mp hmem).symm
  | fail hfails =>
    refine ⟨hfatal, _, rfl, fun progress hmem => ?_⟩
    exact advance_of_fails h.bridge hfails _ progress (List.mem_singleton.mp hmem).symm

/-- **A fatal bridge ends the run.** A call over a budget makes the bridge fatal. From there on no
call of `advance` succeeds, whatever the guest does; and if the two calls of the bridge return
normally and nothing else ends the run, it ends with `callback_limit`. -/
theorem fatal_is_terminal (cfg : Config) (serde : Bytes → Except Bytes Json)
    (hfaithful : Faithful serde) (s : Driven) (h : (system cfg serde).Reachable s) :
    (∀ l t, s.provider.Over cfg l → s.step cfg serde (.inner l) = some t →
      t.provider.bridge.fatal = true) ∧
    (s.provider.bridge.fatal = true →
      (∀ ls t, (system cfg serde).Run s ls t →
        ∃ later, t.results = s.results ++ later ∧ ∀ progress, .ok progress ∉ later) ∧
      ∀ record completion turn now t, s.provider.phase = .returned true record →
        s.completion = some completion → s.Untroubled completion turn now →
        s.step cfg serde (.finish turn now) = some t →
        t.results = s.results ++ [.error (.callbackLimit, utf8 "callback budget exceeded")]) := by
  have hsound := sound_of_reachable hfaithful h
  refine ⟨fun l t hover hstep => ?_, fun hfatal => ⟨fun ls t hrun => ?_, ?_⟩⟩
  · cases step_cases hstep with
    | inner hact => exact Instance.fatal_of_over hover hact
  · have hinvariant := hrun.invariant
      (I := fun t => t.Sound serde ∧ t.provider.bridge.fatal = true ∧
        ∃ later, t.results = s.results ++ later ∧ ∀ progress, .ok progress ∉ later)
      (fun t l u ht hstep => ?_)
      ⟨hsound, hfatal, [], (List.append_nil _).symm, fun _ => List.not_mem_nil⟩
    · exact hinvariant.2.2
    · obtain ⟨ht, hfatal, later, hresults, hlater⟩ := ht
      obtain ⟨hfatal', more, hresults', hmore⟩ := ht.results_of_fatal hfatal hstep
      refine ⟨ht.step hfaithful hstep, hfatal', later ++ more, ?_, fun progress hmem => ?_⟩
      · rw [hresults', hresults, List.append_assoc]
      · exact (List.mem_append.mp hmem).elim (hlater progress) (hmore progress)
  · intro record completion turn now t hphase hcompletion huntroubled hstep
    obtain ⟨htag, state, hserde, htrue⟩ := hsound.shown.record hfatal record hphase
    cases step_cases hstep with
    | finish hphase' hcompletion' hholds =>
      rw [hphase] at hphase'
      rw [hcompletion] at hcompletion'
      cases hphase'
      cases hcompletion'
      obtain ⟨tag, bytes⟩ := record
      obtain rfl : tag = 0 := htag
      rw [← advance_of_untroubled hsound.bridge hholds hserde htrue huntroubled]
      rfl

theorem faithful_readJson : Faithful readJson := by
  intro done fatal requests state h
  unfold readJson at h
  split at h
  case h_1 json hparse =>
    cases h
    exact hparse
  case h_2 => cases h

/-- An execution about to start. -/
def starting : Driven where
  provider := .start
  execution :=
    { sandbox := .new Native.tiny ⟨fun _ _ _ => .granted, fun _ _ _ => .granted⟩
      bridge := true, maxStep := 4096, maxCompletion := 4096, maxDiagnostic := 4096 }
  completion := none
  results := []

/-- A guest that catches the exception of a call over the quota, and fulfils its root. -/
def caughtAway : List Label :=
  [.inner (.enter (some (utf8 "echo")) 4), .inner (.leave (some (utf8 "9")) 1),
    .inner (.enter (some (utf8 "echo")) 4), .inner .saved, .advance (utf8 "[]") [],
    .inner .deliver, .inner (.root .fulfilled), .inner .report]

/-- The record that `step` has returned. -/
def record? : Phase → Option (Bool × ℕ × Bytes)
  | .returned normal record => some (normal, record)
  | _ => none

/-- It is done, but for the flag. -/
theorem fatal_is_terminal_caughtAway : ∃ s t turn now,
    (system Instance.singleConfig readJson).Reachable s ∧
      s.step Instance.singleConfig readJson (.finish turn now) = some t ∧
        t.results = [.error (.callbackLimit, utf8 "callback budget exceeded")] := by
  have hrun : (System.trace (step Instance.singleConfig readJson) (fun _ _ => True) starting
      caughtAway).map (fun s => (s.provider.bridge.fatal, record? s.provider.phase)) =
      some (true, some (true, 0, frame true true [])) := by decide +kernel
  have hrest : (System.trace (step Instance.singleConfig readJson) (fun _ _ => True) starting
      caughtAway).map (fun s => (s.execution, s.completion, s.results)) =
      some (starting.execution, some (utf8 "[]"), []) := rfl
  obtain ⟨s, hs, heq⟩ := Option.map_eq_some_iff.mp hrun
  rw [hs, Option.map_some, Option.some_inj] at hrest
  simp only [Prod.mk.injEq] at heq hrest
  obtain ⟨hfatal, hrecord⟩ := heq
  obtain ⟨hexecution, hcompletion, hresults⟩ := hrest
  have hphase : s.provider.phase = .returned true (0, frame true true []) := by
    cases hphase : s.provider.phase <;> rw [hphase] at hrecord <;> cases hrecord
    rfl
  have hreachable : (system Instance.singleConfig readJson).Reachable s :=
    (System.reachable_of_trace ⟨.inl rfl, rfl, rfl, rfl⟩ hs).of_restrict
  have hholds : holds (.plain [] 0 (frame true true [])) (0, frame true true []) = true := by
    decide +kernel
  have huntroubled : s.Untroubled (utf8 "[]") (.plain [] 0 (frame true true []))
      ⟨false, false⟩ := by
    rw [Untroubled, hexecution]
    exact ⟨_, _, rfl, rfl⟩
  have hstep : s.step Instance.singleConfig readJson
      (.finish (.plain [] 0 (frame true true [])) ⟨false, false⟩) =
      some (s.returned readJson (utf8 "[]") (.plain [] 0 (frame true true [])) ⟨false, false⟩
        .idle) := by
    simp only [step, hphase, hcompletion, hholds, if_true]
  refine ⟨s, _, _, _, hreachable, hstep, ?_⟩
  have hend := ((fatal_is_terminal _ readJson faithful_readJson s hreachable).2 hfatal).2 _ _ _ _ _
    hphase hcompletion huntroubled hstep
  rwa [hresults] at hend

end Driven

end Javex.Bridge
