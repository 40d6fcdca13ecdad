import Javex.Native.Store
import Javex.Transition.System

/-!
# Starting and advancing an execution

`Execution::start` and `Execution::advance` of `native/javex_nif/src/sandbox.rs`, and the life of
an execution: one start, then advances in any number and with any completions. Whatever the guest
or the engine decides is given beside the arguments: for a call of a guest function, the host
calls it makes and what it returns (`Call`). `serde_json::from_slice` is a parameter.

The closures whose result goes to `Sandbox::finish` are computations of `Host`: they may fail, and
they change the sandbox by host calls only (`Host.Keeps`).

The life of an execution is a system of its own (`Life`) because the quotas outlive a call: an
overrun in one advance has to be seen in the next. Its states are the places between calls, and what
happens during a call, the host calls of the guest, the moment at which the engine stops it and the
checks of the control, is in the label.

`Host.Keeps` is a property of a computation and not of a run: whatever is kept by every host call is
kept by it. It is proved once for each closure, by the way the closure is put together, and each
invariant of the sandbox then only has to look at single host calls. `step_cases` takes a step of a
life apart into what the call returned and what it left.
-/

namespace Javex.Native

open Codec Transition

/-! ### Computations on a sandbox -/

/-- The body of a closure with result `anyhow::Result<_>`. -/
abbrev Host := ExceptT Failure (StateM Sandbox)

/-- A call of a guest function: the host calls that it makes, and its result. -/
structure Call (α : Type) where
  actions : List Action
  result : Except Failure α

/-- The function is called. -/
def Call.run {α : Type} (call : Call α) : Host α := do
  modify fun s => call.actions.foldl Sandbox.perform s
  call.result

/-- The function is called on a condition. -/
def Call.runIf (call : Call Unit) (condition : Bool) : Host Unit :=
  if condition then call.run else pure ()

/-- `anyhow::ensure!`. -/
def ensure (p : Prop) [Decidable p] (message : Bytes) : Host Unit :=
  if p then pure () else throw (.other message)

/-- A property of the sandbox that every host call keeps is kept by the computation. -/
def Host.Keeps {α : Type} (m : Host α) : Prop :=
  ∀ I : Sandbox → Prop, (∀ s action, I s → I (s.perform action)) → ∀ s, I s → I (m.run.run s).2

namespace Host.Keeps

variable {α β : Type}

theorem pure (a : α) : Host.Keeps (Pure.pure a) := fun _ _ _ hs => hs

theorem throw (failure : Failure) : Host.Keeps (MonadExcept.throw failure : Host α) :=
  fun _ _ _ hs => hs

theorem lift (result : Except Failure α) : Host.Keeps (liftM result : Host α) := by
  intro I _ s hs
  cases result <;> exact hs

/-- What two computations keep is kept by one after the other. -/
theorem bind {m : Host α} {f : α → Host β} (hm : Host.Keeps m) (hf : ∀ a, Host.Keeps (f a)) :
    Host.Keeps (m >>= f) := by
  intro I hI s hs
  have hfirst := hm I hI s hs
  rw [ExceptT.run_bind, StateT.run_bind]
  cases hrun : m.run.run s with
  | mk result t =>
    rw [hrun] at hfirst
    cases result with
    | error failure => exact hfirst
    | ok a => exact hf a I hI t hfirst

/-- A call of a guest function keeps what its host calls keep. -/
theorem call (call : Call α) : Host.Keeps call.run := by
  refine bind (fun I hI s hs => ?_) fun _ => lift _
  -- one host call after the other
  change I (call.actions.foldl Sandbox.perform s)
  generalize call.actions = actions
  induction actions generalizing s with
  | nil => exact hs
  | cons action actions ih => exact ih (s.perform action) (hI s action hs)

theorem ensure (p : Prop) [Decidable p] (message : Bytes) : Host.Keeps (ensure p message) := by
  unfold Native.ensure
  split_ifs
  · exact pure ()
  · exact throw _

theorem ite {p : Prop} [Decidable p] {m n : Host α} (hm : Host.Keeps m) (hn : Host.Keeps n) :
    Host.Keeps (if p then m else n) := by
  split_ifs
  · exact hm
  · exact hn

end Host.Keeps

/-- What a computation returns, if it returns, satisfies `Q`. -/
def Host.Returns {α : Type} (m : Host α) (Q : α → Prop) : Prop :=
  ∀ s a t, m.run.run s = (.ok a, t) → Q a

namespace Host.Returns

variable {α β : Type} {P : α → Prop} {Q : β → Prop}

theorem any (m : Host α) : Host.Returns m fun _ => True := fun _ _ _ _ => trivial

theorem pure {a : α} (h : P a) : Host.Returns (Pure.pure a) P := by
  intro s b t hrun
  cases hrun
  exact h

theorem lift (result : Except Failure α) :
    Host.Returns (liftM result : Host α) fun a => result = .ok a := by
  intro s a t hrun
  cases result <;> cases hrun
  rfl

theorem bind {m : Host α} {f : α → Host β} (hm : Host.Returns m P)
    (hf : ∀ a, P a → Host.Returns (f a) Q) : Host.Returns (m >>= f) Q := by
  intro s b u hrun
  rw [ExceptT.run_bind, StateT.run_bind] at hrun
  cases hfirst : m.run.run s with
  | mk result t =>
    rw [hfirst] at hrun
    cases result with
    | error failure => cases hrun
    | ok a => exact hf a (hm s a t hfirst) t b u hrun

theorem call (call : Call α) : Host.Returns call.run fun a => call.result = .ok a :=
  bind (any _) fun _ _ => lift _

theorem ensure (p : Prop) [Decidable p] (message : Bytes) :
    Host.Returns (ensure p message) fun _ => p := by
  intro s a t hrun
  unfold Native.ensure at hrun
  split_ifs at hrun with hp
  · exact hp
  · cases hrun

end Host.Returns

/-! ### An execution -/

/-- `Execution`. Of its bridge it only matters here whether there is one. -/
structure Execution where
  sandbox : Sandbox
  bridge : Bool
  maxStep : ℕ
  maxCompletion : ℕ
  maxDiagnostic : ℕ

/-- `Progress`. -/
inductive Progress
  | done (bytes : Bytes)
  | pending (bytes : Bytes)

/-- What happens during a start: whether the rest of `Sandbox::new`, the checks of the control and
the compilation succeed, the calls into the plugin and the guest, whether the provider exports
`javex-step-v1`, and whether its other exports are found. -/
structure Launch where
  limits : StoreLimits
  created : Except Failure Unit
  checked : Except Failure Unit
  compiled : Except Failure Unit
  rechecked : Except Failure Unit
  plugin : Call Unit
  guest : Call Unit
  resumable : Bool
  configure : Call Unit
  main : Call Unit
  exported : Except Failure Unit

/-- The message of an error. -/
def Failure.message : Failure → Bytes
  | outOfFuel => utf8 "all fuel consumed by WebAssembly"
  | unreachable message | other message => message

/-- The closure of `Execution::start`; its result says whether there is a bridge. -/
def Launch.body (opts : Budgets) (launch : Launch) : Host Bool := do
  launch.checked
  launch.compiled
  launch.rechecked
  launch.plugin.runIf (!opts.staticMode)
  launch.guest.run
  launch.configure.runIf launch.resumable
  launch.main.run
  return launch.resumable

/-- `Execution::start`, and the sandbox it leaves. -/
def Execution.start (wasm input : Bytes) (opts : Budgets) (launch : Launch) (now : Moment) :
    Except (Kind × Bytes) Execution × Sandbox :=
  let sandbox := Sandbox.new opts launch.limits
  if opts.maxInput < input.length then
    (.error (.inputLimit, utf8 "input limit exceeded"), sandbox)
  else if opts.maxModule < wasm.length then
    (.error (.moduleLimit, utf8 "Wasm module limit exceeded"), sandbox)
  else if ¬ (0 < opts.maxMemory ∧ 0 < opts.maxInput ∧ 0 < opts.maxModule) then
    (.error (.trap, utf8 "invalid budget"), sandbox)
  else
    match launch.created with
    | .error failure => (.error (.trap, failure.message), sandbox)
    | .ok () =>
      let (result, sandbox) := (launch.body opts).run.run sandbox
      match sandbox.finish now result, launch.exported with
      | .error error, _ => (.error error, sandbox)
      | .ok true, .error failure => (.error (.trap, failure.message), sandbox)
      | .ok bridge, _ =>
        (.ok
          { sandbox, bridge
            maxStep := opts.callbackRequestLimit
            maxCompletion := opts.callbackCompletionLimit
            maxDiagnostic := opts.maxStderr }, sandbox)

/-- What happens during an advance: the check of the control, the calls into the provider, the size
of its memory at the write of the completion, and the memory after the step. -/
structure Turn where
  checked : Except Failure Unit
  realloc : Call ℕ
  size : ℕ
  step : Call ℕ
  memory : Bytes
  free : Call Unit

/-- `memory.read`. -/
def readMemory (memory : Bytes) (pointer length : ℕ) : Except Failure Bytes :=
  if pointer + length ≤ memory.length then .ok ((memory.drop pointer).take length)
  else .error (.other (utf8 "out of bounds memory access"))

/-- `u32::from_le_bytes`. -/
def word (bytes : Bytes) : ℕ := bytes.foldr (fun b n => b.toNat + 256 * n) 0

/-- The arms of the match on a tag that refuse a record. -/
def Execution.checkRecord (e : Execution) (tag length : ℕ) : Host Unit :=
  if tag = 0 then ensure (length ≤ e.maxStep) (utf8 "callback request frame limit exceeded")
  else ensure (tag = 1) (utf8 "invalid provider result tag")

/-- The closure of `Execution::advance`: the tag of the record and its bytes, with tag 2 for a
diagnostic that is too long. -/
def Execution.body (e : Execution) (completion : Bytes) (turn : Turn) : Host (ℕ × Bytes) := do
  turn.checked
  ensure (completion.length ≤ e.maxCompletion) (utf8 "callback completion limit exceeded")
  ensure (completion.length < 2 ^ 32)
    (utf8 "out of range integral type conversion attempted")
  let pointer ← turn.realloc.run
  ensure (pointer + completion.length ≤ turn.size) (utf8 "out of bounds memory access")
  let record ← turn.step.run
  let fields ← readMemory turn.memory record 12
  let tag := word (fields.take 4)
  let resultPointer := word ((fields.drop 4).take 4)
  let resultLength := word ((fields.drop 8).take 4)
  e.checkRecord tag resultLength
  if tag = 1 ∧ e.maxDiagnostic < resultLength then return (2, [])
  else do
    let bytes ← readMemory turn.memory resultPointer resultLength
    turn.free.run
    return (tag, bytes)

/-- `state[key] == true`. -/
def isTrue (state : Json) (key : String) : Bool :=
  match state.get (utf8 key) with
  | some (.bool b) => b
  | _ => false

/-- What `Execution::advance` makes of a record. -/
def conclude (fromSlice : Bytes → Except Bytes Json) (stdout : Bytes) (record : ℕ × Bytes) :
    Except (Kind × Bytes) Progress :=
  let (tag, bytes) := record
  if tag = 2 then .error (.diagnosticLimit, utf8 "JavaScript diagnostic limit exceeded")
  else if tag ≠ 0 then .error (.jsError, lossy bytes)
  else
    match fromSlice bytes with
    | .error message => .error (.trap, message)
    | .ok state =>
      if isTrue state "fatal" then .error (.callbackLimit, utf8 "callback budget exceeded")
      else if isTrue state "done" then .ok (.done stdout)
      else .ok (.pending bytes)

/-- `Execution::advance`, and the execution it leaves. -/
def Execution.advance (fromSlice : Bytes → Except Bytes Json) (e : Execution) (completion : Bytes)
    (turn : Turn) (now : Moment) : Except (Kind × Bytes) Progress × Execution :=
  if !e.bridge then (.ok (.done e.sandbox.stdout.bytes), e)
  else
    let (result, sandbox) := (e.body completion turn).run.run e.sandbox
    ((sandbox.finish now result).bind (conclude fromSlice sandbox.stdout.bytes),
      { e with sandbox })

/-! ### The life of an execution -/

/-- An execution before its start, after a start that failed, after one that succeeded, and after
an advance with its result. -/
inductive Life
  | idle
  | failed (left : Sandbox) (now : Moment) (error : Kind × Bytes)
  | started (e : Execution)
  | advanced (e : Execution) (now : Moment) (result : Except (Kind × Bytes) Progress)

/-- A call of the host. -/
inductive Life.Label
  | start (wasm input : Bytes) (launch : Launch) (now : Moment)
  | advance (completion : Bytes) (turn : Turn) (now : Moment)

namespace Life

variable (opts : Budgets) (fromSlice : Bytes → Except Bytes Json)

/-- The execution that can be advanced. The NIF drops it after a result or an error; here it may
be advanced once more. -/
def execution? : Life → Option Execution
  | started e | advanced e _ _ => some e
  | idle | failed _ _ _ => none

/-- One call. -/
def step : Life → Label → Option Life
  | idle, .start wasm input launch now =>
    match Execution.start wasm input opts launch now with
    | (.ok e, _) => some (started e)
    | (.error error, left) => some (failed left now error)
  | life, .advance completion turn now =>
    life.execution?.map fun e =>
      let (result, e) := e.advance fromSlice completion turn now
      advanced e now result
  | _, _ => none

/-- An execution under some budgets. -/
def system : System Life Label := .ofStep (· = idle) (step opts fromSlice)

end Life

namespace Life

variable {opts : Budgets} {fromSlice : Bytes → Except Bytes Json}

/-- What a call of the host does. -/
inductive Step (opts : Budgets) (fromSlice : Bytes → Except Bytes Json) : Life → Label → Life → Prop
  | started {wasm input : Bytes} {launch : Launch} {now : Moment} {e : Execution} {left : Sandbox} :
      Execution.start wasm input opts launch now = (.ok e, left) →
      Step opts fromSlice idle (.start wasm input launch now) (started e)
  | failed {wasm input : Bytes} {launch : Launch} {now : Moment} {error : Kind × Bytes}
      {left : Sandbox} : Execution.start wasm input opts launch now = (.error error, left) →
      Step opts fromSlice idle (.start wasm input launch now) (failed left now error)
  | advanced {life : Life} {completion : Bytes} {turn : Turn} {now : Moment} {e e' : Execution}
      {result : Except (Kind × Bytes) Progress} : life.execution? = some e →
      e.advance fromSlice completion turn now = (result, e') →
      Step opts fromSlice life (.advance completion turn now) (advanced e' now result)

/-- **What a step of a life can be.** -/
theorem step_cases {life next : Life} {l : Label} (h : step opts fromSlice life l = some next) :
    Step opts fromSlice life l next := by
  cases l with
  | start wasm input launch now =>
    cases life <;> simp only [step] at h <;> try cases h
    cases hstart : Execution.start wasm input opts launch now with
    | mk result left =>
      rw [hstart] at h
      cases result with
      | ok e =>
        cases h
        exact .started hstart
      | error error =>
        cases h
        exact .failed hstart
  | advance completion turn now =>
    have hmap : (life.execution?.map fun e =>
        let (result, e) := e.advance fromSlice completion turn now
        advanced e now result) = some next := by
      cases life <;> exact h
    obtain ⟨e, he, rfl⟩ := Option.map_eq_some_iff.mp hmap
    exact .advanced he rfl

end Life

/-- How a start comes out: it is refused before the closure runs, the closure or an export fails,
or there is an execution. -/
inductive Execution.Start (opts : Budgets) (launch : Launch) (now : Moment) :
    Except (Kind × Bytes) Execution × Sandbox → Prop
  | refused {kind : Kind} {message : Bytes} (hkind : kind ≠ .jsError) :
      Start opts launch now (.error (kind, message), Sandbox.new opts launch.limits)
  | failed {inner : Except Failure Bool} {sandbox : Sandbox} {error : Kind × Bytes}
      (hrun : (launch.body opts).run.run (Sandbox.new opts launch.limits) = (inner, sandbox))
      (hfinish : sandbox.finish now inner = .error error) :
      Start opts launch now (.error error, sandbox)
  | unexported {inner : Except Failure Bool} {sandbox : Sandbox} {failure : Failure}
      (hrun : (launch.body opts).run.run (Sandbox.new opts launch.limits) = (inner, sandbox))
      (hfinish : sandbox.finish now inner = .ok true) :
      Start opts launch now (.error (.trap, failure.message), sandbox)
  | started {inner : Except Failure Bool} {sandbox : Sandbox} {bridge : Bool}
      (hrun : (launch.body opts).run.run (Sandbox.new opts launch.limits) = (inner, sandbox))
      (hfinish : sandbox.finish now inner = .ok bridge) :
      Start opts launch now (.ok
        { sandbox, bridge
          maxStep := opts.callbackRequestLimit
          maxCompletion := opts.callbackCompletionLimit
          maxDiagnostic := opts.maxStderr }, sandbox)

/-- What a start can come to. -/
theorem Execution.start_cases (wasm input : Bytes) (opts : Budgets) (launch : Launch)
    (now : Moment) : Start opts launch now (Execution.start wasm input opts launch now) := by
  simp only [Execution.start]
  split_ifs
  · exact .refused (by decide)
  · exact .refused (by decide)
  · split
    · exact .refused (by decide)
    · cases hrun : (launch.body opts).run.run (Sandbox.new opts launch.limits) with
      | mk inner sandbox =>
        simp only
        split
        case h_1 hfinish => exact .failed hrun hfinish
        case h_2 hfinish _ => exact .unexported hrun hfinish
        case h_3 hfinish _ => exact .started hrun hfinish
  · exact .refused (by decide)

/-- The limits of an execution that has been started. -/
theorem Execution.start_limits {wasm input : Bytes} {opts : Budgets} {launch : Launch}
    {now : Moment} {e : Execution} {left : Sandbox}
    (h : Execution.start wasm input opts launch now = (.ok e, left)) :
    e.maxCompletion = opts.callbackCompletionLimit ∧ e.maxDiagnostic = opts.maxStderr := by
  have hstart := Execution.start_cases wasm input opts launch now
  rw [h] at hstart
  cases hstart
  exact ⟨rfl, rfl⟩

/-- An advance leaves the limits alone. -/
theorem Execution.advance_limits {fromSlice : Bytes → Except Bytes Json}
    {e e' : Execution} {completion : Bytes} {turn : Turn} {now : Moment}
    {result : Except (Kind × Bytes) Progress}
    (h : e.advance fromSlice completion turn now = (result, e')) :
    e'.maxCompletion = e.maxCompletion ∧ e'.maxDiagnostic = e.maxDiagnostic := by
  unfold Execution.advance at h
  split_ifs at h
  · cases h
    exact ⟨rfl, rfl⟩
  · cases h
    exact ⟨rfl, rfl⟩

namespace Life

/-- The bound on the completions of an execution is that of its budgets. -/
theorem maxCompletion_of_reachable {life : Life} (h : (system opts fromSlice).Reachable life) :
    ∀ e, life.execution? = some e → e.maxCompletion = opts.callbackCompletionLimit := by
  refine System.Inductive.of_reachable (I := fun life : Life => ∀ e, life.execution? = some e →
    e.maxCompletion = opts.callbackCompletionLimit) ⟨?_, ?_⟩ h
  · rintro life rfl e ⟨⟩
  · intro life l next hlife hstep e he
    cases step_cases hstep with
    | started hstart =>
      cases he
      exact (Execution.start_limits hstart).1
    | failed _ => cases he
    | advanced he' hadvance =>
      cases he
      exact (Execution.advance_limits hadvance).1.trans (hlife _ he')

end Life

/-! ### The closures keep to host calls -/

/-- The closure of a start changes the sandbox by host calls only. -/
theorem Launch.body_keeps (opts : Budgets) (launch : Launch) : Host.Keeps (launch.body opts) := by
  unfold Launch.body
  refine .bind (.lift _) fun _ => .bind (.lift _) fun _ => .bind (.lift _) fun _ => ?_
  refine .bind (.ite (.call _) (.pure _)) fun _ => .bind (.call _) fun _ => ?_
  exact .bind (.ite (.call _) (.pure _)) fun _ => .bind (.call _) fun _ => .pure _

/-- The closure of an advance changes the sandbox by host calls only. -/
theorem Execution.body_keeps (e : Execution) (completion : Bytes) (turn : Turn) :
    Host.Keeps (e.body completion turn) := by
  unfold Execution.body
  refine .bind (.lift _) fun _ => .bind (.ensure _ _) fun _ => .bind (.ensure _ _) fun _ => ?_
  refine .bind (.call _) fun _ => .bind (.ensure _ _) fun _ => .bind (.call _) fun _ => ?_
  refine .bind (.lift _) fun _ => .bind (.ite (.ensure _ _) (.ensure _ _)) fun _ => ?_
  exact .ite (.pure _) (.bind (.lift _) fun _ => .bind (.call _) fun _ => .pure _)

/-- What the closure of `Execution::advance` returns. -/
inductive Record (e : Execution) : ℕ × Bytes → Prop
  | state {bytes : Bytes} : bytes.length ≤ e.maxStep → Record e (0, bytes)
  | error {bytes : Bytes} : bytes.length ≤ e.maxDiagnostic → Record e (1, bytes)
  | long : Record e (2, [])

/-- A read of some bytes returns as many. -/
theorem length_of_readMemory {memory bytes : Bytes} {pointer length : ℕ}
    (h : readMemory memory pointer length = .ok bytes) : bytes.length = length := by
  unfold readMemory at h
  split_ifs at h with hbounds
  cases h
  rw [List.length_take, List.length_drop]
  omega

/-- A record that is accepted has the tag of an answer within its limit, or that of an error. -/
theorem Execution.checkRecord_returns (e : Execution) (tag length : ℕ) :
    Host.Returns (e.checkRecord tag length) fun _ => tag = 0 ∧ length ≤ e.maxStep ∨ tag = 1 := by
  unfold Execution.checkRecord
  by_cases htag : tag = 0
  · rw [if_pos htag]
    intro s a t hrun
    exact .inl ⟨htag, Host.Returns.ensure _ _ s a t hrun⟩
  · rw [if_neg htag]
    intro s a t hrun
    exact .inr (Host.Returns.ensure _ _ s a t hrun)

/-- **An advance returns** a record that its checks have accepted. -/
theorem Execution.body_returns (e : Execution) (completion : Bytes) (turn : Turn) :
    Host.Returns (e.body completion turn) (Record e) := by
  unfold Execution.body
  refine .bind (.any _) fun _ _ => .bind (.any _) fun _ _ => .bind (.any _) fun _ _ => ?_
  refine .bind (.any _) fun _ _ => .bind (.any _) fun _ _ => .bind (.any _) fun _ _ => ?_
  refine .bind (.any _) fun fields _ => .bind (e.checkRecord_returns _ _) fun _ hcheck => ?_
  by_cases hlong : word (fields.take 4) = 1 ∧
      e.maxDiagnostic < word ((fields.drop 8).take 4)
  · rw [if_pos hlong]
    exact .pure .long
  · rw [if_neg hlong]
    refine .bind (.lift _) fun bytes hread => .bind (.any _) fun _ _ => .pure ?_
    have hlength := length_of_readMemory hread
    rcases hcheck with ⟨htag, hstep⟩ | htag
    · rw [htag]
      exact .state (hlength ▸ hstep)
    · rw [htag]
      exact .error (by omega)

end Javex.Native
