import Javex.Options.Accepted
import Javex.Runtime.Admission

/-!
# What the options of a request can do

The option checks inside the server of `Runtime/Server.lean`, where an exception stops it.

* `limits_enforced`: what the three entry points accept, what the budgets of an accepted call are
  worth, and that the numbers downstream are these budgets.
* `run_requests_served_iff`: a run request is refused or admits a job, unless the environment that
  it gives is an improper list; a runtime that is given no such request never stops.

The checks are those of `Javex.Options.Accepted`; what the server adds is where they are made. The
checks of `run/2` are made in the process of the server, so an exception there is the end of it and
of all its jobs. `DerailingOptions` are the options which raise there, and they raise because
`is_list/1` is true of an improper list and `length/1` raises on one, while every other check
answers whatever term it is given.

A budget is followed to its last reader: `ExactBudget` says that as a `u64`, a `u32` or a time in
milliseconds it is the number that was accepted.
-/

namespace Javex.Runtime

open Transition

variable {V : Type}

/-! ### Numbers downstream -/

/-- A `u64` argument of the native library, and a `usize` one. -/
def toUInt64? : Term → Option UInt64
  | .int n => if 0 ≤ n ∧ n < 18446744073709551616 then some (.ofNat n.toNat) else none
  | _ => none

/-- A `u32` argument of the native library. -/
def toUInt32? : Term → Option UInt32
  | .int n => if 0 ≤ n ∧ n < 4294967296 then some (.ofNat n.toNat) else none
  | _ => none

/-- A time in milliseconds, as a timer or an `after` takes it. -/
def toTimer? : Term → Option ℕ
  | .int n => if 0 ≤ n ∧ n < 4294967296 then some n.toNat else none
  | _ => none

/-- The budgets that are a `u32` in `Budgets`. -/
def shortKeys : List BudgetKey :=
  [.maxCallbackCalls, .maxCallbackConcurrency, .maxCallbackInput, .maxCallbackOutput]

/-- The budgets that a timer is started with. -/
def timerKeys : List BudgetKey := [.timeout, .callbackTimeout]

/-- A budget is in its range and means the same number wherever it is passed on. -/
structure ExactBudget (key : BudgetKey) (n : ℕ) : Prop where
  range : key.minimum ≤ n ∧ n ≤ key.maximum
  uint64 : ∃ x, toUInt64? (.int n) = some x ∧ x.toNat = n
  uint32 : key ∈ shortKeys → ∃ x, toUInt32? (.int n) = some x ∧ x.toNat = n
  timer : key ∈ timerKeys → toTimer? (.int n) = some n

theorem toUInt64?_of_le {n : ℕ} (h : n ≤ 18446744073709551615) :
    ∃ x, toUInt64? (.int n) = some x ∧ x.toNat = n := by
  refine ⟨.ofNat n, ?_, UInt64.toNat_ofNat_of_lt (Nat.lt_succ_of_le h)⟩
  rw [toUInt64?, if_pos (by omega), Int.toNat_natCast]

theorem exactBudget (b : Budgets) (key : BudgetKey) : ExactBudget key (b.value key) := by
  have hlong : key.maximum ≤ 18446744073709551615 := by cases key <;> decide
  have hshort : key ∈ shortKeys → key.maximum < 4294967296 := by cases key <;> decide
  have htimer : key ∈ timerKeys → key.maximum < 4294967296 := by cases key <;> decide
  have hle := b.le_maximum key
  refine ⟨⟨b.minimum_le key, hle⟩, toUInt64?_of_le (hle.trans hlong), fun hkey => ?_,
    fun hkey => ?_⟩
  · have hlt := hle.trans_lt (hshort hkey)
    refine ⟨.ofNat (b.value key), ?_, UInt32.toNat_ofNat_of_lt hlt⟩
    rw [toUInt32?, if_pos (by omega), Int.toNat_natCast]
  · have hlt := hle.trans_lt (htimer hkey)
    rw [toTimer?, if_pos (by omega), Int.toNat_natCast]

/-! ### The budgets of a call -/

/-- A request that the option checks refuse gets their error, and changes nothing. -/
theorem handleCall_refused {inspect : Term → String} {opts : Term} {state : State}
    {e : RuntimeError} (h : Options.run inspect opts state.defaults = .error (.error e))
    (mod : Module) (input : Term) (started : ℤ) (client : From) (now : ℤ) (fresh : Fresh) :
    handleCall (V := V) inspect (.run mod input opts started) client now fresh state =
      .ok (state, [.reply client (.error (.runtime e))]) := by
  simp only [handleCall, h]

/-- **Limits are enforced.** Each entry point accepts exactly the lists that obey its rules. In
every state that a runtime reaches, a budget of an accepted run is the one that the call gives, or
that the options of the runtime give, or the built-in one; a budget of an accepted compilation is
the one that the call gives or the built-in one, and its `max_input` is its `max_source`. All are
in range and arrive as they are, and a list that is refused changes nothing. -/
theorem limits_enforced (inspect : Term → String) :
    (∀ opts, (∃ r, Options.runtime inspect opts = .ok r) ↔
      ∃ pairs, keywordPairs? opts = some pairs ∧ Options.RuntimeRules pairs) ∧
    (∀ opts defaults, (∃ limits, Options.run inspect opts defaults = .ok limits) ↔
      ∃ pairs, keywordPairs? opts = some pairs ∧ Options.RunRules pairs) ∧
    (∀ opts, (∃ limits, Options.compile inspect opts = .ok limits) ↔
      ∃ pairs, keywordPairs? opts = some pairs ∧ Options.CompileRules pairs) ∧
    (∀ given r plugin pluginHash (w : World V) state, Options.runtime inspect given = .ok r →
      (system V inspect r plugin pluginHash).Reachable w → w.server = some state →
      ∀ called,
        (∀ limits givenPairs calledPairs,
          Options.run inspect called state.defaults = .ok limits →
          keywordPairs? given = some givenPairs → keywordPairs? called = some calledPairs →
          ∀ key, ExactBudget key (limits.budgets.value key) ∧
            .int (limits.budgets.value key) = (calledPairs.lookup key.name).getD
              ((givenPairs.lookup key.runtimeName).getD (.int key.builtinDefault))) ∧
        (∀ e mod input started client now fresh,
          Options.run inspect called state.defaults = .error (.error e) →
          handleCall inspect (.run mod input called started) client now fresh state =
            .ok (state, [(.reply client (.error (.runtime e)) : Effect V)]))) ∧
    (∀ opts limits pairs, Options.compile inspect opts = .ok limits →
      keywordPairs? opts = some pairs →
      (∀ key, ExactBudget key (limits.budgets.value key) ∧
        .int (limits.budgets.value key) =
          (pairs.lookup key.name).getD (.int key.builtinDefault)) ∧
      .int limits.maxInput =
        (pairs.lookup "max_source").getD (.int (BudgetKey.maxInput.builtinDefault)) ∧
      1 ≤ limits.maxInput ∧ ∃ x, toUInt64? (.int limits.maxInput) = some x ∧
        x.toNat = limits.maxInput) := by
  refine ⟨fun _ => Options.runtime_accepts_iff, fun _ _ => Options.run_accepts_iff,
    fun _ => Options.compile_accepts_iff, ?_, ?_⟩
  · intro given r plugin pluginHash w state hr hw hs called
    obtain ⟨jobs, rfl⟩ := config_of_reachable hw hs
    refine ⟨fun limits givenPairs calledPairs hrun hgiven hcalled key => ⟨exactBudget _ _, ?_⟩,
      fun e mod input started client now fresh h =>
        handleCall_refused h mod input started client now fresh⟩
    rw [Options.run_value hrun hcalled key]
    rw [← Options.runtime_value hr hgiven key]
    rfl
  · intro opts limits pairs hcompile hpairs
    obtain ⟨hvalue, hsource, hmin, hmax⟩ := Options.compile_value hcompile hpairs
    exact ⟨fun key => ⟨exactBudget _ _, hvalue key⟩, hsource, hmin, toUInt64?_of_le hmax⟩

/-- `[default_timeout: 100, default_fuel: 7]`. -/
def frugal : Term :=
  .cons (.tuple [.atom "default_timeout", .int 100])
    (.cons (.tuple [.atom "default_fuel", .int 7]) .nil)

/-- `[timeout: 20]`. -/
def hasty : Term := .cons (.tuple [.atom "timeout", .int 20]) .nil

/-- The call overrides one of the two defaults that the runtime was given, and a budget that
neither names has its built-in value. -/
theorem limits_enforced_frugal : ∃ r limits,
    Options.runtime (fun _ => "") frugal = .ok r ∧
    Options.run (fun _ => "") hasty (start r [] []).defaults = .ok limits ∧
    limits.budgets.timeout = 20 ∧ limits.budgets.fuel = 7 ∧
    limits.budgets.maxMemory = 64 * 1024 * 1024 := by
  obtain ⟨hruntime, hrun, -, hvalue, -⟩ := limits_enforced (V := Unit) fun _ => ""
  obtain ⟨r, hr⟩ := (hruntime frugal).mpr ⟨_, rfl, ⟨by decide, by decide⟩, fun key value h => by
    cases key <;> cases h <;> exact ⟨_, rfl, by decide, by decide⟩, nofun, nofun, nofun, nofun,
    nofun⟩
  obtain ⟨limits, hlimits⟩ := (hrun hasty (start r [] []).defaults).mpr ⟨_, rfl,
    ⟨by decide, by decide⟩, fun key value h => by
      cases key <;> cases h
      exact ⟨_, rfl, by decide, by decide⟩, nofun, nofun, nofun⟩
  have hbudget : ∀ key, _ := fun key => ((hvalue frugal r [] []
    ⟨some (start r [] []), 0, 1, [], [], [], [], []⟩ _ hr (.init ⟨rfl, rfl, rfl, rfl, rfl⟩) rfl
    hasty).1 limits _ _ hlimits rfl rfl key).2
  exact ⟨r, limits, hr, hlimits, Int.ofNat.inj (Term.int.inj (hbudget .timeout)),
    Int.ofNat.inj (Term.int.inj (hbudget .fuel)),
    Int.ofNat.inj (Term.int.inj (hbudget .maxMemory))⟩

/-! ### Run requests -/

/-- The options give an improper list as the environment, and nothing before it is refused. -/
def DerailingOptions (opts : Term) : Prop :=
  ∃ pairs, keywordPairs? opts = some pairs ∧ Options.Derails pairs

/-- An effect that starts the job of `client` under the names of `fresh`, with a time that a timer
and the native library take. -/
def Effect.Starts (client : From) (fresh : Fresh) : Effect V → Prop
  | .controlNew control remaining =>
    control = fresh.control ∧ 0 < remaining ∧ remaining ≤ 2147483647
  | .spawnMonitor pid ref _ => pid = fresh.pid ∧ ref = fresh.monitor
  | .monitor ref pid => ref = fresh.callerMonitor ∧ pid = client.pid
  | .sendAfter timer pid remaining =>
    timer = fresh.timer ∧ pid = fresh.pid ∧ 0 < remaining ∧ remaining ≤ 2147483647
  | _ => False

/-- What may become of a request: it gets an error and the state stays as it is, or a job is
added under an unused name and nothing is done but to start it. -/
inductive Served (state : State) (client : From) (fresh : Fresh) :
    State × List (Effect V) → Prop
  | refused (e : Error) : Served state client fresh (state, [.reply client (.error e)])
  | admitted (job : Job) (effects : List (Effect V)) : fresh.pid ∉ state.jobs →
      job.client = some client → (∀ effect ∈ effects, effect.Starts client fresh) →
      Served state client fresh
        ({ state with jobs := state.jobs.insert fresh.pid job }, effects)

section Requests

variable {state : State} {client : From} {fresh : Fresh} {result : State × List (Effect V)}

/-- Every job that was there stays as it was. -/
theorem Served.lookup (h : Served state client fresh result) {pid : ℕ} {job : Job}
    (hl : state.jobs.lookup pid = some job) : result.1.jobs.lookup pid = some job := by
  cases h with
  | refused => exact hl
  | admitted new effects hnot =>
    have hne : pid ≠ fresh.pid := by
      rintro rfl
      exact hnot (AList.mem_of_lookup hl)
    exact (AList.lookup_insert_ne hne).trans hl

theorem remainingTime_ok {remaining : ℤ} (h : remainingTime remaining = .ok ()) :
    0 < remaining := by
  unfold remainingTime at h
  split at h
  · assumption
  · cases h

/-- A job is started only with time left, and with no more of it than its timeout. -/
theorem startJob_served {started now : ℤ} {timeout : ℕ} (work : ℤ → Work)
    (hnot : fresh.pid ∉ state.jobs) (hstarted : started ≤ now) (htimeout : timeout ≤ 2147483647) :
    Served (V := V) state client fresh
      (startJob state client started timeout work now fresh) := by
  simp only [startJob]
  cases capacity state with
  | error e => exact .refused e
  | ok u =>
    cases htime : remainingTime ((timeout : ℤ) - (now - started)) with
    | error e => exact .refused e
    | ok u' =>
      have hpos := remainingTime_ok htime
      have hle : (timeout : ℤ) - (now - started) ≤ 2147483647 := by omega
      refine .admitted _ _ hnot rfl fun effect heffect => ?_
      simp only [List.mem_append, List.mem_cons, List.not_mem_nil, or_false] at heffect
      rcases heffect with hcontrol | rfl | rfl | rfl
      · split at hcontrol
        · obtain rfl := List.mem_singleton.mp hcontrol
          exact ⟨rfl, hpos, hle⟩
        · cases hcontrol
      · exact ⟨rfl, rfl⟩
      · exact ⟨rfl, rfl⟩
      · exact ⟨rfl, rfl, hpos, hle⟩

/-- The handler raises exactly on options that derail it. -/
theorem handleCall_eq_error {inspect : Term → String} {mod : Module} {input opts : Term}
    {started now : ℤ} {exception : Raise} :
    handleCall (V := V) inspect (.run mod input opts started) client now fresh state =
      .error exception ↔ exception = .argumentError ∧ DerailingOptions opts := by
  rw [DerailingOptions, ← @Options.run_raised_iff inspect opts state.defaults]
  simp only [handleCall]
  constructor
  · intro h
    split at h
    case h_1 hraised =>
      cases h
      exact hraised
    case h_2 => cases h
    case h_3 => split at h <;> cases h
  · intro hraised
    simp only [hraised]

/-- A run request that does not derail the server is refused or admits a job. -/
theorem handleCall_served {inspect : Term → String} {mod : Module} {input opts : Term}
    {started now : ℤ} (hnot : fresh.pid ∉ state.jobs) (hstarted : started ≤ now)
    (h : handleCall inspect (.run mod input opts started) client now fresh state = .ok result) :
    Served state client fresh result := by
  simp only [handleCall] at h
  split at h
  case h_1 => cases h
  case h_2 =>
    cases h
    exact .refused _
  case h_3 limits _ =>
    split at h <;> cases h
    · exact .refused _
    · exact startJob_served _ hnot hstarted (limits.budgets.le_maximum .timeout)

end Requests

/-- The steps of a runtime that is given no derailing options. -/
def NotDerailing (_ : World V) (l : Label V) (_ : World V) : Prop :=
  ∀ caller mod input opts started, l = .call caller (.run mod input opts started) →
    ¬ DerailingOptions opts

/-- A runtime that is given no derailing options never stops. -/
theorem server_ne_none {inspect : Term → String} {opts : RuntimeOptions}
    {plugin pluginHash : Bytes} {w : World V}
    (h : ((system V inspect opts plugin pluginHash).restrict NotDerailing).Reachable w) :
    w.server ≠ none := by
  refine System.of_reachable_rel (I := fun w => w.server ≠ none) ?_ ?_ h
  · rintro w ⟨hserver, -⟩
    rw [hserver]
    nofun
  · rintro w l w' - hw ⟨hstep, hlabel⟩
    cases l with
    | tick elapsed | other =>
      obtain rfl := hstep
      exact hw
    | die pid =>
      obtain ⟨-, rfl⟩ := hstep
      exact hw
    | deliver pid result =>
      obtain ⟨-, -, -, rfl⟩ := hstep
      exact hw
    | info info =>
      obtain ⟨-, state, hs, rfl⟩ := hstep
      nofun
    | call caller request =>
      obtain ⟨-, state, hs, rfl⟩ := hstep
      unfold World.handleCall
      cases hcall : Runtime.handleCall (V := V) inspect request ⟨caller, w.next⟩ w.now w.fresh
        state with
      | ok result => nofun
      | error exception =>
        -- only the options of a run request can raise
        cases request with
        | run mod input opts started =>
          exact absurd (handleCall_eq_error.mp hcall).2
            (hlabel caller mod input opts started rfl)
        | compile source static plugin limits started => cases hcall

/-- **A run request is served**, in every state that a runtime reaches, exactly if its options do
not give an improper list as the environment after options that are all accepted: it is refused
with an error, the state unchanged, or admits a job under an unused name, and the other jobs stay
as they were. A runtime that is given no other requests never stops. -/
theorem run_requests_served_iff (V : Type) (inspect : Term → String) (opts : RuntimeOptions)
    (plugin pluginHash : Bytes) :
    (∀ w : World V, (system V inspect opts plugin pluginHash).Reachable w →
      ∀ state, w.server = some state → ∀ caller mod input called started, started ≤ w.now →
      ((∃ result : State × List (Effect V),
          handleCall inspect (.run mod input called started) ⟨caller, w.next⟩ w.now w.fresh state =
            .ok result ∧ Served state ⟨caller, w.next⟩ w.fresh result ∧
          ∀ pid job, state.jobs.lookup pid = some job →
            result.1.jobs.lookup pid = some job) ↔
        ¬ DerailingOptions called)) ∧
    ∀ w : World V, ((system V inspect opts plugin pluginHash).restrict NotDerailing).Reachable w →
      w.server ≠ none := by
  refine ⟨fun w hw state hs caller mod input called started hstarted => ?_,
    fun w hw => server_ne_none hw⟩
  cases hcall : handleCall (V := V) inspect (.run mod input called started) ⟨caller, w.next⟩
    w.now w.fresh state with
  | error exception =>
    have hderails := (handleCall_eq_error.mp hcall).2
    simp [hderails]
  | ok result =>
    have hserved := handleCall_served ((Inv.of_reachable hw).fresh_pid hs) hstarted hcall
    refine iff_of_true ⟨result, rfl, hserved, fun pid job hl => hserved.lookup hl⟩ fun h => ?_
    rw [handleCall_eq_error.mpr ⟨rfl, h⟩] at hcall
    cases hcall

/-! ### An improper environment -/

/-- `[env: [{"A", "b"} | :x]]`. -/
def improperEnv : Term :=
  .cons (.tuple [.atom "env",
    .cons (.tuple [.binary (utf8 "A"), .binary (utf8 "b")]) (.atom "x")]) .nil

theorem derailing_improperEnv : DerailingOptions improperEnv := by
  refine ⟨_, rfl, ⟨by decide, by decide⟩, fun key value hvalue => ?_, fun value hvalue => ?_, _,
    rfl, rfl, rfl⟩
  · cases key <;> cases hvalue
  · cases hvalue

/-- A run with an improper environment raises in the server, which stops. -/
theorem improper_env_stops : ∃ w w' : World Unit, ∃ state,
    (system Unit (fun _ => "") oneSlot [] []).Reachable w ∧ w.server = some state ∧
    (∃ pairs, keywordPairs? improperEnv = some pairs) ∧
    handleCall (V := Unit) (fun _ => "")
      (.run ⟨.binary [], .atom "static", .nil⟩ .nil improperEnv 0)
      ⟨0, w.next⟩ w.now w.fresh state = .error .argumentError ∧
    (system Unit (fun _ => "") oneSlot [] []).step w
      (.call 0 (.run ⟨.binary [], .atom "static", .nil⟩ .nil improperEnv 0)) w' ∧
    w'.server = none := by
  have hraised : handleCall (V := Unit) (fun _ => "")
      (.run ⟨.binary [], .atom "static", .nil⟩ .nil improperEnv 0) ⟨0, idle.next⟩ idle.now
      idle.fresh (start oneSlot [] []) = .error .argumentError :=
    handleCall_eq_error.mpr ⟨rfl, derailing_improperEnv⟩
  refine ⟨idle, _, start oneSlot [] [], .init ⟨rfl, rfl, rfl, rfl, rfl⟩, rfl, ⟨_, rfl⟩, hraised,
    ⟨by decide, start oneSlot [] [], rfl, rfl⟩, ?_⟩
  unfold World.handleCall
  rw [hraised]
  rfl

/-- `[timeout: <<1::1>>, env: [{"A", "b"} | :x]]`. -/
def oddOptions : Term :=
  .cons (.tuple [.atom "timeout", .bitstring [true]])
    (.cons (.tuple [.atom "env",
      .cons (.tuple [.binary (utf8 "A"), .binary (utf8 "b")]) (.atom "x")]) .nil)

theorem not_derailing_oddOptions : ¬ DerailingOptions oddOptions := by
  rintro ⟨pairs, hpairs, hderails⟩
  cases hpairs
  obtain ⟨n, hn, -⟩ := hderails.budgets .timeout _ rfl
  cases hn

/-- While the runtime compiles, a run with a single bit as its timeout is served, whatever its
environment: the job of the compilation stays as it was, and the runtime has not stopped. -/
theorem run_requests_served_iff_odd : ∃ state job result, compiling.server = some state ∧
    state.jobs.lookup 2 = some job ∧
    handleCall (V := Unit) (fun _ => "")
      (.run ⟨.binary [], .atom "static", .nil⟩ (.float 0) oddOptions 0) ⟨3, compiling.next⟩
      compiling.now compiling.fresh state = .ok result ∧
    result.1.jobs.lookup 2 = some job ∧ compiling.server ≠ none := by
  obtain ⟨hserved, hruns⟩ := run_requests_served_iff Unit (fun _ => "") oneSlot [] []
  have hinit : (system Unit (fun _ => "") oneSlot [] []).init idle := ⟨rfl, rfl, rfl, rfl, rfl⟩
  have hstep : (system Unit (fun _ => "") oneSlot [] []).step idle
      (.call 0 (.compile [] false none ⟨.builtin, 1⟩ 0)) compiling :=
    ⟨by decide, start oneSlot [] [], rfl, rfl⟩
  obtain ⟨result, hresult, -, hjobs⟩ := (hserved compiling (.step (.init hinit) hstep) _ rfl 3
    ⟨.binary [], .atom "static", .nil⟩ (.float 0) oddOptions 0 le_rfl).mpr not_derailing_oddOptions
  exact ⟨_, _, result, rfl, rfl, hresult, hjobs 2 _ rfl,
    hruns compiling (.step (.init hinit) ⟨hstep, nofun⟩)⟩

end Javex.Runtime
