import Javex.Compile.Module
import Javex.Runtime.Admission

/-!
# A module and the provider it meets

A module that `compile/2` returned is plain data: it may be kept, and later be run by any runtime.
`check_module/3` of `lib/javex/runtime.ex` decides from its mode and its hash whether that runtime
runs it.

* `checkModule_compiled`: the verdict on such a module.
* `compiled_module_meets_its_provider`: a runtime that runs it, with its own provider, evaluates
  what `compile-src` made of the source.

The hash is the only thing that ties a dynamic module to a provider, so the verdict is right exactly
as far as the hash tells providers apart, which is a hypothesis about the two that are compared. A
static module carries its provider in its code and does not import one, and what it is linked with
does not matter (`runLinker_eq`).
-/

namespace Javex.Runtime

open Compile Plugin

variable {inspect : Term → String} {sha256 : Bytes → Bytes}

/-- The verdict on a module of these bytes that was compiled with `compiler`. -/
theorem checkModule_compiled (sha256 : Bytes → Bytes) (static : Bool) (bytes : Bytes)
    {compiler : Bytes} {state : State} (hstate : state.pluginHash = sha256 state.plugin)
    (hinj : sha256 compiler = sha256 state.plugin → compiler = state.plugin) (limits : Limits) :
    checkModule (moduleOf static (bytes, if static then [] else sha256 compiler)) state limits =
      if limits.budgets.maxModule < bytes.length then
        error .moduleLimit "Wasm module limit exceeded"
      else if static ∨ compiler = state.plugin then .ok ()
      else .error (.incompatibleProvider (sha256 state.plugin) (.binary (sha256 compiler))) := by
  cases static with
  | true => simp [checkModule, moduleOf, modeName]
  | false =>
    have hhash : sha256 compiler = sha256 state.plugin ↔ compiler = state.plugin :=
      ⟨hinj, congrArg sha256⟩
    simp [checkModule, checkModule.isHash, moduleOf, modeName, hstate, hhash]

/-- A handler spawns the worker of a run for a module that it has checked only. -/
theorem checked_of_spawns {V : Type} {mod : Module} {input called : Term} {started : ℤ}
    {client : From} {now : ℤ} {fresh : Fresh} {state state' : State} {effects : List (Effect V)}
    (h : handleCall inspect (.run mod input called started) client now fresh state =
      .ok (state', effects)) (hspawns : spawnsOf effects ≠ []) :
    ∃ limits, Options.run inspect called state.defaults = .ok limits ∧
      checkModule mod state limits = .ok () := by
  unfold handleCall at h
  dsimp only at h
  split at h
  · cases h
  · cases h
    exact absurd rfl hspawns
  case h_3 limits hlimits =>
    split at h
    · cases h
      exact absurd rfl hspawns
    · exact ⟨limits, hlimits, by assumption⟩

/-! ### From the source to the run -/

variable {Γ : Type} {p : Platform Γ} {held : Multiset Wasm.Block}
  {i : Instance Γ}

/-- A call of `compiler::compile` with these arguments, whose closure works on the instance `i` of
the plugin. -/
structure Compiles (p : Platform Γ) (i : Instance Γ) (compiler source : Bytes) (static : Bool)
    (job : Compiler.Job) : Prop where
  plugin_eq : job.plugin = compiler
  source_eq : job.source = source
  mode_eq : job.staticMode = static
  rides : ∃ rides : Compiler.Rides, job.compilation = rides.compilation p i source

/-- What a static module is linked with does not depend on the provider of the runtime. -/
theorem runLinker_eq {linker : Wasm.Linker (Rest Γ) Native.Failure}
    {lib : Compiler.Library (Rest Γ) Native.Failure} {compiler own : Bytes}
    {plugin plugin' : Wasm.Module (Rest Γ) Native.Failure} {runtime runtime' : Compiler.Runtime}
    {static : Bool} (hsame : static = true ∨ compiler = own)
    (hparse : lib.walrus.parse compiler = .ok plugin)
    (hparse' : lib.walrus.parse own = .ok plugin') (hbuild : lib.build compiler = .ok runtime)
    (hbuild' : lib.build own = .ok runtime') :
    Compiler.runLinker linker plugin runtime.namespaceName static =
      Compiler.runLinker linker plugin' runtime'.namespaceName static := by
  rcases hsame with rfl | rfl
  · rfl
  · obtain rfl := Except.ok.inj (hparse.symm.trans hparse')
    obtain rfl := Except.ok.inj (hbuild.symm.trans hbuild')
    rfl

/-- **A module runs on the provider it was compiled with.** Let `compile/2` have returned a module
for a source, and let a runtime with a provider of its own be in any state it can reach. The verdict
of the runtime on the module depends on its size and, in dynamic mode, on whether its own provider
is the one of the compilation. Where it spawns a worker for the module, `_start` of the module,
linked with the runtime's own provider and namespace, evaluates what `compile-src` made of the
source. -/
theorem compiled_module_meets_its_provider {V : Type} (hsound : i.Sound p held)
    {compiler source : Bytes} {opts : Term} {lib : Compiler.Library (Rest Γ) Native.Failure}
    {job : CompileLimits → Bool → Compiler.Job}
    (hjob : ∀ limits static, Compiles p i compiler source static (job limits static))
    {linker : Wasm.Linker (Rest Γ) Native.Failure}
    {plugin : Wasm.Module (Rest Γ) Native.Failure} (hexported : (provider p).Exported linker plugin)
    (hparse : lib.walrus.parse compiler = .ok plugin) {mod : Module}
    (hmod : compile inspect source opts (fun limits static =>
      nativeCompile sha256 compiler static ((job limits static).alone lib)) = .ok (.ok mod))
    {ropts : RuntimeOptions} {own : Bytes} {w : World V}
    (hreach : (system V inspect ropts own (sha256 own)).Reachable w) {state : State}
    (hserver : w.server = some state) (hinj : sha256 compiler = sha256 own → compiler = own) :
    ∃ wasm bytecode g m, mod.bytes = .binary wasm ∧ lib.walrus.emit m = wasm ∧
      Instance.Returns p .compile source i.engine (0, bytecode) g ∧
      (∀ limits : Limits, checkModule mod state limits =
        if limits.budgets.maxModule < wasm.length then
          error .moduleLimit "Wasm module limit exceeded"
        else if isStatic opts ∨ compiler = own then .ok ()
        else .error (.incompatibleProvider (sha256 own) (.binary (sha256 compiler)))) ∧
      ∀ input called started client now fresh state' (effects : List (Effect V)),
        handleCall inspect (.run mod input called started) client now fresh state =
          .ok (state', effects) → spawnsOf effects ≠ [] →
        ∀ runtime plugin', lib.build own = .ok runtime → lib.walrus.parse own = .ok plugin' →
          Compiler.Evaluates p
            (Compiler.runLinker linker plugin' runtime.namespaceName (isStatic opts)) m
            bytecode := by
  obtain ⟨jobs, rfl⟩ := config_of_reachable hreach hserver
  obtain ⟨limits, compiled, -, -, hbackend, rfl⟩ := compile_eq_ok hmod
  obtain ⟨hplugin, hsource, hmode, rides, hrides⟩ := hjob limits (isStatic opts)
  cases hresult : (job limits (isStatic opts)).alone lib with
  | error failure =>
    rw [hresult] at hbackend
    cases hbackend
  | ok wasm =>
    rw [hresult] at hbackend
    obtain rfl := Except.ok.inj hbackend
    obtain ⟨bytecode, g, runtime, m, hreturns, hbuild, hemit, hevaluates⟩ :=
      Compiler.Job.alone_evaluates hsound (hsource ▸ hrides) hexported (hplugin ▸ hparse) hresult
    rw [hplugin] at hbuild
    rw [hmode] at hevaluates
    have hhash : ({ start ropts own (sha256 own) with jobs } : State).pluginHash = sha256 own := rfl
    have hverdict := checkModule_compiled sha256 (isStatic opts) wasm hhash hinj
    refine ⟨wasm, bytecode, g, m, rfl, hemit, hsource ▸ hreturns, hverdict, ?_⟩
    intro input called started client now fresh state' effects hcall hspawns runtime' plugin'
      hbuild' hparse'
    obtain ⟨limits', -, hchecked⟩ := checked_of_spawns hcall hspawns
    rw [hverdict limits'] at hchecked
    split_ifs at hchecked with hlarge hsame
    · cases hchecked
    · rwa [← runLinker_eq hsame hparse hparse' hbuild hbuild']

/-- `1+1`, compiled with the provider `[1]`. -/
def sumModule (static : Bool) : Module :=
  moduleOf static ([0x00, 0x61, 0x73, 0x6d, 0x01, 0x00, 0x00, 0x00], [1])

/-- A runtime whose own provider is `[2]`, before its first call. -/
def elsewhere : World Unit := ⟨some (start oneSlot [2] [2]), 0, 1, [], [], [], [], []⟩

/-- A runtime with another provider runs the static module, and refuses the dynamic one. -/
theorem compiled_module_meets_its_provider_elsewhere :
    (∃ state' effects m bytecode,
      handleCall (fun _ => "") (.run (sumModule true) (.binary []) .nil 0) ⟨0, 0⟩ 0 ⟨2, 3, 4, 5, 6⟩
        (start oneSlot [2] [2]) = .ok (state', (effects : List (Effect Unit))) ∧
      Compiler.Evaluates replier (Compiler.runLinker (fun _ => none) (provider replier).bare
        "javex-plugin-v2" true) m bytecode) ∧
    ∀ limits : Limits, limits.budgets.maxModule = 8 →
      checkModule (sumModule false) (start oneSlot [2] [2]) limits =
        .error (.incompatibleProvider [2] (.binary [1])) := by
  have hsound : fresh.Sound replier 0 := ⟨sound_fresh, rfl⟩
  have hparse : ∀ plugin, Compiler.replierLib.walrus.parse plugin = .ok (provider replier).bare :=
    fun _ => rfl
  have hjob : ∀ static, Compiles replier fresh [1] [0x31, 0x2b, 0x31] static
      (Compiler.sumJob [1] static) := fun _ => ⟨rfl, rfl, rfl, _, rfl⟩
  have hreach : (system Unit (fun _ => "") oneSlot [2] (id [2])).Reachable elsewhere :=
    .init ⟨rfl, rfl, rfl, rfl, rfl⟩
  have hinj : id [(1 : UInt8)] = id [2] → [(1 : UInt8)] = [2] := id
  constructor
  · have hmod : compile (fun _ => "") [0x31, 0x2b, 0x31]
        (.cons (.tuple [.atom "mode", .atom "static"]) .nil) (fun _ static => nativeCompile id [1]
          static ((Compiler.sumJob [1] static).alone Compiler.replierLib)) =
        .ok (.ok (sumModule true)) := rfl
    obtain ⟨-, bytecode, -, m, -, -, -, -, hruns⟩ :=
      compiled_module_meets_its_provider hsound (fun _ => hjob)
        ((provider replier).exported_bare fun _ => none) (hparse [1]) hmod hreach rfl hinj
    obtain ⟨state', effects, hcall, hspawns⟩ : ∃ state' effects, handleCall (fun _ => "")
        (.run (sumModule true) (.binary []) .nil 0) ⟨0, 0⟩ 0 ⟨2, 3, 4, 5, 6⟩
          (start oneSlot [2] [2]) = .ok (state', (effects : List (Effect Unit))) ∧
        spawnsOf effects = [2] := ⟨_, _, rfl, rfl⟩
    exact ⟨state', effects, m, bytecode, hcall,
      hruns _ _ _ _ _ _ _ _ hcall (by rw [hspawns]; decide) _ _ rfl (hparse [2])⟩
  · have hmod : compile (fun _ => "") [0x31, 0x2b, 0x31] .nil (fun _ static => nativeCompile id [1]
        static ((Compiler.sumJob [1] static).alone Compiler.replierLib)) =
        .ok (.ok (sumModule false)) := rfl
    obtain ⟨wasm, -, -, -, hbytes, -, -, hverdict, -⟩ :=
      compiled_module_meets_its_provider hsound (fun _ => hjob)
        ((provider replier).exported_bare fun _ => none) (hparse [1]) hmod hreach rfl hinj
    obtain rfl := (Term.binary.inj hbytes).symm
    intro limits hlimits
    refine (hverdict limits).trans ?_
    rw [hlimits]
    rfl

end Javex.Runtime
