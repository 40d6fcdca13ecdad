import Javex.Compiler.Wrapper
import Javex.Plugin.Provider
import Javex.ForMathlib.Except

/-!
# Compiling source text

`compile` of `native/javex_nif/src/compiler.rs`, for one call: the checks of the source, the
closure that has the provider compile it, and the wrapper around the bytecode. What the permits and
the cache of providers make of several calls is the subject of `Javex.Compiler.Permits`.

* `body_compilation`: the closure returns the bytecode that `compile-src` returned, and fails for
  the reasons it lists only.
* `compiled_source_is_loaded`: from the source to the evaluation. What `_start` of a compiled
  module has evaluated is, byte for byte, what `compile-src` made of the source.

A compilation has the plugin run twice, for room and for `compile-src`, with the engine of the host
free to stop either call, and to grow the memory from the instantiation on. What it hands to the
wrapper is then known in terms of the plugin: it is what the closure of `compile-src` returned with
tag 0 (`Instance.Returns`). `Evaluates` says in the same terms what the finished module does, and
the main theorem joins the two, with the namespace under which the provider was built.
-/

namespace Javex.Compiler

open Native Wasm Plugin

variable {σ τ : Type}

/-! ### The code -/

/-- What the closure of a compilation meets: the instantiation of the provider, which may already
ask for memory, up to the lookup of `cabi_realloc`; the two calls with the size of the memory at the
write of the source, the lookup of `compile-src`, and the memory after it. -/
structure Compilation where
  instantiated : Call Unit
  realloc : Call ℕ
  size : ℕ
  found : Except Failure Unit
  compile : Call ℕ
  memory : Bytes

/-- The closure of `compile`. -/
def Compilation.body (opts : Native.Budgets) (source : Bytes) (c : Compilation) : Host Bytes := do
  c.instantiated.run
  let pointer ← c.realloc.run
  ensure (pointer + source.length ≤ c.size) (utf8 "out of bounds memory access")
  c.found
  let record ← c.compile.run
  let fields ← readMemory c.memory record 12
  let tag := word (fields.take 4)
  let resultPointer := word ((fields.drop 4).take 4)
  let length := word ((fields.drop 8).take 4)
  let limit := if tag = 0 then opts.maxModule else opts.maxStderr
  ensure (length ≤ limit) (utf8 "compiler result limit exceeded")
  let payload ← readMemory c.memory resultPointer length
  ensure (tag = 0) (Codec.lossy payload)
  return payload

/-- The arguments of a call of `compile`, and what the call meets: the results of the checks of its
control, the rest of `Sandbox::new`, the closure, and the moment of `finish`. -/
structure Job where
  plugin : Bytes
  source : Bytes
  staticMode : Bool
  opts : Native.Budgets
  limits : StoreLimits
  first : Except Failure Unit
  created : Except Failure Unit
  compilation : Compilation
  now : Moment
  second : Except Failure Unit
  third : Except Failure Unit

/-- What `compile` uses of a provider's `Runtime` beyond its module. -/
structure Runtime where
  namespaceName : String

/-- The libraries: walrus, the text of an error of `std::str::from_utf8`, and `build_runtime`. -/
structure Library (σ τ : Type) where
  walrus : Walrus σ τ
  utf8Error : Bytes → Failure
  build : Bytes → Except Failure Runtime

namespace Job

variable (lib : Library σ τ) (job : Job)

/-- The checks before a permit is asked for. -/
def admitted : Except Failure Unit :=
  if ¬ (job.source.length ≤ job.opts.maxInput ∧ job.source.length ≤ 2 ^ 32 - 1) then
    .error (.other (utf8 "source limit exceeded"))
  else if ¬ validString job.source then .error (lib.utf8Error job.source)
  else .ok ()

/-- The sandbox, the closure and `finish`, whose error leaves its message only. -/
def bytecode : Except Failure Bytes :=
  if ¬ (0 < job.opts.maxMemory ∧ 0 < job.opts.maxInput ∧ 0 < job.opts.maxModule) then
    .error (.other (utf8 "invalid budget"))
  else
    match job.created with
    | .error failure => .error failure
    | .ok () =>
      let (result, sandbox) := (job.compilation.body job.opts job.source).run.run
        (Sandbox.new job.opts job.limits)
      match sandbox.finish job.now result with
      | .error (_, message) => .error (.other message)
      | .ok bytecode => .ok bytecode

/-- What follows once there is a provider. -/
def complete (runtime : Runtime) : Except Failure Bytes := do
  let bytecode ← job.bytecode
  job.second
  let wasm ← wrapper lib.walrus job.plugin runtime.namespaceName bytecode job.staticMode
  if wasm.length ≤ job.opts.maxModule then do
    job.third
    return wasm
  else .error (.other (utf8 "Wasm module limit exceeded"))

/-- A call of `compile` that has its permit and no other call beside it. -/
def alone : Except Failure Bytes := do
  job.admitted lib
  job.first
  let runtime ← lib.build job.plugin
  job.complete lib runtime

end Job

/-! ### The closure on a plugin -/

variable {Γ : Type} {p : Platform Γ} {held : Multiset Block} {i : Instance Γ} {source : Bytes}

/-- How the calls of a compilation go for the host. -/
structure Rides where
  instantiated : Call Unit
  realloc : Ride
  found : Except Failure Unit
  compile : Ride

/-- The calls of a compilation with a plugin. -/
def Rides.compilation (p : Platform Γ) (i : Instance Γ) (source : Bytes) (rides : Rides) :
    Compilation where
  instantiated := rides.instantiated
  realloc := rides.realloc.call ((i.room p source).map Prod.fst)
  size :=
    match i.room p source with
    | .ok (_, heap) => heap.memory.size
    | .error _ => 0
  found := rides.found
  compile := rides.compile.call ((i.answered p .compile source).map fun (_, record, _) => record)
  memory :=
    match i.answered p .compile source with
    | .ok (_, _, j) => j.heap.memory.bytes
    | .error _ => []

/-- The bound on a result. -/
def limit (opts : Native.Budgets) (tag : ℕ) : ℕ :=
  if tag = 0 then opts.maxModule else opts.maxStderr

/-- Why the closure of a compilation may fail. -/
inductive Fails (p : Platform Γ) (i : Instance Γ) (opts : Native.Budgets) (source : Bytes)
    (rides : Rides) : Failure → Prop
  | instantiated {failure : Failure} : rides.instantiated.result = .error failure →
      Fails p i opts source rides failure
  | found {failure : Failure} : rides.found = .error failure → Fails p i opts source rides failure
  | stopped {failure : Failure} : rides.realloc.stopped = some failure ∨
      rides.compile.stopped = some failure → Fails p i opts source rides failure
  | aborted : Fails p i opts source rides p.aborted
  | compile {heap : Heap} {failure : Failure} :
      p.run .compile source i.engine heap = .error failure → Fails p i opts source rides failure
  | limit {answer : ℕ × Bytes} {g : Γ} : Instance.Returns p .compile source i.engine answer g →
      limit opts answer.1 < answer.2.length →
      Fails p i opts source rides (.other (utf8 "compiler result limit exceeded"))
  | rejected {message : Bytes} {g : Γ} :
      Instance.Returns p .compile source i.engine (1, message) g →
      message.length ≤ opts.maxStderr → Fails p i opts source rides (.other (Codec.lossy message))

/-- **A compilation returns what `compile-src` returned.** The closure returns the bytecode that the
closure of `compile-src` made of the source, within the bound on modules, and fails for the reasons
of `Fails` only, so never for an access out of bounds. -/
theorem body_compilation (hsound : i.Sound p held) (source : Bytes) (opts : Native.Budgets)
    (rides : Rides) :
    ((rides.compilation p i source).body opts source).Ends
      (fun bytecode => bytecode.length ≤ opts.maxModule ∧
        ∃ g, Instance.Returns p .compile source i.engine (0, bytecode) g)
      (Fails p i opts source rides) := by
  unfold Compilation.body
  refine .bind (.call (P := fun _ => True) (fun _ _ => trivial) fun failure h => .instantiated h)
    fun _ _ => ?_
  refine .bind ((Instance.room_call hsound rides.realloc).mono (fun _ h => h) ?_) fun ptr hptr => ?_
  · rintro failure (hstopped | rfl)
    · exact .stopped (.inl hstopped)
    · exact .aborted
  obtain ⟨heap, hroom⟩ := hptr
  obtain ⟨-, hbounds, -⟩ := Instance.room_spec hsound hroom
  refine .bind (.ensure fun h => absurd ?_ h) fun _ _ => ?_
  · simp only [Rides.compilation, hroom]
    exact hbounds
  refine .bind (.lift (P := fun _ => True) (fun _ _ => trivial) fun failure h => .found h)
    fun _ _ => ?_
  refine .bind ((Instance.answered_call hsound rides.compile).mono (fun _ h => h) ?_)
    fun record hrecord => ?_
  · rintro failure (hstopped | rfl | ⟨heap', hrun⟩)
    · exact .stopped (.inr hstopped)
    · exact .aborted
    · exact .compile hrun
  obtain ⟨ptr', j, hanswered⟩ := hrecord
  obtain ⟨-, -, -, -, answer, hreturns, hencodes⟩ := Instance.answered_spec hsound hanswered
  -- the record is what the memory encodes
  obtain ⟨fields, hfields, hfieldTag, hfieldLength, hbytes⟩ :=
    hencodes.read (hreturns.tag_le.trans_lt (by decide))
  have hmemory : (rides.compilation p i source).memory = j.heap.memory.bytes := by
    simp only [Rides.compilation, hanswered]
  rw [hmemory]
  refine .bind (.lift (P := fun read => read = fields) (fun read h => ?_) fun failure h => ?_)
    fun read hread => ?_
  · exact Except.ok.inj (h.symm.trans hfields)
  · cases h.symm.trans hfields
  subst hread
  rw [hfieldTag, hfieldLength]
  refine .bind (.ensure fun h => .limit hreturns (Nat.not_le.mp h)) fun _ hlimit => ?_
  refine .bind (.lift (P := fun read => read = answer.2) (fun read h => ?_) fun failure h => ?_)
    fun read hread => ?_
  · exact Except.ok.inj (h.symm.trans hbytes)
  · cases h.symm.trans hbytes
  subst hread
  obtain ⟨tag, bytes⟩ := answer
  refine .bind (.ensure fun htag => ?_) fun _ htag => .pure ?_
  · have htag' : tag = 1 := by
      have hle := hreturns.tag_le
      simp only at hle htag
      omega
    subst htag'
    exact .rejected hreturns hlimit
  · obtain rfl : tag = 0 := htag
    exact ⟨hlimit, j.engine, hreturns⟩

/-! ### From the source to the evaluation -/

variable {lib : Library σ τ} {job : Job}

/-- The bytecode of a call that succeeds. -/
theorem Job.bytecode_eq_ok (hsound : i.Sound p held) {rides : Rides}
    (hjob : job.compilation = rides.compilation p i job.source) {bytecode : Bytes}
    (h : job.bytecode = .ok bytecode) :
    bytecode.length ≤ job.opts.maxModule ∧
      ∃ g, Instance.Returns p .compile job.source i.engine (0, bytecode) g := by
  unfold Job.bytecode at h
  split_ifs at h
  split at h
  · cases h
  · have hends := body_compilation hsound job.source job.opts rides
      (Sandbox.new job.opts job.limits)
    rw [← hjob] at hends
    cases hrun : (job.compilation.body job.opts job.source).run.run
        (Sandbox.new job.opts job.limits) with
    | mk result sandbox =>
      rw [hrun] at h hends
      simp only at h
      split at h
      · cases h
      case h_2 bytecode' hfinish =>
        cases h
        obtain rfl := Sandbox.eq_of_finish hfinish
        exact hends

/-- What a call that succeeds has gone through. -/
theorem Job.alone_eq_ok {wasm : Bytes} (h : job.alone lib = .ok wasm) :
    (job.source.length ≤ job.opts.maxInput ∧ validString job.source = true) ∧
      wasm.length ≤ job.opts.maxModule ∧
      ∃ runtime bytecode, lib.build job.plugin = .ok runtime ∧ job.bytecode = .ok bytecode ∧
        wrapper lib.walrus job.plugin runtime.namespaceName bytecode job.staticMode = .ok wasm := by
  obtain ⟨_, hadmitted, h⟩ := Except.bind_eq_ok.mp h
  obtain ⟨_, -, h⟩ := Except.bind_eq_ok.mp h
  obtain ⟨runtime, hbuild, h⟩ := Except.bind_eq_ok.mp h
  obtain ⟨bytecode, hbytecode, h⟩ := Except.bind_eq_ok.mp h
  obtain ⟨_, -, h⟩ := Except.bind_eq_ok.mp h
  obtain ⟨wasm', hwrapper, h⟩ := Except.bind_eq_ok.mp h
  unfold Job.admitted at hadmitted
  split_ifs at hadmitted with hlength hvalid
  split_ifs at h with hwasm
  obtain ⟨_, -, h⟩ := Except.bind_eq_ok.mp h
  cases h
  exact ⟨⟨hlength.1, hvalid⟩, hwasm, runtime, bytecode, hbuild, hbytecode,
    hwrapper⟩

/-- What a module that some source was compiled to has the engine of a plugin do, with the imports
resolved by `linker`: `_start` loads what the closure of `compile-src` made of the source. -/
def Evaluates (p : Platform Γ) (linker : Linker (Rest Γ) Failure) (m : Module (Rest Γ) Failure)
    (bytecode : Bytes) : Prop :=
  m.Valid ∧ m.Links linker ∧
    ∀ (r : Instance Γ) (kept : Multiset Block), r.Sound p kept → ∀ outOfBounds,
      ∃ names : Entry → ℕ, ∀ allowed, ∃ result,
        m.call linker outOfBounds "_start" allowed r.store = some (renameCalls names result) ∧
        Extends result ((provider p).startup outOfBounds bytecode r.store) ∧
        (15 ≤ allowed → Loads p kept r bytecode result.2)

/-- The module of a compilation that succeeds evaluates the bytecode, linked under the namespace
that the plugin was built with. -/
theorem Job.alone_evaluates (hsound : i.Sound p held) {rides : Rides} {job : Job}
    (hjob : job.compilation = rides.compilation p i job.source)
    {lib : Library (Rest Γ) Failure} {plugin : Module (Rest Γ) Failure}
    {linker : Linker (Rest Γ) Failure} (hexported : (provider p).Exported linker plugin)
    (hparse : lib.walrus.parse job.plugin = .ok plugin) {wasm : Bytes}
    (hok : job.alone lib = .ok wasm) :
    ∃ bytecode g runtime m, Instance.Returns p .compile job.source i.engine (0, bytecode) g ∧
      lib.build job.plugin = .ok runtime ∧ lib.walrus.emit m = wasm ∧
      Evaluates p (runLinker linker plugin runtime.namespaceName job.staticMode) m bytecode := by
  obtain ⟨-, -, runtime, bytecode, hbuild, hbytecode, hwrapper⟩ := job.alone_eq_ok hok
  obtain ⟨-, g, hreturns⟩ := Job.bytecode_eq_ok hsound hjob hbytecode
  obtain ⟨abi, hprepared, hadd⟩ :=
    exists_prepared hexported hparse runtime.namespaceName bytecode job.staticMode
  rw [wrapper, hadd] at hwrapper
  cases hstart : addStart abi (runBase plugin runtime.namespaceName job.staticMode) bytecode with
  | error failure =>
    rw [hstart] at hwrapper
    cases hwrapper
  | ok m =>
    rw [hstart] at hwrapper
    obtain ⟨hshort, rfl⟩ := addStart_eq_ok.mp hstart
    have hwraps := wraps_started bytecode hprepared
    refine ⟨bytecode, g, runtime, _, hreturns, hbuild, Except.ok.inj hwrapper, hwraps.valid,
      hwraps.links, fun r kept hr outOfBounds => ?_⟩
    obtain ⟨names, -, hcall⟩ := hwraps.start outOfBounds
    refine ⟨names, fun allowed => ?_⟩
    obtain ⟨result, hexec, hextends, hdone⟩ :=
      Provider.exec_startCode_extends (p := provider p) outOfBounds hshort allowed r.store
    refine ⟨result, by rw [hcall, hexec, Option.map_some], hextends, fun hallowed => ?_⟩
    rw [hdone hallowed]
    exact startup_loads hr hshort outOfBounds

/-- **From the source to the evaluation.** If a compilation succeeds, its source is valid UTF-8
within its bounds, and the module is within its own. Run on a plugin, in either mode and under the
namespace that the provider was built with, the module's `_start` has the engine load what the
closure of `compile-src` made of that source, byte for byte, or finds no room for it; a limit of the
engine of the host cuts this short and changes nothing else. -/
theorem compiled_source_is_loaded (hsound : i.Sound p held) {rides : Rides} {job : Job}
    (hjob : job.compilation = rides.compilation p i job.source)
    {lib : Library (Rest Γ) Failure} {plugin : Module (Rest Γ) Failure}
    {linker : Linker (Rest Γ) Failure} (hexported : (provider p).Exported linker plugin)
    (hparse : lib.walrus.parse job.plugin = .ok plugin) {wasm : Bytes}
    (hok : job.alone lib = .ok wasm) :
    validString job.source = true ∧ job.source.length ≤ job.opts.maxInput ∧
      wasm.length ≤ job.opts.maxModule ∧
      ∃ bytecode g runtime m,
        Instance.Returns p .compile job.source i.engine (0, bytecode) g ∧
        lib.build job.plugin = .ok runtime ∧ lib.walrus.emit m = wasm ∧ m.Valid ∧
        m.Links (runLinker linker plugin runtime.namespaceName job.staticMode) ∧
        ∀ (r : Instance Γ) (kept : Multiset Block), r.Sound p kept → ∀ outOfBounds,
          ∃ names : Entry → ℕ, ∀ allowed, ∃ result,
            m.call (runLinker linker plugin runtime.namespaceName job.staticMode) outOfBounds
              "_start" allowed r.store = some (renameCalls names result) ∧
            Extends result ((provider p).startup outOfBounds bytecode r.store) ∧
            (15 ≤ allowed → Loads p kept r bytecode result.2) := by
  obtain ⟨⟨hlength, hvalid⟩, hwasm, -⟩ := job.alone_eq_ok hok
  obtain ⟨bytecode, g, runtime, m, hreturns, hbuild, hemit, hvalidModule, hlinks, hloads⟩ :=
    Job.alone_evaluates hsound hjob hexported hparse hok
  exact ⟨hvalid, hlength, hwasm, bytecode, g, runtime, m, hreturns, hbuild, hemit, hvalidModule,
    hlinks, hloads⟩

/-- The libraries of a plugin that answers `{}`, which there is under two names. -/
def replierLib : Library (Rest ℕ) Failure where
  walrus := (provider replier).bareLib
  utf8Error _ := .other []
  build plugin := .ok ⟨if plugin = [2] then "javex-plugin-v2" else "javex-plugin-v1"⟩

/-- A compilation of `1+1` in which nothing goes wrong. -/
def sumJob (plugin : Bytes) (staticMode : Bool) : Job where
  plugin
  source := [0x31, 0x2b, 0x31]
  staticMode
  opts :=
    { fuel := 1, maxMemory := 64, maxInput := 16, maxOutput := 16, maxStderr := 16, maxModule := 16
      maxCallbackCalls := 0, maxCallbackConcurrency := 0, maxCallbackInput := 0
      maxCallbackOutput := 0, env := [], staticMode }
  limits := ⟨fun _ _ _ => .granted, fun _ _ _ => .granted⟩
  first := .ok ()
  created := .ok ()
  compilation := Rides.compilation replier fresh [0x31, 0x2b, 0x31]
    ⟨⟨[.memory 0 64 none], .ok ()⟩, ⟨[], none⟩, .ok (), ⟨[], none⟩⟩
  now := ⟨false, false⟩
  second := .ok ()
  third := .ok ()

/-- `1+1`, compiled in dynamic mode; its `_start` is run on the plugin that has been
instantiated. -/
theorem compiled_source_is_loaded_replier :
    ∃ wasm bytecode g m, ∃ names : Entry → ℕ, ∃ result,
      (sumJob [1] false).alone replierLib = .ok wasm ∧
      Instance.Returns replier .compile [0x31, 0x2b, 0x31] 0 (0, bytecode) g ∧
      replierLib.walrus.emit m = wasm ∧
      m.call (runLinker (fun _ => none) (provider replier).bare "javex-plugin-v1" false)
        replier.outOfBounds "_start" 15 fresh.store = some (renameCalls names result) ∧
      Loads replier 0 fresh bytecode result.2 := by
  obtain ⟨wasm, hok⟩ : ∃ wasm, (sumJob [1] false).alone replierLib = .ok wasm := ⟨_, rfl⟩
  have hsound : fresh.Sound replier 0 := ⟨sound_fresh, rfl⟩
  have hparse : replierLib.walrus.parse (sumJob [1] false).plugin = .ok (provider replier).bare :=
    rfl
  obtain ⟨-, -, -, bytecode, g, runtime, m, hreturns, hbuild, hemit, -, -, hstart⟩ :=
    compiled_source_is_loaded hsound rfl ((provider replier).exported_bare fun _ => none) hparse hok
  obtain rfl : runtime = ⟨"javex-plugin-v1"⟩ := (Except.ok.inj hbuild).symm
  obtain ⟨names, hcall⟩ := hstart fresh 0 hsound replier.outOfBounds
  obtain ⟨result, hresult, -, hloads⟩ := hcall 15
  exact ⟨wasm, bytecode, g, m, names, result, hok, hreturns, hemit, hresult,
    hloads (Nat.le_refl 15)⟩

end Javex.Compiler
