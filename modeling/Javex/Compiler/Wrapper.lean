import Javex.Native.Store
import Javex.Wasm.Module

/-!
# The wrapper around the bytecode

`wrapper` of `native/javex_nif/src/compiler.rs`: the module that a compilation returns. Its
`_start` asks the provider for room, puts the bytecode there and has the provider evaluate it. A
dynamic module imports the provider; a static one is the provider itself with `_start` put in the
place of its own. The parser and the emitter of walrus are parameters, and the functions of the
provider are given by what they do.

* `wrapper_refines_startup`: whatever the mode, the module is valid and links, and its `_start`
  does what `startup` says, whenever the engine stops it.
* `static_and_dynamic_agree`: the two modes do the same for every limit of the engine.

What `_start` is for is said by `startup`, a function on stores that calls the provider twice and
writes in between. The code is the same fifteen instructions in both modes and is executed
symbolically, once, with names for the functions that it calls. Which indices the names stand for,
that the module is valid and that it links is said of the prepared module (`Prepared`), which is
where the two modes differ and nowhere else.

An engine that stops the code cuts `startup` short: the calls made are an initial part of its calls
(`Extends`). Bytecode of 2 GiB or more has no wrapper, since its length is not an `i32`.
-/

namespace Javex.Compiler

open Native Wasm

variable {σ τ : Type}

/-- What `wrapper` uses of walrus besides building: `ModuleConfig::parse`, `Module::emit_wasm`, and
the error of `ModuleExports::get_func`. -/
structure Walrus (σ τ : Type) where
  parse : Bytes → Except Failure (Module σ τ)
  emit : Module σ τ → Bytes
  missing : String → Failure

/-- The functions and the memory of the provider, by their names in the module being built. -/
structure Abi where
  realloc : ℕ
  invoke : ℕ
  memory : ℕ

section Source

variable (lib : Walrus σ τ)

/-- `module.exports.get_func(name)?`. -/
def getFunc (m : Module σ τ) (name : String) : Except Failure ℕ :=
  match m.export? name with
  | some (.func id) => .ok id
  | _ => .error (lib.missing name)

/-- The exported memory. -/
def getMemory (m : Module σ τ) : Except Failure ℕ :=
  match m.export? "memory" with
  | some (.memory id) => .ok id
  | _ => .error (.other (utf8 "provider has no exported memory"))

/-- The branch of static mode. -/
def embed (m : Module σ τ) : Except Failure (Abi × Module σ τ) := do
  let realloc ← getFunc lib m "cabi_realloc"
  let invoke ← getFunc lib m "invoke"
  let memory ← getMemory m
  return (⟨realloc, invoke, memory⟩, m.deleteExport "_start")

/-- The branch of dynamic mode. -/
def importAbi (namespaceName : String) (m : Module σ τ) : Abi × Module σ τ :=
  let (realloc, m) := m.addFunc (.imported ⟨namespaceName, "cabi_realloc"⟩ ⟨4, 1⟩)
  let (invoke, m) := m.addFunc (.imported ⟨namespaceName, "invoke"⟩ ⟨5, 0⟩)
  let (memory, m) := m.addMemory (.imported ⟨namespaceName, "memory"⟩)
  (⟨realloc, invoke, memory⟩, m)

/-- The body of `_start`; its one local holds the pointer. -/
def startBody (abi : Abi) (data : ℕ) (len : UInt32) : List (Instr ℕ) :=
  [.i32Const 0, .i32Const 0, .i32Const 1, .i32Const len, .call abi.realloc, .localTee 0,
    .i32Const 0, .i32Const len, .memoryInit abi.memory data, .localGet 0, .i32Const len,
    .i32Const 0, .i32Const 0, .i32Const 0, .call abi.invoke]

/-- The rest of `wrapper`: the bytecode as a passive segment, and `_start`. -/
def addStart (abi : Abi) (m : Module σ τ) (bytecode : Bytes) : Except Failure (Module σ τ) :=
  -- `i32::try_from`
  if 2 ^ 31 ≤ bytecode.length then
    .error (.other (utf8 "out of range integral type conversion attempted"))
  else
    let (data, m) := m.addData (.passive bytecode)
    let (start, m) := m.addFunc
      (.built ⟨0, 0⟩ 1 (startBody abi data (UInt32.ofNat bytecode.length)))
    .ok (m.addExport "_start" (.func start))

/-- `wrapper`, up to the emission of the module. -/
def wrapperModule (plugin : Bytes) (namespaceName : String) (bytecode : Bytes)
    (staticMode : Bool) : Except Failure (Module σ τ) :=
  if staticMode then do
    let (abi, m) ← embed lib (← lib.parse plugin)
    addStart abi m bytecode
  else
    let (abi, m) := importAbi namespaceName .empty
    addStart abi m bytecode

/-- `wrapper`. -/
def wrapper (plugin : Bytes) (namespaceName : String) (bytecode : Bytes) (staticMode : Bool) :
    Except Failure Bytes :=
  (wrapperModule lib plugin namespaceName bytecode staticMode).map lib.emit

end Source

/-! ### What a module is for -/

/-- The functions of the provider that `_start` calls. -/
inductive Entry
  | realloc | invoke
  deriving DecidableEq, Repr

/-- The functions that a provider offers under these names. -/
structure Provider (σ τ : Type) where
  realloc : Function σ τ
  invoke : Function σ τ
  realloc_type : realloc.type = ⟨4, 1⟩
  invoke_type : invoke.type = ⟨5, 0⟩

namespace Provider

variable (p : Provider σ τ)

/-- One of the two. -/
def func : Entry → Function σ τ
  | .realloc => p.realloc
  | .invoke => p.invoke

/-- A module that exports this provider. -/
structure Exported (linker : Linker σ τ) (m : Module σ τ) : Prop where
  valid : m.Valid
  links : m.Links linker
  realloc : ∃ id f, m.export? "cabi_realloc" = some (.func id) ∧ m.funcs[id]? = some f ∧
    f.resolve linker = some p.realloc
  invoke : ∃ id f, m.export? "invoke" = some (.func id) ∧ m.funcs[id]? = some f ∧
    f.resolve linker = some p.invoke
  memory : ∃ id, m.export? "memory" = some (.memory id)

/-- The purpose of `_start`: room from the provider, the bytecode put there, and its evaluation by
the provider, the name of the module left out. -/
def startup (outOfBounds : τ) (bytecode : Bytes) (s : Store σ) :
    List (Called Entry) × Outcome σ τ :=
  let len := UInt32.ofNat bytecode.length
  let room : Called Entry := (.realloc, [0, 0, 1, len])
  match p.realloc.run [0, 0, 1, len] s with
  | (.error trap, s) => ([room], .trapped trap s)
  | (.ok results, s) =>
    let ptr := results.headD 0
    match s.memory.write ptr.toNat bytecode with
    | none => ([room], .trapped outOfBounds s)
    | some memory =>
      let evaluation : Called Entry := (.invoke, [ptr, len, 0, 0, 0])
      match p.invoke.run [ptr, len, 0, 0, 0] { s with memory } with
      | (.error trap, s) => ([room, evaluation], .trapped trap s)
      | (.ok _, s) => ([room, evaluation], .returned [] s)

/-- `_start` over the names of the provider. -/
def startCode (len : UInt32) : List (Instr Entry) :=
  [.i32Const 0, .i32Const 0, .i32Const 1, .i32Const len, .call .realloc, .localTee 0,
    .i32Const 0, .i32Const len, .memoryInit 0 0, .localGet 0, .i32Const len,
    .i32Const 0, .i32Const 0, .i32Const 0, .call .invoke]

/-- What the code over these names refers to. -/
def env (outOfBounds : τ) (bytecode : Bytes) : Env Entry σ τ where
  func f := some (p.func f)
  data _ := some bytecode
  outOfBounds := outOfBounds

/-! ### The code of `_start` -/

variable {p : Provider σ τ} {bytecode : Bytes}

theorem length_results_realloc {args results : List UInt32} {s t : Store σ}
    (h : p.realloc.run args s = (.ok results, t)) : ∃ ptr, results = [ptr] := by
  have hlength := p.realloc.length_results h
  rw [p.realloc_type] at hlength
  exact List.length_eq_one_iff.mp hlength

theorem results_invoke {args results : List UInt32} {s t : Store σ}
    (h : p.invoke.run args s = (.ok results, t)) : results = [] := by
  have hlength := p.invoke.length_results h
  rw [p.invoke_type] at hlength
  exact List.length_eq_zero_iff.mp hlength

/-- With no limit, the code does what it is for. -/
theorem exec_startCode (outOfBounds : τ) (hlength : bytecode.length < 2 ^ 31) (s : Store σ) :
    exec (p.env outOfBounds bytecode) (startCode (UInt32.ofNat bytecode.length)) 15 [] [0] s =
      some (p.startup outOfBounds bytecode s) := by
  have htoNat : (UInt32.ofNat bytecode.length).toNat = bytecode.length :=
    UInt32.toNat_ofNat_of_lt (by rw [UInt32.size]; omega)
  rcases hrealloc : p.realloc.run [0, 0, 1, UInt32.ofNat bytecode.length] s with ⟨t | results, s₁⟩
  · simp [startCode, exec, step, env, func, p.realloc_type, hrealloc, startup]
  · obtain ⟨ptr, rfl⟩ := length_results_realloc hrealloc
    rcases hwrite : s₁.memory.write ptr.toNat bytecode with _ | memory
    · simp [startCode, exec, step, env, func, p.realloc_type, hrealloc, startup, htoNat, hwrite]
    · rcases hinvoke : p.invoke.run [ptr, UInt32.ofNat bytecode.length, 0, 0, 0]
          { s₁ with memory } with ⟨t | results, s₂⟩
      · simp [startCode, exec, step, env, func, p.realloc_type, p.invoke_type, hrealloc, startup,
          htoNat, hwrite, hinvoke]
      · obtain rfl := results_invoke hinvoke
        simp [startCode, exec, step, env, func, p.realloc_type, p.invoke_type, hrealloc, startup,
          htoNat, hwrite, hinvoke]

/-- The abstract startup knows no limit of the engine. -/
theorem startup_ne_stopped (outOfBounds : τ) (s t : Store σ) :
    (p.startup outOfBounds bytecode s).2 ≠ .stopped t := by
  unfold startup
  simp only
  split
  · simp
  · split
    · simp
    · split <;> simp

/-- The code is never stuck, so that it does a part of what it is for whenever it is stopped. -/
theorem exec_startCode_extends (outOfBounds : τ) (hlength : bytecode.length < 2 ^ 31)
    (allowed : ℕ) (s : Store σ) :
    ∃ result, exec (p.env outOfBounds bytecode) (startCode (UInt32.ofNat bytecode.length)) allowed
        [] [0] s = some result ∧ Extends result (p.startup outOfBounds bytecode s) ∧
      (15 ≤ allowed → result = p.startup outOfBounds bytecode s) := by
  have henv : (p.env outOfBounds bytecode).Provides (fun f => some (p.func f).type) 1 1 :=
    ⟨Nat.le_refl 1, fun h => ⟨_, rfl, Option.some.inj h⟩, fun _ => ⟨bytecode, rfl⟩⟩
  have hcheck : check (fun f => some (p.func f).type) 1 1 1
      (startCode (UInt32.ofNat bytecode.length)) 0 = some 0 := by
    simp [check, startCode, Instr.check, func, p.realloc_type, p.invoke_type]
  obtain ⟨calls, outcome, hexec, -⟩ : ∃ calls outcome,
      exec (p.env outOfBounds bytecode) (startCode (UInt32.ofNat bytecode.length)) allowed [] [0]
        s = some (calls, outcome) ∧ outcome.Leaves 0 := exec_of_check henv hcheck
  have hfull := exec_startCode (p := p) outOfBounds hlength s
  have hdone : 15 ≤ allowed → (calls, outcome) = p.startup outOfBounds bytecode s := fun hle =>
    ((exec_extends hle hfull hexec).2 fun t => startup_ne_stopped outOfBounds s t).symm
  refine ⟨_, hexec, ?_, hdone⟩
  rcases Nat.le_total allowed 15 with hle | hle
  · exact exec_extends hle hexec hfull
  · rw [hdone hle]
    exact ⟨List.prefix_rfl, fun _ => rfl⟩

end Provider

/-! ### What the two branches prepare -/

theorem type_of_resolve {linker : Linker σ τ} {f : FuncDef σ τ} {fn : Function σ τ}
    (h : f.resolve linker = some fn) : f.type = fn.type := by
  cases f with
  | imported source type =>
    simp only [FuncDef.resolve] at h
    split at h
    · split_ifs at h with htype
      cases h
      exact htype.symm
    · cases h
  | given fn' =>
    cases h
    rfl
  | built type locals body => cases h

/-- A module that `_start` can be added to: it has the functions and the memory of the provider
under these names, and no `_start`. -/
structure Prepared (p : Provider σ τ) (linker : Linker σ τ) (abi : Abi) (m : Module σ τ) :
    Prop where
  valid : m.Valid
  links : m.Links linker
  fresh : ∀ e ∈ m.exports, e.name ≠ "_start"
  realloc : ∃ f, m.funcs[abi.realloc]? = some f ∧ f.resolve linker = some p.realloc
  invoke : ∃ f, m.funcs[abi.invoke]? = some f ∧ f.resolve linker = some p.invoke
  memory : abi.memory < m.memories.length

variable {p : Provider σ τ} {linker : Linker σ τ} {lib : Walrus σ τ}

/-- Static mode: the provider without its own `_start`. -/
theorem prepared_embed (lib : Walrus σ τ) {plugin : Module σ τ}
    (hexported : p.Exported linker plugin) :
    ∃ abi, embed lib plugin = .ok (abi, plugin.deleteExport "_start") ∧
      Prepared p linker abi (plugin.deleteExport "_start") := by
  obtain ⟨r, fr, hr, hfr, hrealloc⟩ := hexported.realloc
  obtain ⟨i, fi, hi, hfi, hinvoke⟩ := hexported.invoke
  obtain ⟨memory, hmemory⟩ := hexported.memory
  refine ⟨⟨r, i, memory⟩, ?_, hexported.valid.deleteExport _,
    ⟨hexported.links.funcs, hexported.links.memories⟩,
    fun e he => hexported.valid.name_ne_of_mem_deleteExport he, ⟨fr, hfr, hrealloc⟩,
    ⟨fi, hfi, hinvoke⟩, hexported.valid.has_of_export? hmemory⟩
  simp only [embed, getFunc, getMemory, hr, hi, hmemory]
  rfl

/-- Dynamic mode: three imports, which the provider resolves. -/
theorem prepared_importAbi {plugin : Module σ τ} (hexported : p.Exported linker plugin)
    (name : String) :
    Prepared p (plugin.define linker name) (importAbi name (.empty : Module σ τ)).1
      (importAbi name .empty).2 := by
  obtain ⟨r, fr, hr, hfr, hrealloc⟩ := hexported.realloc
  obtain ⟨i, fi, hi, hfi, hinvoke⟩ := hexported.invoke
  obtain ⟨memory, hmemory⟩ := hexported.memory
  have hdefineRealloc := Module.define_func name hr hfr hrealloc
  have hdefineInvoke := Module.define_func name hi hfi hinvoke
  have hdefineMemory := Module.define_memory linker name hmemory
  refine ⟨((Module.valid_empty.addFunc ?_).addFunc ?_).addMemory rfl _, ⟨?_, ?_⟩, ?_, ⟨_, rfl, ?_⟩,
    ⟨_, rfl, ?_⟩, Nat.one_pos⟩
  · intro type locals body h
    cases h
  · intro type locals body h
    cases h
  · intro source type hmem
    rcases List.mem_cons.mp hmem with hmem | hmem
    · obtain ⟨rfl, rfl⟩ := FuncDef.imported.inj hmem
      exact ⟨_, hdefineRealloc, p.realloc_type⟩
    · obtain ⟨rfl, rfl⟩ := FuncDef.imported.inj (List.mem_singleton.mp hmem)
      exact ⟨_, hdefineInvoke, p.invoke_type⟩
  · intro source hmem
    obtain rfl := MemoryDef.imported.inj (List.mem_singleton.mp hmem)
    exact hdefineMemory
  · intro e he
    cases he
  · simp only [FuncDef.resolve, hdefineRealloc, p.realloc_type, if_true]
  · simp only [FuncDef.resolve, hdefineInvoke, p.invoke_type, if_true]

/-! ### The finished module -/

/-- What is claimed of a compiled module: it is valid and links, it exports `_start` beside what it
exported before, and `_start` does what the code over the names of the provider does. -/
structure Wraps (p : Provider σ τ) (linker : Linker σ τ) (bytecode : Bytes) (base m : Module σ τ) :
    Prop where
  valid : m.Valid
  links : m.Links linker
  exports : ∀ name, name ≠ "_start" → m.export? name = base.export? name
  start : ∀ outOfBounds, ∃ names : Entry → ℕ,
    (∀ e, (m.env linker outOfBounds).func (names e) = some (p.func e)) ∧
      ∀ allowed s, m.call linker outOfBounds "_start" allowed s =
        (exec (p.env outOfBounds bytecode)
          (Provider.startCode (UInt32.ofNat bytecode.length)) allowed [] [0] s).map
          (renameCalls names)

/-- The names of the two functions in the module. -/
def Abi.names (abi : Abi) : Entry → ℕ
  | .realloc => abi.realloc
  | .invoke => abi.invoke

/-- The body of `_start` is the code over the names of the provider. -/
theorem startBody_eq {abi : Abi} (hmemory : abi.memory = 0) (data : ℕ) (len : UInt32) :
    startBody abi data len =
      (Provider.startCode len).map (Instr.rename abi.names id fun _ => data) := by
  simp only [startBody, hmemory]
  rfl

/-- The functions are among those the module had. -/
theorem Prepared.func {abi : Abi} {m : Module σ τ} (h : Prepared p linker abi m) (e : Entry) :
    ∃ f, m.funcs[abi.names e]? = some f ∧ f.resolve linker = some (p.func e) := by
  cases e with
  | realloc => exact h.realloc
  | invoke => exact h.invoke

theorem Prepared.memory_eq {abi : Abi} {m : Module σ τ} (h : Prepared p linker abi m) :
    abi.memory = 0 := by
  have hle := h.valid.memories_le
  have hlt := h.memory
  omega

/-- `_start` is valid. -/
theorem Prepared.check_startBody {abi : Abi} {m : Module σ τ} (h : Prepared p linker abi m)
    (data : DataDef) (len : UInt32) :
    check (m.addData data).2.funcType (m.addData data).2.memories.length
      (m.addData data).2.datas.length (0 + 1) (startBody abi (m.addData data).1 len) 0 =
        some 0 := by
  have htype : ∀ e, (m.addData data).2.funcType (abi.names e) = some (p.func e).type := by
    intro e
    obtain ⟨f, hf, hresolve⟩ := h.func e
    rw [← type_of_resolve hresolve]
    exact Option.map_eq_some_iff.mpr ⟨f, hf, rfl⟩
  have hrealloc : (m.addData data).2.funcType abi.realloc = some ⟨4, 1⟩ :=
    (htype .realloc).trans (congrArg some p.realloc_type)
  have hinvoke : (m.addData data).2.funcType abi.invoke = some ⟨5, 0⟩ :=
    (htype .invoke).trans (congrArg some p.invoke_type)
  have hmemory : abi.memory < (m.addData data).2.memories.length := h.memory
  have hdata : (m.addData data).1 < (m.addData data).2.datas.length := by
    simp [Module.addData]
  simp [check, startBody, Instr.check, hrealloc, hinvoke, hmemory, hdata]

/-- `_start` as a function of the module. -/
def startFunc (abi : Abi) (data : ℕ) (bytecode : Bytes) : FuncDef σ τ :=
  .built ⟨0, 0⟩ 1 (startBody abi data (UInt32.ofNat bytecode.length))

/-- The module with `_start`. -/
def started (abi : Abi) (m : Module σ τ) (bytecode : Bytes) : Module σ τ :=
  ((m.addData (.passive bytecode)).2.addFunc (startFunc abi m.datas.length bytecode)).2.addExport
    "_start" (.func m.funcs.length)

theorem addStart_eq_ok {abi : Abi} {base m : Module σ τ} {bytecode : Bytes} :
    addStart abi base bytecode = .ok m ↔
      bytecode.length < 2 ^ 31 ∧ started abi base bytecode = m := by
  unfold addStart
  split_ifs with hlength
  · constructor
    · rintro ⟨⟩
    · rintro ⟨hlt, -⟩
      exact absurd hlt (Nat.not_lt.mpr hlength)
  · simp only [Nat.not_le.mp hlength, true_and, Except.ok.injEq]
    rfl

/-- **The finished module wraps the bytecode.** -/
theorem wraps_started {abi : Abi} {base : Module σ τ} (bytecode : Bytes)
    (hprepared : Prepared p linker abi base) :
    Wraps p linker bytecode base (started abi base bytecode) := by
  have hvalid := (hprepared.valid.addData (.passive bytecode)).addFunc
    (f := startFunc abi base.datas.length bytecode) (by
      rintro _ _ _ ⟨⟩
      exact hprepared.check_startBody _ _)
  refine ⟨hvalid.addExport hprepared.fresh ?_, ⟨?_, hprepared.links.memories⟩,
    fun name hname => Module.export?_addExport_of_ne hname,
    fun outOfBounds => ⟨abi.names, fun e => ?_, fun allowed s => ?_⟩⟩
  · simp [Module.Has, Module.addFunc, Module.addData]
  · intro source type hmem
    rcases List.mem_append.mp hmem with hmem | hmem
    · exact hprepared.links.funcs hmem
    · cases List.mem_singleton.mp hmem
  · obtain ⟨f, hf, hresolve⟩ := hprepared.func e
    exact (Module.env_func_of_prefix (List.prefix_append _ _) outOfBounds hf).trans hresolve
  · have hexport : (started abi base bytecode).export? "_start" = some (.func base.funcs.length) :=
      Module.export?_addExport hprepared.fresh
    have hfunc : (started abi base bytecode).funcs[base.funcs.length]? =
        some (startFunc abi base.datas.length bytecode) := List.getElem?_concat_length
    rw [Module.call_of_built hexport hfunc, startBody_eq hprepared.memory_eq, List.replicate_one]
    refine exec_rename (fun e => ?_) (fun d => ?_) ?_ _ _ _ _ _
    · obtain ⟨f, hf, hresolve⟩ := hprepared.func e
      exact (Module.env_func_of_prefix (List.prefix_append _ _) outOfBounds hf).trans hresolve
    · simp [started, Module.env, Module.addExport, Module.addFunc, Module.addData,
        DataDef.contents, Provider.env]
    · rfl

/-! ### Both modes -/

/-- What the imports of a module are resolved by when it runs: in dynamic mode the instance of the
provider is there under its namespace. -/
def runLinker (linker : Linker σ τ) (plugin : Module σ τ) (namespaceName : String)
    (staticMode : Bool) : Linker σ τ :=
  if staticMode then linker else plugin.define linker namespaceName

/-- What a module exports besides `_start`: in static mode what the provider does. -/
def runBase (plugin : Module σ τ) (namespaceName : String) (staticMode : Bool) : Module σ τ :=
  if staticMode then plugin.deleteExport "_start" else (importAbi namespaceName .empty).2

/-- Both branches prepare a module for `_start`. -/
theorem exists_prepared {plugin : Module σ τ} (hexported : p.Exported linker plugin)
    {pluginBytes : Bytes} (hparse : lib.parse pluginBytes = .ok plugin) (namespaceName : String)
    (bytecode : Bytes) (staticMode : Bool) :
    ∃ abi, Prepared p (runLinker linker plugin namespaceName staticMode) abi
        (runBase plugin namespaceName staticMode) ∧
      wrapperModule lib pluginBytes namespaceName bytecode staticMode =
        addStart abi (runBase plugin namespaceName staticMode) bytecode := by
  cases staticMode with
  | true =>
    obtain ⟨abi, hembed, hprepared⟩ := prepared_embed lib hexported
    refine ⟨abi, hprepared, ?_⟩
    rw [wrapperModule, if_pos rfl, hparse]
    exact congrArg (· >>= fun (abi, m) => addStart abi m bytecode) hembed
  | false => exact ⟨_, prepared_importAbi hexported namespaceName, rfl⟩

/-- **The compiled module is its bytecode's wrapper.** For a provider that exports what it takes, a
compilation in either mode fails exactly for a bytecode of 2 GiB or more. The module that it
returns is valid and links, exports `_start` once and for the rest what the provider does (static)
or nothing (dynamic), and its `_start` does what `startup` says: it asks for room, puts the bytecode
there and has it evaluated, or as much of this as the engine's limit allows. -/
theorem wrapper_refines_startup {plugin : Module σ τ} (hexported : p.Exported linker plugin)
    {pluginBytes : Bytes} (hparse : lib.parse pluginBytes = .ok plugin) (namespaceName : String)
    (bytecode : Bytes) (staticMode : Bool) :
    ((∃ m, wrapperModule lib pluginBytes namespaceName bytecode staticMode = .ok m) ↔
      bytecode.length < 2 ^ 31) ∧
    ∀ m, wrapperModule lib pluginBytes namespaceName bytecode staticMode = .ok m →
      m.Valid ∧ m.Links (runLinker linker plugin namespaceName staticMode) ∧
      (∀ name, name ≠ "_start" →
        m.export? name = if staticMode then plugin.export? name else none) ∧
      ∀ outOfBounds, ∃ names : Entry → ℕ,
        (∀ e, (m.env (runLinker linker plugin namespaceName staticMode) outOfBounds).func
          (names e) = some (p.func e)) ∧
        ∀ allowed s, ∃ result,
          m.call (runLinker linker plugin namespaceName staticMode) outOfBounds "_start" allowed s =
            some (renameCalls names result) ∧
          Extends result (p.startup outOfBounds bytecode s) ∧
          (15 ≤ allowed → result = p.startup outOfBounds bytecode s) := by
  obtain ⟨abi, hprepared, hwrapper⟩ :=
    exists_prepared hexported hparse namespaceName bytecode staticMode
  have hwraps := wraps_started bytecode hprepared
  rw [hwrapper]
  refine ⟨by simp [addStart_eq_ok], fun m hm => ?_⟩
  obtain ⟨hlength, rfl⟩ := addStart_eq_ok.mp hm
  refine ⟨hwraps.valid, hwraps.links, fun name hname => ?_, fun outOfBounds => ?_⟩
  · rw [hwraps.exports name hname]
    cases staticMode with
    | true => exact Module.export?_deleteExport hname
    | false => rfl
  · obtain ⟨names, hnames, hstart⟩ := hwraps.start outOfBounds
    refine ⟨names, hnames, fun allowed s => ?_⟩
    obtain ⟨result, hexec, hresult⟩ :=
      Provider.exec_startCode_extends (p := p) outOfBounds hlength allowed s
    exact ⟨result, by rw [hstart, hexec, Option.map_some], hresult⟩

/-- The least module of a provider, with a `_start` of its own. -/
def Provider.bare (p : Provider σ τ) : Module σ τ where
  funcs := [.given p.realloc, .given p.invoke]
  memories := [.given]
  datas := []
  exports := [⟨"_start", .func 1⟩, ⟨"memory", .memory 0⟩, ⟨"cabi_realloc", .func 0⟩,
    ⟨"invoke", .func 1⟩]

/-- A parser that knows this module only, and an emitter that writes the header of a module. -/
def Provider.bareLib (p : Provider σ τ) : Walrus σ τ where
  parse _ := .ok p.bare
  emit _ := [0x00, 0x61, 0x73, 0x6d, 0x01, 0x00, 0x00, 0x00]
  missing _ := .other []

theorem Provider.exported_bare (p : Provider σ τ) (linker : Linker σ τ) :
    p.Exported linker p.bare where
  valid := by
    refine ⟨by simp [bare], by simp [bare], ?_, ?_⟩
    · intro e he
      simp only [bare, List.mem_cons, List.not_mem_nil, or_false] at he
      obtain rfl | rfl | rfl | rfl := he <;> simp [Module.Has, bare]
    · simp [bare]
  links := ⟨by simp [bare], by simp [bare]⟩
  realloc := ⟨0, _, rfl, rfl, rfl⟩
  invoke := ⟨1, _, rfl, rfl, rfl⟩
  memory := ⟨0, rfl⟩

/-- A provider that has room at 8 and records what it is asked to evaluate. -/
def recorder : Provider (List (List UInt32)) Unit where
  realloc :=
    { type := ⟨4, 1⟩
      run := fun _ s => (.ok [8], s)
      length_results := by
        rintro args s results t ⟨⟩
        rfl }
  invoke :=
    { type := ⟨5, 0⟩
      run := fun args s => (.ok [], { s with rest := s.rest ++ [args] })
      length_results := by
        rintro args s results t ⟨⟩
        rfl }
  realloc_type := rfl
  invoke_type := rfl

/-- Sixteen zero bytes. -/
def zeros : Store (List (List UInt32)) := ⟨⟨List.replicate 16 0⟩, []⟩

/-- A static module runs to its end: the bytecode is at 8 when it is evaluated there. -/
theorem wrapper_refines_startup_recorder :
    ∃ m names, wrapperModule recorder.bareLib [] "recorder" [1, 2, 3] true = .ok m ∧
      m.Valid ∧ m.call (fun _ => none) () "_start" 15 zeros =
        some (renameCalls names (recorder.startup () [1, 2, 3] zeros)) ∧
      (recorder.startup () [1, 2, 3] zeros).2 =
        .returned []
          ⟨⟨List.replicate 8 0 ++ [1, 2, 3] ++ List.replicate 5 0⟩, [[8, 3, 0, 0, 0]]⟩ := by
  have hparse : recorder.bareLib.parse [] = .ok recorder.bare := rfl
  obtain ⟨hok, hall⟩ := wrapper_refines_startup (recorder.exported_bare fun _ => none) hparse
    "recorder" [1, 2, 3] true
  obtain ⟨m, hm⟩ := hok.mpr (by decide)
  obtain ⟨hvalid, -, -, hstart⟩ := hall m hm
  obtain ⟨names, -, hcall⟩ := hstart ()
  obtain ⟨result, hresult, -, hdone⟩ := hcall 15 zeros
  rw [hdone (Nat.le_refl 15)] at hresult
  exact ⟨m, names, hm, hvalid, hresult, rfl⟩

/-- **Static and dynamic modules agree**: for every limit of the engine, `_start` of the one makes
the calls that `_start` of the other makes, and ends as it does. -/
theorem static_and_dynamic_agree {plugin : Module σ τ} (hexported : p.Exported linker plugin)
    {pluginBytes : Bytes} (hparse : lib.parse pluginBytes = .ok plugin) (namespaceName : String)
    {bytecode : Bytes} {embedded imported : Module σ τ}
    (hembedded : wrapperModule lib pluginBytes namespaceName bytecode true = .ok embedded)
    (himported : wrapperModule lib pluginBytes namespaceName bytecode false = .ok imported)
    (outOfBounds : τ) :
    ∃ names names' : Entry → ℕ,
      (∀ e, (embedded.env linker outOfBounds).func (names e) = some (p.func e)) ∧
      (∀ e, (imported.env (plugin.define linker namespaceName) outOfBounds).func (names' e) =
        some (p.func e)) ∧
      ∀ allowed s, ∃ result,
        embedded.call linker outOfBounds "_start" allowed s = some (renameCalls names result) ∧
        imported.call (plugin.define linker namespaceName) outOfBounds "_start" allowed s =
          some (renameCalls names' result) := by
  obtain ⟨abi, hprepared, hwrapper⟩ :=
    exists_prepared hexported hparse namespaceName bytecode true
  obtain ⟨abi', hprepared', hwrapper'⟩ :=
    exists_prepared hexported hparse namespaceName bytecode false
  obtain ⟨hlength, rfl⟩ := addStart_eq_ok.mp (hwrapper.symm.trans hembedded)
  obtain ⟨-, rfl⟩ := addStart_eq_ok.mp (hwrapper'.symm.trans himported)
  obtain ⟨names, hnames, hstart⟩ := (wraps_started bytecode hprepared).start outOfBounds
  obtain ⟨names', hnames', hstart'⟩ := (wraps_started bytecode hprepared').start outOfBounds
  refine ⟨names, names', hnames, hnames', fun allowed s => ?_⟩
  obtain ⟨result, hexec, -⟩ :=
    Provider.exec_startCode_extends (p := p) outOfBounds hlength allowed s
  refine ⟨result, ?_, ?_⟩
  · exact (hstart allowed s).trans (by rw [hexec, Option.map_some])
  · exact (hstart' allowed s).trans (by rw [hexec, Option.map_some])

/-- The engine stops both modules of the recorder before the second call. -/
theorem static_and_dynamic_agree_recorder :
    ∃ embedded imported, ∃ names names' : Entry → ℕ, ∃ result,
      wrapperModule recorder.bareLib [] "recorder" [1, 2, 3] true = .ok embedded ∧
      wrapperModule recorder.bareLib [] "recorder" [1, 2, 3] false = .ok imported ∧
      embedded.call (fun _ => none) () "_start" 14 zeros = some (renameCalls names result) ∧
      imported.call (recorder.bare.define (fun _ => none) "recorder") () "_start" 14 zeros =
        some (renameCalls names' result) := by
  have hparse : recorder.bareLib.parse [] = .ok recorder.bare := rfl
  have hembedded : wrapperModule recorder.bareLib [] "recorder" [1, 2, 3] true = .ok _ := rfl
  have himported : wrapperModule recorder.bareLib [] "recorder" [1, 2, 3] false = .ok _ := rfl
  obtain ⟨names, names', -, -, hagree⟩ := static_and_dynamic_agree
    (recorder.exported_bare fun _ => none) hparse "recorder" hembedded himported ()
  obtain ⟨result, hstatic, hdynamic⟩ := hagree 14 zeros
  exact ⟨_, _, names, names', result, hembedded, himported, hstatic, hdynamic⟩

end Javex.Compiler
