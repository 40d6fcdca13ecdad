import Javex.Wasm.Straight

/-!
# Modules and linking

A Wasm module as a tool that rewrites modules holds it: functions, memories, data segments and
exports, named by their positions. Functions that came with a module are given by what they do;
functions that a tool adds are straight-line code. Nothing is ever removed but exports, so what is
added keeps the names of what was there.

* `Valid`: what validation asks of a module with at most one memory. Every way to add to a module
  keeps it.
* `Links`, `env`: instantiation resolves the imports by a linker.
* `call`: a call of an exported function without parameters or results.

Functions, memories and data segments are referred to by their positions, and a position once given
out keeps its meaning because additions go to the end. This is how the tool that is modelled behaves
from the view of its user, who holds identifiers; the indices of the binary that it emits in the end
are the tool's business and do not occur.

Linking is by module and field name. An import that the linker does not resolve, or resolves to
something of another type, makes instantiation fail, so `Links` is what a module that is to be run
has to have; `env` then gives each function what it does, one definition in the module at a time,
and `call_of_built` reads a call of a function that a tool has added as the execution of its body.
-/

namespace Wasm

universe u v

/-- Where an import comes from. -/
structure Import where
  module : String
  name : String
  deriving DecidableEq, Repr

/-- A function of a module. -/
inductive FuncDef (σ : Type u) (τ : Type v)
  | imported (source : Import) (type : FuncType)
  | given (fn : Function σ τ)
  | built (type : FuncType) (locals : ℕ) (body : List (Instr ℕ))

/-- A memory of a module. -/
inductive MemoryDef
  | imported (source : Import)
  | given
  deriving DecidableEq

/-- A data segment; an active one is empty after instantiation. -/
inductive DataDef
  | passive (bytes : List UInt8)
  | active
  deriving DecidableEq

/-- What an export names. -/
inductive Item
  | func (id : ℕ)
  | memory (id : ℕ)
  | other (id : ℕ)
  deriving DecidableEq

/-- An export. -/
structure Export where
  name : String
  item : Item
  deriving DecidableEq

/-- A module. -/
structure Module (σ : Type u) (τ : Type v) where
  funcs : List (FuncDef σ τ)
  memories : List MemoryDef
  datas : List DataDef
  exports : List Export

/-- The type of a function. -/
def FuncDef.type {σ : Type u} {τ : Type v} : FuncDef σ τ → FuncType
  | imported _ type | built type _ _ => type
  | given fn => fn.type

/-- The bytes that `memory.init` takes from a segment. -/
def DataDef.contents : DataDef → List UInt8
  | passive bytes => bytes
  | active => []

namespace Module

variable {σ : Type u} {τ : Type v}

/-! ### Building -/

/-- The empty module. -/
def empty : Module σ τ := ⟨[], [], [], []⟩

variable (m : Module σ τ)

/-- The type of a function by its name. -/
def funcType (id : ℕ) : Option FuncType := m.funcs[id]?.map FuncDef.type

/-- The item exported under a name. -/
def export? (name : String) : Option Item :=
  (m.exports.find? fun e => e.name == name).map Export.item

/-- The module with one more function, and its name. -/
def addFunc (f : FuncDef σ τ) : ℕ × Module σ τ :=
  (m.funcs.length, { m with funcs := m.funcs ++ [f] })

/-- The module with one more memory. -/
def addMemory (memory : MemoryDef) : ℕ × Module σ τ :=
  (m.memories.length, { m with memories := m.memories ++ [memory] })

/-- The module with one more data segment. -/
def addData (data : DataDef) : ℕ × Module σ τ :=
  (m.datas.length, { m with datas := m.datas ++ [data] })

/-- The module with one more export. -/
def addExport (name : String) (item : Item) : Module σ τ :=
  { m with exports := m.exports ++ [⟨name, item⟩] }

/-- The module without the export of a name. -/
def deleteExport (name : String) : Module σ τ :=
  { m with exports := m.exports.eraseP fun e => e.name == name }

/-! ### Validity -/

/-- An item that is there. -/
def Has : Item → Prop
  | .func id => id < m.funcs.length
  | .memory id => id < m.memories.length
  | .other _ => True

/-- What validation asks of a module. -/
structure Valid : Prop where
  memories_le : m.memories.length ≤ 1
  names : (m.exports.map Export.name).Nodup
  has : ∀ e ∈ m.exports, m.Has e.item
  bodies : ∀ {type locals body}, .built type locals body ∈ m.funcs →
    check m.funcType m.memories.length m.datas.length (type.params + locals) body 0 =
      some type.results

variable {m}

theorem Has.mono {m' : Module σ τ} {item : Item} (hfuncs : m.funcs.length ≤ m'.funcs.length)
    (hmemories : m.memories.length ≤ m'.memories.length) (h : m.Has item) : m'.Has item := by
  cases item with
  | func id => exact Nat.lt_of_lt_of_le h hfuncs
  | memory id => exact Nat.lt_of_lt_of_le h hmemories
  | other id => trivial

theorem valid_empty : (empty : Module σ τ).Valid := by
  constructor <;> simp [empty]

theorem funcType_addFunc {f : FuncDef σ τ} {id : ℕ} {type : FuncType}
    (h : m.funcType id = some type) : (m.addFunc f).2.funcType id = some type := by
  obtain ⟨g, hg, rfl⟩ := Option.map_eq_some_iff.mp h
  have hlt := (List.getElem?_eq_some_iff.mp hg).1
  simp only [funcType, addFunc, List.getElem?_append_left hlt, hg, Option.map_some]

/-- An exported item is there. -/
theorem Valid.has_of_export? (h : m.Valid) {name : String} {item : Item}
    (hitem : m.export? name = some item) : m.Has item := by
  obtain ⟨e, he, rfl⟩ := Option.map_eq_some_iff.mp hitem
  exact h.has e (List.mem_of_find?_eq_some he)

theorem Valid.addFunc (h : m.Valid) {f : FuncDef σ τ}
    (hbody : ∀ {type locals body}, f = .built type locals body →
      check m.funcType m.memories.length m.datas.length (type.params + locals) body 0 =
        some type.results) : (m.addFunc f).2.Valid where
  memories_le := h.memories_le
  names := h.names
  has e he := Has.mono (by simp [Module.addFunc]) (Nat.le_refl m.memories.length) (h.has e he)
  bodies hmem := by
    refine check_mono funcType_addFunc (Nat.le_refl _) (Nat.le_refl _) ?_
    rcases List.mem_append.mp hmem with hmem | hmem
    · exact h.bodies hmem
    · exact hbody (List.mem_singleton.mp hmem).symm

theorem Valid.addMemory (h : m.Valid) (hnone : m.memories = []) (memory : MemoryDef) :
    (m.addMemory memory).2.Valid where
  memories_le := by simp [Module.addMemory, hnone]
  names := h.names
  has e he := Has.mono (Nat.le_refl m.funcs.length) (by simp [Module.addMemory]) (h.has e he)
  bodies hmem :=
    check_mono (fun h => h) (by simp [Module.addMemory]) (Nat.le_refl _) (h.bodies hmem)

theorem Valid.addData (h : m.Valid) (data : DataDef) : (m.addData data).2.Valid where
  memories_le := h.memories_le
  names := h.names
  has e he := (h.has e he).mono (Nat.le_refl _) (Nat.le_refl _)
  bodies hmem := check_mono (fun h => h) (Nat.le_refl _) (by simp [Module.addData]) (h.bodies hmem)

theorem Valid.addExport (h : m.Valid) {name : String} {item : Item}
    (hfresh : ∀ e ∈ m.exports, e.name ≠ name) (hitem : m.Has item) :
    (m.addExport name item).Valid where
  memories_le := h.memories_le
  names := by
    rw [Module.addExport, List.map_append, List.map_singleton, List.nodup_append]
    refine ⟨h.names, List.pairwise_singleton _ _, ?_⟩
    intro other hother b hb
    obtain ⟨e, he, rfl⟩ := List.mem_map.mp hother
    rw [List.mem_singleton.mp hb]
    exact hfresh e he
  has e he := by
    rcases List.mem_append.mp he with he | he
    · exact h.has e he
    · exact List.mem_singleton.mp he ▸ hitem
  bodies := h.bodies

theorem Valid.deleteExport (h : m.Valid) (name : String) : (m.deleteExport name).Valid where
  memories_le := h.memories_le
  names := h.names.sublist (List.eraseP_sublist.map _)
  has e he := h.has e (List.mem_of_mem_eraseP he)
  bodies := h.bodies

/-- A name is not exported once its export is deleted. -/
theorem Valid.name_ne_of_mem_deleteExport (h : m.Valid) {name : String} {e : Export}
    (he : e ∈ (m.deleteExport name).exports) : e.name ≠ name := by
  intro hname
  have hmem := List.mem_of_mem_eraseP he
  obtain ⟨a, before, after, hbefore, ha, heq, herase⟩ :=
    List.exists_of_eraseP (p := fun e => e.name == name) hmem (by simpa using hname)
  have hnames := h.names
  rw [heq, List.map_append, List.map_cons, List.nodup_append, List.nodup_cons] at hnames
  rw [Module.deleteExport, herase] at he
  rcases List.mem_append.mp he with he | he
  · exact hbefore e he (by simpa using hname)
  · refine hnames.2.1.1 (List.mem_map.mpr ⟨e, he, ?_⟩)
    rw [hname]
    exact (by simpa using ha : a.name = name).symm

/-- Nothing but the deleted export is lost. -/
theorem export?_deleteExport {name other : String} (h : other ≠ name) :
    (m.deleteExport name).export? other = m.export? other := by
  unfold export? Module.deleteExport
  congr 1
  induction m.exports with
  | nil => rfl
  | cons e exports ih =>
    by_cases hname : e.name = name
    · have hother : ¬ e.name = other := fun heq => h (heq.symm.trans hname)
      simp [hname, hname ▸ hother]
    · simp [hname, List.find?_cons, ih]

theorem export?_addExport {name : String} {item : Item} (hfresh : ∀ e ∈ m.exports, e.name ≠ name) :
    (m.addExport name item).export? name = some item := by
  have hnone : m.exports.find? (fun e => e.name == name) = none :=
    List.find?_eq_none.mpr fun e he => by simpa using hfresh e he
  simp [export?, Module.addExport, List.find?_append, hnone]

theorem export?_addExport_of_ne {name other : String} {item : Item} (h : other ≠ name) :
    (m.addExport name item).export? other = m.export? other := by
  simp [export?, Module.addExport, List.find?_append, h.symm]

/-! ### Linking -/

end Module

/-- What an import can be resolved to. -/
inductive Extern (σ : Type u) (τ : Type v)
  | func (fn : Function σ τ)
  | memory
  | other

/-- What is there for the imports. There is one memory in all. -/
abbrev Linker (σ : Type u) (τ : Type v) := Import → Option (Extern σ τ)

variable {σ : Type u} {τ : Type v}

/-- What a function of a module does that does not depend on the others. -/
def FuncDef.resolve (linker : Linker σ τ) : FuncDef σ τ → Option (Function σ τ)
  | imported source type =>
    match linker source with
    | some (.func fn) => if fn.type = type then some fn else none
    | _ => none
  | given fn => some fn
  | built _ _ _ => none

namespace Module

variable (linker : Linker σ τ) (m : Module σ τ)

/-- Every import is there and has its type, so that the module can be instantiated. -/
structure Links : Prop where
  funcs : ∀ {source type}, .imported source type ∈ m.funcs →
    ∃ fn, linker source = some (.func fn) ∧ fn.type = type
  memories : ∀ {source}, .imported source ∈ m.memories → linker source = some .memory

/-- What the code of an instance can refer to. -/
def env (outOfBounds : τ) : Env ℕ σ τ where
  func id := m.funcs[id]?.bind (FuncDef.resolve linker)
  data id := m.datas[id]?.map DataDef.contents
  outOfBounds := outOfBounds

/-- The exports of an instance under a module name, and for all other imports what was there. -/
def define (name : String) : Linker σ τ := fun source =>
  if source.module = name then
    match m.export? source.name with
    | some (.func id) => (m.funcs[id]?.bind (FuncDef.resolve linker)).map .func
    | some (.memory _) => some .memory
    | some (.other _) => some .other
    | none => none
  else linker source

variable {linker m}

/-- What the linker has for an import of an exported function. -/
theorem define_func (name : String) {entry : String} {id : ℕ} {f : FuncDef σ τ} {fn : Function σ τ}
    (hexport : m.export? entry = some (.func id)) (hf : m.funcs[id]? = some f)
    (hfn : f.resolve linker = some fn) :
    m.define linker name ⟨name, entry⟩ = some (.func fn) := by
  simp only [define, if_true, hexport, hf, Option.bind_some, hfn, Option.map_some]

/-- What the linker has for an import of an exported memory. -/
theorem define_memory (linker : Linker σ τ) (name : String) {entry : String} {id : ℕ}
    (hexport : m.export? entry = some (.memory id)) :
    m.define linker name ⟨name, entry⟩ = some .memory := by
  simp only [define, if_true, hexport]

/-- The functions that were there are still what they were. -/
theorem env_func_of_prefix {m' : Module σ τ} (h : m.funcs <+: m'.funcs) (outOfBounds : τ) {id : ℕ}
    {f : FuncDef σ τ} (hf : m.funcs[id]? = some f) :
    (m'.env linker outOfBounds).func id = f.resolve linker := by
  obtain ⟨later, hlater⟩ := h
  have hlt := (List.getElem?_eq_some_iff.mp hf).1
  simp only [env, ← hlater, List.getElem?_append_left hlt, hf, Option.bind_some]

variable (linker m)

/-- A call of an exported function that has no parameters and no results. -/
def call (outOfBounds : τ) (name : String) (allowed : ℕ) (s : Store σ) :
    Option (List (Called ℕ) × Outcome σ τ) :=
  match m.export? name with
  | some (.func id) =>
    match m.funcs[id]? with
    | some (.built ⟨0, 0⟩ locals body) =>
      exec (m.env linker outOfBounds) body allowed [] (List.replicate locals 0) s
    | _ => none
  | _ => none

variable {linker m}

theorem call_of_built {outOfBounds : τ} {name : String} {id locals allowed : ℕ}
    {body : List (Instr ℕ)} {s : Store σ} (hexport : m.export? name = some (.func id))
    (hf : m.funcs[id]? = some (.built ⟨0, 0⟩ locals body)) :
    m.call linker outOfBounds name allowed s =
      exec (m.env linker outOfBounds) body allowed [] (List.replicate locals 0) s := by
  simp only [call, hexport, hf]

end Module

end Wasm
