import Javex.Compiler.Wrapper
import Javex.Plugin.Exchange

/-!
# The plugin as a provider

The exports `cabi_realloc` and `invoke` of `native/javex_plugin/src/lib.rs` as the functions that
`_start` of a compiled module calls, with arguments of 32 bits, on a store that holds the plugin.

* `startup_loads`: `_start` of a module has the engine load its bytecode, and nothing else; the
  advances that follow find the plugin sound.

The functions of a provider are called with words of 32 bits and get a store; that the store holds a
sound plugin is a hypothesis here and a conclusion for what follows. `Loads` lists how a load may
come out: the engine has loaded the bytecode and the plugin is sound, the allocator has aborted, or
the engine has failed with an error of its own.
-/

namespace Javex.Plugin

open Native Wasm

variable {Γ : Type}

/-- The plugin but for its memory. -/
structure Rest (Γ : Type) where
  live : Multiset Block
  engine : Γ
  output : Vec
  record : ℕ

/-- The store of an instance. -/
def Instance.store (i : Instance Γ) : Store (Rest Γ) where
  memory := i.heap.memory
  rest := ⟨i.heap.live, i.engine, i.output, i.record⟩

/-- The instance in a store. -/
def ofStore (s : Store (Rest Γ)) : Instance Γ where
  heap := ⟨s.memory, s.rest.live⟩
  engine := s.rest.engine
  output := s.rest.output
  record := s.rest.record

/-- What a call leaves in the store; a trap leaves a store that nobody looks at. -/
def called {α : Type} (s : Store (Rest Γ)) :
    Except Failure (α × Instance Γ) → Except Failure α × Store (Rest Γ)
  | .ok (a, i) => (.ok a, i.store)
  | .error failure => (.error failure, s)

/-- The exports of the plugin that a compiled module imports. -/
def provider (p : Platform Γ) : Compiler.Provider (Rest Γ) Failure where
  realloc :=
    { type := ⟨4, 1⟩
      run := fun args s =>
        match args with
        | [ptr, old, align, size] =>
          called s ((realloc p (ofStore s).heap ptr.toNat old.toNat align.toNat size.toNat).map
            fun (new, heap) => ([UInt32.ofNat new], { ofStore s with heap }))
        | _ => (.error p.aborted, s)
      length_results := by
        intro args s results t h
        split at h
        · cases hrealloc : realloc p (ofStore s).heap _ _ _ _ with
          | error failure =>
            rw [hrealloc] at h
            cases h
          | ok result =>
            rw [hrealloc] at h
            cases h
            rfl
        · cases h }
  invoke :=
    { type := ⟨5, 0⟩
      run := fun args s =>
        match args with
        | [ptr, len, named, _, _] =>
          called s (((ofStore s).invoke p ptr.toNat len.toNat named).map fun i => ([], i))
        | _ => (.error p.aborted, s)
      length_results := by
        intro args s results t h
        split at h
        · cases hinvoke : (ofStore s).invoke p _ _ _ with
          | error failure =>
            rw [hinvoke] at h
            cases h
          | ok result =>
            rw [hinvoke] at h
            cases h
            rfl
        · cases h }
  realloc_type := rfl
  invoke_type := rfl

variable {p : Platform Γ} {held : Multiset Block} {i : Instance Γ} {bytecode : Bytes}

@[simp]
theorem ofStore_store (i : Instance Γ) : ofStore i.store = i := rfl

/-! ### What `_start` does to the plugin -/

/-- How the evaluation of a bytecode may end: the engine has loaded it, and the room for it stays in
use; there was no room; or the engine failed to load it. -/
inductive Loads (p : Platform Γ) (held : Multiset Block) (i : Instance Γ) (bytecode : Bytes) :
    Outcome (Rest Γ) Failure → Prop
  | returned {ptr : ℕ} {j : Instance Γ} {heap : Heap} :
      j.Sound p (range ptr bytecode.length + held) → j.record = i.record →
      p.perform (.load bytecode) i.engine heap = .ok (j.engine, j.heap) →
      Loads p held i bytecode (.returned [] j.store)
  | aborted {s : Store (Rest Γ)} : Loads p held i bytecode (.trapped p.aborted s)
  | failed {heap : Heap} {failure : Failure} {s : Store (Rest Γ)} :
      p.perform (.load bytecode) i.engine heap = .error failure →
      Loads p held i bytecode (.trapped failure s)

/-- The call of `cabi_realloc` for room. -/
theorem run_realloc (hlength : bytecode.length < 2 ^ 31) :
    (provider p).realloc.run [0, 0, 1, UInt32.ofNat bytecode.length] i.store =
      called i.store ((i.room p bytecode).map fun (new, heap) =>
        ([UInt32.ofNat new], { i with heap })) := by
  have htoNat : (UInt32.ofNat bytecode.length).toNat = bytecode.length :=
    UInt32.toNat_ofNat_of_lt (by rw [UInt32.size]; omega)
  simp only [provider, ofStore_store, htoNat]
  rfl

/-- The call of `invoke` on a bytecode in memory. -/
theorem run_invoke (hlength : bytecode.length < 2 ^ 31) {ptr : ℕ} (hptr : ptr < 2 ^ 32)
    (hread : i.heap.memory.read ptr bytecode.length = some bytecode) :
    (provider p).invoke.run [UInt32.ofNat ptr, UInt32.ofNat bytecode.length, 0, 0, 0] i.store =
      called i.store ((i.performed p (.load bytecode)).map fun j => ([], j)) := by
  have htoNat : (UInt32.ofNat bytecode.length).toNat = bytecode.length :=
    UInt32.toNat_ofNat_of_lt (by rw [UInt32.size]; omega)
  have hptrNat : (UInt32.ofNat ptr).toNat = ptr :=
    UInt32.toNat_ofNat_of_lt hptr
  simp only [provider, ofStore_store, htoNat, hptrNat, Instance.invoke, hread]
  rfl

/-- **`_start` has its bytecode loaded.** On a sound plugin, what `_start` is for ends in one of the
ways of `Loads`: the engine is given the bytecode, byte for byte, or there is no room for it. No
access is out of bounds. -/
theorem startup_loads (hsound : i.Sound p held) (hlength : bytecode.length < 2 ^ 31)
    (outOfBounds : Failure) :
    Loads p held i bytecode ((provider p).startup outOfBounds bytecode i.store).2 := by
  simp only [Compiler.Provider.startup, run_realloc hlength]
  cases hroom : i.room p bytecode with
  | error failure =>
    obtain rfl := Instance.room_eq_error hsound hroom
    exact .aborted
  | ok found =>
    obtain ⟨ptr, heap⟩ := found
    obtain ⟨memory, hwrite, hwritten, hread⟩ := Instance.exists_written hsound hroom
    have hptr := (Instance.room_spec hsound hroom).1
    have hptrNat : (UInt32.ofNat ptr).toNat = ptr := UInt32.toNat_ofNat_of_lt hptr
    have hinvoke := run_invoke (p := p) (i := { i with heap := heap.withMemory memory }) hlength
      hptr hread
    have hstore : ({ i with heap } : Instance Γ).store.memory.write ptr bytecode = some memory :=
      hwrite
    have hwithMemory : { ({ i with heap } : Instance Γ).store with memory } =
      ({ i with heap := heap.withMemory memory } : Instance Γ).store := rfl
    simp only [Except.map, called, List.headD_cons, hptrNat, hstore, hwithMemory, hinvoke]
    cases hperformed : Instance.performed p { i with heap := heap.withMemory memory }
        (.load bytecode) with
    | error failure =>
      have hfailure : p.perform (.load bytecode) i.engine (heap.withMemory memory) =
        .error failure := Instance.performed_eq_error hperformed
      exact .failed hfailure
    | ok j =>
      obtain ⟨hj, hrecord, hload⟩ := Instance.performed_spec hwritten hperformed
      exact .returned hj hrecord hload

end Javex.Plugin
