import Javex.Compiler.Source
import Javex.Isolated.Receive
import Javex.Runtime.Server

/-!
# Compiled modules

`compile/2` of `lib/javex/module.ex`: the checks of the options and of the source, and what is made
of the result of the backend, which is `compile` of `native/javex_nif/src/lib.rs` or `compile/6` of
`lib/javex/isolated.ex`. Who calls the backend, and until when, is the subject of
`Javex.Compile.Deadline` and of `Javex.Runtime.Server`.

`compile/2` returns one of three things, a module, an error, or an exception of the option checks.
The module carries the hash of the provider that compiled it in dynamic mode and no provider in
static mode; nothing else of the compilation is in it. `compile_eq_ok` takes a successful call apart
into the checks that were passed and the result of the backend.
-/

namespace Javex.Compile

open Compiler Isolated

/-- Why a compilation failed, as `compile_error/1` gets it: a text, a kind with a text, or an
exception of the option checks or the runtime. -/
inductive Reason
  | text (message : Bytes)
  | tagged (kind : Kind) (message : Bytes)
  | exception (error : RuntimeError)
  deriving DecidableEq, Repr

/-- `%Javex.CompileError{}`. -/
structure CompileError where
  message : Bytes
  deriving DecidableEq, Repr

/-- `message/1` of `Javex.RuntimeError`. -/
def exceptionMessage (error : RuntimeError) : Bytes :=
  utf8 ("Javex runtime error (" ++ error.kind.name ++ "): " ++ error.message)

/-- `compile_error/1`. -/
def compileError : Reason → CompileError
  | .text message => ⟨message⟩
  | .tagged _ message => ⟨message⟩
  | .exception error => ⟨exceptionMessage error⟩

/-- The atom of a mode. -/
def modeName (static : Bool) : String := if static then "static" else "dynamic"

/-- The `%Javex.Module{}` of a compilation: the provider is recorded in dynamic mode. -/
def moduleOf (static : Bool) (compiled : Bytes × Bytes) : Runtime.Module where
  bytes := .binary compiled.1
  mode := .atom (modeName static)
  providerHash := if static then .atom "nil" else .binary compiled.2

/-- `Keyword.get(opts, :mode, :dynamic) == :static`. -/
def isStatic (opts : Term) : Bool :=
  match keywordGet ((keywordPairs? opts).getD []) "mode" (.atom "dynamic") with
  | .atom "static" => true
  | _ => false

/-- What `compile/2` makes of the result of the backend. -/
def returned (static : Bool) : Except Reason (Bytes × Bytes) → Except CompileError Runtime.Module
  | .ok compiled => .ok (moduleOf static compiled)
  | .error reason => .error (compileError reason)

/-- `compile/2`, with the backend that is called in the end. -/
def compile (inspect : Term → String) (source : Bytes) (opts : Term)
    (backend : CompileLimits → Bool → Except Reason (Bytes × Bytes)) :
    Except Raise (Except CompileError Runtime.Module) :=
  match Options.compile inspect opts with
  | .error (.raised exception) => .error exception
  | .error (.error e) => .ok (.error (compileError (.exception e)))
  | .ok limits =>
    if limits.maxInput < source.length then
      .ok (.error (compileError (.text (utf8 "source limit exceeded"))))
    else .ok (returned (isStatic opts) (backend limits (isStatic opts)))

section Backends

-- `Sha256::digest` and `:crypto.hash(:sha256, _)`.
variable (sha256 : Bytes → Bytes) (plugin : Bytes) (static : Bool)

/-- What `compile` of `lib.rs` returns for a result of `compiler::compile`. -/
def nativeCompile (result : Except Native.Failure Bytes) : Except Reason (Bytes × Bytes) :=
  match result with
  | .ok bytes => .ok (bytes, if static then [] else sha256 plugin)
  | .error failure => .error (.text failure.message)

/-- What `compile/6` of `isolated.ex` returns for what its call comes to. -/
def isolatedCompile (outcome : Outcome) : Except Reason (Bytes × Bytes) :=
  match outcome with
  | .ok bytes => .ok (bytes, if static then [] else sha256 plugin)
  | .error (kind, message) => .error (.tagged kind message)

end Backends

/-- What `child` makes of a result of `compiler::compile`. -/
def childOutcome : Except Native.Failure Bytes → Outcome
  | .ok bytes => .ok bytes
  | .error failure => .error (.compileError, failure.message)

/-- **One result, two backends.** What the isolated backend makes of a result that has come through
as it is differs from what the NIF makes of it by the kind of an error, which `compile/2` drops. -/
theorem returned_isolated (sha256 : Bytes → Bytes) (plugin : Bytes) (static : Bool)
    (result : Except Native.Failure Bytes) :
    returned static (isolatedCompile sha256 plugin static (childOutcome result)) =
      returned static (nativeCompile sha256 plugin static result) := by
  cases result <;> rfl

/-- A module comes from a result of the backend. -/
theorem compile_eq_ok {inspect : Term → String} {source : Bytes} {opts : Term}
    {backend : CompileLimits → Bool → Except Reason (Bytes × Bytes)} {mod : Runtime.Module}
    (h : compile inspect source opts backend = .ok (.ok mod)) :
    ∃ limits compiled, Options.compile inspect opts = .ok limits ∧
      source.length ≤ limits.maxInput ∧ backend limits (isStatic opts) = .ok compiled ∧
      mod = moduleOf (isStatic opts) compiled := by
  unfold compile at h
  split at h
  · cases h
  · cases h
  case h_3 limits hlimits =>
    split_ifs at h with hlong
    · cases h
    · have hreturned := Except.ok.inj h
      cases hbackend : backend limits (isStatic opts) with
      | error reason =>
        rw [hbackend] at hreturned
        cases hreturned
      | ok compiled =>
        rw [hbackend] at hreturned
        cases hreturned
        exact ⟨limits, compiled, hlimits, Nat.not_lt.mp hlong, hbackend, rfl⟩

end Javex.Compile
