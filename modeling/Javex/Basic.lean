import Mathlib.Data.List.Basic
import Mathlib.Algebra.Ring.Nat

/-!
# Names shared by the whole development

Binaries are lists of bytes. Processes, references and host functions are named by natural
numbers: the only thing the code does with a pid, a reference or a function value is to
compare it or hand it on. `RuntimeError` and its kinds are those of
`lib/javex/runtime_error.ex`, and `Raise` names the exceptions of the Elixir built-ins the
modelled code calls outside their domain.

Nothing here has a proof: the module fixes how the values of the source are read, so that two
modules that speak of a binary, of a process or of an error speak of the same thing. An `i64` of the
BEAM's monotonic clock is an integer without bounds, as it is in Elixir. `utf8` is the reading of a
literal of the source, and `validString` the check that `String.valid?/1` makes of bytes that come
from outside; the two are kept apart because most binaries of the code are never checked.
-/

namespace Javex

/-- An Elixir binary, or a Rust byte vector. -/
abbrev Bytes := List UInt8

/-- The bytes of a string literal. -/
def utf8 (s : String) : Bytes := s.toUTF8.data.toList

/-- `String.valid?/1`. -/
def validString (bytes : Bytes) : Bool := (ByteArray.mk bytes.toArray).validateUTF8

/-- The failure kinds of `Javex.RuntimeError`. -/
inductive Kind
  | timeout | cancelled | fuelExhausted | oom | jsError | trap | outputLimit
  | diagnosticLimit | inputLimit | moduleLimit | compileError | workerError
  | callbackLimit | callbackTimeout | invalidOptions | busy | runtimeDown | unknown
  deriving DecidableEq, Repr

/-- The atom of a kind, without its colon. -/
def Kind.name : Kind → String
  | timeout => "timeout"
  | cancelled => "cancelled"
  | fuelExhausted => "fuel_exhausted"
  | oom => "oom"
  | jsError => "js_error"
  | trap => "trap"
  | outputLimit => "output_limit"
  | diagnosticLimit => "diagnostic_limit"
  | inputLimit => "input_limit"
  | moduleLimit => "module_limit"
  | compileError => "compile_error"
  | workerError => "worker_error"
  | callbackLimit => "callback_limit"
  | callbackTimeout => "callback_timeout"
  | invalidOptions => "invalid_options"
  | busy => "busy"
  | runtimeDown => "runtime_down"
  | unknown => "unknown"

/-- `%Javex.RuntimeError{}`. -/
structure RuntimeError where
  kind : Kind
  message : String
  deriving DecidableEq, Repr

/-- `64 * 1024 * 1024`: the transport cap both ends of the isolated backend share. -/
def mib64 : ℕ := 64 * 1024 * 1024

/-- The exceptions an Elixir built-in raises outside its domain; `encodeError` is that of
`Jason.encode!/1`. -/
inductive Raise
  | argumentError | functionClauseError | badMapError | encodeError
  deriving DecidableEq, Repr

end Javex
