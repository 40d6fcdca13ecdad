import Javex.Basic
import Mathlib.Data.List.AList
import Mathlib.Data.Fintype.Basic

/-!
# Options and budgets

The option checks of `lib/javex/options.ex`. Options arrive as arbitrary Elixir terms, so
they are values of `Term`; a check either succeeds, fails with a `RuntimeError`, or raises
(`Failure`), and an Elixir `with` chain is a `do` block over `Except Failure`.

`Budgets` carries the ranges `Options.budgets/1` enforces as fields, so every later module
that takes a `Budgets` quantifies over exactly the admitted budget sets.

The keys of the budgets are an enumeration, and what the source says of a key (its name, its name
among the options of a runtime, its default, its minimum and its maximum) is a function of the key,
each written down as the source has it. The checks are then one definition over all keys, and a
statement about the budgets is a statement about every key at once.

Terms are taken as deep as the checks look: floats, bitstrings, pids and references only have to be
told from everything else. `length/1` raises on an improper list, and `is_list/1` does not reject
one; `Term.cons` therefore takes any term as its tail, and the difference between the two built-ins
is the difference between `Term.isList` and `Term.toList?`.
-/

namespace Javex

/-- An Elixir term, as far as the option checks can tell terms apart. A list is built from
`nil` and `cons`, so improper lists are terms; `bitstring` is one that is no binary, and
`other` a pid, port or reference. -/
inductive Term
  | atom (name : String)
  | int (value : ℤ)
  | float (bits : UInt64)
  | binary (bytes : Bytes)
  | bitstring (bits : List Bool)
  | nil
  | cons (head tail : Term)
  | tuple (elements : List Term)
  | map (entries : List (Term × Term))
  | function (arity : ℕ) (id : ℕ)
  | other (id : ℕ)

namespace Term

/-- The elements of a proper list. -/
def toList? : Term → Option (List Term)
  | nil => some []
  | cons head tail => (toList? tail).map (head :: ·)
  | _ => none

/-- `is_list/1`: true of improper lists as well. -/
def isList : Term → Bool
  | nil => true
  | cons _ _ => true
  | _ => false

/-- `length/1`, which raises on an improper list. -/
def length (term : Term) : Except Raise ℕ :=
  match term.toList? with
  | some elements => .ok elements.length
  | none => .error .argumentError

/-- `is_struct/1`: a map with an atom under the key `:__struct__`. -/
def isStruct : Term → Bool
  | map entries => entries.any fun
      | (atom "__struct__", atom _) => true
      | _ => false
  | _ => false

end Term

/-- A keyword list, read as its pairs; `Keyword.keyword?/1` is whether there are any. -/
def keywordPairs? (opts : Term) : Option (List (String × Term)) :=
  opts.toList?.bind fun elements => elements.mapM fun
    | .tuple [.atom key, value] => some (key, value)
    | _ => none

/-- `Keyword.get/3` on a keyword list. -/
def keywordGet (pairs : List (String × Term)) (key : String) (default : Term) : Term :=
  (pairs.lookup key).getD default

/-! ### The budgets -/

/-- The keys of `@defaults`. -/
inductive BudgetKey
  | timeout | fuel | maxMemory | maxInput | maxOutput | maxStderr | maxModule
  | maxCallbackCalls | maxCallbackConcurrency | maxCallbackInput | maxCallbackOutput
  | callbackTimeout
  deriving DecidableEq, Repr

namespace BudgetKey

/-- The option name of a budget. -/
def name : BudgetKey → String
  | timeout => "timeout"
  | fuel => "fuel"
  | maxMemory => "max_memory"
  | maxInput => "max_input"
  | maxOutput => "max_output"
  | maxStderr => "max_stderr"
  | maxModule => "max_module"
  | maxCallbackCalls => "max_callback_calls"
  | maxCallbackConcurrency => "max_callback_concurrency"
  | maxCallbackInput => "max_callback_input"
  | maxCallbackOutput => "max_callback_output"
  | callbackTimeout => "callback_timeout"

/-- `Map.keys(@defaults)`. -/
def all : List BudgetKey :=
  [timeout, fuel, maxMemory, maxInput, maxOutput, maxStderr, maxModule, maxCallbackCalls,
    maxCallbackConcurrency, maxCallbackInput, maxCallbackOutput, callbackTimeout]

theorem mem_all (key : BudgetKey) : key ∈ all := by
  cases key <;> decide

instance : Fintype BudgetKey := Fintype.ofList all mem_all

/-- The key of `@runtime_keys` that sets the default of a budget. -/
def runtimeName (key : BudgetKey) : String := "default_" ++ key.name

/-- The values of `@defaults`. -/
def builtinDefault : BudgetKey → ℕ
  | timeout => 5000
  | fuel => 100000000
  | maxMemory => 64 * 1024 * 1024
  | maxInput => 1024 * 1024
  | maxOutput => 1024 * 1024
  | maxStderr => 64 * 1024
  | maxModule => 8 * 1024 * 1024
  | maxCallbackCalls => 32
  | maxCallbackConcurrency => 4
  | maxCallbackInput => 65536
  | maxCallbackOutput => 262144
  | callbackTimeout => 1000

/-- The minimum `Options.budgets/1` asks of a key. -/
def minimum (key : BudgetKey) : ℕ :=
  if key = fuel ∨ key = maxOutput ∨ key = maxStderr ∨ key = maxCallbackCalls then 0 else 1

/-- The maximum `Options.integer/3` allows a key. -/
def maximum : BudgetKey → ℕ
  | timeout => 2147483647
  | callbackTimeout => 2147483647
  | maxCallbackCalls => 1024
  | maxCallbackConcurrency => 1024
  | maxCallbackInput => 8 * 1024 * 1024
  | maxCallbackOutput => 8 * 1024 * 1024
  | _ => 18446744073709551615

end BudgetKey

/-- A set of budgets with the ranges `Options.budgets/1` enforces. -/
structure Budgets where
  value : BudgetKey → ℕ
  minimum_le : ∀ key, key.minimum ≤ value key
  le_maximum : ∀ key, value key ≤ key.maximum

namespace Budgets

variable (b : Budgets)

def timeout : ℕ := b.value .timeout
def fuel : ℕ := b.value .fuel
def maxMemory : ℕ := b.value .maxMemory
def maxInput : ℕ := b.value .maxInput
def maxOutput : ℕ := b.value .maxOutput
def maxStderr : ℕ := b.value .maxStderr
def maxModule : ℕ := b.value .maxModule
def maxCallbackCalls : ℕ := b.value .maxCallbackCalls
def maxCallbackConcurrency : ℕ := b.value .maxCallbackConcurrency
def maxCallbackInput : ℕ := b.value .maxCallbackInput
def maxCallbackOutput : ℕ := b.value .maxCallbackOutput
def callbackTimeout : ℕ := b.value .callbackTimeout

theorem maxCallbackCalls_le : b.maxCallbackCalls ≤ 1024 := b.le_maximum .maxCallbackCalls

theorem maxCallbackConcurrency_pos : 0 < b.maxCallbackConcurrency :=
  b.minimum_le .maxCallbackConcurrency

theorem maxCallbackOutput_le : b.maxCallbackOutput ≤ 8 * 1024 * 1024 :=
  b.le_maximum .maxCallbackOutput

/-- `@defaults`. -/
def builtin : Budgets where
  value := BudgetKey.builtinDefault
  minimum_le key := by cases key <;> decide
  le_maximum key := by cases key <;> decide

end Budgets

/-! ### What the checks return -/

/-- The granted host functions of a run, by name. -/
abbrev Grants := AList fun _ : Bytes => ℕ

/-- The `:encoding` of a run. -/
inductive Encoding
  | json | raw
  deriving DecidableEq, Repr

/-- The result of `Options.run/2`. -/
structure Limits where
  budgets : Budgets
  encoding : Encoding
  env : List (Bytes × Bytes)
  callbacks : Grants

/-- The `:backend` of a runtime. -/
inductive Backend
  | inProcess | isolated
  deriving DecidableEq, Repr

/-- What `Javex.Runtime.init/1` takes from options that `Options.runtime/1` accepted. -/
structure RuntimeOptions where
  defaults : Budgets
  backend : Backend
  maxProcessMemory : ℕ
  maxConcurrency : ℕ
  maxCacheBytes : ℕ
  maxCachedModules : ℕ

/-- The result of `Options.compile/1`: `max_input` is the source limit, which has the range
of `max_source` rather than that of a budget. -/
structure CompileLimits where
  budgets : Budgets
  maxInput : ℕ

/-! ### The checks -/

namespace Options

/-- Why an option check stops: the `{:error, _}` it returns, or an exception. -/
inductive Failure
  | error (error : RuntimeError)
  | raised (exception : Raise)
  deriving DecidableEq, Repr

/-- `Options.invalid/1`. -/
def invalid {α : Type} (message : String) : Except Failure α :=
  .error (.error ⟨.invalidOptions, message⟩)

/-- A built-in call inside a check. -/
def builtinCall {α : Type} (call : Except Raise α) : Except Failure α :=
  call.mapError .raised

/-- The keys `Options.integer/3` is called with. -/
inductive IntegerKey
  | budget (key : BudgetKey)
  | maxProcessMemory | maxConcurrency | maxCacheBytes | maxCachedModules | maxSource
  deriving DecidableEq, Repr

namespace IntegerKey

def name : IntegerKey → String
  | budget key => key.name
  | maxProcessMemory => "max_process_memory"
  | maxConcurrency => "max_concurrency"
  | maxCacheBytes => "max_cache_bytes"
  | maxCachedModules => "max_cached_modules"
  | maxSource => "max_source"

def maximum : IntegerKey → ℕ
  | budget key => key.maximum
  | maxProcessMemory => 9223372036854775807
  | _ => 18446744073709551615

end IntegerKey

/-- The values `Options.integer/3` accepts. -/
def inRange (value : Term) (minimum maximum : ℕ) : Bool :=
  match value with
  | .int n => (minimum : ℤ) ≤ n && n ≤ (maximum : ℤ)
  | _ => false

/-- The message of a value out of its range. -/
def integerMessage (key : IntegerKey) (minimum : ℕ) : String :=
  key.name ++ " must be an integer between " ++ toString minimum ++ " and " ++
    toString key.maximum

/-- The number an accepted value denotes. -/
def toNat : Term → ℕ
  | .int n => n.toNat
  | _ => 0

/-- `Options.integer/3`; the accepted number is returned. -/
def integer (key : IntegerKey) (value : Term) (minimum : ℕ) : Except Failure ℕ :=
  if inRange value minimum key.maximum then .ok (toNat value)
  else invalid (integerMessage key minimum)

theorem toNat_of_inRange {value : Term} {minimum maximum : ℕ}
    (h : inRange value minimum maximum = true) :
    minimum ≤ toNat value ∧ toNat value ≤ maximum := by
  cases value with
  | int n =>
    simp only [inRange, Bool.and_eq_true, decide_eq_true_eq] at h
    simp only [toNat]
    omega
  | _ => simp [inRange] at h

/-- `Options.budgets/1`: the first value out of its range is reported, and values that are
all in range are a `Budgets`. The first is so in the order of `BudgetKey.all`; `Enum.reduce_while/3`
goes through a map in an order that Elixir does not fix, so that where several values are out of
range the code may name another one of them. -/
def budgets (values : BudgetKey → Term) : Except Failure Budgets :=
  if h : ∀ key, inRange (values key) key.minimum key.maximum = true then
    .ok ⟨fun key => toNat (values key), fun key => (toNat_of_inRange (h key)).1,
      fun key => (toNat_of_inRange (h key)).2⟩
  else
    let key := (BudgetKey.all.find? fun key =>
      !inRange (values key) key.minimum key.maximum).getD .timeout
    invalid (integerMessage (.budget key) key.minimum)

section Checks

-- `inspect/1` renders a term in an error message; nothing depends on the rendering.
variable (inspect : Term → String)

/-- `Options.keywords/2`. -/
def keywords (opts : Term) (allowed : List String) : Except Failure (List (String × Term)) :=
  match keywordPairs? opts with
  | some pairs =>
    if (pairs.map Prod.fst).all (allowed.contains ·) ∧ (pairs.map Prod.fst).Nodup then .ok pairs
    else invalid message
  | none => invalid message
where
  message := "options must be a keyword list containing only unique keys from " ++
    inspect (allowed.foldr (fun key rest => .cons (.atom key) rest) .nil)

/-- `Options.member/3` with a list of atoms; the accepted atom is returned. -/
def member (key : String) (value : Term) (values : List String) : Except Failure String :=
  match value with
  | .atom name => if values.contains name then .ok name else invalid message
  | _ => invalid message
where
  message := "invalid " ++ key ++ ": " ++ inspect value

/-- `Options.environment_pair?/1`. -/
def environmentPair? : Term → Option (Bytes × Bytes)
  | .tuple [.binary key, .binary value] =>
    if validString key && validString value && key != [] &&
        !(key.contains 0x3d || key.contains 0) && !value.contains 0 then
      some (key, value)
    else none
  | _ => none

/-- `Options.environment/1`. The length is taken of every list, proper or not. -/
def environment (env : Term) : Except Failure (List (Bytes × Bytes)) := do
  if !env.isList then invalid message
  if 128 < (← builtinCall env.length) then invalid message
  match (env.toList?.getD []).mapM environmentPair? with
  | some pairs =>
    if (pairs.map fun pair => pair.1.length + pair.2.length).sum ≤ 65536 then return pairs
    else invalid message
  | none => invalid message
where
  message := "env must contain at most 128 valid string pairs totaling at most 64 KiB"

/-- One entry of the `:callbacks` map. -/
def grant? : Term × Term → Option (Sigma fun _ : Bytes => ℕ)
  | (.binary name, .function 2 id) =>
    if 1 ≤ name.length ∧ name.length ≤ 128 ∧ validString name then some ⟨name, id⟩ else none
  | _ => none

/-- `Options.callbacks/1`. -/
def callbacks (callbacks : Term) : Except Failure Grants :=
  match callbacks with
  | .map entries =>
    if !callbacks.isStruct && entries.length ≤ 128 then
      match entries.mapM grant? with
      | some grants => .ok grants.toAList
      | none => invalid message
    else invalid message
  | _ => invalid message
where
  message := "callbacks must map at most 128 non-empty UTF-8 names (at most 128 bytes) " ++
    "to arity-2 functions"

/-- The budget values of a call: what the call gives, else the default. -/
def mergeBudgets (pairs : List (String × Term)) (defaults : Budgets) (key : BudgetKey) : Term :=
  keywordGet pairs key.name (.int (defaults.value key))

/-- `Options.run/2`. -/
def run (opts : Term) (defaults : Budgets) : Except Failure Limits := do
  let pairs ← keywords inspect opts
    (BudgetKey.all.map BudgetKey.name ++ ["runtime", "encoding", "env", "callbacks"])
  let limits ← budgets (mergeBudgets pairs defaults)
  let encoding ← member inspect "encoding" (keywordGet pairs "encoding" (.atom "json"))
    ["json", "raw"]
  let env ← environment (keywordGet pairs "env" .nil)
  let callbacks ← callbacks (keywordGet pairs "callbacks" (.map []))
  return ⟨limits, if encoding = "raw" then .raw else .json, env, callbacks⟩

/-- The defaults of a runtime: what its `default_` option gives, else the built-in one. -/
def runtimeBudgets (pairs : List (String × Term)) (key : BudgetKey) : Term :=
  keywordGet pairs key.runtimeName (.int key.builtinDefault)

/-- `Options.runtime/1`. -/
def runtime (opts : Term) : Except Failure RuntimeOptions := do
  let pairs ← keywords inspect opts (BudgetKey.all.map BudgetKey.runtimeName ++
    ["plugin_path", "max_concurrency", "max_cache_bytes", "max_cached_modules", "backend",
      "max_process_memory"])
  let defaults ← budgets (runtimeBudgets pairs)
  let backend ← member inspect "backend" (keywordGet pairs "backend" (.atom "in_process"))
    ["in_process", "isolated"]
  let maxProcessMemory ← integer .maxProcessMemory
    (keywordGet pairs "max_process_memory" (.int (512 * 1024 * 1024))) 1
  let maxConcurrency ← integer .maxConcurrency (keywordGet pairs "max_concurrency" (.int 4)) 1
  let maxCacheBytes ← integer .maxCacheBytes
    (keywordGet pairs "max_cache_bytes" (.int (64 * 1024 * 1024))) 0
  let maxCachedModules ← integer .maxCachedModules
    (keywordGet pairs "max_cached_modules" (.int 64)) 0
  return ⟨defaults, if backend = "isolated" then .isolated else .inProcess, maxProcessMemory,
    maxConcurrency, maxCacheBytes, maxCachedModules⟩

/-- The pairs of a keyword list whose keys are budgets. -/
def takeBudgets (pairs : List (String × Term)) : Term :=
  (pairs.filter fun pair => (BudgetKey.all.map BudgetKey.name).contains pair.1).foldr
    (fun pair rest => .cons (.tuple [.atom pair.1, pair.2]) rest) .nil

/-- `Options.compile/1`. -/
def compile (opts : Term) : Except Failure CompileLimits := do
  let pairs ← keywords inspect opts ["mode", "plugin", "runtime", "timeout", "fuel",
    "max_memory", "max_source", "max_module", "max_stderr"]
  let _ ← member inspect "mode" (keywordGet pairs "mode" (.atom "dynamic"))
    ["dynamic", "static"]
  let limits ← run inspect (takeBudgets pairs) .builtin
  let maxSource ← integer .maxSource
    (keywordGet pairs "max_source" (.int (Budgets.builtin.maxInput))) 1
  return ⟨limits.budgets, maxSource⟩

end Checks

end Options

end Javex
