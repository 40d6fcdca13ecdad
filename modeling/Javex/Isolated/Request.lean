import Javex.Codec.Decoder
import Javex.Codec.Extent
import Javex.Isolated.Receive
import Javex.Options.Accepted
import Javex.Runtime.Server
import Mathlib.Data.List.Perm.Basic

/-!
# What `call/7` sends

The first half of `call/7` in `lib/javex/isolated.ex`: the header, in JSON, with what
`Options.native/2` leaves of the limits, and the frames it writes to the port. The header is the
encoding of two maps, which are iterated in whatever order; `Sent.IsHeader` allows any.

* `Sent.exists_members`: the members of the limits, whichever order they come in.
* `Sent.extent_header_le`: the text of a header is shorter than half of `MAX_HEADER`.

A request is what one of two calls sends, a run or a compilation (`Sent`), with exactly the limits
that the option checks have let through (`Sent.Admitted`); so the ranges of the numbers are not
assumed here but read off the checks. The bound on the header is a sum over its members of what each
can take at most, in which the environment is the only part that the caller chooses: at most 128
pairs with 64 KiB between them.
-/

namespace Javex.Isolated

open Codec Codec.Decoder Codec.Json Javex.Runtime

/-! ### Limits -/

/-- A value of a limits map. -/
inductive LimitValue
  | int (n : ℤ)
  | bool (b : Bool)
  | atom (name : String)
  | env (pairs : List (Bytes × Bytes))
  | callbacks (grants : Grants)

/-- A limits map, as its entries. -/
abbrev LimitsMap := List (String × LimitValue)

/-- The atom of an encoding. -/
def encodingName : Encoding → String
  | .json => "json"
  | .raw => "raw"

/-- The map `Options.run/2` returns, with these values for the budgets. -/
def limitsMap (value : BudgetKey → ℤ) (encoding : Encoding) (env : List (Bytes × Bytes))
    (callbacks : Grants) : LimitsMap :=
  (BudgetKey.all.map fun key => (key.name, .int (value key))) ++
    [("encoding", .atom (encodingName encoding)), ("env", .env env),
      ("callbacks", .callbacks callbacks)]

/-- `Options.native/2`. -/
def native (limits : LimitsMap) (static : Bool) : LimitsMap :=
  (limits.filter fun entry => !dropped.contains entry.1) ++ [("static_mode", .bool static)]
where
  dropped := ["timeout", "encoding", "callbacks", "callback_timeout", "deadline"]

/-- A value as `Jason` encodes it, the pairs of `:env` made lists; functions have no encoding. -/
def LimitValue.json? : LimitValue → Option Json
  | int n => some (.int n)
  | bool b => some (.bool b)
  | atom name => some (.str (utf8 name))
  | env pairs => some (.arr (pairs.map fun pair => .arr [.str pair.1, .str pair.2]))
  | callbacks grants => if grants.entries = [] then some (.obj []) else none

/-! ### Requests -/

/-- The calls of `call/7`: `run/7` with the limits of a job, and `compile/6`, whose third payload
is empty. -/
inductive Sent
  | run (limits : RunLimits) (static : Bool) (plugin bytes input : Bytes)
  | compile (limits : CompileLimits) (remaining : ℤ) (static : Bool) (plugin source : Bytes)

/-- The name of an operation. -/
def Operation.name : Operation → String
  | .run => "run"
  | .compile => "compile"

namespace Sent

variable (sent : Sent)

def operation : Sent → Operation
  | run .. => .run
  | compile .. => .compile

def static : Sent → Bool
  | run _ static _ _ _ => static
  | compile _ _ static _ _ => static

def payloads : Sent → List Bytes
  | run _ _ plugin bytes input => [plugin, bytes, input]
  | compile _ _ _ plugin source => [plugin, source, []]

/-- The numbers in the limits of a call. -/
def value : Sent → BudgetKey → ℤ
  | run limits .., .timeout => limits.remaining
  | run limits .., key => limits.budgets.value key
  | compile _ remaining .., .timeout => remaining
  | compile limits .., .maxInput => limits.maxInput
  | compile limits .., key => limits.budgets.value key

/-- The environment in the limits of a call. -/
def env : Sent → List (Bytes × Bytes)
  | run limits .. => limits.env
  | compile .. => []

/-- The limits of a call. -/
def limits : LimitsMap :=
  match sent with
  | run limits .. =>
    limitsMap sent.value limits.encoding sent.env limits.callbacks ++
      [("deadline", .int limits.deadline)]
  | compile .. => limitsMap sent.value .json sent.env ∅

/-- The limits are some that the option checks let through. -/
def Admitted : Sent → Prop
  | run limits .. => ∃ inspect opts defaults,
      Options.run inspect opts defaults = .ok limits.toLimits
  | compile limits .. => ∃ inspect opts, Options.compile inspect opts = .ok limits

/-- The header of a call, for some order of its two maps. -/
def IsHeader (header : Json) : Prop :=
  ∃ budgets members top, (native sent.limits sent.static).Perm budgets ∧
    budgets.map (fun entry => (utf8 entry.1, entry.2.json?)) =
      members.map (fun member => (member.1, some member.2)) ∧
    [(utf8 "operation", .str (utf8 sent.operation.name)), (utf8 "limits", .obj members)].Perm top ∧
    header = .obj top

end Sent

/-- The frames of `call/7` if they are not too large, `encode` being `Jason.encode!/1`. -/
def call (encode : Json → Bytes) (header : Json) (payloads : List Bytes) :
    Except (Kind × Bytes) Bytes :=
  let frames := encode header :: payloads
  if mib64 < (frames.map List.length).sum then
    .error (.inputLimit, utf8 "isolated IPC request exceeds 64 MiB")
  else .ok (frames.flatMap frameBytes)

theorem call_eq_ok {encode : Json → Bytes} {header : Json} {payloads : List Bytes} {bytes : Bytes} :
    call encode header payloads = .ok bytes ↔
      ((encode header :: payloads).map List.length).sum ≤ mib64 ∧
        (encode header :: payloads).flatMap frameBytes = bytes := by
  simp only [call]
  split_ifs with hlarge
  · simp only [false_iff, not_and]
    omega
  · simp only [Except.ok.injEq, iff_and_self]
    omega

/-! ### What the checks let through -/

/-- The limits a checked environment keeps. -/
structure EnvWithin (env : List (Bytes × Bytes)) : Prop where
  count : env.length ≤ 128
  total : (env.map fun pair => pair.1.length + pair.2.length).sum ≤ 65536
  valid : ∀ pair ∈ env, IsUtf8 pair.1 ∧ IsUtf8 pair.2

/-- The environment of a run within its limits. -/
theorem run_env {inspect : Term → String} {opts : Term} {defaults : Budgets} {limits : Limits}
    (h : Options.run inspect opts defaults = .ok limits) : EnvWithin limits.env := by
  obtain ⟨pairs, encoding, -, -, -, -, henv, -⟩ := Options.run_eq_ok.mp h
  exact ⟨henv.count, henv.total, fun pair hpair =>
    ⟨isUtf8_iff_validateUTF8.mpr (henv.valid pair hpair).key,
      isUtf8_iff_validateUTF8.mpr (henv.valid pair hpair).value⟩⟩

/-- The source limit of a compilation is a number of 64 bits. -/
theorem compile_maxInput {inspect : Term → String} {opts : Term} {limits : CompileLimits}
    (h : Options.compile inspect opts = .ok limits) :
    limits.maxInput ≤ 18446744073709551615 := by
  obtain ⟨pairs, hpairs, -⟩ := Options.compile_eq_ok.mp h
  exact (Options.compile_value h hpairs).2.2.2

/-! ### The header -/

/-- The budgets the worker is told. -/
def nativeKeys : List BudgetKey :=
  [.fuel, .maxMemory, .maxInput, .maxOutput, .maxStderr, .maxModule, .maxCallbackCalls,
    .maxCallbackConcurrency, .maxCallbackInput, .maxCallbackOutput]

/-- The environment of a header. -/
def envJson (env : List (Bytes × Bytes)) : Json :=
  .arr (env.map fun pair => .arr [.str pair.1, .str pair.2])

/-- The members of the limits in a header, in some order. -/
def Sent.members (sent : Sent) : List (Bytes × Json) :=
  nativeKeys.map (fun key => (utf8 key.name, .int (sent.value key))) ++
    [(utf8 "env", envJson sent.env), (utf8 "static_mode", .bool sent.static)]

theorem native_limits (sent : Sent) :
    native sent.limits sent.static =
      nativeKeys.map (fun key => (key.name, .int (sent.value key))) ++
        [("env", .env sent.env), ("static_mode", .bool sent.static)] := by
  cases sent with
  | run => rfl
  | compile => rfl

/-- **The header** has the operation and the limits, and these have their members, each in some
order. -/
theorem Sent.exists_members {sent : Sent} {header : Json} (h : sent.IsHeader header) :
    ∃ members top, members.Perm sent.members ∧ header = .obj top ∧
      top.Perm [(utf8 "operation", .str (utf8 sent.operation.name)),
        (utf8 "limits", .obj members)] := by
  obtain ⟨budgets, members, top, hbudgets, hmembers, htop, rfl⟩ := h
  refine ⟨members, top, ?_, rfl, htop.symm⟩
  have hinjective : Function.Injective fun member : Bytes × Json => (member.1, some member.2) := by
    rintro ⟨key, j⟩ ⟨key', j'⟩ heq
    simpa using heq
  refine (List.map_perm_map_iff hinjective).mp ?_
  have hnative := hbudgets.map fun entry => (utf8 entry.1, entry.2.json?)
  rw [hmembers, native_limits] at hnative
  exact hnative.symm

/-- The header with its members in this order. -/
def Sent.header (sent : Sent) : Json :=
  .obj [(utf8 "operation", .str (utf8 sent.operation.name)), (utf8 "limits", .obj sent.members)]

theorem Sent.isHeader_header (sent : Sent) : sent.IsHeader sent.header :=
  ⟨_, sent.members, _, .refl _, by rw [native_limits]; rfl, .refl _, rfl⟩

/-- A budget in the limits of a call; the source limit of a compilation stands for `max_input`. -/
def Sent.amount : Sent → BudgetKey → ℕ
  | .run limits .., key => limits.budgets.value key
  | .compile limits .., .maxInput => limits.maxInput
  | .compile limits .., key => limits.budgets.value key

theorem Sent.value_eq_amount (sent : Sent) {key : BudgetKey} (h : key ∈ nativeKeys) :
    sent.value key = (sent.amount key : ℤ) := by
  have hkey : key ≠ .timeout := by
    rintro rfl
    exact absurd h (by decide)
  cases sent with
  | run => cases key <;> first | rfl | exact absurd rfl hkey
  | compile => cases key <;> first | rfl | exact absurd rfl hkey

theorem Sent.amount_le {sent : Sent} (h : sent.Admitted) (key : BudgetKey) :
    sent.amount key ≤ key.maximum := by
  cases sent with
  | run limits => exact limits.budgets.le_maximum key
  | compile limits =>
    obtain ⟨inspect, opts, hopts⟩ := h
    have hle := limits.budgets.le_maximum key
    cases key with
    | maxInput => exact compile_maxInput hopts
    | _ => exact hle

/-- A budget is a number of 64 bits. -/
theorem Sent.amount_lt {sent : Sent} (h : sent.Admitted) (key : BudgetKey) :
    sent.amount key < 18446744073709551616 := by
  have hmaximum : key.maximum < 18446744073709551616 := by cases key <;> decide
  exact Nat.lt_of_le_of_lt (sent.amount_le h key) hmaximum

theorem Sent.envWithin {sent : Sent} (h : sent.Admitted) : EnvWithin sent.env := by
  cases sent with
  | run limits =>
    obtain ⟨inspect, opts, defaults, hopts⟩ := h
    exact run_env hopts
  | compile => exact ⟨Nat.zero_le _, Nat.zero_le _, fun pair hpair => by cases hpair⟩

/-- **Escaping in the environment.** At most 64 KiB in at most 128 pairs. -/
theorem extent_envJson_le {env : List (Bytes × Bytes)} (h : EnvWithin env) :
    extent (envJson env) ≤ 394370 := by
  have hsum : ∀ env : List (Bytes × Bytes),
      extentElements (env.map fun pair => .arr [.str pair.1, .str pair.2]) =
        6 * (env.map fun pair => pair.1.length + pair.2.length).sum + 9 * env.length := by
    intro env
    induction env with
    | nil => rfl
    | cons pair env ih =>
      simp only [List.map_cons, extentElements, extent, quoteExtent, ih, List.sum_cons,
        List.length_cons]
      omega
  obtain ⟨hcount, htotal, -⟩ := h
  rw [envJson, extent, hsum]
  omega

/-- **The header limit.** The text of a header takes less than half of it, whatever the budgets
and the environment. -/
theorem Sent.extent_header_le {sent : Sent} (h : sent.Admitted) {header : Json}
    (hheader : sent.IsHeader header) : extent header ≤ 400000 := by
  obtain ⟨members, top, hmembers, rfl, htop⟩ := exists_members hheader
  have henv := extent_envJson_le (envWithin h)
  -- the longest of the names has 24 bytes, the longest number 20
  have hnumber : ∀ key ∈ nativeKeys,
      quoteExtent (utf8 key.name) + 1 + extent (.int (sent.value key)) + 1 ≤ 168 := by
    have hname : ∀ key ∈ nativeKeys, quoteExtent (utf8 key.name) ≤ 146 := by decide
    intro key hkey
    have hquote := hname key hkey
    have hdigits := length_intText_le (amount_lt h key)
    rw [value_eq_amount sent hkey, extent]
    omega
  have hnumbers : extentMembers
      (nativeKeys.map fun key => (utf8 key.name, .int (sent.value key))) ≤ 10 * 168 := by
    refine extentMembers_le fun member hmember => ?_
    obtain ⟨key, hkey, rfl⟩ := List.mem_map.mp hmember
    exact hnumber key hkey
  have hoperation : ∀ operation : Operation, quoteExtent (utf8 operation.name) ≤ 44 := by
    intro operation
    cases operation <;> decide
  have hnames : quoteExtent (utf8 "env") = 20 ∧ quoteExtent (utf8 "static_mode") = 68 ∧
      quoteExtent (utf8 "operation") = 56 ∧ quoteExtent (utf8 "limits") = 38 := by decide
  have hname := hoperation sent.operation
  have hlimits : extent (.obj members) ≤ 397000 := by
    rw [extent_obj_perm hmembers, extent, Sent.members, extentMembers_append]
    simp only [extentMembers, extent]
    omega
  rw [extent_obj_perm htop]
  simp only [extent, extentMembers]
  rw [extent] at hlimits
  omega

/-- A header is a plain value, nested four deep. -/
theorem Sent.plain_header {sent : Sent} (h : sent.Admitted) {header : Json}
    (hheader : sent.IsHeader header) : Plain 127 header := by
  obtain ⟨members, top, hmembers, rfl, htop⟩ := exists_members hheader
  have henv : IsUtf8 (utf8 "env") := .of_all (by decide)
  have hstatic : IsUtf8 (utf8 "static_mode") := .of_all (by decide)
  have hname : IsUtf8 (utf8 "operation") := .of_all (by decide)
  have hlimitsName : IsUtf8 (utf8 "limits") := .of_all (by decide)
  have hlimits : Plain 126 (.obj members) := by
    intro member hmember
    rcases List.mem_append.mp (hmembers.mem_iff.mp hmember) with hnumber | hrest
    · obtain ⟨key, hkey, rfl⟩ := List.mem_map.mp hnumber
      have hname : ∀ key ∈ nativeKeys, (utf8 key.name).all (decide <| · < 0x80) = true := by decide
      have hamount := amount_lt h key
      have hvalue := value_eq_amount sent hkey
      refine ⟨.of_all (hname key hkey), ?_, ?_⟩ <;> omega
    · simp only [List.mem_cons, List.not_mem_nil, or_false] at hrest
      rcases hrest with rfl | rfl
      · refine ⟨henv, fun j hj => ?_⟩
        obtain ⟨pair, hpair, rfl⟩ := List.mem_map.mp hj
        obtain ⟨hkey, hvalue⟩ := (envWithin h).valid pair hpair
        rintro j (_ | ⟨_, _ | ⟨_, hj⟩⟩)
        · exact hkey
        · exact hvalue
        · cases hj
      · exact ⟨hstatic, trivial⟩
  have hoperation : ∀ operation : Operation,
      (utf8 operation.name).all (decide <| · < 0x80) = true := by
    intro operation
    cases operation <;> decide
  intro member hmember
  have hmem := htop.mem_iff.mp hmember
  simp only [List.mem_cons, List.not_mem_nil, or_false] at hmem
  rcases hmem with rfl | rfl
  · exact ⟨hname, .of_all (hoperation _)⟩
  · exact ⟨hlimitsName, hlimits⟩

end Javex.Isolated
