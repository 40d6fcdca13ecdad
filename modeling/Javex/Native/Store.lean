import Javex.Basic
import Javex.Codec.Lossy
import Javex.ForMathlib.Checked

/-!
# The quotas of a sandbox

`Output` of `native/javex_nif/src/output.rs`, and `Limiter`, `Sandbox` and `Sandbox::finish` of
`native/javex_nif/src/sandbox.rs`. The guest is whatever makes host calls: writes to its two
streams, and requests to grow a memory or a table. What `StoreLimits` answers to such a request is
a parameter. A sandbox records its host calls with their answers in `log`, which no code reads.

A quota that was exceeded leaves a flag, and `finish` looks at the flags before it looks at the
result of the guest.

`finish` is one expression with an order that matters: a cancellation or a deadline first, then the
flags, then the result. The order is kept as the source has it, so that the precedence of the errors
is a fact about the definition. A failure of the guest is what the engine reports, a trap with or
without a message or fuel that has run out, and becomes an error kind here and nowhere else.

The model of a stream is its bytes, its capacity and its flag. A write that does not fit takes what
there is room for, raises the flag and fails; so the flag is up exactly if something was cut off.
-/

namespace Javex.Native

open Codec

/-- `Budgets`, as the header of a request spells them. -/
structure Budgets where
  fuel : ℕ
  maxMemory : ℕ
  maxInput : ℕ
  maxOutput : ℕ
  maxStderr : ℕ
  maxModule : ℕ
  maxCallbackCalls : ℕ
  maxCallbackConcurrency : ℕ
  maxCallbackInput : ℕ
  maxCallbackOutput : ℕ
  env : List (Bytes × Bytes)
  staticMode : Bool
  deriving DecidableEq

namespace Budgets

variable (b : Budgets)

/-- `Budgets::callback_request_limit`. -/
def callbackRequestLimit : ℕ :=
  min (b.maxCallbackConcurrency * (b.maxCallbackInput * 6 + 2048) + 4096) mib64

/-- `Budgets::callback_completion_limit`. -/
def callbackCompletionLimit : ℕ := min (b.maxCallbackOutput * 6 + 4096) mib64

section Saturating

variable (w : ℕ)

open Unsigned

/-- `Budgets::callback_request_limit`, step by step on a `usize` of `w` bits. -/
def requestLimit : ℕ :=
  min (satAdd w (satMul w b.maxCallbackConcurrency
    (satAdd w (satMul w b.maxCallbackInput 6) 2048)) 4096) mib64

/-- `Budgets::callback_completion_limit`, likewise. -/
def completionLimit : ℕ := min (satAdd w (satMul w b.maxCallbackOutput 6) 4096) mib64

variable {w}

/-- **Saturation makes no difference** below the cap. -/
theorem requestLimit_eq (h : mib64 < 2 ^ w) : b.requestLimit w = b.callbackRequestLimit := by
  have hinner : satAdd w (satMul w b.maxCallbackInput 6) 2048 =
      min (b.maxCallbackInput * 6 + 2048) (2 ^ w - 1) := satAdd_min
  have hproduct : satMul w b.maxCallbackConcurrency
      (min (b.maxCallbackInput * 6 + 2048) (2 ^ w - 1)) =
        min (b.maxCallbackConcurrency * (b.maxCallbackInput * 6 + 2048)) (2 ^ w - 1) := satMul_min
  rw [requestLimit, hinner, hproduct, satAdd_min, satAdd, min_assoc,
    min_eq_right (Nat.le_sub_one_of_lt h), callbackRequestLimit]

theorem completionLimit_eq (h : mib64 < 2 ^ w) :
    b.completionLimit w = b.callbackCompletionLimit := by
  have hsum : satAdd w (satMul w b.maxCallbackOutput 6) 4096 =
      min (b.maxCallbackOutput * 6 + 4096) (2 ^ w - 1) := satAdd_min
  rw [completionLimit, hsum, min_assoc, min_eq_right (Nat.le_sub_one_of_lt h),
    callbackCompletionLimit]

end Saturating

end Budgets

/-! ### Output -/

/-- `Output` with its `State`. -/
structure Output where
  capacity : ℕ
  bytes : Bytes
  exceeded : Bool

namespace Output

/-- `Output::new`. -/
def new (capacity : ℕ) : Output := { capacity, bytes := [], exceeded := false }

/-- `Output::append`, and whether it succeeds. -/
def append (o : Output) (bytes : Bytes) : Output × Bool :=
  let available := o.capacity - o.bytes.length
  let count := min available bytes.length
  let o := { o with bytes := o.bytes ++ bytes.take count }
  if count < bytes.length then ({ o with exceeded := true }, false) else (o, true)

end Output

/-! ### Limiter -/

/-- The result of a growth hook: `Ok(true)`, `Ok(false)` or `Err(_)`. -/
inductive Growth
  | granted | refused | failed
  deriving DecidableEq

/-- `StoreLimits`: its answers to a current size, a desired size and the maximum of the type. -/
structure StoreLimits where
  memoryGrowing : ℕ → ℕ → Option ℕ → Growth
  tableGrowing : ℕ → ℕ → Option ℕ → Growth

/-- `Limiter`. -/
structure Limiter where
  limits : StoreLimits
  memoryBytes : ℕ
  maxMemory : ℕ
  exceeded : Bool

namespace Limiter

variable (l : Limiter)

/-- `memory_growing`. -/
def memoryGrowing (current desired : ℕ) (maximum : Option ℕ) : Limiter × Growth :=
  let growth := desired - current
  if l.maxMemory - l.memoryBytes < growth then ({ l with exceeded := true }, .failed)
  else
    let result := l.limits.memoryGrowing current desired maximum
    ({ l with
      exceeded := l.exceeded || result != .granted
      memoryBytes := if result = .granted then l.memoryBytes + growth else l.memoryBytes }, result)

/-- `table_growing`. -/
def tableGrowing (current desired : ℕ) (maximum : Option ℕ) : Limiter × Growth :=
  let result := l.limits.tableGrowing current desired maximum
  ({ l with exceeded := l.exceeded || result != .granted }, result)

end Limiter

/-! ### Sandbox -/

/-- A host call of the guest. -/
inductive Action
  | stdout (bytes : Bytes)
  | stderr (bytes : Bytes)
  | memory (current desired : ℕ) (maximum : Option ℕ)
  | table (current desired : ℕ) (maximum : Option ℕ)

/-- A host call with its answer. -/
inductive Event
  | stdout (bytes : Bytes) (ok : Bool)
  | stderr (bytes : Bytes) (ok : Bool)
  | growth (granted : Bool)
  deriving DecidableEq

/-- `Sandbox`, with the host calls so far. -/
structure Sandbox where
  stdout : Output
  stderr : Output
  limiter : Limiter
  log : List Event

/-- A moment at which the code reads its control: the cancellation flag, and the clock against the
deadline. -/
structure Moment where
  cancelled : Bool
  late : Bool
  deriving DecidableEq

/-- An error of the engine or the host, by what `downcast_ref::<Trap>` says of it, and its message
(`format!("{error:#}")`). -/
inductive Failure
  | outOfFuel
  | unreachable (message : Bytes)
  | other (message : Bytes)

namespace Sandbox

/-- The streams and the limiter of `Sandbox::new`. -/
def new (opts : Budgets) (limits : StoreLimits) : Sandbox where
  stdout := .new opts.maxOutput
  stderr := .new opts.maxStderr
  limiter := { limits, memoryBytes := 0, maxMemory := opts.maxMemory, exceeded := false }
  log := []

variable (s : Sandbox)

/-- One host call. -/
def perform : Action → Sandbox
  | .stdout bytes =>
    let (stdout, ok) := s.stdout.append bytes
    { s with stdout, log := s.log ++ [.stdout bytes ok] }
  | .stderr bytes =>
    let (stderr, ok) := s.stderr.append bytes
    { s with stderr, log := s.log ++ [.stderr bytes ok] }
  | .memory current desired maximum =>
    let (limiter, result) := s.limiter.memoryGrowing current desired maximum
    { s with limiter, log := s.log ++ [.growth (result == .granted)] }
  | .table current desired maximum =>
    let (limiter, result) := s.limiter.tableGrowing current desired maximum
    { s with limiter, log := s.log ++ [.growth (result == .granted)] }

/-- `Sandbox::finish`. -/
def finish {α : Type} (now : Moment) (result : Except Failure α) : Except (Kind × Bytes) α :=
  if now.cancelled then .error (.cancelled, utf8 "execution cancelled")
  else if now.late then .error (.timeout, utf8 "execution timed out")
  else if s.limiter.exceeded then .error (.oom, utf8 "guest memory or table limit exceeded")
  else if s.stdout.exceeded then .error (.outputLimit, utf8 "stdout limit exceeded")
  else if s.stderr.exceeded then .error (.diagnosticLimit, utf8 "stderr limit exceeded")
  else
    match result with
    | .ok value => .ok value
    | .error .outOfFuel => .error (.fuelExhausted, utf8 "fuel exhausted")
    | .error (.unreachable message) =>
      if lossy s.stderr.bytes = [] then .error (.trap, message)
      else .error (.jsError, lossy s.stderr.bytes)
    | .error (.other message) => .error (.trap, message)

end Sandbox

/-! ### What the log says -/

/-- The bytes of all writes to stdout, in their order. -/
def written (log : List Event) : Bytes :=
  log.flatMap fun
    | .stdout bytes _ => bytes
    | .stderr _ _ | .growth _ => []

/-- The bytes of all writes to stderr. -/
def diagnostics (log : List Event) : Bytes :=
  log.flatMap fun
    | .stderr bytes _ => bytes
    | .stdout _ _ | .growth _ => []

/-- A growth was refused. -/
def GrowthRefused (log : List Event) : Prop := .growth false ∈ log

/-- A write overran stdout. -/
def OutputOverrun (log : List Event) : Prop := ∃ bytes, .stdout bytes false ∈ log

/-- A write overran stderr. -/
def DiagnosticOverrun (log : List Event) : Prop := ∃ bytes, .stderr bytes false ∈ log

/-- The error that the host calls so far call for: `oom`, else `output_limit`, else
`diagnostic_limit`. -/
inductive Calls (log : List Event) : Kind → Prop
  | oom : GrowthRefused log → Calls log .oom
  | outputLimit : ¬ GrowthRefused log → OutputOverrun log → Calls log .outputLimit
  | diagnosticLimit : ¬ GrowthRefused log → ¬ OutputOverrun log → DiagnosticOverrun log →
      Calls log .diagnosticLimit

/-- A quota was exceeded. -/
def Exceeded (log : List Event) : Prop :=
  GrowthRefused log ∨ OutputOverrun log ∨ DiagnosticOverrun log

/-- A stream beside what was written to it: its flag is up exactly when a write overran it, and
until then it holds all of it. -/
structure Output.Keeps (o : Output) (capacity : ℕ) (all : Bytes) (overrun : Prop) : Prop where
  capacity_eq : o.capacity = capacity
  length_le : o.bytes.length ≤ capacity
  exceeded_iff : o.exceeded = true ↔ overrun
  bytes_eq : o.exceeded = false → o.bytes = all

/-- A sandbox whose flags tell what has happened. -/
structure Sandbox.Honest (opts : Budgets) (s : Sandbox) : Prop where
  stdout : s.stdout.Keeps opts.maxOutput (written s.log) (OutputOverrun s.log)
  stderr : s.stderr.Keeps opts.maxStderr (diagnostics s.log) (DiagnosticOverrun s.log)
  limiter : s.limiter.exceeded = true ↔ GrowthRefused s.log

theorem Sandbox.Honest.new (opts : Budgets) (limits : StoreLimits) :
    (Sandbox.new opts limits).Honest opts := by
  refine ⟨⟨rfl, Nat.zero_le _, ?_, fun _ => rfl⟩, ⟨rfl, Nat.zero_le _, ?_, fun _ => rfl⟩, ?_⟩ <;>
    simp [Sandbox.new, Output.new, OutputOverrun, DiagnosticOverrun, GrowthRefused]

/-- One write. -/
theorem Output.Keeps.append {o : Output} {capacity : ℕ} {all : Bytes} {overrun overrun' : Prop}
    (h : o.Keeps capacity all overrun) (bytes : Bytes)
    (hiff : overrun' ↔ overrun ∨ (o.append bytes).2 = false) :
    (o.append bytes).1.Keeps capacity (all ++ bytes) overrun' := by
  have hcapacity := h.capacity_eq
  have hlength := h.length_le
  by_cases hroom : bytes.length ≤ o.capacity - o.bytes.length
  · -- it fits
    have hcount : min (o.capacity - o.bytes.length) bytes.length = bytes.length := by omega
    have happend : o.append bytes = ({ o with bytes := o.bytes ++ bytes }, true) := by
      simp only [Output.append, hcount, Nat.lt_irrefl, if_false, List.take_length]
    rw [happend] at hiff ⊢
    refine ⟨hcapacity, by simp; omega, ?_, fun hexceeded => ?_⟩
    · rw [hiff, h.exceeded_iff]
      simp
    · simp only [h.bytes_eq hexceeded]
  · -- it does not, and what fits of it is kept
    have hcount : min (o.capacity - o.bytes.length) bytes.length < bytes.length := by omega
    have hfalse : (o.append bytes).2 = false := by simp only [Output.append, hcount, if_true]
    have hexceeded : (o.append bytes).1.exceeded = true := by
      simp only [Output.append, hcount, if_true]
    refine ⟨?_, ?_, ?_, fun hnot => ?_⟩
    · rw [← hcapacity]
      simp only [Output.append, hcount, if_true]
    · simp only [Output.append, hcount, if_true, List.length_append, List.length_take]
      omega
    · rw [hiff, hexceeded, hfalse]
      simp
    · rw [hexceeded] at hnot
      cases hnot

/-- A stream that a host call does not touch. -/
theorem Output.Keeps.congr {o : Output} {capacity : ℕ} {all all' : Bytes} {overrun overrun' : Prop}
    (h : o.Keeps capacity all overrun) (hall : all' = all) (hiff : overrun' ↔ overrun) :
    o.Keeps capacity all' overrun' :=
  ⟨h.capacity_eq, h.length_le, h.exceeded_iff.trans hiff.symm, fun he => hall ▸ h.bytes_eq he⟩

theorem Limiter.memoryGrowing_exceeded (l : Limiter) (current desired : ℕ) (maximum : Option ℕ) :
    (l.memoryGrowing current desired maximum).1.exceeded =
      (l.exceeded || (l.memoryGrowing current desired maximum).2 != .granted) := by
  unfold Limiter.memoryGrowing
  by_cases hroom : l.maxMemory - l.memoryBytes < desired - current
  · simp only [hroom, if_true]
    simp
  · simp only [hroom, if_false]

/-- One host call. -/
theorem Sandbox.Honest.perform {opts : Budgets} {s : Sandbox} (h : s.Honest opts)
    (action : Action) : (s.perform action).Honest opts := by
  cases action with
  | stdout bytes =>
    refine ⟨?_, ?_, ?_⟩
    · have hiff : OutputOverrun (s.log ++ [.stdout bytes (s.stdout.append bytes).2]) ↔
          OutputOverrun s.log ∨ (s.stdout.append bytes).2 = false := by
        simp [OutputOverrun, exists_or]
      have hkeeps := h.stdout.append bytes hiff
      simpa [Sandbox.perform, written] using hkeeps
    · refine h.stderr.congr (by simp [Sandbox.perform, diagnostics]) ?_
      simp [Sandbox.perform, DiagnosticOverrun]
    · rw [show (s.perform (.stdout bytes)).limiter = s.limiter from rfl, h.limiter]
      simp [Sandbox.perform, GrowthRefused]
  | stderr bytes =>
    refine ⟨?_, ?_, ?_⟩
    · refine h.stdout.congr (by simp [Sandbox.perform, written]) ?_
      simp [Sandbox.perform, OutputOverrun]
    · have hiff : DiagnosticOverrun (s.log ++ [.stderr bytes (s.stderr.append bytes).2]) ↔
          DiagnosticOverrun s.log ∨ (s.stderr.append bytes).2 = false := by
        simp [DiagnosticOverrun, exists_or]
      have hkeeps := h.stderr.append bytes hiff
      simpa [Sandbox.perform, diagnostics] using hkeeps
    · rw [show (s.perform (.stderr bytes)).limiter = s.limiter from rfl, h.limiter]
      simp [Sandbox.perform, GrowthRefused]
  | memory current desired maximum =>
    refine ⟨?_, ?_, ?_⟩
    · refine h.stdout.congr (by simp [Sandbox.perform, written]) ?_
      simp [Sandbox.perform, OutputOverrun]
    · refine h.stderr.congr (by simp [Sandbox.perform, diagnostics]) ?_
      simp [Sandbox.perform, DiagnosticOverrun]
    · have hflag := h.limiter
      simp [Sandbox.perform, GrowthRefused, Limiter.memoryGrowing_exceeded] at hflag ⊢
      rw [hflag, eq_comm]
  | table current desired maximum =>
    refine ⟨?_, ?_, ?_⟩
    · refine h.stdout.congr (by simp [Sandbox.perform, written]) ?_
      simp [Sandbox.perform, OutputOverrun]
    · refine h.stderr.congr (by simp [Sandbox.perform, diagnostics]) ?_
      simp [Sandbox.perform, DiagnosticOverrun]
    · have hflag := h.limiter
      simp [Sandbox.perform, GrowthRefused, Limiter.tableGrowing] at hflag ⊢
      rw [hflag, eq_comm]

end Javex.Native
