import Mathlib.Data.List.Basic
import Mathlib.Tactic.SplitIfs

/-!
# Classic BPF

The part of the classic BPF machine that packet and system-call filters are written in: absolute
word loads, conditional and unconditional forward jumps on the accumulator, and returns. An
instruction is the kernel's `struct sock_filter`, and `run` is the machine with its program
counter, for as many steps as it is given.

A jump is an offset from the next instruction and never negative, so what an instruction can
still reach is a suffix of the program. `exec` computes on that suffix and needs no counter;
`run_eq_exec` says that it is what the machine computes, and the rules for single instructions
and for a block of guards are stated for it.

What is left out of the machine (arithmetic, the scratch memory, the index register, loads that are
not absolute words) does not occur in the programs that are run, and an instruction of that kind has
no operation here, so a program that used one would have no result. A load reads the data at its
offset through a function, since a filter gets its data from the kernel and never writes it.

The rules are stated for suffixes that are given as cons cells, so that a generated program, however
long its list of guards, is run by induction on the list: `exec_guards` is one guard and then the
rest, the jump of a guard that matches being over exactly those that are left.
-/

namespace Bpf

/-- `struct sock_filter`. -/
structure Instruction where
  code : UInt16
  jt : UInt8
  jf : UInt8
  k : UInt32
  deriving DecidableEq, Repr

/-! ### Opcodes -/

/-- Instruction class: load into the accumulator. -/
def LD : UInt16 := 0x00

/-- Instruction class: jump. -/
def JMP : UInt16 := 0x05

/-- Instruction class: return. -/
def RET : UInt16 := 0x06

/-- Size of a load: a 32-bit word. -/
def W : UInt16 := 0x00

/-- Mode of a load: at the absolute offset `k`. -/
def ABS : UInt16 := 0x20

/-- Jump always. -/
def JA : UInt16 := 0x00

/-- Jump if the accumulator is `k`. -/
def JEQ : UInt16 := 0x10

/-- Jump if the accumulator is above `k`. -/
def JGT : UInt16 := 0x20

/-- Jump if the accumulator is `k` or above. -/
def JGE : UInt16 := 0x30

/-- Jump if the accumulator has a bit of `k`. -/
def JSET : UInt16 := 0x40

/-- Source of an operand or a return value: the constant `k`. -/
def K : UInt16 := 0x00

/-- What an instruction does. Jump offsets are relative to the next instruction. -/
inductive Operation
  | load (offset : UInt32)
  | branch (test : UInt32 → Bool) (jt jf : ℕ)
  | ret (value : UInt32)

/-- The operation of an instruction, if it is one of those modelled here. -/
def Instruction.operation (i : Instruction) : Option Operation :=
  if i.code = LD ||| W ||| ABS then some (.load i.k)
  else if i.code = RET ||| K then some (.ret i.k)
  else if i.code = JMP ||| JEQ ||| K then
    some (.branch (fun a => a == i.k) i.jt.toNat i.jf.toNat)
  else if i.code = JMP ||| JGT ||| K then
    some (.branch (fun a => decide (i.k < a)) i.jt.toNat i.jf.toNat)
  else if i.code = JMP ||| JGE ||| K then
    some (.branch (fun a => decide (i.k ≤ a)) i.jt.toNat i.jf.toNat)
  else if i.code = JMP ||| JSET ||| K then
    some (.branch (fun a => a &&& i.k != 0) i.jt.toNat i.jf.toNat)
  else if i.code = JMP ||| JA then some (.branch (fun _ => true) i.k.toNat i.k.toNat)
  else none

/-! ### The machine -/

/-- The program counter and the accumulator. -/
structure State where
  pc : ℕ
  acc : UInt32
  deriving DecidableEq, Repr

/-- The state a program is entered in. -/
def State.start : State := { pc := 0, acc := 0 }

/-- What a step leads to. -/
inductive Next
  | state (s : State)
  | value (v : UInt32)

variable (load : UInt32 → Option UInt32) (program : List Instruction)

/-- One instruction, on the data whose words `load` reads. There is no next step once the counter
has left the program, at an instruction that is not modelled, or at a load outside the data. -/
def step (s : State) : Option Next := do
  let i ← program[s.pc]?
  match ← i.operation with
  | .load offset => return .state { pc := s.pc + 1, acc := ← load offset }
  | .branch test jt jf =>
    return .state { pc := s.pc + 1 + (if test s.acc then jt else jf), acc := s.acc }
  | .ret value => return .value value

/-- The value the machine returns within so many steps. -/
def run : ℕ → State → Option UInt32
  | 0, _ => none
  | fuel + 1, s =>
    match step load program s with
    | none => none
    | some (.value v) => some v
    | some (.state t) => run fuel t

/-- The value a program returns. It can take no more steps than it has instructions. -/
def eval : Option UInt32 := run load program program.length .start

/-! ### Running a suffix -/

/-- The value returned from the instructions still ahead. -/
def exec (acc : UInt32) : List Instruction → Option UInt32
  | [] => none
  | i :: rest =>
    match i.operation with
    | none => none
    | some (.load offset) => (load offset).bind fun word => exec word rest
    | some (.branch test jt jf) => exec acc (rest.drop (if test acc then jt else jf))
    | some (.ret value) => some value
  termination_by is => is.length
  decreasing_by all_goals simp_wf; try omega

variable {load program}

/-- The machine computes what the suffix at its counter computes, as long as it may take a step
for each instruction of it. -/
theorem run_eq_exec {fuel : ℕ} {s : State} (hfuel : program.length ≤ s.pc + fuel) :
    run load program fuel s = exec load s.acc (program.drop s.pc) := by
  induction fuel generalizing s with
  | zero =>
    rw [List.drop_eq_nil_of_le (by omega), exec, run]
  | succ fuel ih =>
    by_cases hpc : s.pc < program.length
    · rw [run, step, List.getElem?_eq_getElem hpc, List.drop_eq_getElem_cons hpc, exec]
      cases hop : program[s.pc].operation with
      | none => simp [hop]
      | some op =>
        -- what is ahead after the step starts at the new counter
        cases op with
        | load offset =>
          cases hload : load offset with
          | none => simp [hop, hload]
          | some word => simpa [hop, hload] using ih (by simp; omega)
        | branch test jt jf =>
          simp only [Option.bind_eq_bind, Option.bind_some, hop, Option.pure_def]
          rw [ih (by simp only; omega), List.drop_drop]
        | ret value => simp [hop]
    · rw [List.drop_eq_nil_of_le (by omega), exec, run, step,
        List.getElem?_eq_none (by omega)]
      rfl

/-- A program returns what its instructions do from the start. -/
theorem eval_eq_exec : eval load program = exec load 0 program := by
  rw [eval, run_eq_exec (by simp [State.start])]
  rfl

/-! ### Rules -/

section Rules

variable (a k : UInt32) (jt jf : UInt8) (rest : List Instruction)

@[simp]
theorem exec_load :
    exec load a (⟨LD ||| W ||| ABS, jt, jf, k⟩ :: rest) =
      (load k).bind fun word => exec load word rest := by
  rw [exec]
  rfl

@[simp]
theorem exec_ret : exec load a (⟨RET ||| K, jt, jf, k⟩ :: rest) = some k := by
  rw [exec]
  rfl

/-- A comparison skips as many instructions as its outcome says. -/
theorem exec_equal :
    exec load a (⟨JMP ||| JEQ ||| K, jt, jf, k⟩ :: rest) =
      exec load a (rest.drop (if a = k then jt.toNat else jf.toNat)) := by
  have hop : Instruction.operation ⟨JMP ||| JEQ ||| K, jt, jf, k⟩ =
      some (.branch (fun a => a == k) jt.toNat jf.toNat) := rfl
  rw [exec, hop]
  simp only [beq_iff_eq]

/-- **Guards.** A block that compares the accumulator with one key after another returns its value
at a key it finds, and falls through with the accumulator unchanged otherwise. -/
theorem exec_guards (keys : List UInt32) (value : UInt32) :
    exec load a (keys.flatMap (fun key =>
        [⟨JMP ||| JEQ ||| K, 0, 1, key⟩, ⟨RET ||| K, 0, 0, value⟩]) ++ rest) =
      if a ∈ keys then some value else exec load a rest := by
  induction keys with
  | nil => simp
  | cons key keys ih =>
    rw [List.flatMap_cons, List.append_assoc, List.cons_append, exec_equal]
    by_cases hkey : a = key
    · simp [hkey]
    · simp [hkey, ih]

end Rules

end Bpf
