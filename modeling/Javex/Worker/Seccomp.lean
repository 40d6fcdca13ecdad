import Javex.Bpf.Classic

/-!
# The system-call filter

`restrict_syscalls` of `native/javex_nif/src/isolation.rs`: the classic-BPF program the worker
installs before it reads any Wasm or JavaScript, and the policy it stands for. The filter is
built from a list of system calls that are allowed whatever their arguments, to which it adds
`tgkill` on the process itself and five commands of `fcntl`.

The policy is a predicate of the system call and its arguments (`Permitted`): the call has to be
listed, or to be one of the two that are let through for some arguments only. What is not permitted
fails with `EPERM`, and a call of another architecture ends the process. That the program computes
this is a run of the classic machine, in which the list is a block of guards (`exec_guards`), and so
are the commands of `fcntl`.

Arguments are 64 bits wide and the machine loads 32 at a time. The filter loads the low words only,
as the kernel takes a process id and a command to be 32 bits wide, and the policy says so too.
-/

namespace Javex.Worker

open Bpf

/-! ### System calls -/

/-- `struct seccomp_data`. -/
structure SeccompData where
  nr : UInt32
  arch : UInt32
  instructionPointer : UInt64
  args : Fin 6 → UInt64

/-- The low and the high word of a field of 64 bits, in the order a little-endian machine keeps
them. -/
def littleEndian (x : UInt64) : List UInt32 := [x.toUInt32, (x >>> 32).toUInt32]

namespace SeccompData

variable (data : SeccompData)

/-- The words of the structure. -/
def words : List UInt32 :=
  [data.nr, data.arch] ++ littleEndian data.instructionPointer ++
    (List.finRange 6).flatMap fun i => littleEndian (data.args i)

/-- The word at a byte offset; the kernel takes no other loads than aligned ones inside. -/
def word (offset : UInt32) : Option UInt32 :=
  if offset % 4 = 0 then data.words[offset.toNat / 4]? else none

end SeccompData

/-- The two architectures the worker is built for. -/
inductive Abi
  | x86_64 | aarch64
  deriving DecidableEq, Repr

namespace Abi

/-- `ARCH`. -/
def arch : Abi → UInt32
  | x86_64 => 0xc000003e
  | aarch64 => 0xc00000b7

/-- `libc::SYS_tgkill`. -/
def tgkill : Abi → UInt32
  | x86_64 => 234
  | aarch64 => 131

/-- `libc::SYS_fcntl`. -/
def fcntl : Abi → UInt32
  | x86_64 => 72
  | aarch64 => 25

/-- `allowed`, from `read` to `pipe2`. -/
def allowed : Abi → List UInt32
  | x86_64 => [0, 1, 19, 20, 3, 5, 8, 9, 10, 11, 25, 12, 28, 202, 228, 230, 35, 318, 24, 204, 13,
      14, 15, 131, 39, 186, 97, 60, 231, 324, 291, 233, 281, 232, 290, 293]
  | aarch64 => [63, 64, 65, 66, 57, 80, 62, 222, 226, 215, 216, 214, 233, 98, 113, 115, 101, 278,
      124, 123, 134, 135, 139, 132, 172, 178, 163, 93, 94, 283, 20, 21, 22, 19, 59]

end Abi

/-- `F_GETFD`, `F_SETFD`, `F_GETFL`, `F_SETFL` and `F_DUPFD_CLOEXEC`. -/
def commands : List UInt32 := [1, 2, 3, 4, 1030]

/-! ### The filter -/

/-- `libc::SECCOMP_RET_KILL_PROCESS`. -/
def killProcess : UInt32 := 0x80000000

/-- `libc::SECCOMP_RET_ALLOW`. -/
def allow : UInt32 := 0x7fff0000

/-- `DENY`, which is `libc::SECCOMP_RET_ERRNO | libc::EPERM`. -/
def deny : UInt32 := 0x00050000 ||| 1

/-- `LOAD`. -/
def LOAD : UInt16 := LD ||| W ||| ABS

/-- `EQUAL`. -/
def EQUAL : UInt16 := JMP ||| JEQ ||| K

/-- `RETURN`. -/
def RETURN : UInt16 := RET ||| K

/-- `instruction`. -/
def instruction (code : UInt16) (jt jf : UInt8) (k : UInt32) : Instruction := { code, jt, jf, k }

/-- The program `restrict_syscalls` builds, with the list of system calls and the process id it
is built from. -/
def restrictSyscalls (abi : Abi) (allowed : List UInt32) (pid : UInt32) : List Instruction :=
  [instruction LOAD 0 0 4, -- seccomp_data.arch
    instruction EQUAL 1 0 abi.arch,
    instruction RETURN 0 0 killProcess,
    instruction LOAD 0 0 0] ++ -- seccomp_data.nr
  (allowed.flatMap fun syscall =>
    [instruction EQUAL 0 1 syscall, instruction RETURN 0 0 allow]) ++
  [instruction EQUAL 0 4 abi.tgkill,
    instruction LOAD 0 0 16, -- seccomp_data.args[0], low word
    instruction EQUAL 1 0 pid,
    instruction RETURN 0 0 deny,
    instruction RETURN 0 0 allow] ++
  [instruction EQUAL 1 0 abi.fcntl,
    instruction RETURN 0 0 deny,
    instruction LOAD 0 0 24] ++ -- seccomp_data.args[1], low word
  (commands.flatMap fun command =>
    [instruction EQUAL 0 1 command, instruction RETURN 0 0 allow]) ++
  [instruction RETURN 0 0 deny]

/-! ### The policy -/

/-- What the filter lets through: the listed system calls, signals to the process itself, and the
commands of `fcntl` that reach no further than a descriptor. -/
def Permitted (abi : Abi) (allowed : List UInt32) (pid : UInt32) (data : SeccompData) : Prop :=
  data.nr ∈ allowed ∨
    (data.nr = abi.tgkill ∧ (data.args 0).toUInt32 = pid) ∨
    (data.nr = abi.fcntl ∧ (data.args 1).toUInt32 ∈ commands)

instance (abi : Abi) (allowed : List UInt32) (pid : UInt32) (data : SeccompData) :
    Decidable (Permitted abi allowed pid data) :=
  inferInstanceAs (Decidable (_ ∨ _ ∨ _))

section Words

variable (data : SeccompData)

@[simp]
theorem word_arch : data.word 4 = some data.arch := rfl

@[simp]
theorem word_nr : data.word 0 = some data.nr := rfl

@[simp]
theorem word_first_argument : data.word 16 = some (data.args 0).toUInt32 := rfl

@[simp]
theorem word_second_argument : data.word 24 = some (data.args 1).toUInt32 := rfl

end Words

theorem Abi.tgkill_ne_fcntl (abi : Abi) : abi.tgkill ≠ abi.fcntl := by
  cases abi <;> decide

section Blocks

variable (abi : Abi) (allowed : List UInt32) (pid : UInt32) (data : SeccompData)

/-- The block of the list: each of its system calls is let through. -/
theorem exec_allowed (rest : List Instruction) :
    exec data.word data.nr
      ((allowed.flatMap fun syscall =>
        [instruction EQUAL 0 1 syscall, instruction RETURN 0 0 allow]) ++ rest) =
      if data.nr ∈ allowed then some allow else exec data.word data.nr rest :=
  exec_guards data.nr rest allowed allow

/-- The last block, entered with the number still in the accumulator: `fcntl` and its commands. -/
theorem exec_fcntl :
    exec data.word data.nr
      ([instruction EQUAL 1 0 abi.fcntl, instruction RETURN 0 0 deny, instruction LOAD 0 0 24] ++
        ((commands.flatMap fun command =>
          [instruction EQUAL 0 1 command, instruction RETURN 0 0 allow]) ++
        [instruction RETURN 0 0 deny])) =
      some (if data.nr = abi.fcntl ∧ (data.args 1).toUInt32 ∈ commands then allow else deny) := by
  simp only [instruction, EQUAL, RETURN, LOAD, List.cons_append, List.nil_append]
  rw [exec_equal]
  by_cases hnr : data.nr = abi.fcntl
  · -- from here the accumulator holds the command
    simp only [hnr, if_true, true_and]
    rw [show (1 : UInt8).toNat = 1 from rfl, List.drop_succ_cons, List.drop_zero, exec_load,
      word_second_argument, Option.bind_some, exec_guards, exec_ret]
    split_ifs <;> rfl
  · simp [hnr]

/-- The block before it: `tgkill` and the process it signals. -/
theorem exec_tgkill (rest : List Instruction) :
    exec data.word data.nr
      ([instruction EQUAL 0 4 abi.tgkill, instruction LOAD 0 0 16, instruction EQUAL 1 0 pid,
        instruction RETURN 0 0 deny, instruction RETURN 0 0 allow] ++ rest) =
      if data.nr = abi.tgkill then
        some (if (data.args 0).toUInt32 = pid then allow else deny)
      else exec data.word data.nr rest := by
  simp only [instruction, EQUAL, RETURN, LOAD, List.cons_append, List.nil_append]
  rw [exec_equal]
  by_cases hnr : data.nr = abi.tgkill
  · -- from here the accumulator holds the process id
    simp only [hnr, if_true]
    rw [show (0 : UInt8).toNat = 0 from rfl, List.drop_zero, exec_load, word_first_argument,
      Option.bind_some, exec_equal]
    by_cases hpid : (data.args 0).toUInt32 = pid <;> simp [hpid]
  · simp [hnr]

/-- What the program returns, as one expression. -/
theorem eval_restrictSyscalls :
    eval data.word (restrictSyscalls abi allowed pid) =
      some (if data.arch ≠ abi.arch then killProcess
        else if Permitted abi allowed pid data then allow else deny) := by
  -- the first four instructions judge the architecture and load the number
  have hentry : eval data.word (restrictSyscalls abi allowed pid) =
      if data.arch = abi.arch then
        exec data.word data.nr
          ((allowed.flatMap fun syscall =>
            [instruction EQUAL 0 1 syscall, instruction RETURN 0 0 allow]) ++
          ([instruction EQUAL 0 4 abi.tgkill, instruction LOAD 0 0 16, instruction EQUAL 1 0 pid,
            instruction RETURN 0 0 deny, instruction RETURN 0 0 allow] ++
          ([instruction EQUAL 1 0 abi.fcntl, instruction RETURN 0 0 deny,
            instruction LOAD 0 0 24] ++
          ((commands.flatMap fun command =>
            [instruction EQUAL 0 1 command, instruction RETURN 0 0 allow]) ++
          [instruction RETURN 0 0 deny]))))
      else some killProcess := by
    rw [eval_eq_exec, restrictSyscalls]
    simp only [List.append_assoc]
    rw [List.cons_append, instruction, LOAD, exec_load, word_arch, Option.bind_some,
      List.cons_append, instruction, EQUAL, exec_equal]
    by_cases harch : data.arch = abi.arch
    · rw [if_pos harch, if_pos harch, show (1 : UInt8).toNat = 1 from rfl, List.cons_append,
        List.drop_succ_cons, List.drop_zero, List.cons_append, instruction, exec_load, word_nr,
        Option.bind_some, List.nil_append]
    · rw [if_neg harch, if_neg harch, show (0 : UInt8).toNat = 0 from rfl, List.drop_zero,
        List.cons_append, instruction, RETURN, exec_ret]
  rw [hentry]
  by_cases harch : data.arch = abi.arch
  · rw [if_pos harch, if_neg (not_not.mpr harch)]
    -- the number stays in the accumulator until one of the three blocks has it
    rw [exec_allowed, exec_tgkill, exec_fcntl]
    have hne := abi.tgkill_ne_fcntl
    by_cases hlist : data.nr ∈ allowed
    · simp [Permitted, hlist]
    · by_cases htgkill : data.nr = abi.tgkill
      · have hlist' : abi.tgkill ∉ allowed := htgkill ▸ hlist
        simp [Permitted, hlist', htgkill, hne]
      · simp [Permitted, hlist, htgkill]
  · rw [if_neg harch, if_pos harch]

end Blocks

/-- **The filter implements its policy.** -/
theorem restrictSyscalls_policy (abi : Abi) (allowed : List UInt32) (pid : UInt32)
    (data : SeccompData) :
    ∃ verdict, eval data.word (restrictSyscalls abi allowed pid) = some verdict ∧
      (verdict = killProcess ↔ data.arch ≠ abi.arch) ∧
      (data.arch = abi.arch →
        (verdict = allow ↔
          data.nr ∈ allowed ∨
            (data.nr = abi.tgkill ∧ (data.args 0).toUInt32 = pid) ∨
            (data.nr = abi.fcntl ∧ (data.args 1).toUInt32 ∈ commands)) ∧
        (verdict = allow ∨ verdict = deny)) := by
  refine ⟨_, eval_restrictSyscalls abi allowed pid data, ?_, fun harch => ⟨?_, ?_⟩⟩
  · by_cases harch : data.arch = abi.arch
    · by_cases hp : Permitted abi allowed pid data <;> simp [harch, hp] <;> decide
    · simp [harch]
  · change _ ↔ Permitted abi allowed pid data
    by_cases hp : Permitted abi allowed pid data <;> simp [harch, hp]
    decide
  · by_cases hp : Permitted abi allowed pid data <;> simp [harch, hp]

/-! ### The filter that is installed -/

/-- No list of the worker names the two system calls that are allowed by their arguments. -/
theorem Abi.allowed_avoids (abi : Abi) : abi.tgkill ∉ abi.allowed ∧ abi.fcntl ∉ abi.allowed := by
  cases abi <;> decide

/-- With the worker's own list a signal goes to the process itself or nowhere. -/
theorem restrictSyscalls_tgkill (abi : Abi) (pid : UInt32) (data : SeccompData)
    (harch : data.arch = abi.arch) (hnr : data.nr = abi.tgkill) :
    eval data.word (restrictSyscalls abi abi.allowed pid) =
      some (if (data.args 0).toUInt32 = pid then allow else deny) := by
  rw [eval_restrictSyscalls, if_neg (not_not.mpr harch)]
  simp [Permitted, hnr, abi.allowed_avoids.1, abi.tgkill_ne_fcntl]

/-- With the worker's own list `fcntl` runs the five commands and no other. -/
theorem restrictSyscalls_fcntl (abi : Abi) (pid : UInt32) (data : SeccompData)
    (harch : data.arch = abi.arch) (hnr : data.nr = abi.fcntl) :
    eval data.word (restrictSyscalls abi abi.allowed pid) =
      some (if (data.args 1).toUInt32 ∈ commands then allow else deny) := by
  rw [eval_restrictSyscalls, if_neg (not_not.mpr harch)]
  simp [Permitted, hnr, abi.allowed_avoids.2, abi.tgkill_ne_fcntl.symm]

end Javex.Worker
