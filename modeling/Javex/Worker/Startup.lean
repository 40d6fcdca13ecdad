import Javex.Options.Accepted
import Javex.Transition.System
import Javex.Worker.Request
import Javex.Worker.Seccomp

/-!
# The start of a worker

`main` and the first half of `child` of `native/javex_nif/src/worker.rs`, with `prepare` and the
end of `restrict_syscalls` of `native/javex_nif/src/isolation.rs`: the arguments, and the calls a
child makes to confine itself before it reads any byte of a request.

The kernel may refuse any of these calls, threads of the engine and of the asynchronous runtime
come to life between them, and once the request has been read the code of the guest may try any
system call in any thread. `childSystem` has all of these as steps. Of the kernel it is only
assumed that the calls on the worker's list undo none of what the process has asked for
(`Kernel.permitted`); what any other call would do is left open.

Being confined is a property of the process and of each of its threads: the limits of resources, the
signal at the parent's death, the flag that nothing is dumped and the descriptors belong to the
process, and `no_new_privs` and the filters to the thread that asked for them and to those that it
starts later. A thread that was there before the filter is not under it unless the filter is
installed for all threads at once, which is what the last call does; the invariant therefore follows
every thread from its birth.

The result of a refused call ends the child with an error before it reads anything, so that in a
child which has read a byte of the request every call of the list has succeeded. What a guest can do
from then on is whatever the filter lets through, and none of that takes back what is in force.
-/

namespace Javex.Worker

open Bpf Codec Codec.Json Isolated Transition

/-! ### The arguments -/

/-- A leading plus sign is skipped. -/
def dropPlus : Bytes → Bytes
  | [] => []
  | c :: rest => if c = 0x2b then rest else c :: rest

/-- `str::parse` for an unsigned integer of so many bits. -/
def parseUnsigned (bits : ℕ) (text : Bytes) : Option ℕ :=
  let digits := dropPlus text
  if digits ≠ [] ∧ digits.all isDigit then
    let value := Nat.ofDigitChars 10 (digits.map fun c => Char.ofNat c.toNat) 0
    if value < 2 ^ bits then some value else none
  else none

/-- What a worker is started for. -/
inductive Invocation
  | supervise (memory timeout maximum : ℕ)
  | child (parent : UInt32) (memory timeout maximum : ℕ)
  deriving DecidableEq, Repr

/-- `main`, up to the call of `child` or `supervise`. The first argument is the program. -/
def main (args : List Bytes) : Option Invocation := do
  let childMode := args[1]? == some (utf8 "--child")
  let offset := if childMode then 3 else 2
  let memory ← args[offset]?.bind (parseUnsigned 64)
  let timeout ← args[offset + 1]?.bind (parseUnsigned 64)
  let maximum ← args[offset + 2]?.bind (parseUnsigned 64)
  if 0 < memory ∧ memory ≤ 2 ^ 63 - 1 ∧ 0 < timeout ∧ timeout ≤ 2 ^ 31 - 1 then
    if maximum ≤ maxRequest then
      if childMode then
        let parent ← args[2]?.bind (parseUnsigned 32)
        return .child (.ofNat parent) memory timeout maximum
      else if args[1]? = some (utf8 "--supervise") then return .supervise memory timeout maximum
      else none
    else none
  else none

/-- The `args` of `call/7` of `lib/javex/isolated.ex`. -/
def superviseArgs (memory timeout maximum : ℕ) : List Bytes :=
  [utf8 "--supervise", natText memory, natText timeout, natText maximum]

/-- The `args` of `supervise`, with its own process id. -/
def childArgs (pid : UInt32) (memory timeout maximum : ℕ) : List Bytes :=
  [utf8 "--child", natText pid.toNat, natText memory, natText timeout,
    natText maximum]

/-- The budgets `main` takes. -/
structure ValidBudget (memory timeout maximum : ℕ) : Prop where
  memory_pos : 0 < memory
  memory_le : memory ≤ 2 ^ 63 - 1
  timeout_pos : 0 < timeout
  timeout_le : timeout ≤ 2 ^ 31 - 1
  maximum_le : maximum ≤ maxRequest

/-- A digit is no sign. -/
theorem dropPlus_of_digits {text : Bytes} (h : text.all isDigit = true) : dropPlus text = text := by
  cases text with
  | nil => rfl
  | cons c rest =>
    rw [dropPlus, if_neg]
    rintro rfl
    simp [isDigit] at h

/-- A number that fits is read as it was written. -/
theorem parseUnsigned_natText {bits n : ℕ} (h : n < 2 ^ bits) :
    parseUnsigned bits (natText n) = some n := by
  have hdigits := all_isDigit_natText n
  have hliteral := natLiteral_natText n
  unfold natLiteral? at hliteral
  split_ifs at hliteral with hcond
  simp only [Option.some.injEq] at hliteral
  have hsign : dropPlus (natText n) = natText n := dropPlus_of_digits hdigits
  have hne : natText n ≠ [] := by simp [natText, Nat.toDigits_ne_nil]
  simp only [parseUnsigned, hsign]
  rw [if_pos ⟨hne, hdigits⟩, hliteral, if_pos h]

section Arguments

variable {memory timeout maximum : ℕ} (h : ValidBudget memory timeout maximum)
include h

/-- `main` reads back the arguments of a port. -/
theorem main_superviseArgs (program : Bytes) :
    main (program :: superviseArgs memory timeout maximum) =
      some (.supervise memory timeout maximum) := by
  obtain ⟨hm, hmle, ht, htle, hmax⟩ := h
  have hmode : utf8 "--supervise" ≠ utf8 "--child" := by decide
  have hmemory := parseUnsigned_natText (by omega : memory < 2 ^ 64)
  have htimeout := parseUnsigned_natText (by omega : timeout < 2 ^ 64)
  have hmaximum := parseUnsigned_natText
    (by unfold maxRequest at hmax; omega : maximum < 2 ^ 64)
  simp only [main, superviseArgs, List.getElem?_cons_succ, List.getElem?_cons_zero, beq_iff_eq,
    Option.some.injEq, hmode, if_false, Option.bind_some, Option.bind_eq_bind, hmemory, htimeout,
    hmaximum]
  rw [if_pos ⟨hm, hmle, ht, htle⟩, if_pos hmax]
  rfl

/-- `main` reads back the arguments of a supervisor. -/
theorem main_childArgs (program : Bytes) (pid : UInt32) :
    main (program :: childArgs pid memory timeout maximum) =
      some (.child pid memory timeout maximum) := by
  obtain ⟨hm, hmle, ht, htle, hmax⟩ := h
  have hmemory := parseUnsigned_natText (by omega : memory < 2 ^ 64)
  have htimeout := parseUnsigned_natText (by omega : timeout < 2 ^ 64)
  have hmaximum := parseUnsigned_natText
    (by unfold maxRequest at hmax; omega : maximum < 2 ^ 64)
  have hpid := parseUnsigned_natText pid.toNat_lt
  simp only [main, childArgs, List.getElem?_cons_succ, List.getElem?_cons_zero, beq_self_eq_true,
    if_true, Option.bind_some, Option.bind_eq_bind, hmemory, htimeout, hmaximum, hpid]
  rw [if_pos ⟨hm, hmle, ht, htle⟩, if_pos hmax, UInt32.ofNat_toNat]
  rfl

end Arguments

/-! ### The process -/

/-- The resources `prepare` limits. -/
inductive Resource
  | addressSpace | cpu | descriptors | core | fileSize
  deriving DecidableEq, Repr

/-- `struct rlimit`. -/
structure Rlimit where
  cur : ℕ
  max : ℕ
  deriving DecidableEq, Repr

/-- What the kernel keeps for each thread. -/
structure Thread where
  noNewPrivs : Bool
  filters : List (List Instruction)
  deriving DecidableEq

/-- What the kernel keeps for a process. `inherited` are the descriptors it got from its parent
and still has; `others` are the threads besides the one that runs `child`. -/
structure Process where
  pid : UInt32
  deathSignal : Option ℕ
  dumpable : Bool
  inherited : List UInt32
  limits : Resource → Rlimit
  thread : Thread
  others : List Thread

namespace Process

/-- All threads. -/
def threads (p : Process) : List Thread := p.thread :: p.others

/-- `q` has the attributes of `p`: it may have more threads or fewer, each with the attributes
of one there was, and may have closed descriptors. -/
structure Inherits (p q : Process) : Prop where
  pid : q.pid = p.pid
  deathSignal : q.deathSignal = p.deathSignal
  dumpable : q.dumpable = p.dumpable
  inherited : q.inherited ⊆ p.inherited
  limits : q.limits = p.limits
  thread : q.thread = p.thread
  others : q.others ⊆ p.threads

theorem Inherits.refl (p : Process) : Inherits p p where
  pid := rfl
  deathSignal := rfl
  dumpable := rfl
  inherited := List.Subset.refl _
  limits := rfl
  thread := rfl
  others := List.subset_cons_self _ _

theorem Inherits.threads {p q : Process} (h : Inherits p q) : q.threads ⊆ p.threads :=
  List.cons_subset.mpr ⟨h.thread ▸ List.mem_cons_self, h.others⟩

end Process

/-- The return values that stop a call: kill the process, kill the thread, trap and errno. -/
def refusals : List UInt32 := [0x80000000, 0, 0x00030000, 0x00050000]

/-- A filter refuses a call it returns one of these for, whatever the data of the value. -/
def Refuses (filter : List Instruction) (data : SeccompData) : Prop :=
  ∀ verdict, eval data.word filter = some verdict → verdict &&& 0xffff0000 ∈ refusals

/-- The kernel runs a call of a thread only if none of its filters refuses it. -/
def Thread.Attempts (t : Thread) (data : SeccompData) : Prop :=
  ∀ filter ∈ t.filters, ¬ Refuses filter data

/-- **What gets past the filter.** A thread under the worker's filter calls the kernel by its own
ABI and only for what the policy permits. -/
theorem Thread.permitted_of_attempts {t : Thread} {abi : Abi} {allowed : List UInt32}
    {pid : UInt32} {data : SeccompData} (hfilter : restrictSyscalls abi allowed pid ∈ t.filters)
    (h : t.Attempts data) : data.arch = abi.arch ∧ Permitted abi allowed pid data := by
  have hverdict := eval_restrictSyscalls abi allowed pid data
  by_contra hnot
  refine h _ hfilter fun verdict hv => ?_
  rw [hverdict, Option.some.injEq] at hv
  subst hv
  by_cases harch : data.arch = abi.arch
  · rw [if_neg (not_not.mpr harch), if_neg fun hp => hnot ⟨harch, hp⟩]
    decide
  · rw [if_pos harch]
    decide

/-! ### The calls of a child -/

/-- What `child` asks of the kernel before it reads its request, in the words of the calls.
`spawn` is the start of a thread: the clock of `initialize_engine` and the worker of the
asynchronous runtime. -/
inductive Action
  | setDeathSignal (signal : ℕ)
  | getppid (parent : UInt32)
  | setDumpable (on : Bool)
  | setNoNewPrivs
  | closeRange (first last : UInt32)
  | setrlimit (resource : Resource) (limit : Rlimit)
  | spawn
  | seccomp (program : List Instruction)

namespace Action

/-- Whether the worker goes on after such a result. -/
def succeeds : Action → ℤ → Bool
  | getppid parent, result => result == parent.toInt32.toInt
  | _, result => result == 0

/-- What a call that succeeds leaves. `SECCOMP_FILTER_FLAG_TSYNC` gives every thread the filters
of the caller, and `no_new_privs` if the caller has it. -/
def perform (p : Process) : Action → Process
  | setDeathSignal signal => { p with deathSignal := some signal }
  | getppid _ => p
  | setDumpable on => { p with dumpable := on }
  | setNoNewPrivs => { p with thread := { p.thread with noNewPrivs := true } }
  | closeRange first last =>
    { p with inherited := p.inherited.filter fun fd => !(first ≤ fd && fd ≤ last) }
  | setrlimit resource limit =>
    { p with limits := fun other => if other = resource then limit else p.limits other }
  | spawn => { p with others := p.thread :: p.others }
  | seccomp program =>
    { p with
      thread := { p.thread with filters := program :: p.thread.filters }
      others := p.others.map fun t =>
        ⟨t.noNewPrivs || p.thread.noNewPrivs, program :: p.thread.filters⟩ }

end Action

/-- `limit`. -/
def limit (resource : Resource) (value : ℕ) : Action := .setrlimit resource ⟨value, value⟩

/-- The limit on processor time: `timeout_ms.div_ceil(1000) + 1`. -/
def cpuSeconds (timeout : ℕ) : ℕ := (timeout + 999) / 1000 + 1

/-- `prepare`. -/
def prepare (parent : UInt32) (memory timeout : ℕ) : List Action :=
  [.setDeathSignal 9, .getppid parent, .setDumpable false, .setNoNewPrivs,
    .closeRange 3 0xffffffff, limit .addressSpace memory, limit .cpu (cpuSeconds timeout),
    limit .descriptors 64, limit .core 0, limit .fileSize memory]

/-- `child`, up to the first read: `prepare`, the engine, the asynchronous runtime and
`restrict_syscalls`, whose filter names the process id. -/
def startup (abi : Abi) (pid parent : UInt32) (memory timeout : ℕ) : List Action :=
  prepare parent memory timeout ++
    [.spawn, .spawn, .seccomp (restrictSyscalls abi abi.allowed pid)]

/-! ### The child -/

/-- How far a child has got: calls are left to make, or it serves its request and has read so
much of it, or it has stopped with a status. -/
inductive ChildStage
  | starting (rest : List Action)
  | serving (read : Bytes)
  | exited (status : ℕ)

/-- A child and its process. -/
structure Child where
  process : Process
  stage : ChildStage

/-- A process that has been started with such arguments; `main` fails with 127. -/
def Child.start (abi : Abi) (args : List Bytes) (p : Process) : Child where
  process := p
  stage := match main args with
    | some (.child parent memory timeout _) => .starting (startup abi p.pid parent memory timeout)
    | _ => .exited 127

/-- The kernel: what a call it has let through may make of a process. -/
structure Kernel (abi : Abi) where
  effect : SeccompData → Process → Process → Prop
  /-- The listed calls, signals to the process itself and the commands of `fcntl` on descriptors
  set no attribute of a process. -/
  permitted : ∀ {data p q}, Permitted abi abi.allowed p.pid data → effect data p q → p.Inherits q

/-- What may happen next. -/
inductive ChildLabel
  | answer (result : ℤ)
  | setup
  | serve
  | read (bytes : Bytes)
  | call (data : SeccompData)
  | stop (status : ℕ)

/-- One step of a child. Until it serves, only the code of the engine and its threads run beside
the calls of the startup; after that every thread may attempt every call. -/
inductive ChildStep {abi : Abi} (kernel : Kernel abi) : Child → ChildLabel → Child → Prop
  | answered {p a rest result} : Action.succeeds a result →
      ChildStep kernel ⟨p, .starting (a :: rest)⟩ (.answer result) ⟨a.perform p, .starting rest⟩
  | refused {p a rest result} : ¬ Action.succeeds a result →
      ChildStep kernel ⟨p, .starting (a :: rest)⟩ (.answer result) ⟨p, .exited 127⟩
  | setup {p q rest} : p.Inherits q →
      ChildStep kernel ⟨p, .starting rest⟩ .setup ⟨q, .starting rest⟩
  | serve {p} : ChildStep kernel ⟨p, .starting []⟩ .serve ⟨p, .serving []⟩
  | read {p read bytes} :
      ChildStep kernel ⟨p, .serving read⟩ (.read bytes) ⟨p, .serving (read ++ bytes)⟩
  | call {p q read data t} : t ∈ p.threads → t.Attempts data → kernel.effect data p q →
      ChildStep kernel ⟨p, .serving read⟩ (.call data) ⟨q, .serving read⟩
  | stop {p stage status} : ChildStep kernel ⟨p, stage⟩ (.stop status) ⟨p, .exited status⟩

/-- A child with the process the supervisor has spawned it in. -/
def childSystem {abi : Abi} (kernel : Kernel abi) (args : List Bytes) (p : Process) :
    System Child ChildLabel where
  init c := c = .start abi args p
  step := ChildStep kernel

/-! ### What is in force -/

/-- What a call is for, as long as nothing undoes it. -/
def InForce (p : Process) : Action → Prop
  | .setDeathSignal signal => p.deathSignal = some signal
  | .getppid _ => True
  | .setDumpable on => p.dumpable = on
  | .setNoNewPrivs => p.thread.noNewPrivs = true
  | .closeRange first last => ∀ fd ∈ p.inherited, ¬ (first ≤ fd ∧ fd ≤ last)
  | .setrlimit resource limit => p.limits resource = limit
  | .spawn => True
  | .seccomp program => ∀ t ∈ p.threads,
      program ∈ t.filters ∧ (p.thread.noNewPrivs = true → t.noNewPrivs = true)

/-- Whether a call undoes what an earlier one was for. -/
def Undoes : Action → Action → Prop
  | .setDeathSignal signal, .setDeathSignal other => signal ≠ other
  | .setDumpable on, .setDumpable other => on ≠ other
  | .setNoNewPrivs, .seccomp _ => True
  | .setrlimit resource limit, .setrlimit other limit' => resource = other ∧ limit ≠ limit'
  | _, _ => False

theorem inForce_perform (a : Action) (p : Process) : InForce (a.perform p) a := by
  cases a with
  | closeRange first last =>
    rintro fd hfd ⟨hfirst, hlast⟩
    simpa [hfirst, hlast] using (List.mem_filter.mp hfd).2
  | setrlimit resource limit => simp [InForce, Action.perform]
  | seccomp program =>
    intro t ht
    obtain rfl | ht := List.mem_cons.mp ht
    · exact ⟨List.mem_cons_self, id⟩
    · obtain ⟨u, -, rfl⟩ := List.mem_map.mp ht
      exact ⟨List.mem_cons_self, fun hcaller => by simpa using .inr hcaller⟩
  | _ => trivial

/-- A call leaves in force what it does not undo. -/
theorem InForce.perform {p : Process} {a b : Action} (h : InForce p a) (hb : ¬ Undoes b a) :
    InForce (b.perform p) a := by
  cases b with
  | getppid parent => exact h
  | setDeathSignal signal =>
    cases a with
    | setDeathSignal other => exact congrArg some (not_not.mp hb)
    | _ => exact h
  | setDumpable on =>
    cases a with
    | setDumpable other => exact not_not.mp hb
    | _ => exact h
  | setNoNewPrivs =>
    cases a with
    | setNoNewPrivs => rfl
    | seccomp program => exact absurd trivial hb
    | _ => exact h
  | closeRange first last =>
    cases a with
    | closeRange first' last' => exact fun fd hfd => h fd (List.mem_of_mem_filter hfd)
    | _ => exact h
  | setrlimit resource limit =>
    cases a with
    | setrlimit other limit' =>
      by_cases heq : other = resource
      · have hlimit : limit = limit' := by
          by_contra hne
          exact hb ⟨heq.symm, hne⟩
        simp [InForce, Action.perform, heq, hlimit]
      · simpa [InForce, Action.perform, heq] using h
    | _ => exact h
  | spawn =>
    cases a with
    | seccomp program =>
      intro t ht
      refine h t ?_
      simpa [Process.threads, Action.perform] using ht
    | _ => exact h
  | seccomp program =>
    cases a with
    | seccomp other =>
      -- every thread takes over the filters of the caller, the earlier ones included
      intro t ht
      obtain ⟨hmem, -⟩ := h p.thread List.mem_cons_self
      refine ⟨?_, (inForce_perform (.seccomp program) p t ht).2⟩
      obtain rfl | ht := List.mem_cons.mp ht
      · exact List.mem_cons_of_mem _ hmem
      · obtain ⟨u, -, rfl⟩ := List.mem_map.mp ht
        exact List.mem_cons_of_mem _ hmem
    | _ => exact h

/-- What is in force stays so while the attributes of the process are inherited. -/
theorem InForce.inherits {p q : Process} {a : Action} (h : InForce p a) (hpq : p.Inherits q) :
    InForce q a := by
  cases a with
  | setDeathSignal signal => exact hpq.deathSignal.trans h
  | setDumpable on => exact hpq.dumpable.trans h
  | setNoNewPrivs => exact (congrArg Thread.noNewPrivs hpq.thread).trans h
  | closeRange first last => exact fun fd hfd => h fd (hpq.inherited hfd)
  | setrlimit resource limit => exact (congrFun hpq.limits resource).trans h
  | seccomp program =>
    intro t ht
    rw [hpq.thread]
    exact h t (hpq.threads ht)
  | _ => trivial

/-- No call of the startup undoes an earlier one. -/
theorem startup_pairwise (abi : Abi) (pid parent : UInt32) (memory timeout : ℕ) :
    (startup abi pid parent memory timeout).Pairwise fun a b => ¬ Undoes b a := by
  simp [startup, prepare, limit, Undoes]

/-! ### Runs of a child -/

/-- What the kernel has answered. -/
def answers (ls : List ChildLabel) : List ℤ :=
  ls.filterMap fun
    | .answer result => some result
    | _ => none

/-- What is known of a child after a run, by its stage: the calls it has made all succeeded, and
what they were for is in force. -/
def Progress (calls : List Action) (pid : UInt32) (ls : List ChildLabel) (c : Child) : Prop :=
  match c.stage with
  | .starting rest => ∃ made, calls = made ++ rest ∧ c.process.pid = pid ∧
      (∀ a ∈ made, InForce c.process a) ∧ List.Forall₂ (fun a r => a.succeeds r) made (answers ls)
  | .serving _ => c.process.pid = pid ∧ (∀ a ∈ calls, InForce c.process a) ∧
      List.Forall₂ (fun a r => a.succeeds r) calls (answers ls)
  | .exited _ => True

theorem Action.perform_pid (a : Action) (p : Process) : (a.perform p).pid = p.pid := by
  cases a <;> rfl

section Progress

variable {abi : Abi} {kernel : Kernel abi} {parent : UInt32} {memory timeout : ℕ}

/-- A step keeps what is known. Once the child serves, the filter is on every thread, so that a
call which gets through is one the kernel lets change nothing. -/
theorem Progress.step {pid : UInt32} {ls : List ChildLabel} {l : ChildLabel} {c d : Child}
    (h : Progress (startup abi pid parent memory timeout) pid ls c)
    (hstep : ChildStep kernel c l d) :
    Progress (startup abi pid parent memory timeout) pid (ls ++ [l]) d := by
  have hanswers : answers (ls ++ [l]) = answers ls ++ answers [l] := List.filterMap_append
  cases hstep with
  | @answered p a rest result hok =>
    obtain ⟨made, hcalls, hpid, hforce, hmade⟩ := h
    refine ⟨made ++ [a], by rw [hcalls, List.append_cons], (a.perform_pid p).trans hpid, ?_, ?_⟩
    · intro b hb
      obtain hb | hb := List.mem_append.mp hb
      · have hpairs := startup_pairwise abi pid parent memory timeout
        rw [hcalls, List.pairwise_append] at hpairs
        exact (hforce b hb).perform (hpairs.2.2 b hb a List.mem_cons_self)
      · obtain rfl := List.mem_singleton.mp hb
        exact inForce_perform b p
    · rw [hanswers]
      exact List.rel_append hmade (.cons hok .nil)
  | refused hfail => trivial
  | setup hpq =>
    obtain ⟨made, hcalls, hpid, hforce, hmade⟩ := h
    refine ⟨made, hcalls, hpq.pid.trans hpid, fun a ha => (hforce a ha).inherits hpq, ?_⟩
    rw [hanswers]
    simpa [answers] using hmade
  | serve =>
    obtain ⟨made, hcalls, hpid, hforce, hmade⟩ := h
    rw [List.append_nil] at hcalls
    refine ⟨hpid, hcalls ▸ hforce, ?_⟩
    rw [hanswers, hcalls]
    simpa [answers] using hmade
  | read =>
    obtain ⟨hpid, hforce, hmade⟩ := h
    refine ⟨hpid, hforce, ?_⟩
    rw [hanswers]
    simpa [answers] using hmade
  | @call p q read data t ht hattempts heffect =>
    obtain ⟨hpid, hforce, hmade⟩ := h
    have hfilter := hforce (.seccomp (restrictSyscalls abi abi.allowed pid)) (by simp [startup])
    have hpermitted := (Thread.permitted_of_attempts (hfilter t ht).1 hattempts).2
    rw [← hpid] at hpermitted
    have hpq := kernel.permitted hpermitted heffect
    refine ⟨hpq.pid.trans hpid, fun a ha => (hforce a ha).inherits hpq, ?_⟩
    rw [hanswers]
    simpa [answers] using hmade
  | stop => trivial

/-- What is known after a run from the start. -/
theorem progress_of_run {args : List Bytes} {p : Process} {maximum : ℕ} {ls : List ChildLabel}
    {c : Child} (hargs : main args = some (.child parent memory timeout maximum))
    (h : (childSystem kernel args p).Run (.start abi args p) ls c) :
    Progress (startup abi p.pid parent memory timeout) p.pid ls c := by
  generalize hstart : Child.start abi args p = start at h
  induction h with
  | refl =>
    subst hstart
    simp only [Progress, Child.start, hargs]
    exact ⟨[], rfl, trivial, by simp, .nil⟩
  | snoc _ hstep ih => exact ih.step hstep

/-- A child whose calls all succeed gets to serve. -/
theorem exists_serving (calls : List Action) (p : Process) {args : List Bytes} {p₀ : Process} :
    ∃ ls c, (childSystem kernel args p₀).Run ⟨p, .starting calls⟩ ls c ∧
      c.stage = .serving [] := by
  induction calls generalizing p with
  | nil => exact ⟨_, _, System.Run.single ChildStep.serve, rfl⟩
  | cons a rest ih =>
    obtain ⟨result, hresult⟩ : ∃ result, a.succeeds result = true := by
      cases a with
      | getppid parent => exact ⟨_, beq_self_eq_true parent.toInt32.toInt⟩
      | _ => exact ⟨0, rfl⟩
    obtain ⟨ls, c, hrun, hserving⟩ := ih (a.perform p)
    exact ⟨_, c, (System.Run.single (ChildStep.answered hresult)).trans hrun, hserving⟩

end Progress

/-! ### A confined process -/

/-- System calls that would reach beyond the process or change what confines it: opening files,
sockets, signals to others, new processes and threads, programs, other processes' memory, and
limits, filters and privileges. -/
def Abi.forbidden : Abi → List UInt32
  | x86_64 => [2, 257, 41, 62, 56, 57, 58, 435, 59, 322, 101, 425, 319, 77, 310, 311, 302, 160,
      157, 317]
  | aarch64 => [56, 198, 129, 220, 435, 221, 281, 117, 425, 279, 46, 270, 271, 261, 164, 167, 277]

/-- The policy permits none of them. -/
theorem not_permitted_of_forbidden {abi : Abi} {pid : UInt32} {data : SeccompData}
    (h : data.nr ∈ abi.forbidden) : ¬ Permitted abi abi.allowed pid data := by
  have hdisjoint : abi.forbidden.all (fun nr =>
      nr ∉ abi.allowed ∧ nr ≠ abi.tgkill ∧ nr ≠ abi.fcntl) = true := by
    cases abi <;> decide
  obtain ⟨hallowed, htgkill, hfcntl⟩ := of_decide_eq_true (List.all_eq_true.mp hdisjoint _ h)
  rintro (hnr | ⟨hnr, -⟩ | ⟨hnr, -⟩)
  · exact hallowed hnr
  · exact htgkill hnr
  · exact hfcntl hnr

/-- A process that is confined for a run of such budgets. -/
structure Confined (abi : Abi) (memory timeout : ℕ) (p : Process) : Prop where
  deathSignal : p.deathSignal = some 9
  dumpable : p.dumpable = false
  inherited : ∀ fd ∈ p.inherited, fd < 3
  addressSpace : p.limits .addressSpace = ⟨memory, memory⟩
  cpu : p.limits .cpu = ⟨cpuSeconds timeout, cpuSeconds timeout⟩
  descriptors : p.limits .descriptors = ⟨64, 64⟩
  core : p.limits .core = ⟨0, 0⟩
  fileSize : p.limits .fileSize = ⟨memory, memory⟩
  noNewPrivs : ∀ t ∈ p.threads, t.noNewPrivs = true
  permitted : ∀ t ∈ p.threads, ∀ data, t.Attempts data →
    data.arch = abi.arch ∧ Permitted abi abi.allowed p.pid data
  forbidden : ∀ t ∈ p.threads, ∀ data, data.nr ∈ abi.forbidden → ¬ t.Attempts data

/-- The calls of the startup confine a process once all of them are in force. -/
theorem confined_of_inForce {abi : Abi} {parent : UInt32} {memory timeout : ℕ} {p : Process}
    (h : ∀ a ∈ startup abi p.pid parent memory timeout, InForce p a) :
    Confined abi memory timeout p := by
  have hprivs := h .setNoNewPrivs (by simp [startup, prepare])
  have hclose := h (.closeRange 3 0xffffffff) (by simp [startup, prepare])
  have hfilter := h (.seccomp (restrictSyscalls abi abi.allowed p.pid)) (by simp [startup])
  have hpermitted : ∀ t ∈ p.threads, ∀ data, t.Attempts data →
      data.arch = abi.arch ∧ Permitted abi abi.allowed p.pid data := fun t ht data hattempts =>
    Thread.permitted_of_attempts (hfilter t ht).1 hattempts
  exact {
    deathSignal := h (.setDeathSignal 9) (by simp [startup, prepare])
    dumpable := h (.setDumpable false) (by simp [startup, prepare])
    inherited := fun fd hfd => by
      have hlast : fd ≤ 0xffffffff := by
        rw [UInt32.le_iff_toNat_le]
        exact Nat.le_of_lt_succ fd.toNat_lt
      by_contra hge
      exact hclose fd hfd ⟨UInt32.not_lt.mp hge, hlast⟩
    addressSpace := h (limit .addressSpace memory) (by simp [startup, prepare])
    cpu := h (limit .cpu (cpuSeconds timeout)) (by simp [startup, prepare])
    descriptors := h (limit .descriptors 64) (by simp [startup, prepare])
    core := h (limit .core 0) (by simp [startup, prepare])
    fileSize := h (limit .fileSize memory) (by simp [startup, prepare])
    noNewPrivs := fun t ht => (hfilter t ht).2 hprivs
    permitted := hpermitted
    forbidden := fun t ht data hnr hattempts =>
      not_permitted_of_forbidden hnr (hpermitted t ht data hattempts).2 }

/-- The memory budget of an accepted runtime. -/
theorem maxProcessMemory_range {inspect : Term → String} {opts : Term} {r : RuntimeOptions}
    (h : Options.runtime inspect opts = .ok r) :
    0 < r.maxProcessMemory ∧ r.maxProcessMemory ≤ 2 ^ 63 - 1 := by
  obtain ⟨pairs, backend, -, -, -, -, hmemory, -⟩ := Options.runtime_eq_ok.mp h
  obtain ⟨⟨n, hn, hmin, hmax⟩, hvalue⟩ := Options.integer_eq_ok.mp hmemory
  rw [hn, Term.int.injEq] at hvalue
  simp only [Options.IntegerKey.maximum] at hmax
  omega

/-- The arguments `call/7` and `supervise` build are ones that `main` takes. -/
theorem validBudget_call {inspect : Term → String} {opts : Term} {r : RuntimeOptions}
    (h : Options.runtime inspect opts = .ok r) {limits : Budgets} {remaining : ℕ}
    (hpos : 0 < remaining) (hle : remaining ≤ limits.timeout) :
    ValidBudget r.maxProcessMemory remaining (responseMaximum limits) where
  memory_pos := (maxProcessMemory_range h).1
  memory_le := (maxProcessMemory_range h).2
  timeout_pos := hpos
  timeout_le := hle.trans (limits.le_maximum .timeout)
  maximum_le := min_le_right _ _

/-- **A child that serves is confined.** For a runtime with accepted options and a run within its
time, the port's arguments start a supervisor and the supervisor's arguments start a child; and in
every run of such a child, whatever the kernel answers and whatever calls its threads attempt, it
has read nothing unless every call of its startup succeeded, and from then on it is confined to
what the runtime asked for. Some run does get that far. -/
theorem serving_child_is_confined {abi : Abi} (kernel : Kernel abi) {inspect : Term → String}
    {opts : Term} {r : RuntimeOptions} (hopts : Options.runtime inspect opts = .ok r)
    (limits : Budgets) {remaining : ℕ} (hpos : 0 < remaining) (hle : remaining ≤ limits.timeout)
    (program : Bytes) (supervisor : UInt32) (p : Process) :
    main (program :: superviseArgs r.maxProcessMemory remaining (responseMaximum limits)) =
        some (.supervise r.maxProcessMemory remaining (responseMaximum limits)) ∧
      (∀ ls c, (childSystem kernel (program ::
            childArgs supervisor r.maxProcessMemory remaining (responseMaximum limits)) p).Run
          (.start abi (program ::
            childArgs supervisor r.maxProcessMemory remaining (responseMaximum limits)) p) ls c →
        ∀ read, c.stage = .serving read →
          List.Forall₂ (fun a result => a.succeeds result)
              (startup abi p.pid supervisor r.maxProcessMemory remaining) (answers ls) ∧
            c.process.pid = p.pid ∧ Confined abi r.maxProcessMemory remaining c.process) ∧
      ∃ ls c, (childSystem kernel (program ::
            childArgs supervisor r.maxProcessMemory remaining (responseMaximum limits)) p).Run
          (.start abi (program ::
            childArgs supervisor r.maxProcessMemory remaining (responseMaximum limits)) p) ls c ∧
        c.stage = .serving [] := by
  have hvalid := validBudget_call hopts hpos hle
  have hargs := main_childArgs hvalid program supervisor
  refine ⟨main_superviseArgs hvalid program, ?_, ?_⟩
  · intro ls c hrun read hserving
    have hprogress := progress_of_run hargs hrun
    simp only [Progress, hserving] at hprogress
    obtain ⟨hpid, hforce, hanswers⟩ := hprogress
    rw [← hpid] at hforce
    exact ⟨hanswers, hpid, confined_of_inForce hforce⟩
  · simp only [Child.start, hargs]
    exact exists_serving _ p

/-- A kernel in which no call changes what is kept for a process. -/
def Kernel.inert (abi : Abi) : Kernel abi where
  effect _ p q := q = p
  permitted _ h := h ▸ Process.Inherits.refl _

/-- A process as it is spawned, with an unlimited parent's limits and one descriptor too many. -/
def Process.spawned : Process where
  pid := 4711
  deathSignal := none
  dumpable := true
  inherited := [0, 1, 2, 7]
  limits _ := ⟨2 ^ 64 - 1, 2 ^ 64 - 1⟩
  thread := ⟨false, []⟩
  others := []

theorem serving_child_is_confined_spawned :
    ∃ c : Child, c.stage = .serving [] ∧ Confined .x86_64 (512 * 1024 * 1024) 5000 c.process := by
  have hopts : Options.runtime (fun _ => "") .nil =
      .ok ⟨.builtin, .inProcess, 512 * 1024 * 1024, 4, 64 * 1024 * 1024, 64⟩ := rfl
  obtain ⟨-, hconfined, ls, c, hrun, hserving⟩ :=
    serving_child_is_confined (Kernel.inert .x86_64) hopts .builtin (by decide : 0 < 5000)
      (by decide) [] 4710 .spawned
  exact ⟨c, hserving, (hconfined ls c hrun [] hserving).2.2⟩

end Javex.Worker
