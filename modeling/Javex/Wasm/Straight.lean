import Javex.Wasm.Memory

/-!
# Straight-line code

Wasm code without branches over `i32`, as generated glue is made of: constants, locals, calls and
`memory.init`. The functions it calls are whatever takes arguments and a store to results and a
store, or traps. The engine may stop the code before any instruction, when its fuel or its time is
up; `exec` is told how many instructions are allowed.

* `exec_of_check`: code that validation accepts is never stuck, and leaves what its type says.
* `exec_extends`: stopped code has made the first of the calls that it would have made, and code
  that was not stopped has done what it does with no limit.
* `exec_rename`: the names of the functions and segments do not matter.

Execution is a function of the code, of the locals and the operand stack, of the store and of the
number of instructions that the engine still allows. It has no fuel of its own: code without
branches is as long as it is, and the limit is the engine's, which counts down by one for each
instruction and ends the execution where it stands. `exec_extends` compares two limits and is what
makes a statement about an execution without a limit useful for one that is cut short: the calls
made so far are an initial part, and if the code was not stopped nothing else is different.

The calls are recorded with their arguments in the order in which they are made, which is all that
an outside observer of glue code sees of it besides the store; two pieces of glue agree if they
agree on that record and on how they end, up to a renaming of the functions.
-/

namespace Wasm

universe u v w

/-- A function type: the numbers of `i32` parameters and results. -/
structure FuncType where
  params : ℕ
  results : ℕ
  deriving DecidableEq, Repr

/-- The linear memory, and whatever else a function can change. -/
structure Store (σ : Type u) where
  memory : Memory
  rest : σ
  deriving DecidableEq

/-- What a function does: results, or a trap. -/
structure Function (σ : Type u) (τ : Type v) where
  type : FuncType
  run : List UInt32 → Store σ → Except τ (List UInt32) × Store σ
  length_results : ∀ {args s results t}, run args s = (.ok results, t) →
    results.length = type.results

/-- An instruction; functions are named by `φ`, data segments by their index. -/
inductive Instr (φ : Type w)
  | i32Const (n : UInt32)
  | localGet (i : ℕ)
  | localTee (i : ℕ)
  | call (f : φ)
  | memoryInit (memory data : ℕ)
  deriving DecidableEq, Repr

/-- How code ends; `stopped` is by the engine. -/
inductive Outcome (σ : Type u) (τ : Type v)
  | returned (stack : List UInt32) (store : Store σ)
  | trapped (trap : τ) (store : Store σ)
  | stopped (store : Store σ)

/-- A call: the function and the arguments. -/
abbrev Called (φ : Type w) := φ × List UInt32

/-- What code can refer to besides the one memory: functions, data segments, and the trap of an
access out of bounds. -/
structure Env (φ : Type w) (σ : Type u) (τ : Type v) where
  func : φ → Option (Function σ τ)
  data : ℕ → Option (List UInt8)
  outOfBounds : τ

variable {φ : Type w} {σ : Type u} {τ : Type v}

/-- What one instruction does: it goes on with a stack, the locals and a store, or traps. A call is
reported either way. -/
inductive Next (φ : Type w) (σ : Type u) (τ : Type v)
  | next (calls : List (Called φ)) (stack locals : List UInt32) (store : Store σ)
  | trap (calls : List (Called φ)) (trap : τ) (store : Store σ)

/-- One instruction, the stack with its top first. There is no result if it is stuck. -/
def step (env : Env φ σ τ) (stack locals : List UInt32) (s : Store σ) :
    Instr φ → Option (Next φ σ τ)
  | .i32Const n => some (.next [] (n :: stack) locals s)
  | .localGet i => locals[i]?.map fun n => .next [] (n :: stack) locals s
  | .localTee i =>
    match stack with
    | n :: _ => if i < locals.length then some (.next [] stack (locals.set i n) s) else none
    | [] => none
  | .call f =>
    match env.func f with
    | none => none
    | some fn =>
      if stack.length < fn.type.params then none
      else
        let args := (stack.take fn.type.params).reverse
        match fn.run args s with
        | (.ok results, s) =>
          some (.next [(f, args)] (results.reverse ++ stack.drop fn.type.params) locals s)
        | (.error t, s) => some (.trap [(f, args)] t s)
  | .memoryInit memory data =>
    match memory, env.data data, stack with
    | 0, some bytes, n :: source :: dest :: stack =>
      if source.toNat + n.toNat ≤ bytes.length then
        match s.memory.write dest.toNat ((bytes.drop source.toNat).take n.toNat) with
        | some memory => some (.next [] stack locals { s with memory })
        | none => some (.trap [] env.outOfBounds s)
      else some (.trap [] env.outOfBounds s)
    | _, _, _ => none

/-- The code as far as `allowed` instructions go: the calls that it makes and how it ends. -/
def exec (env : Env φ σ τ) : List (Instr φ) → ℕ → List UInt32 → List UInt32 → Store σ →
    Option (List (Called φ) × Outcome σ τ)
  | [], _, stack, _, s => some ([], .returned stack s)
  | _ :: _, 0, _, _, s => some ([], .stopped s)
  | instr :: code, allowed + 1, stack, locals, s =>
    match step env stack locals s instr with
    | none => none
    | some (.trap calls t s) => some (calls, .trapped t s)
    | some (.next calls stack locals s) =>
      (exec env code allowed stack locals s).map fun (later, outcome) => (calls ++ later, outcome)

theorem exec_of_next {env : Env φ σ τ} {instr : Instr φ} {code : List (Instr φ)} {allowed : ℕ}
    {stack locals stack' locals' : List UInt32} {s s' : Store σ} {calls : List (Called φ)}
    (h : step env stack locals s instr = some (.next calls stack' locals' s')) :
    exec env (instr :: code) (allowed + 1) stack locals s =
      (exec env code allowed stack' locals' s').map
        fun (later, outcome) => (calls ++ later, outcome) := by
  rw [exec, h]

theorem exec_of_trap {env : Env φ σ τ} {instr : Instr φ} {code : List (Instr φ)} {allowed : ℕ}
    {stack locals : List UInt32} {s s' : Store σ} {calls : List (Called φ)} {t : τ}
    (h : step env stack locals s instr = some (.trap calls t s')) :
    exec env (instr :: code) (allowed + 1) stack locals s = some (calls, .trapped t s') := by
  rw [exec, h]

/-! ### Validation -/

/-- The height of the stack after an instruction, if validation accepts it: the function, segment
or local is there, and the stack has what the instruction takes. -/
def Instr.check (type : φ → Option FuncType) (memories segments locals height : ℕ) :
    Instr φ → Option ℕ
  | .i32Const _ => some (height + 1)
  | .localGet i => if i < locals then some (height + 1) else none
  | .localTee i => if i < locals ∧ 0 < height then some height else none
  | .call f =>
    match type f with
    | some t => if t.params ≤ height then some (height - t.params + t.results) else none
    | none => none
  | .memoryInit memory data =>
    if memory < memories ∧ data < segments ∧ 3 ≤ height then some (height - 3) else none

/-- The height of the stack after some code. -/
def check (type : φ → Option FuncType) (memories segments locals : ℕ) (code : List (Instr φ))
    (height : ℕ) : Option ℕ :=
  code.foldlM (fun height instr => instr.check type memories segments locals height) height

section Mono

variable {type type' : φ → Option FuncType} {memories memories' segments segments' : ℕ}

/-- An instruction stays valid where there is more. -/
theorem Instr.check_mono (htype : ∀ {f t}, type f = some t → type' f = some t)
    (hmemories : memories ≤ memories') (hsegments : segments ≤ segments') {instr : Instr φ}
    {locals height after : ℕ}
    (h : instr.check type memories segments locals height = some after) :
    instr.check type' memories' segments' locals height = some after := by
  cases instr with
  | i32Const n | localGet i | localTee i => exact h
  | call f =>
    simp only [Instr.check] at h ⊢
    split at h
    case h_1 t ht => simpa only [htype ht] using h
    case h_2 => cases h
  | memoryInit memory data =>
    simp only [Instr.check] at h ⊢
    split_ifs at h with hvalid
    rwa [if_pos ⟨by omega, by omega, hvalid.2.2⟩]

/-- Code stays valid where there is more. -/
theorem check_mono (htype : ∀ {f t}, type f = some t → type' f = some t)
    (hmemories : memories ≤ memories') (hsegments : segments ≤ segments')
    {code : List (Instr φ)} {locals height after : ℕ}
    (h : check type memories segments locals code height = some after) :
    check type' memories' segments' locals code height = some after := by
  induction code generalizing height with
  | nil => exact h
  | cons instr code ih =>
    rw [check, List.foldlM_cons] at h ⊢
    obtain ⟨between, hinstr, hrest⟩ := Option.bind_eq_some_iff.mp h
    exact Option.bind_eq_some_iff.mpr
      ⟨between, Instr.check_mono htype hmemories hsegments hinstr, ih hrest⟩

end Mono

/-- The environment has what the code was validated against. -/
structure Env.Provides (env : Env φ σ τ) (type : φ → Option FuncType)
    (memories segments : ℕ) : Prop where
  memory : memories ≤ 1
  func : ∀ {f t}, type f = some t → ∃ fn, env.func f = some fn ∧ fn.type = t
  data : ∀ {d}, d < segments → ∃ bytes, env.data d = some bytes

/-- The instruction does not change the number of locals and leaves a stack of this height. -/
def Next.Fits (locals height : ℕ) : Next φ σ τ → Prop
  | .next _ stack locals' _ => stack.length = height ∧ locals'.length = locals
  | .trap _ _ _ => True

/-- A valid instruction is not stuck. -/
theorem step_of_check {env : Env φ σ τ} {type : φ → Option FuncType} {memories segments height : ℕ}
    (henv : env.Provides type memories segments) {instr : Instr φ} {stack locals : List UInt32}
    {s : Store σ}
    (hcheck : instr.check type memories segments locals.length stack.length = some height) :
    ∃ next, step env stack locals s instr = some next ∧ next.Fits locals.length height := by
  cases instr with
  | i32Const n =>
    obtain rfl := Option.some.inj hcheck
    exact ⟨_, rfl, rfl, rfl⟩
  | localGet i =>
    simp only [Instr.check] at hcheck
    split_ifs at hcheck with hi
    obtain rfl := Option.some.inj hcheck
    refine ⟨.next [] (locals[i] :: stack) locals s, ?_, rfl, rfl⟩
    rw [step, List.getElem?_eq_getElem hi, Option.map_some]
  | localTee i =>
    simp only [Instr.check] at hcheck
    split_ifs at hcheck with hi
    obtain rfl := Option.some.inj hcheck
    obtain ⟨n, rest, rfl⟩ := List.exists_cons_of_length_pos hi.2
    exact ⟨_, if_pos hi.1, rfl, List.length_set⟩
  | call f =>
    simp only [Instr.check] at hcheck
    split at hcheck
    case h_2 => cases hcheck
    case h_1 t htype =>
      split_ifs at hcheck with hparams
      obtain rfl := Option.some.inj hcheck
      obtain ⟨fn, hfunc, rfl⟩ := henv.func htype
      simp only [step, hfunc, if_neg (Nat.not_lt.mpr hparams)]
      rcases hrun : fn.run (stack.take fn.type.params).reverse s with ⟨t | results, s'⟩
      · exact ⟨_, rfl, trivial⟩
      · refine ⟨_, rfl, ?_, rfl⟩
        rw [List.length_append, List.length_reverse, List.length_drop, fn.length_results hrun]
        omega
  | memoryInit memory data =>
    simp only [Instr.check] at hcheck
    split_ifs at hcheck with hdata
    obtain rfl := Option.some.inj hcheck
    have hmemories := henv.memory
    obtain rfl : memory = 0 := by omega
    obtain ⟨bytes, hbytes⟩ := henv.data hdata.2.1
    obtain ⟨n, source, dest, rest, rfl⟩ :
        ∃ n source dest rest, stack = n :: source :: dest :: rest := by
      match stack, hdata.2.2 with
      | n :: source :: dest :: rest, _ => exact ⟨n, source, dest, rest, rfl⟩
    simp only [step, hbytes]
    split_ifs
    · split
      · exact ⟨_, rfl, by simp, rfl⟩
      · exact ⟨_, rfl, trivial⟩
    · exact ⟨_, rfl, trivial⟩

/-- The stack that code leaves has this height. -/
def Outcome.Leaves (height : ℕ) : Outcome σ τ → Prop
  | .returned stack _ => stack.length = height
  | .trapped _ _ | .stopped _ => True

/-- **Valid code is never stuck**, and it leaves a stack of the height that validation says. -/
theorem exec_of_check {env : Env φ σ τ} {type : φ → Option FuncType}
    {memories segments : ℕ} (henv : env.Provides type memories segments) {code : List (Instr φ)}
    {allowed : ℕ}
    {stack locals : List UInt32} {s : Store σ} {height : ℕ}
    (hcheck : check type memories segments locals.length code stack.length = some height) :
    ∃ calls outcome, exec env code allowed stack locals s = some (calls, outcome) ∧
      outcome.Leaves height := by
  induction code generalizing allowed stack locals s with
  | nil => exact ⟨[], .returned stack s, rfl, Option.some.inj hcheck⟩
  | cons instr code ih =>
    cases allowed with
    | zero => exact ⟨[], .stopped s, rfl, trivial⟩
    | succ allowed =>
      rw [check, List.foldlM_cons] at hcheck
      obtain ⟨between, hinstr, hrest⟩ := Option.bind_eq_some_iff.mp hcheck
      obtain ⟨next, hstep, hfits⟩ := step_of_check henv (s := s) hinstr
      cases next with
      | trap calls t s' => exact ⟨_, _, exec_of_trap hstep, trivial⟩
      | next calls stack' locals' s' =>
        obtain ⟨rfl, hlocals⟩ := hfits
        rw [← hlocals] at hrest
        obtain ⟨later, outcome, hexec, hleaves⟩ := @ih allowed stack' locals' s' hrest
        exact ⟨calls ++ later, outcome, by rw [exec_of_next hstep, hexec]; rfl, hleaves⟩

/-! ### The engine's limit -/

/-- Two ends of the same code, the first with a lower limit: the calls of the first are the first
calls of the second, and nothing differs if the first was not stopped. -/
def Extends (first second : List (Called φ) × Outcome σ τ) : Prop :=
  first.1 <+: second.1 ∧ ((∀ s, first.2 ≠ .stopped s) → first = second)

/-- **A higher limit** extends the calls, and changes nothing once the code was not stopped. -/
theorem exec_extends {env : Env φ σ τ} {code : List (Instr φ)} {allowed more : ℕ}
    {stack locals : List UInt32} {s : Store σ} {first second : List (Called φ) × Outcome σ τ}
    (hle : allowed ≤ more) (h : exec env code allowed stack locals s = some first)
    (h' : exec env code more stack locals s = some second) : Extends first second := by
  induction code generalizing allowed more stack locals s first second with
  | nil =>
    rw [exec] at h h'
    obtain rfl := Option.some.inj (h.symm.trans h')
    exact ⟨List.prefix_rfl, fun _ => rfl⟩
  | cons instr code ih =>
    cases allowed with
    | zero =>
      rw [exec] at h
      obtain rfl := Option.some.inj h
      exact ⟨List.nil_prefix, fun hstopped => absurd rfl (hstopped s)⟩
    | succ allowed =>
      obtain ⟨more, rfl⟩ : ∃ n, more = n + 1 := ⟨more - 1, by omega⟩
      rw [exec] at h h'
      rcases hstep : step env stack locals s instr with _ | ⟨calls, stack', locals', s'⟩ |
          ⟨calls, t, s'⟩
      · simp [hstep] at h
      · simp only [hstep] at h h'
        obtain ⟨rest, hrest, rfl⟩ := Option.map_eq_some_iff.mp h
        obtain ⟨rest', hrest', rfl⟩ := Option.map_eq_some_iff.mp h'
        obtain ⟨hinitial, heq⟩ := ih (by omega) hrest hrest'
        refine ⟨(List.prefix_append_right_inj calls).mpr hinitial, fun hstopped => ?_⟩
        rw [heq hstopped]
      · simp only [hstep] at h h'
        obtain rfl := Option.some.inj (h.symm.trans h')
        exact ⟨List.prefix_rfl, fun _ => rfl⟩

/-! ### Renaming -/

section Rename

universe w'

variable {ψ : Type w'}

/-- The same instruction under other names. -/
def Instr.rename (func : φ → ψ) (memory data : ℕ → ℕ) : Instr φ → Instr ψ
  | .i32Const n => .i32Const n
  | .localGet i => .localGet i
  | .localTee i => .localTee i
  | .call f => .call (func f)
  | .memoryInit m d => .memoryInit (memory m) (data d)

/-- The same end under other names. -/
def renameCalls (func : φ → ψ) (result : List (Called φ) × Outcome σ τ) :
    List (Called ψ) × Outcome σ τ :=
  (result.1.map (Prod.map func id), result.2)

/-- The same effect under other names. -/
def Next.rename (func : φ → ψ) : Next φ σ τ → Next ψ σ τ
  | .next calls stack locals s => .next (calls.map (Prod.map func id)) stack locals s
  | .trap calls t s => .trap (calls.map (Prod.map func id)) t s

theorem step_rename {env : Env φ σ τ} {env' : Env ψ σ τ} {func : φ → ψ} {data : ℕ → ℕ}
    (hfunc : ∀ f, env'.func (func f) = env.func f) (hdata : ∀ d, env'.data (data d) = env.data d)
    (hbounds : env'.outOfBounds = env.outOfBounds) (stack locals : List UInt32) (s : Store σ)
    (instr : Instr φ) :
    step env' stack locals s (instr.rename func id data) =
      (step env stack locals s instr).map (Next.rename func) := by
  cases instr with
  | i32Const n => rfl
  | localGet i =>
    rw [Instr.rename, step, step, Option.map_map]
    rfl
  | localTee i =>
    cases stack with
    | nil => rfl
    | cons n stack =>
      rw [Instr.rename, step, step]
      split_ifs <;> rfl
  | call f =>
    rw [Instr.rename, step, step, hfunc]
    split
    · rfl
    · split_ifs
      · rfl
      · simp only
        split <;> rfl
  | memoryInit m d =>
    simp only [Instr.rename, step, hdata, hbounds, id]
    split
    · split_ifs
      · split <;> rfl
      · rfl
    · rfl

/-- **Names do not matter**: code does under other names what it does under its own, if the names
stand for the same functions and segments. -/
theorem exec_rename {env : Env φ σ τ} {env' : Env ψ σ τ} {func : φ → ψ} {data : ℕ → ℕ}
    (hfunc : ∀ f, env'.func (func f) = env.func f) (hdata : ∀ d, env'.data (data d) = env.data d)
    (hbounds : env'.outOfBounds = env.outOfBounds) (code : List (Instr φ)) (allowed : ℕ)
    (stack locals : List UInt32) (s : Store σ) :
    exec env' (code.map (Instr.rename func id data)) allowed stack locals s =
      (exec env code allowed stack locals s).map (renameCalls func) := by
  induction code generalizing allowed stack locals s with
  | nil => rfl
  | cons instr code ih =>
    cases allowed with
    | zero => rfl
    | succ allowed =>
      rw [List.map_cons, exec, exec, step_rename hfunc hdata hbounds]
      rcases step env stack locals s instr with _ | ⟨calls, stack', locals', s'⟩ | ⟨calls, t, s'⟩
      · rfl
      · simp only [Option.map_some, Next.rename, ih, Option.map_map]
        congr 1
        funext result
        simp [renameCalls]
      · rfl

end Rename

end Wasm
