import Javex.ForMathlib.Checked
import Javex.Native.Store
import Mathlib.Algebra.Order.BigOperators.Group.List
import Mathlib.Algebra.Order.Group.Nat

/-!
# The memories of a store

`Limiter` of `Native/Store.lean` under the engine that asks it: for a new memory with a current size
of zero, for a memory that grows with the size that it has, and for tables. The engine applies a
growth only if it was granted, and may fail to apply it even then. The subtraction and the addition
of the limiter are checked.

* `memories_within_limit`: what any requests for any number of memories leave.

The limiter keeps one number for all memories and is told the current and the desired size of one of
them. That the number is the sum of the granted growths is immediate from its code; that it bounds
what the memories have is not, since a growth may be granted and then fail, and is the invariant
`Sound`. The subtraction of the limiter does not underflow because the counter never exceeds the
limit, and the addition does not overflow because the limit is a `usize`.

Two ghost lists record what was asked: the answers, from which the flag is read off, and the growths
that were granted. Tables ask the same `StoreLimits` but are not counted, so they leave the second
list alone.
-/

namespace Javex.Native

open Unsigned

/-- What `StoreLimits` answers: a memory may grow up to the configured size and to the maximum of
its type. -/
def StoreLimits.Lawful (limits : StoreLimits) (maxMemory : ℕ) : Prop :=
  ∀ current desired maximum, limits.memoryGrowing current desired maximum = .granted ↔
    desired ≤ maxMemory ∧ ∀ m ∈ maximum, desired ≤ m

/-- `memory_growing`. There is no result where the arithmetic would wrap. -/
def Limiter.memoryGrowingChecked (l : Limiter) (current desired : ℕ) (maximum : Option ℕ) :
    Option (Limiter × Growth) := do
  let growth := desired - current
  let remaining ← sub? l.maxMemory l.memoryBytes
  if remaining < growth then return ({ l with exceeded := true }, .failed)
  else
    let result := l.limits.memoryGrowing current desired maximum
    let memoryBytes ← if result = .granted then add? 64 l.memoryBytes growth
      else some l.memoryBytes
    return ({ l with exceeded := l.exceeded || result != .granted, memoryBytes }, result)

/-- A linear memory: its size, and the maximum that its type declares. -/
structure Memory where
  size : ℕ
  maximum : Option ℕ

/-- The memories of a store, its limiter, whether each request so far was granted, and by how much
the granted ones let a memory grow. -/
structure Memories where
  limiter : Limiter
  live : List Memory
  answers : List Bool
  grants : List ℕ

/-- A request of the engine, and whether it will manage to apply it. -/
inductive GrowthRequest
  | create (minimum : ℕ) (maximum : Option ℕ) (applied : Bool)
  | grow (i : ℕ) (desired : ℕ) (applied : Bool)
  | table (current desired : ℕ) (maximum : Option ℕ)

namespace Memories

/-- The store of `Sandbox::new`. -/
def new (opts : Budgets) (limits : StoreLimits) : Memories where
  limiter := (Sandbox.new opts limits).limiter
  live := []
  answers := []
  grants := []

variable (s : Memories)

/-- The bytes of all memories. -/
def total : ℕ := (s.live.map Memory.size).sum

/-- The store after the limiter has answered, to a memory that asked to grow or to a table. -/
def answered (live : List Memory) (growth : Option ℕ) (answer : Limiter × Growth) : Memories where
  limiter := answer.1
  live := if answer.2 = .granted then live else s.live
  answers := s.answers ++ [answer.2 == .granted]
  grants := if answer.2 = .granted then s.grants ++ growth.toList else s.grants

/-- One request, unless the arithmetic wraps. A memory that there is not does not grow. -/
def request : GrowthRequest → Option Memories
  | .create minimum maximum applied =>
    (s.limiter.memoryGrowingChecked 0 minimum maximum).map
      (s.answered (if applied then s.live ++ [⟨minimum, maximum⟩] else s.live) (some minimum))
  | .grow i desired applied =>
    match s.live[i]? with
    | none => some s
    | some memory =>
      (s.limiter.memoryGrowingChecked memory.size desired memory.maximum).map
        (s.answered (if applied then s.live.set i { memory with size := desired } else s.live)
          (some (desired - memory.size)))
  | .table current desired maximum =>
    some (s.answered s.live none (s.limiter.tableGrowing current desired maximum))

/-- Some requests, unless the arithmetic wraps. -/
def requests (s : Memories) (rs : List GrowthRequest) : Option Memories := rs.foldlM request s

/-- What the limiter keeps. -/
structure Sound (maxMemory : ℕ) (limits : StoreLimits) (s : Memories) : Prop where
  maxMemory_eq : s.limiter.maxMemory = maxMemory
  limits_eq : s.limiter.limits = limits
  total_le : s.total ≤ s.limiter.memoryBytes
  memoryBytes_eq : s.limiter.memoryBytes = s.grants.sum
  memoryBytes_le : s.limiter.memoryBytes ≤ maxMemory
  exceeded_iff : s.limiter.exceeded = true ↔ false ∈ s.answers

variable {s} {maxMemory : ℕ} {limits : StoreLimits}

/-- A memory counts towards the total. -/
theorem size_le_total {memory : Memory} (h : memory ∈ s.live) : memory.size ≤ s.total :=
  List.le_sum_of_mem (List.mem_map_of_mem h)

/-- **The limiter never wraps**: it grants exactly what fits the rest of the budget and the maximum
of the memory, and counts what it grants. -/
theorem Sound.memoryGrowing (h : s.Sound maxMemory limits) (hlimits : limits.Lawful maxMemory)
    (hword : maxMemory < 2 ^ 64) {current : ℕ} (hcurrent : current ≤ s.total) (desired : ℕ)
    (maximum : Option ℕ) :
    ∃ l result, s.limiter.memoryGrowingChecked current desired maximum = some (l, result) ∧
      l.maxMemory = maxMemory ∧ l.limits = limits ∧
      (l.exceeded = true ↔ s.limiter.exceeded = true ∨ result ≠ .granted) ∧
      (result = .granted ↔ desired - current ≤ maxMemory - s.limiter.memoryBytes ∧
        ∀ m ∈ maximum, desired ≤ m) ∧
      l.memoryBytes = s.limiter.memoryBytes +
        (if result = .granted then desired - current else 0) ∧
      l.memoryBytes ≤ maxMemory := by
  have hmax := h.maxMemory_eq
  have htotal := h.total_le
  have hbytes := h.memoryBytes_le
  have hlawful := hlimits current desired maximum
  rw [← h.limits_eq] at hlawful
  unfold Limiter.memoryGrowingChecked
  rw [sub?_of_le (by omega), hmax]
  simp only [Option.bind_eq_bind, Option.bind_some]
  by_cases hroom : maxMemory - s.limiter.memoryBytes < desired - current
  · rw [if_pos hroom]
    refine ⟨_, _, rfl, rfl, h.limits_eq, by simp, iff_of_false nofun fun hfits => ?_, rfl, hbytes⟩
    omega
  · -- what fits the rest of the budget is no larger than the budget
    have hdesired : desired ≤ maxMemory := by omega
    have hadd : add? 64 s.limiter.memoryBytes (desired - current) =
        some (s.limiter.memoryBytes + (desired - current)) := add?_of_lt (by omega)
    rw [if_neg hroom]
    by_cases hgranted : s.limiter.limits.memoryGrowing current desired maximum = .granted
    · rw [hgranted, if_pos rfl, hadd]
      refine ⟨_, _, rfl, rfl, h.limits_eq, by simp, iff_of_true rfl ⟨by omega, ?_⟩, rfl, ?_⟩
      · exact (hlawful.mp hgranted).2
      · change s.limiter.memoryBytes + (desired - current) ≤ maxMemory
        omega
    · rw [if_neg hgranted]
      refine ⟨_, _, rfl, rfl, h.limits_eq, by simp, iff_of_false hgranted fun hfits => ?_, ?_,
        hbytes⟩
      · exact hgranted (hlawful.mpr ⟨hdesired, hfits.2⟩)
      · rw [if_neg hgranted]
        rfl

/-- An answer of the limiter keeps the store within its limits, if it counts what it grants and the
memories grew by no more than that. -/
theorem Sound.answered (h : s.Sound maxMemory limits) {live : List Memory} (growth : Option ℕ)
    {l : Limiter} {result : Growth} (hmax : l.maxMemory = maxMemory) (hlimits : l.limits = limits)
    (hexceeded : l.exceeded = true ↔ s.limiter.exceeded = true ∨ result ≠ .granted)
    (hbytes : l.memoryBytes = s.limiter.memoryBytes +
      if result = .granted then growth.getD 0 else 0) (hle : l.memoryBytes ≤ maxMemory)
    (hlive : result = .granted → (live.map Memory.size).sum ≤ l.memoryBytes) :
    (s.answered live growth (l, result)).Sound maxMemory limits := by
  refine ⟨hmax, hlimits, ?_, ?_, hle, ?_⟩
  · simp only [total, Memories.answered]
    split_ifs with hgranted
    · exact hlive hgranted
    · exact h.total_le.trans (by omega)
  · simp only [Memories.answered]
    rw [hbytes, h.memoryBytes_eq]
    split_ifs with hgranted
    · rw [List.sum_append]
      cases growth <;> simp
    · rfl
  · simp only [Memories.answered, List.mem_append, List.mem_singleton, hexceeded, h.exceeded_iff]
    simp

theorem Sound.new (opts : Budgets) (limits : StoreLimits) :
    (Memories.new opts limits).Sound opts.maxMemory limits :=
  ⟨rfl, rfl, le_rfl, rfl, Nat.zero_le _, iff_of_false nofun nofun⟩

/-- One request. -/
theorem Sound.request (h : s.Sound maxMemory limits) (hlimits : limits.Lawful maxMemory)
    (hword : maxMemory < 2 ^ 64) (r : GrowthRequest) :
    ∃ s', s.request r = some s' ∧ s'.Sound maxMemory limits ∧
      (s.limiter.exceeded = true → s'.limiter.exceeded = true) := by
  cases r with
  | create minimum maximum applied =>
    obtain ⟨l, result, hcall, hmax, hlim, hexceeded, -, hbytes, hle⟩ :=
      h.memoryGrowing hlimits hword (Nat.zero_le _) minimum maximum
    refine ⟨_, by rw [Memories.request, hcall]; rfl,
      h.answered (some minimum) hmax hlim hexceeded hbytes hle fun hgranted => ?_,
      fun hflag => hexceeded.mpr (.inl hflag)⟩
    rw [if_pos hgranted] at hbytes
    have htotal := h.total_le
    unfold total at htotal
    split_ifs
    · simp
      omega
    · omega
  | grow i desired applied =>
    cases hi : s.live[i]? with
    | none => exact ⟨s, by rw [Memories.request, hi], h, id⟩
    | some memory =>
      have hcurrent := size_le_total (List.mem_of_getElem? hi)
      obtain ⟨l, result, hcall, hmax, hlim, hexceeded, -, hbytes, hle⟩ :=
        h.memoryGrowing hlimits hword hcurrent desired memory.maximum
      refine ⟨_, by simp only [Memories.request, hi, hcall]; rfl,
        h.answered (some (desired - memory.size)) hmax hlim hexceeded hbytes hle
          fun hgranted => ?_,
        fun hflag => hexceeded.mpr (.inl hflag)⟩
      rw [if_pos hgranted] at hbytes
      have htotal := h.total_le
      unfold total at htotal
      obtain ⟨hlt, rfl⟩ := List.getElem?_eq_some_iff.mp hi
      obtain ⟨before, after, hsplit, -, hset⟩ :=
        @List.exists_of_set _ _ { s.live[i] with size := desired } _ hlt
      split_ifs
      · have hold : (s.live.map Memory.size).sum =
            (before.map Memory.size).sum + (s.live[i].size + (after.map Memory.size).sum) := by
          conv_lhs => rw [hsplit]
          simp
        rw [hset]
        simp
        omega
      · omega
  | table current desired maximum =>
    refine ⟨_, rfl,
      h.answered none h.maxMemory_eq h.limits_eq ?_ ?_ h.memoryBytes_le fun _ => h.total_le,
      fun hflag => ?_⟩
    · simp
    · simp
    · simp [Memories.answered, Limiter.tableGrowing, hflag]

/-- Any requests. -/
theorem Sound.requests (h : s.Sound maxMemory limits) (hlimits : limits.Lawful maxMemory)
    (hword : maxMemory < 2 ^ 64) (rs : List GrowthRequest) :
    ∃ s', s.requests rs = some s' ∧ s'.Sound maxMemory limits ∧
      (s.limiter.exceeded = true → s'.limiter.exceeded = true) := by
  induction rs generalizing s with
  | nil => exact ⟨s, rfl, h, id⟩
  | cons r rs ih =>
    obtain ⟨s₁, hrequest, h₁, hflag₁⟩ := h.request hlimits hword r
    obtain ⟨s₂, hrequests, h₂, hflag₂⟩ := ih h₁
    refine ⟨s₂, ?_, h₂, hflag₂ ∘ hflag₁⟩
    rw [Memories.requests, List.foldlM_cons, hrequest]
    exact hrequests

/-- The memory that a request is for: its current size and its maximum. -/
def current (s : Memories) : GrowthRequest → Option (ℕ × ℕ × Option ℕ)
  | .create minimum maximum _ => some (0, minimum, maximum)
  | .grow i desired _ => s.live[i]?.map fun memory => (memory.size, desired, memory.maximum)
  | .table .. => none

/-- A request for a memory is granted exactly if it fits. -/
theorem Sound.granted_iff (h : s.Sound maxMemory limits) (hlimits : limits.Lawful maxMemory)
    (hword : maxMemory < 2 ^ 64) {r : GrowthRequest} {size desired : ℕ} {maximum : Option ℕ}
    (hr : s.current r = some (size, desired, maximum)) :
    ∃ s' granted, s.request r = some s' ∧ s'.answers = s.answers ++ [granted] ∧
      (granted = true ↔ desired - size ≤ maxMemory - s.limiter.memoryBytes ∧
        ∀ m ∈ maximum, desired ≤ m) := by
  cases r with
  | create minimum maximum' applied =>
    cases hr
    obtain ⟨l, result, hcall, -, -, -, hgranted, -⟩ :=
      h.memoryGrowing hlimits hword (Nat.zero_le _) desired maximum
    exact ⟨_, result == .granted, by rw [Memories.request, hcall]; rfl, rfl,
      beq_iff_eq.trans hgranted⟩
  | grow i desired' applied =>
    obtain ⟨memory, hi, heq⟩ := Option.map_eq_some_iff.mp hr
    cases heq
    obtain ⟨l, result, hcall, -, -, -, hgranted, -⟩ :=
      h.memoryGrowing hlimits hword (size_le_total (List.mem_of_getElem? hi)) desired
        memory.maximum
    exact ⟨_, result == .granted, by simp only [Memories.request, hi, hcall]; rfl, rfl,
      beq_iff_eq.trans hgranted⟩
  | table => cases hr

end Memories

/-- **The memories of a store stay within its limit.** For any budgets and any requests, no
arithmetic wraps; the memories have no more bytes than were counted, which are those of the growths
that were granted, and no more than `max_memory` are counted; a further request for a memory is
granted exactly if its growth fits what is left and the maximum of its type; and the flag is up
exactly if a request was not granted, and stays up. -/
theorem memories_within_limit (opts : Budgets) (hopts : opts.maxMemory < 2 ^ 64)
    (limits : StoreLimits) (hlimits : limits.Lawful opts.maxMemory) (rs : List GrowthRequest) :
    ∃ s, (Memories.new opts limits).requests rs = some s ∧
      s.total ≤ s.limiter.memoryBytes ∧ s.limiter.memoryBytes = s.grants.sum ∧
      s.limiter.memoryBytes ≤ opts.maxMemory ∧
      (∀ r size desired maximum, s.current r = some (size, desired, maximum) →
        ∃ s' granted, s.request r = some s' ∧ s'.answers = s.answers ++ [granted] ∧
          (granted = true ↔ desired - size ≤ opts.maxMemory - s.limiter.memoryBytes ∧
            ∀ m ∈ maximum, desired ≤ m)) ∧
      (s.limiter.exceeded = true ↔ false ∈ s.answers) ∧
      ∀ later, ∃ s', s.requests later = some s' ∧
        (s.limiter.exceeded = true → s'.limiter.exceeded = true) := by
  obtain ⟨s, hrequests, h, -⟩ := (Memories.Sound.new opts limits).requests hlimits hopts rs
  refine ⟨s, hrequests, h.total_le, h.memoryBytes_eq, h.memoryBytes_le,
    fun r size desired maximum hr => h.granted_iff hlimits hopts hr, h.exceeded_iff,
    fun later => ?_⟩
  obtain ⟨s', hlater, -, hflag⟩ := h.requests hlimits hopts later
  exact ⟨s', hlater, hflag⟩

/-- `StoreLimits` with a memory size, table elements and a trap for every refusal. -/
def trappingLimits (memorySize tableElements : ℕ) : StoreLimits where
  memoryGrowing _ desired maximum :=
    if desired ≤ memorySize ∧ ∀ m ∈ maximum, desired ≤ m then .granted else .failed
  tableGrowing _ desired maximum :=
    if desired ≤ tableElements ∧ ∀ m ∈ maximum, desired ≤ m then .granted else .failed

theorem lawful_trappingLimits (memorySize tableElements : ℕ) :
    (trappingLimits memorySize tableElements).Lawful memorySize := by
  intro current desired maximum
  simp only [trappingLimits]
  split_ifs with h
  · exact iff_of_true rfl h
  · exact iff_of_false nofun h

/-- Budgets with room for two pages. -/
def twoPages : Budgets where
  fuel := 1000
  maxMemory := 131072
  maxInput := 1
  maxOutput := 0
  maxStderr := 0
  maxModule := 1
  maxCallbackCalls := 0
  maxCallbackConcurrency := 1
  maxCallbackInput := 1
  maxCallbackOutput := 1
  env := []
  staticMode := false

/-- The provider and the module have a page each, and there is none left for the page that the
module asks for. -/
theorem memories_within_limit_twoPages :
    ∃ s, (Memories.new twoPages (trappingLimits 131072 100000)).requests
        [.create 65536 none true, .create 65536 (some 262144) true, .grow 1 131072 true] = some s ∧
      s.answers = [true, true, false] ∧ s.grants = [65536, 65536] ∧ s.total = 131072 ∧
      s.total ≤ s.limiter.memoryBytes ∧ s.limiter.memoryBytes = s.grants.sum := by
  obtain ⟨s, hrequests, htotal, hbytes, -⟩ := memories_within_limit twoPages (by decide)
    (trappingLimits 131072 100000) (lawful_trappingLimits 131072 100000)
    [.create 65536 none true, .create 65536 (some 262144) true, .grow 1 131072 true]
  refine ⟨s, hrequests, ?_⟩
  cases hrequests
  exact ⟨rfl, rfl, rfl, htotal, hbytes⟩

end Javex.Native
