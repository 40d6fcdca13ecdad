import Javex.Basic
import Javex.ForMathlib.Recency
import Javex.Transition.System

/-!
# The module cache

`Cache` of `native/javex_nif/src/sandbox.rs` and the part of `Execution::start` that uses it. The
lock is held for a `get` and for an `insert`, and between the two a module that was not found is
compiled; so calls interleave at these points, and a run of `system` is any interleaving of any
number of them on one runtime.

SHA-256, `Module::from_binary` and the size of a module's image are parameters. Every use of the
cache, a hit or an insertion that takes effect, is recorded beside it.

The entries are a queue, oldest use first, and everything that is said about eviction is said about
that order: `OldestFirst` of `ForMathlib/Recency.lean` ties it to the recorded uses. The invariant
`Kept` adds that every entry was made from a module of the set, so that a hit returns what a
compilation of the call's own bytes would have returned; this is where it matters that SHA-256 tells
the modules of the set apart.

* `evict_spec`: the loop gives up the shortest front part that makes room, and never looks at an
  empty queue.
* `cache_transparent`: what the calls see of the cache, and in which order it gives entries up.

A call may also be stopped, before the lookup or after it. It has used the cache in the second case,
and nobody is told.
-/

namespace Javex.Native

open Transition Recency

/-! ### The cache -/

/-- `[u8; 32]`. -/
abbrev Key := Vector UInt8 32

/-- `CacheOptions`. -/
structure CacheOptions where
  maxCacheBytes : ℕ
  maxCachedModules : ℕ

/-- An entry: the key, the module and the size of its image. -/
structure Entry (μ : Type*) where
  key : Key
  module : μ
  size : ℕ

/-- `Cache`. -/
structure Cache (μ : Type*) where
  entries : List (Entry μ)
  bytes : ℕ
  hits : ℕ
  limits : CacheOptions

variable {μ : Type*}

/-- The image bytes of some entries. -/
def total (entries : List (Entry μ)) : ℕ := (entries.map Entry.size).sum

namespace Cache

/-- The cache of a new runtime. -/
def new (limits : CacheOptions) : Cache μ := { entries := [], bytes := 0, hits := 0, limits }

variable (c : Cache μ)

/-- The keys from front to back. -/
def keys : List Key := c.entries.map Entry.key

/-- `Cache::get`: an entry that is found moves to the back. -/
def get (key : Key) : Option (μ × Cache μ) :=
  match c.entries.find? fun entry => entry.key == key with
  | none => none
  | some entry =>
    some (entry.module,
      { c with
        entries := (c.entries.eraseP fun entry => entry.key == key) ++ [entry]
        hits := c.hits + 1 })

/-- The loop of `Cache::insert`. There is no result where the source unwraps the front of an empty
queue. -/
def evict (limits : CacheOptions) (size : ℕ) : List (Entry μ) → ℕ → Option (List (Entry μ) × ℕ)
  | [], bytes =>
    if limits.maxCachedModules ≤ 0 ∨ limits.maxCacheBytes - bytes < size then none
    else some ([], bytes)
  | entry :: entries, bytes =>
    if limits.maxCachedModules ≤ (entry :: entries).length ∨
        limits.maxCacheBytes - bytes < size then
      evict limits size entries (bytes - entry.size)
    else some (entry :: entries, bytes)

/-- `Cache::insert`, for a module whose image has this size. -/
def insert (key : Key) (module : μ) (size : ℕ) : Option (Cache μ) :=
  if c.limits.maxCacheBytes < size ∨ c.limits.maxCachedModules = 0 then some c
  else if c.entries.any fun entry => entry.key == key then some c
  else
    match evict c.limits size c.entries c.bytes with
    | none => none
    | some (entries, bytes) =>
      some { c with entries := entries ++ [{ key, module, size }], bytes := bytes + size }

/-- The insertions that take effect: of a module that fits an empty cache and is not there. -/
def Effective (key : Key) (size : ℕ) : Prop :=
  size ≤ c.limits.maxCacheBytes ∧ c.limits.maxCachedModules ≠ 0 ∧ key ∉ c.keys

instance (key : Key) (size : ℕ) : Decidable (c.Effective key size) :=
  inferInstanceAs (Decidable (_ ∧ _ ∧ _))

/-- What keeps a cache within its limits: the byte count is that of the entries. -/
structure Bounded : Prop where
  bytes_eq : c.bytes = total c.entries
  bytes_le : c.bytes ≤ c.limits.maxCacheBytes
  length_le : c.entries.length ≤ c.limits.maxCachedModules

/-- A new image fits beside some entries. -/
def Fits (limits : CacheOptions) (size : ℕ) (entries : List (Entry μ)) : Prop :=
  entries.length + 1 ≤ limits.maxCachedModules ∧ total entries + size ≤ limits.maxCacheBytes

end Cache

/-! ### Calls of `Execution::start` -/

/-- What a start depends on: `Sha256::digest`, `Module::from_binary` with the runtime's engine, the
size of an image, and the limits of the cache. -/
structure Runtime (μ : Type*) where
  sha256 : Bytes → Key
  fromBinary : Bytes → Option μ
  imageSize : μ → ℕ
  limits : CacheOptions

/-- How far a call of `Execution::start` has come. `missed` and `compiled` are outside the lock,
`stopped` is one whose deadline or cancellation was noticed. -/
inductive Start (μ : Type*)
  | entered (wasm : Bytes)
  | missed (wasm : Bytes)
  | compiled (wasm : Bytes) (module : μ)
  | ready (wasm : Bytes) (module : μ)
  | instantiated (wasm : Bytes) (module : μ)
  | rejected (wasm : Bytes)
  | stopped (wasm : Bytes)
  deriving DecidableEq

/-- The module a call was made with. -/
def Start.wasm : Start μ → Bytes
  | entered wasm | missed wasm | compiled wasm _ | ready wasm _ | instantiated wasm _
  | rejected wasm | stopped wasm => wasm

/-- A use of the cache. -/
inductive Use
  | hit (key : Key)
  | insert (key : Key)

/-- The key a use is of. -/
def Use.key : Use → Key
  | hit key | insert key => key

/-- The cache, the calls, and the uses of the cache with the newest first. -/
structure Starts (μ : Type*) where
  cache : Cache μ
  calls : ℕ → Option (Start μ)
  uses : List Use

/-- What happens next to a call. -/
inductive Starts.Label
  | call (id : ℕ) (wasm : Bytes)
  | stop (id : ℕ)
  | get (id : ℕ)
  | compile (id : ℕ)
  | insert (id : ℕ)
  | instantiate (id : ℕ)

namespace Starts

variable (R : Runtime μ)

/-- The runtime before any call. -/
def start : Starts μ := { cache := .new R.limits, calls := fun _ => none, uses := [] }

variable (s : Starts μ)

/-- A call goes on. -/
def proceed (id : ℕ) (phase : Start μ) : Starts μ :=
  { s with calls := Function.update s.calls id (some phase) }

/-- One step of one call. -/
def step : Label → Option (Starts μ)
  | .call id wasm =>
    match s.calls id with
    | none => some (s.proceed id (.entered wasm))
    | _ => none
  -- `control.check()?`, before the lookup and after it
  | .stop id =>
    match s.calls id with
    | some (.entered wasm) | some (.ready wasm _) => some (s.proceed id (.stopped wasm))
    | _ => none
  | .get id =>
    match s.calls id with
    | some (.entered wasm) =>
      match s.cache.get (R.sha256 wasm) with
      | some (module, cache) =>
        some { s.proceed id (.ready wasm module) with
          cache, uses := .hit (R.sha256 wasm) :: s.uses }
      | none => some (s.proceed id (.missed wasm))
    | _ => none
  | .compile id =>
    match s.calls id with
    | some (.missed wasm) =>
      match R.fromBinary wasm with
      | some module => some (s.proceed id (.compiled wasm module))
      | none => some (s.proceed id (.rejected wasm))
    | _ => none
  | .insert id =>
    match s.calls id with
    | some (.compiled wasm module) =>
      let key := R.sha256 wasm
      let size := R.imageSize module
      (s.cache.insert key module size).map fun cache =>
        { s.proceed id (.ready wasm module) with
          cache, uses := if s.cache.Effective key size then .insert key :: s.uses else s.uses }
    | _ => none
  | .instantiate id =>
    match s.calls id with
    | some (.ready wasm module) => some (s.proceed id (.instantiated wasm module))
    | _ => none

/-- Any number of calls on one runtime, in any interleaving. -/
def system : System (Starts μ) Label := .ofStep (· = start R) (step R)

/-- The module a call is made with. -/
def Label.wasm : Label → Option Bytes
  | call _ wasm => some wasm
  | stop _ | get _ | compile _ | insert _ | instantiate _ => none

/-- The calls are made with modules of a set. -/
def Among (modules : Set Bytes) (_ : Starts μ) (l : Label) : Prop :=
  ∀ wasm ∈ l.wasm, wasm ∈ modules

instance (modules : Set Bytes) [DecidablePred (· ∈ modules)] (s : Starts μ) (l : Label) :
    Decidable (Among modules s l) :=
  inferInstanceAs (Decidable (∀ wasm ∈ l.wasm, wasm ∈ modules))

end Starts

/-! ### Operations -/

section Operations

@[simp]
theorem total_nil : total ([] : List (Entry μ)) = 0 := rfl

@[simp]
theorem total_cons (entry : Entry μ) (entries : List (Entry μ)) :
    total (entry :: entries) = entry.size + total entries := rfl

@[simp]
theorem total_append (entries others : List (Entry μ)) :
    total (entries ++ others) = total entries + total others := by
  simp [total]

namespace Cache

variable {c : Cache μ} {key : Key} {module : μ} {size : ℕ}

/-- A hit takes the entry out and puts it back at the end. -/
theorem get_eq_some {c' : Cache μ} (h : c.get key = some (module, c')) :
    ∃ before entry after, c.entries = before ++ entry :: after ∧ entry.key = key ∧
      module = entry.module ∧
      c' = { c with entries := before ++ after ++ [entry], hits := c.hits + 1 } := by
  rw [get] at h
  split at h
  case h_1 => cases h
  case h_2 entry hfind =>
    obtain ⟨hkey, before, after, heq, hbefore⟩ := List.find?_eq_some_iff_append.mp hfind
    have herase : (c.entries.eraseP fun entry => entry.key == key) = before ++ after := by
      rw [heq, List.eraseP_append_right _ (by simpa using hbefore), List.eraseP_cons,
        hkey, cond_true]
    rw [herase] at h
    simp only [Option.some.injEq, Prod.mk.injEq] at h
    exact ⟨before, entry, after, heq, by simpa using hkey, h.1.symm, h.2.symm⟩

/-- A key that is there hits. -/
theorem exists_get_of_mem (h : key ∈ c.keys) : ∃ module c', c.get key = some (module, c') := by
  obtain ⟨entry, hentry, rfl⟩ := List.mem_map.mp h
  cases hfind : c.entries.find? fun e => e.key == entry.key with
  | none =>
    have hnot := List.find?_eq_none.mp hfind entry hentry
    exact absurd (beq_self_eq_true entry.key) hnot
  | some found => exact ⟨_, _, by rw [get, hfind]⟩

/-- The key that hits goes to the back. -/
theorem keys_get {c' : Cache μ} (hnodup : c.keys.Nodup) (h : c.get key = some (module, c')) :
    c'.keys = c.keys.erase key ++ [key] := by
  obtain ⟨before, entry, after, heq, rfl, -, rfl⟩ := get_eq_some h
  rw [keys, heq, List.map_append, List.map_cons] at hnodup
  have hbefore : entry.key ∉ before.map Entry.key := fun hmem =>
    (List.nodup_append.mp hnodup).2.2 _ hmem _ List.mem_cons_self rfl
  simp only [keys, heq, List.map_append, List.map_cons, List.map_nil]
  rw [List.erase_append_right _ hbefore, List.erase_cons_head]

theorem Bounded.new (limits : CacheOptions) : (Cache.new limits : Cache μ).Bounded :=
  ⟨rfl, Nat.zero_le _, Nat.zero_le _⟩

/-- The loop gives up the shortest front part that makes room. It never meets an empty queue: an
image that fits an empty cache fits before that. -/
theorem evict_spec {limits : CacheOptions} {entries : List (Entry μ)} {bytes : ℕ}
    (hsize : size ≤ limits.maxCacheBytes) (hmodules : limits.maxCachedModules ≠ 0)
    (hbytes : bytes = total entries) (hle : bytes ≤ limits.maxCacheBytes) :
    ∃ n, IsLeast {n | Fits limits size (entries.drop n)} n ∧
      evict limits size entries bytes = some (entries.drop n, total (entries.drop n)) := by
  induction entries generalizing bytes with
  | nil =>
    refine ⟨0, isLeast_drop_of_holds ⟨by simp; omega, by simpa using hsize⟩, ?_⟩
    rw [evict, if_neg (by rw [hbytes, total_nil]; omega), hbytes]
    rfl
  | cons entry entries ih =>
    rw [total_cons] at hbytes
    by_cases hfits : Fits limits size (entry :: entries)
    · refine ⟨0, isLeast_drop_of_holds hfits, ?_⟩
      obtain ⟨hlength, htotal⟩ := hfits
      rw [total_cons] at htotal
      rw [evict, if_neg (by omega), List.drop_zero, total_cons, hbytes]
    · -- one entry more has to go, and then what the loop does on the rest
      obtain ⟨n, hleast, hevict⟩ := @ih (bytes - entry.size) (by omega) (by omega)
      refine ⟨n + 1, hleast.drop_cons hfits, ?_⟩
      have hfull : limits.maxCachedModules ≤ (entry :: entries).length ∨
          limits.maxCacheBytes - bytes < size := by
        by_contra hroom
        rw [not_or] at hroom
        exact hfits ⟨by omega, by rw [total_cons]; omega⟩
      rw [evict, if_pos hfull, hevict, List.drop_succ_cons]

/-- An insertion that takes no effect leaves the cache alone. -/
theorem insert_of_not_effective (h : ¬ c.Effective key size) :
    c.insert key module size = some c := by
  rw [insert]
  by_cases hlimit : c.limits.maxCacheBytes < size ∨ c.limits.maxCachedModules = 0
  · rw [if_pos hlimit]
  · rw [not_or] at hlimit
    have hmem : key ∈ c.keys := by
      by_contra hkey
      exact h ⟨by omega, hlimit.2, hkey⟩
    have hany : (c.entries.any fun entry => entry.key == key) = true := by
      simpa [keys] using hmem
    rw [if_neg (not_or.mpr hlimit), if_pos hany]

/-- An insertion that takes effect. -/
theorem insert_of_effective (module : μ) (hc : c.Bounded) (h : c.Effective key size) :
    ∃ n, IsLeast {n | Fits c.limits size (c.entries.drop n)} n ∧
      c.insert key module size =
        some { c with
          entries := c.entries.drop n ++ [{ key, module, size }]
          bytes := total (c.entries.drop n) + size } := by
  obtain ⟨hsize, hmodules, hkey⟩ := h
  obtain ⟨n, hleast, hevict⟩ := evict_spec hsize hmodules hc.bytes_eq hc.bytes_le
  refine ⟨n, hleast, ?_⟩
  have hany : ¬ (c.entries.any fun entry => entry.key == key) = true := by
    simpa [keys] using hkey
  rw [insert, if_neg (by omega), if_neg hany, hevict]

/-- The limits hold after a hit. -/
theorem Bounded.get {c' : Cache μ} (hc : c.Bounded) (h : c.get key = some (module, c')) :
    c'.Bounded := by
  obtain ⟨before, entry, after, heq, -, -, rfl⟩ := get_eq_some h
  have hbytes := hc.bytes_eq
  have hlength := hc.length_le
  rw [heq] at hbytes hlength
  refine ⟨?_, hc.bytes_le, ?_⟩
  · simp at hbytes ⊢
    omega
  · simp at hlength ⊢
    omega

/-- The limits hold after an insertion that takes effect. -/
theorem Bounded.append {entries : List (Entry μ)} (h : Fits c.limits size entries) :
    Bounded { c with
      entries := entries ++ [{ key, module, size }], bytes := total entries + size } :=
  ⟨by simp, h.2, by simpa using h.1⟩

end Cache

end Operations

/-! ### What every run keeps -/

namespace Starts

variable {R : Runtime μ} {modules : Set Bytes} {s t : Starts μ}

/-- The keys used, newest first. -/
def used (s : Starts μ) : List Key := s.uses.map Use.key

/-- What a call holds is what `Module::from_binary` makes of its own bytes. -/
def Own (R : Runtime μ) : Start μ → Prop
  | .compiled wasm module | .ready wasm module | .instantiated wasm module =>
    R.fromBinary wasm = some module
  | .rejected wasm => R.fromBinary wasm = none
  | .entered _ | .missed _ | .stopped _ => True

/-- An entry was made from a module of the set. -/
def Made (R : Runtime μ) (modules : Set Bytes) (entry : Entry μ) : Prop :=
  ∃ wasm ∈ modules, R.sha256 wasm = entry.key ∧ R.fromBinary wasm = some entry.module

/-- The invariant of a runtime. -/
structure Kept (R : Runtime μ) (modules : Set Bytes) (s : Starts μ) : Prop where
  limits : s.cache.limits = R.limits
  bounded : s.cache.Bounded
  ordered : OldestFirst s.used s.cache.keys
  made : ∀ entry ∈ s.cache.entries, Made R modules entry
  among : ∀ id call, s.calls id = some call → call.wasm ∈ modules
  own : ∀ id call, s.calls id = some call → Own R call

/-- A call that goes on keeps its module and holds what is its own. -/
theorem Kept.proceed (h : Kept R modules s) {id : ℕ} {call : Start μ}
    (hwasm : call.wasm ∈ modules) (hown : Own R call) : Kept R modules (s.proceed id call) := by
  refine { h with among := fun id' call' hcall => ?_, own := fun id' call' hcall => ?_ }
  · by_cases hid : id' = id
    · simp only [Starts.proceed, hid, Function.update_self, Option.some.injEq] at hcall
      exact hcall ▸ hwasm
    · simp only [Starts.proceed, Function.update_of_ne hid] at hcall
      exact h.among id' call' hcall
  · by_cases hid : id' = id
    · simp only [Starts.proceed, hid, Function.update_self, Option.some.injEq] at hcall
      exact hcall ▸ hown
    · simp only [Starts.proceed, Function.update_of_ne hid] at hcall
      exact h.own id' call' hcall

/-- A hit: the entry found was made from the call's own bytes, and it becomes the newest. -/
theorem Kept.hit (h : Kept R modules s) (hsha : modules.InjOn R.sha256) {wasm : Bytes}
    (hwasm : wasm ∈ modules) {module : μ} {cache : Cache μ}
    (hget : s.cache.get (R.sha256 wasm) = some (module, cache)) :
    R.fromBinary wasm = some module ∧
      Kept R modules { s with cache, uses := .hit (R.sha256 wasm) :: s.uses } := by
  have hbounded := h.bounded.get hget
  obtain ⟨before, entry, after, heq, hkey, rfl, rfl⟩ := Cache.get_eq_some hget
  have hmem : ∀ e ∈ before ++ after ++ [entry], e ∈ s.cache.entries := by
    intro e he
    rw [heq]
    simp only [List.mem_append, List.mem_cons] at he ⊢
    tauto
  refine ⟨?_, { h with bounded := hbounded, ordered := ?_, made := ?_ }⟩
  · -- equal keys are keys of equal bytes
    obtain ⟨wasm', hwasm', hkey', hfrom⟩ := h.made entry (hmem entry (by simp))
    have hsame : wasm' = wasm := hsha hwasm' hwasm (hkey'.trans hkey)
    rw [← hsame, hfrom]
  · have hordered := h.ordered
    simp only [Cache.keys, heq, List.map_append, List.map_cons, hkey] at hordered ⊢
    have hnot : R.sha256 wasm ∉ before.map Entry.key ++ after.map Entry.key := by
      have hnodup := hordered.nodup
      rw [List.nodup_middle, List.nodup_cons] at hnodup
      exact hnodup.1
    have hsub : (before.map Entry.key ++ after.map Entry.key).Sublist
        (before.map Entry.key ++ R.sha256 wasm :: after.map Entry.key) :=
      (List.Sublist.refl _).append (List.sublist_cons_self _ _)
    exact (hordered.sublist hsub).use hnot
  · intro e he
    exact h.made e (hmem e he)

/-- An insertion that takes effect: the new entry is the newest, and what is left of the others is
in the order it was. -/
theorem Kept.insert (h : Kept R modules s) {wasm : Bytes} (hwasm : wasm ∈ modules) {module : μ}
    (hfrom : R.fromBinary wasm = some module) {n : ℕ} {size : ℕ}
    (hfits : Cache.Fits s.cache.limits size (s.cache.entries.drop n))
    (hkey : R.sha256 wasm ∉ s.cache.keys) :
    Kept R modules { s with
      cache := { s.cache with
        entries := s.cache.entries.drop n ++ [{ key := R.sha256 wasm, module, size }]
        bytes := total (s.cache.entries.drop n) + size }
      uses := .insert (R.sha256 wasm) :: s.uses } := by
  refine { h with bounded := Cache.Bounded.append hfits, ordered := ?_, made := ?_ }
  · have hsub : ((s.cache.entries.drop n).map Entry.key).Sublist s.cache.keys :=
      (List.drop_sublist n _).map _
    have hordered := (h.ordered.sublist hsub).use fun hmem => hkey (hsub.subset hmem)
    simpa [Cache.keys, used, Use.key] using hordered
  · intro e he
    rcases List.mem_append.mp he with he | he
    · exact h.made e (List.mem_of_mem_drop he)
    · rw [List.mem_singleton.mp he]
      exact ⟨wasm, hwasm, rfl, hfrom⟩

/-- One step of one call. -/
theorem Kept.step (h : Kept R modules s) (hsha : modules.InjOn R.sha256) {l : Label}
    (hstep : Starts.step R s l = some t) (hamong : Among modules s l) : Kept R modules t := by
  cases l with
  | call id wasm =>
    simp only [Starts.step] at hstep
    split at hstep
    · cases hstep
      exact h.proceed (hamong wasm rfl) trivial
    · cases hstep
  | stop id =>
    simp only [Starts.step] at hstep
    split at hstep
    case h_1 wasm hcall =>
      have hwasm : wasm ∈ modules := h.among id _ hcall
      cases hstep
      exact h.proceed hwasm trivial
    case h_2 wasm module hcall =>
      have hwasm : wasm ∈ modules := h.among id _ hcall
      cases hstep
      exact h.proceed hwasm trivial
    case h_3 => cases hstep
  | get id =>
    simp only [Starts.step] at hstep
    split at hstep
    case h_2 => cases hstep
    case h_1 wasm hcall =>
      have hwasm : wasm ∈ modules := h.among id _ hcall
      split at hstep
      case h_1 module cache hget =>
        cases hstep
        obtain ⟨hfrom, hkept⟩ := h.hit hsha hwasm hget
        exact hkept.proceed hwasm hfrom
      case h_2 =>
        cases hstep
        exact h.proceed hwasm trivial
  | compile id =>
    simp only [Starts.step] at hstep
    split at hstep
    case h_2 => cases hstep
    case h_1 wasm hcall =>
      have hwasm : wasm ∈ modules := h.among id _ hcall
      split at hstep
      all_goals
        cases hstep
        exact h.proceed hwasm ‹_›
  | insert id =>
    simp only [Starts.step] at hstep
    split at hstep
    case h_2 => cases hstep
    case h_1 wasm module hcall =>
      have hwasm : wasm ∈ modules := h.among id _ hcall
      have hfrom : R.fromBinary wasm = some module := h.own id _ hcall
      by_cases heffective : s.cache.Effective (R.sha256 wasm) (R.imageSize module)
      · obtain ⟨n, hleast, hinsert⟩ := Cache.insert_of_effective module h.bounded
          heffective
        rw [hinsert, Option.map_some, if_pos heffective] at hstep
        cases hstep
        exact (h.insert hwasm hfrom hleast.1 heffective.2.2).proceed hwasm hfrom
      · rw [Cache.insert_of_not_effective heffective, Option.map_some, if_neg heffective] at hstep
        cases hstep
        exact h.proceed hwasm hfrom
  | instantiate id =>
    simp only [Starts.step] at hstep
    split at hstep
    case h_2 => cases hstep
    case h_1 wasm module hcall =>
      have hwasm : wasm ∈ modules := h.among id _ hcall
      have hfrom : R.fromBinary wasm = some module := h.own id _ hcall
      cases hstep
      exact h.proceed hwasm hfrom

/-- Every reachable state. -/
theorem kept_of_reachable (hsha : modules.InjOn R.sha256)
    (hs : ((system R).restrict fun s l _ => Among modules s l).Reachable s) : Kept R modules s := by
  refine System.Inductive.of_reachable (I := Kept R modules) ⟨?_, ?_⟩ hs
  · rintro s rfl
    exact ⟨rfl, .new _, .nil, by simp [start, Cache.new], by simp [start], by simp [start]⟩
  · intro s l t h hstep
    exact h.step hsha hstep.1 hstep.2

/-- The locked insertion never panics when `Cache::insert` does not. -/
theorem step_insert {id : ℕ} {wasm : Bytes} {module : μ} {cache : Cache μ}
    (hcall : s.calls id = some (.compiled wasm module))
    (hinsert : s.cache.insert (R.sha256 wasm) module (R.imageSize module) = some cache) :
    ∃ t, step R s (.insert id) = some t ∧ t.cache = cache := by
  simp only [step, hcall, hinsert, Option.map_some]
  exact ⟨_, rfl, rfl⟩

/-- The locked lookup of a key that is there. -/
theorem step_get {id : ℕ} {wasm : Bytes} {module : μ} {cache : Cache μ}
    (hcall : s.calls id = some (.entered wasm))
    (hget : s.cache.get (R.sha256 wasm) = some (module, cache)) :
    ∃ t, step R s (.get id) = some t ∧ t.calls id = some (.ready wasm module) ∧
      t.cache = cache ∧ t.uses = .hit (R.sha256 wasm) :: s.uses := by
  simp only [step, hcall, hget]
  exact ⟨_, rfl, Function.update_self .., rfl, rfl⟩

/-- **The cache is transparent and evicts by last use.** In every interleaving of the calls, a call
instantiates what `Module::from_binary` makes of its own bytes and is rejected when that makes
nothing of them; the entries stand in the order of their last uses and no key twice; a lookup of a
key that is there finds what `Module::from_binary` makes of the bytes, and the key goes to the back;
and an insertion either changes nothing or gives up the shortest front part that makes room. -/
theorem cache_transparent {μ : Type*} (R : Runtime μ) (modules : Set Bytes)
    (hsha : modules.InjOn R.sha256) {s : Starts μ}
    (hs : ((system R).restrict fun s l _ => Among modules s l).Reachable s) :
    (∀ id wasm module, s.calls id = some (.instantiated wasm module) →
        R.fromBinary wasm = some module) ∧
      (∀ id wasm, s.calls id = some (.rejected wasm) → R.fromBinary wasm = none) ∧
      OldestFirst s.used s.cache.keys ∧
      s.cache.keys.Nodup ∧
      (∀ id wasm, s.calls id = some (.entered wasm) → R.sha256 wasm ∈ s.cache.keys →
        ∃ t module, step R s (.get id) = some t ∧ t.calls id = some (.ready wasm module) ∧
          R.fromBinary wasm = some module ∧
          t.cache.keys = s.cache.keys.erase (R.sha256 wasm) ++ [R.sha256 wasm] ∧
          t.uses = .hit (R.sha256 wasm) :: s.uses) ∧
      ∀ id wasm module, s.calls id = some (.compiled wasm module) →
        ∃ t, step R s (.insert id) = some t ∧
          (¬ s.cache.Effective (R.sha256 wasm) (R.imageSize module) → t.cache = s.cache) ∧
          (s.cache.Effective (R.sha256 wasm) (R.imageSize module) →
            ∃ n, IsLeast {n | Cache.Fits R.limits (R.imageSize module) (s.cache.entries.drop n)} n ∧
              t.cache.entries = s.cache.entries.drop n ++
                [{ key := R.sha256 wasm, module, size := R.imageSize module }]) := by
  have hkept := kept_of_reachable hsha hs
  refine ⟨fun id wasm module hcall => hkept.own id _ hcall, fun id wasm hcall =>
    hkept.own id _ hcall, hkept.ordered, hkept.ordered.nodup, fun id wasm hcall hkey => ?_,
    fun id wasm module hcall => ?_⟩
  · obtain ⟨module, cache, hget⟩ := Cache.exists_get_of_mem hkey
    obtain ⟨t, hstep, hready, hcache, huses⟩ := step_get hcall hget
    exact ⟨t, module, hstep, hready, (hkept.hit hsha (hkept.among id _ hcall) hget).1,
      hcache ▸ Cache.keys_get hkept.ordered.nodup hget, huses⟩
  by_cases heffective : s.cache.Effective (R.sha256 wasm) (R.imageSize module)
  · obtain ⟨n, hleast, hinsert⟩ := Cache.insert_of_effective module hkept.bounded
      heffective
    obtain ⟨t, hstep, hcache⟩ := step_insert hcall hinsert
    refine ⟨t, hstep, fun hnot => absurd heffective hnot, fun _ => ⟨n, ?_, ?_⟩⟩
    · exact hkept.limits ▸ hleast
    · rw [hcache]
  · obtain ⟨t, hstep, hcache⟩ := step_insert hcall (Cache.insert_of_not_effective heffective)
    exact ⟨t, hstep, fun _ => hcache, fun h => absurd h heffective⟩

/-- A runtime whose modules are single bytes, the keys repeat them, and two modules are cached. -/
def singles : Runtime Bytes where
  sha256 wasm := .replicate 32 (wasm.headD 0)
  fromBinary wasm := some wasm
  imageSize module := module.length
  limits := { maxCacheBytes := 2, maxCachedModules := 2 }

/-- The modules of `singles`. -/
def ones : Set Bytes := {wasm | wasm.length = 1}

instance : DecidablePred (· ∈ ones) := fun wasm => inferInstanceAs (Decidable (wasm.length = 1))

theorem injOn_singles : ones.InjOn singles.sha256 := by
  intro a ha b hb hkey
  obtain ⟨x, rfl⟩ := List.length_eq_one_iff.mp ha
  obtain ⟨y, rfl⟩ := List.length_eq_one_iff.mp hb
  have hxy : x = y := by
    have h := congrArg (fun v : Key => v[0]) hkey
    simpa [singles] using h
  rw [hxy]

/-- Two modules are cached, `7` before `8`, and a call of `0` has instantiated its own. A lookup of
`7` hits and puts it behind `8`; an insertion of `9` in its stead gives `7` up. -/
theorem cache_transparent_singles : ∃ s, ((system singles).restrict
      fun s l _ => Among ones s l).Reachable s ∧
    s.calls 0 = some (.instantiated [7] [7]) ∧
    s.cache.keys = [.replicate 32 7, .replicate 32 8] ∧
    (∃ t module, step singles s (.get 2) = some t ∧ t.calls 2 = some (.ready [7] module) ∧
      t.cache.keys = [.replicate 32 8, .replicate 32 7]) ∧
    ∃ t, step singles s (.insert 3) = some t ∧
      t.cache.keys = [.replicate 32 8, .replicate 32 9] := by
  have hrun : (System.trace (step singles) (Among ones) (start singles)
      [.call 0 [7], .get 0, .compile 0, .insert 0, .instantiate 0, .call 1 [8], .get 1, .compile 1,
        .insert 1, .call 2 [7], .call 3 [9], .get 3, .compile 3]).map
      (fun s => ([0, 2, 3].map s.calls, s.cache.keys, s.cache.entries.map Entry.size)) =
      some ([some (.instantiated [7] [7]), some (.entered [7]), some (.compiled [9] [9])],
        [.replicate 32 7, .replicate 32 8], [1, 1]) := by
    decide +kernel
  obtain ⟨s, hs, hview⟩ := Option.map_eq_some_iff.mp hrun
  simp only [Prod.mk.injEq, List.map_cons, List.map_nil, List.cons.injEq, and_true] at hview
  obtain ⟨⟨hinstantiated, hentered, hcompiled⟩, hkeys, hsizes⟩ := hview
  have hreach : ((system singles).restrict fun s l _ => Among ones s l).Reachable s :=
    System.reachable_of_trace rfl hs
  have hlimits := (kept_of_reachable injOn_singles hreach).limits
  obtain ⟨-, -, -, -, hget, hinsert⟩ := cache_transparent singles ones injOn_singles hreach
  refine ⟨s, hreach, hinstantiated, hkeys, ?_, ?_⟩
  · obtain ⟨t, module, hstep, hready, -, hback, -⟩ :=
      hget 2 [7] hentered (by rw [hkeys]; decide)
    exact ⟨t, module, hstep, hready, by rw [hback, hkeys]; decide⟩
  · obtain ⟨t, hstep, -, heffective⟩ := hinsert 3 [9] [9] hcompiled
    obtain ⟨n, hleast, hnew⟩ := heffective
      ⟨by rw [hlimits]; decide, by rw [hlimits]; decide, by rw [hkeys]; decide⟩
    refine ⟨t, hstep, ?_⟩
    -- the entry in front leaves, and it is enough that it does
    have hone : n = 1 := by
      have hlength : s.cache.entries.length = 2 := by
        simpa using congrArg List.length hsizes
      have hroom : (s.cache.entries.drop n).length + 1 ≤ 2 := hleast.1.1
      have htotal : total (s.cache.entries.drop 1) = 1 := by
        rw [total, List.map_drop, hsizes]
        rfl
      have hle : n ≤ 1 := hleast.2
        ⟨by rw [List.length_drop, hlength]; decide, by rw [htotal]; decide⟩
      rw [List.length_drop] at hroom
      omega
    have hrest : (s.cache.entries.drop n).map Entry.key = [.replicate 32 8] := by
      rw [List.map_drop, hone, show s.cache.entries.map Entry.key = _ from hkeys]
      rfl
    rw [Cache.keys, hnew, List.map_append, hrest]
    rfl

end Starts

end Javex.Native
