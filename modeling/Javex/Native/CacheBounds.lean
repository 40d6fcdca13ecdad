import Javex.ForMathlib.Checked
import Javex.Native.Cache

/-!
# The cache keeps its limits and never panics

`Cache::insert` of `Native/Cache.lean` once more, with its subtractions and its addition checked
and with no result where the source unwraps the front of an empty queue. The early returns and the
invariant `Cache.Sound` make it the same function.

* `cache_calls_safe`: any calls of `get` and `insert` on a new cache.

The two readings of `insert` differ where an arithmetic operation has no result, so the comparison
is of a total function with a partial one. It goes through the conditions that the source checks
before: the image is no larger than the whole cache and there is room for at least one module, so
the loop stops at the latest when the queue is empty, and by then the bytes are zero. The invariant
says that the byte count is the sum over the entries, which is what keeps each subtraction from
underflow, and that it is no more than a limit that is a `usize`, which keeps the addition from
overflow.
-/

namespace Javex.Native

open Unsigned

variable {μ : Type}

namespace Cache

/-- The condition of the loop of `Cache::insert`; the second test is made if the first fails. -/
def mustEvict (limits : CacheOptions) (size length bytes : ℕ) : Option Bool :=
  if limits.maxCachedModules ≤ length then some true
  else do
    let room ← sub? limits.maxCacheBytes bytes
    return decide (room < size)

/-- The loop of `Cache::insert`. -/
def evictChecked (limits : CacheOptions) (size : ℕ) :
    List (Entry μ) → ℕ → Option (List (Entry μ) × ℕ)
  | [], bytes => do
    if ← mustEvict limits size 0 bytes then none
    else return ([], bytes)
  | entry :: entries, bytes => do
    if ← mustEvict limits size (entry :: entries).length bytes then
      let bytes ← sub? bytes entry.size
      evictChecked limits size entries bytes
    else return (entry :: entries, bytes)

variable (c : Cache μ)

/-- `Cache::insert`. -/
def insertChecked (key : Key) (module : μ) (size : ℕ) : Option (Cache μ) :=
  if c.limits.maxCacheBytes < size ∨ c.limits.maxCachedModules = 0 then some c
  else if c.entries.any fun entry => entry.key == key then some c
  else do
    let (entries, bytes) ← evictChecked c.limits size c.entries c.bytes
    let bytes ← add? 64 bytes size
    return { c with entries := entries ++ [{ key, module, size }], bytes }

/-- A call of the cache. -/
inductive Call (μ : Type)
  | get (key : Key)
  | insert (key : Key) (module : μ) (size : ℕ)

/-- The cache after a call, unless it panics. -/
def call : Call μ → Option (Cache μ)
  | .get key =>
    match c.get key with
    | none => some c
    | some (_, c') => some c'
  | .insert key module size => c.insertChecked key module size

/-- The cache after some calls, unless one of them panics. -/
def calls (c : Cache μ) (cs : List (Call μ)) : Option (Cache μ) := cs.foldlM call c

/-- A cache within its limits, with its keys apart. -/
structure Sound : Prop extends c.Bounded where
  keys_nodup : c.keys.Nodup

end Cache

/-! ### The checks never fail -/

namespace Cache

variable {c c' : Cache μ} {key : Key} {module : μ} {size : ℕ}

theorem mustEvict_eq {limits : CacheOptions} {length bytes : ℕ}
    (hle : bytes ≤ limits.maxCacheBytes) : mustEvict limits size length bytes =
      some (decide (limits.maxCachedModules ≤ length ∨ limits.maxCacheBytes - bytes < size)) := by
  unfold mustEvict
  split_ifs with h
  · simp [h]
  · simp [h, sub?_of_le hle]

/-- While the byte count is that of the entries, the loop subtracts nothing below zero. -/
theorem evictChecked_eq {limits : CacheOptions} {entries : List (Entry μ)} {bytes : ℕ}
    (hbytes : bytes = total entries) (hle : bytes ≤ limits.maxCacheBytes) :
    evictChecked limits size entries bytes = evict limits size entries bytes := by
  induction entries generalizing bytes with
  | nil => simp [evictChecked, evict, mustEvict_eq hle]
  | cons entry entries ih =>
    rw [total_cons] at hbytes
    have hsub : sub? bytes entry.size = some (bytes - entry.size) := sub?_of_le (by omega)
    have hrest := @ih (bytes - entry.size) (by omega) (by omega)
    simp [evictChecked, evict, mustEvict_eq hle, hsub, hrest]

/-- **No check of an insertion fails** in a cache within its limits. -/
theorem insertChecked_eq (hc : c.Bounded) (hlimit : c.limits.maxCacheBytes < 2 ^ 64) :
    c.insertChecked key module size = c.insert key module size := by
  unfold insertChecked
  by_cases heffective : c.Effective key size
  · obtain ⟨n, hleast, hinsert⟩ := insert_of_effective module hc heffective
    obtain ⟨hsize, hmodules, hkey⟩ := heffective
    obtain ⟨n', hleast', hevict⟩ := evict_spec hsize hmodules hc.bytes_eq hc.bytes_le
    obtain rfl := hleast.unique hleast'
    have hany : ¬ (c.entries.any fun entry => entry.key == key) = true := by
      simpa [keys] using hkey
    -- what the loop leaves has room for the new image
    have hfits : total (c.entries.drop n) + size ≤ c.limits.maxCacheBytes := hleast.1.2
    have hadd : add? 64 (total (c.entries.drop n)) size =
        some (total (c.entries.drop n) + size) := add?_of_lt (hfits.trans_lt hlimit)
    rw [if_neg (by omega), if_neg hany, hinsert, evictChecked_eq hc.bytes_eq hc.bytes_le, hevict]
    simp [hadd]
  · rw [insert_of_not_effective heffective]
    by_cases hlimits : c.limits.maxCacheBytes < size ∨ c.limits.maxCachedModules = 0
    · rw [if_pos hlimits]
    · rw [if_neg hlimits, if_pos]
      rw [not_or] at hlimits
      by_contra hany
      exact heffective ⟨by omega, hlimits.2, by simpa [keys] using hany⟩

/-! ### What a call keeps -/

theorem Sound.new (limits : CacheOptions) : (Cache.new limits : Cache μ).Sound :=
  ⟨.new limits, List.nodup_nil⟩

/-- A hit only moves an entry. -/
theorem Sound.get (hc : c.Sound) (h : c.get key = some (module, c')) : c'.Sound := by
  have hbounded := hc.toBounded.get h
  have hnodup := hc.keys_nodup
  obtain ⟨before, entry, after, heq, -, -, rfl⟩ := get_eq_some h
  refine ⟨hbounded, ?_⟩
  have hperm : (before ++ after ++ [entry]).Perm c.entries := by
    rw [heq, List.append_assoc]
    exact (List.perm_append_singleton entry after).append_left before
  exact (hperm.map Entry.key).nodup_iff.mpr hnodup

/-- An insertion gives up entries from the front and adds a new key. -/
theorem Sound.insert (hc : c.Sound) (hlimit : c.limits.maxCacheBytes < 2 ^ 64)
    (key : Key) (module : μ) (size : ℕ) :
    ∃ c', c.insertChecked key module size = some c' ∧ c'.Sound ∧ c'.limits = c.limits := by
  rw [insertChecked_eq hc.toBounded hlimit]
  by_cases heffective : c.Effective key size
  · obtain ⟨n, hleast, hinsert⟩ := insert_of_effective module hc.toBounded heffective
    refine ⟨_, hinsert, ⟨.append hleast.1, ?_⟩, rfl⟩
    have hdrop : ((c.entries.drop n).map Entry.key).Sublist c.keys :=
      (List.drop_sublist n c.entries).map Entry.key
    simp only [keys, List.map_append, List.map_cons, List.map_nil]
    refine List.Nodup.append (hc.keys_nodup.sublist hdrop) (List.nodup_singleton _) ?_
    rw [List.disjoint_singleton]
    exact fun hmem => heffective.2.2 (hdrop.subset hmem)
  · exact ⟨c, insert_of_not_effective heffective, hc, rfl⟩

/-- One call. -/
theorem Sound.call (hc : c.Sound) (hlimit : c.limits.maxCacheBytes < 2 ^ 64) (l : Call μ) :
    ∃ c', c.call l = some c' ∧ c'.Sound ∧ c'.limits = c.limits := by
  cases l with
  | get key =>
    cases hget : c.get key with
    | none => exact ⟨c, by rw [Cache.call, hget], hc, rfl⟩
    | some found =>
      obtain ⟨module, c'⟩ := found
      have hsound := hc.get hget
      obtain ⟨before, entry, after, -, -, -, rfl⟩ := get_eq_some hget
      exact ⟨_, by rw [Cache.call, hget], hsound, rfl⟩
  | insert key module size => exact hc.insert hlimit key module size

/-- Any calls. -/
theorem Sound.calls (hc : c.Sound) (hlimit : c.limits.maxCacheBytes < 2 ^ 64)
    (cs : List (Call μ)) : ∃ c', c.calls cs = some c' ∧ c'.Sound ∧ c'.limits = c.limits := by
  induction cs generalizing c with
  | nil => exact ⟨c, rfl, hc, rfl⟩
  | cons l cs ih =>
    obtain ⟨c₁, hcall, hsound, heq⟩ := hc.call hlimit l
    obtain ⟨c₂, hcalls, hsound₂, heq₂⟩ := ih hsound (heq ▸ hlimit)
    refine ⟨c₂, ?_, hsound₂, heq₂.trans heq⟩
    rw [Cache.calls, List.foldlM_cons, hcall]
    exact hcalls

end Cache

/-- **The cache is safe.** For all limits and all calls on a new cache, nothing wraps and no empty
queue is unwrapped; the keys are apart, the byte count is that of the entries, both limits hold, and
neither a lookup that finds nothing nor an insertion that takes no effect changes the cache. -/
theorem cache_calls_safe (maxCacheBytes maxCachedModules : UInt64) (cs : List (Cache.Call μ)) :
    ∃ c : Cache μ,
      (Cache.new ⟨maxCacheBytes.toNat, maxCachedModules.toNat⟩).calls cs = some c ∧
      c.keys.Nodup ∧ c.bytes = total c.entries ∧ c.bytes ≤ maxCacheBytes.toNat ∧
      c.entries.length ≤ maxCachedModules.toNat ∧
      (∀ key, c.get key = none → c.call (.get key) = some c) ∧
      ∀ key module size, maxCacheBytes.toNat < size ∨ maxCachedModules = 0 ∨ key ∈ c.keys →
        c.call (.insert key module size) = some c := by
  have hlimit : maxCacheBytes.toNat < 2 ^ 64 := maxCacheBytes.toNat_lt
  obtain ⟨c, hcalls, hsound, hlimits⟩ :=
    (Cache.Sound.new (μ := μ) ⟨maxCacheBytes.toNat, maxCachedModules.toNat⟩).calls hlimit cs
  have hc := hsound.toBounded
  rw [Cache.new] at hlimits
  refine ⟨c, hcalls, hsound.keys_nodup, hc.bytes_eq, ?_, ?_, fun key hget => ?_,
    fun key module size hskip => ?_⟩
  · simpa [hlimits] using hc.bytes_le
  · simpa [hlimits] using hc.length_le
  · rw [Cache.call, hget]
  · rw [Cache.call, Cache.insertChecked_eq hc (by rw [hlimits]; exact hlimit)]
    refine Cache.insert_of_not_effective ?_
    rintro ⟨hsize, hmodules, hkey⟩
    rw [hlimits] at hsize hmodules
    rcases hskip with hlarge | hzero | hmem
    · exact absurd hsize (Nat.not_le.mpr hlarge)
    · exact hmodules (by rw [hzero]; rfl)
    · exact hkey hmem

end Javex.Native
