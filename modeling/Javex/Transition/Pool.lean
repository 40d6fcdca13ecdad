import Javex.Transition.System
import Mathlib.Data.Finset.Card
import Mathlib.Data.Finset.Insert
import Mathlib.Data.Finset.Erase

/-!
# A bounded pool of slots

The abstract resource behind an admission limit: at most `capacity` keys are held at a
time, a key is acquired only while there is room and only if it is not held, and is
released at any time. A component that admits work against a limit refines it by mapping
its state to the set of keys that occupy a slot.

The pool is stated over finite sets of keys and knows neither who holds a key nor why. What a
component adds to it (a queue of messages, a process for each key, a timer) is in the mapping, and
the bound is then a fact about the pool alone: `pool_card_le` is by induction on a run of the pool,
and the component's bound is read off it. Since a release may come at any time, a component may give
up several slots in one step; `pool_run_of_subset` is that case.
-/

namespace Transition

universe u

variable {κ : Type u} [DecidableEq κ]

/-- What happens to a slot. -/
inductive PoolLabel (κ : Type u)
  | acquire (key : κ)
  | release (key : κ)

/-- The pool of `capacity` slots. -/
def pool (κ : Type u) [DecidableEq κ] (capacity : ℕ) : System (Finset κ) (PoolLabel κ) where
  init held := held = ∅
  step held
    | .acquire key, held' => key ∉ held ∧ held.card < capacity ∧ held' = insert key held
    | .release key, held' => held' = held.erase key

/-- A step of the pool keeps the number of held keys within the capacity. -/
theorem pool_card_step {capacity : ℕ} {held held' : Finset κ} {l : PoolLabel κ}
    (h : (pool κ capacity).step held l held') (hc : held.card ≤ capacity) :
    held'.card ≤ capacity := by
  cases l with
  | acquire key =>
    obtain ⟨hnot, hroom, rfl⟩ := h
    rw [Finset.card_insert_of_notMem hnot]
    omega
  | release key =>
    obtain rfl := h
    exact (Finset.card_erase_le).trans hc

/-- **The pool is never oversubscribed.** -/
theorem pool_card_le {capacity : ℕ} {held : Finset κ}
    (h : (pool κ capacity).Reachable held) : held.card ≤ capacity := by
  have hind : (pool κ capacity).Inductive fun held => held.card ≤ capacity := by
    refine ⟨?_, fun s l t hs hst => pool_card_step hst hs⟩
    rintro s rfl
    simp
  exact hind.of_reachable h

/-- A held set shrinks to any of its subsets by releases alone. -/
theorem pool_run_of_subset {capacity : ℕ} {held held' : Finset κ} (h : held' ⊆ held) :
    ∃ ls, (pool κ capacity).Run held ls held' := by
  induction hn : (held \ held').card generalizing held with
  | zero =>
    have hsub : held ⊆ held' := Finset.sdiff_eq_empty_iff_subset.mp (Finset.card_eq_zero.mp hn)
    obtain rfl := h.antisymm hsub
    exact ⟨[], .refl _⟩
  | succ n ih =>
    obtain ⟨key, hkey⟩ := Finset.card_pos.mp (by omega : 0 < (held \ held').card)
    obtain ⟨hmem, hnot⟩ := Finset.mem_sdiff.mp hkey
    have hsub : held' ⊆ held.erase key := fun k hk =>
      Finset.mem_erase.mpr ⟨fun he => hnot (he ▸ hk), h hk⟩
    have hcard : (held.erase key \ held').card = n := by
      rw [Finset.erase_sdiff_comm, Finset.card_erase_of_mem hkey]
      omega
    obtain ⟨ls, hrun⟩ := ih hsub hcard
    have hstep : (pool κ capacity).step held (.release key) (held.erase key) := rfl
    exact ⟨_, (System.Run.single hstep).trans hrun⟩

/-- Acquiring one key with room for it is a run. -/
theorem pool_run_acquire {capacity : ℕ} {held : Finset κ} {key : κ} (hnot : key ∉ held)
    (hroom : held.card < capacity) :
    (pool κ capacity).Run held [.acquire key] (insert key held) :=
  System.Run.single ⟨hnot, hroom, rfl⟩

end Transition
