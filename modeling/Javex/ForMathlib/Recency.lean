import Mathlib.Data.List.Basic
import Mathlib.Data.List.Nodup
import Mathlib.Order.Bounds.Basic

/-!
# Queues ordered by last use

A replacement policy looks at two things: in which order the keys it holds were last used, and
how many of the oldest it has to give up. `OldestFirst uses ks` says that the queue `ks` is in the
order of the last uses recorded in `uses`, newest first; a queue stays so when a key is used and
moves to its end and when keys leave it. The shortest front part whose removal makes room is a
least element of `{n | P (l.drop n)}`.

The order is stated through ages rather than through timestamps: the age of a key is its position
among the uses, newest first, so that a further use makes every other key one older and leaves their
order as it was. This is the whole argument of `OldestFirst.use`. That a queue so ordered holds no
key twice is a consequence, since no key is older than itself.

A policy that evicts until there is room removes a front part, and the part is the shortest one if
it looks after every removal. `isLeast_drop_of_holds` and `IsLeast.drop_cons` are the two cases of
the loop: there is room now, or there is not and the front has to go.
-/

namespace Recency

variable {κ : Type*} [DecidableEq κ]

/-- How many uses ago a key was last used. The uses are recorded newest first. -/
def age (uses : List κ) (k : κ) : ℕ := uses.idxOf k

/-- The keys of a queue have all been used, and each more recently than those before it. -/
structure OldestFirst (uses ks : List κ) : Prop where
  used : ∀ k ∈ ks, k ∈ uses
  sorted : ks.Pairwise fun a b => age uses b < age uses a

variable {uses ks ls : List κ} {k : κ}

@[simp]
theorem age_cons_self : age (k :: uses) k = 0 := by
  rw [age, List.idxOf_cons_self]

theorem age_cons_of_ne {a : κ} (h : a ≠ k) : age (k :: uses) a = age uses a + 1 := by
  rw [age, List.idxOf_cons_ne _ h.symm]
  rfl

namespace OldestFirst

theorem nil : OldestFirst uses [] := ⟨by simp, .nil⟩

/-- A queue ordered by last use holds no key twice. -/
theorem nodup (h : OldestFirst uses ks) : ks.Nodup := by
  refine h.sorted.imp fun hlt heq => ?_
  rw [heq] at hlt
  exact lt_irrefl _ hlt

/-- Keys may leave anywhere. -/
theorem sublist (h : OldestFirst uses ks) (hl : ls.Sublist ks) : OldestFirst uses ls :=
  ⟨fun k hk => h.used k (hl.subset hk), h.sorted.sublist hl⟩

/-- A key that is used goes to the end. -/
theorem use (h : OldestFirst uses ks) (hk : k ∉ ks) : OldestFirst (k :: uses) (ks ++ [k]) := by
  have hne : ∀ a ∈ ks, a ≠ k := fun a ha hak => hk (hak ▸ ha)
  refine ⟨?_, List.pairwise_append.mpr ⟨?_, List.pairwise_singleton _ _, ?_⟩⟩
  · intro a ha
    rcases List.mem_append.mp ha with ha | ha
    · exact List.mem_cons_of_mem _ (h.used a ha)
    · exact List.mem_cons.mpr (.inl (List.mem_singleton.mp ha))
  · -- one use later, the ages among the others differ as before
    refine h.sorted.imp_of_mem fun ha hb hlt => ?_
    rw [age_cons_of_ne (hne _ ha), age_cons_of_ne (hne _ hb)]
    exact Nat.succ_lt_succ hlt
  · intro a ha b hb
    rw [List.mem_singleton.mp hb, age_cons_self, age_cons_of_ne (hne a ha)]
    exact Nat.succ_pos _

end OldestFirst

/-! ### The shortest front part -/

section Drop

variable {α : Type*} {P : List α → Prop} {a : α} {l : List α}

theorem isLeast_drop_of_holds (h : P l) : IsLeast {n | P (l.drop n)} 0 :=
  ⟨h, fun _ _ => Nat.zero_le _⟩

theorem IsLeast.drop_cons {n : ℕ} (hn : IsLeast {n | P (l.drop n)} n) (h : ¬ P (a :: l)) :
    IsLeast {n | P ((a :: l).drop n)} (n + 1) := by
  refine ⟨hn.1, fun m hm => ?_⟩
  cases m with
  | zero => exact absurd hm h
  | succ m => exact Nat.succ_le_succ (hn.2 hm)

end Drop

end Recency
