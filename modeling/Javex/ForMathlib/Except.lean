import Mathlib.Data.List.Forall2

/-!
# Fallible calls in sequence

When a chain of calls over `Except` succeeds and when it fails, and what a list of optional
results is made of. A check that is a `do` block is taken apart by these, one call at a time.

The lemmas are stated as equivalences, so that they serve in both directions: a hypothesis that a
chain succeeded gives the results of its links, and to show that it succeeds it is enough to give
them. `mapM_eq_some` reads a traversal as a relation between the two lists element by element, and
`mapM_eq_some_map` is the case where the elements on the left are determined by those on the right.
-/

namespace Except

variable {ε α β : Type} {x : Except ε α} {f : α → Except ε β}

/-- A chain succeeds if its first call does and the rest after it. -/
theorem bind_eq_ok {b : β} : x >>= f = .ok b ↔ ∃ a, x = .ok a ∧ f a = .ok b := by
  cases x with
  | error e => simp [Bind.bind, Except.bind]
  | ok a => simp [Bind.bind, Except.bind]

/-- A chain fails at its first call, or after it. -/
theorem bind_eq_error {e : ε} :
    x >>= f = .error e ↔ x = .error e ∨ ∃ a, x = .ok a ∧ f a = .error e := by
  cases x with
  | error e' => simp [Bind.bind, Except.bind]
  | ok a => simp [Bind.bind, Except.bind]

end Except

namespace List

variable {α β : Type} {f : α → Option β}

/-- A mapping succeeds if it does at every element. -/
theorem mapM_eq_some {xs : List α} {ys : List β} :
    xs.mapM f = some ys ↔ Forall₂ (fun x y => f x = some y) xs ys := by
  induction xs generalizing ys with
  | nil => simp [eq_comm]
  | cons x xs ih =>
    simp only [mapM_cons, Option.bind_eq_bind, Option.bind_eq_some_iff, forall₂_cons_left_iff]
    constructor
    · rintro ⟨y, hy, ys, hys, heq⟩
      cases heq
      exact ⟨y, ys, hy, ih.mp hys, rfl⟩
    · rintro ⟨y, ys, hy, hys, rfl⟩
      exact ⟨y, hy, ys, ih.mpr hys, rfl⟩

/-- A mapping that only unwraps what `g` wraps succeeds at the wrapped lists. -/
theorem mapM_eq_some_map {g : β → α} {P : β → Prop} (hf : ∀ x y, f x = some y ↔ x = g y ∧ P y)
    {xs : List α} {ys : List β} : xs.mapM f = some ys ↔ xs = ys.map g ∧ ∀ y ∈ ys, P y := by
  rw [mapM_eq_some]
  induction ys generalizing xs with
  | nil => simp
  | cons y ys ih =>
    simp only [forall₂_cons_right_iff, ih, map_cons, forall_mem_cons]
    constructor
    · rintro ⟨x, xs, hx, ⟨rfl, hys⟩, rfl⟩
      obtain ⟨rfl, hy⟩ := (hf x y).mp hx
      exact ⟨rfl, hy, hys⟩
    · rintro ⟨rfl, hy, hys⟩
      exact ⟨g y, ys.map g, (hf _ y).mpr ⟨rfl, hy⟩, ⟨rfl, hys⟩, rfl⟩

/-- An element of one list has a partner in the other. -/
theorem Forall₂.exists_mem {R : α → β → Prop} {xs : List α} {ys : List β} (h : Forall₂ R xs ys)
    {x : α} (hx : x ∈ xs) : ∃ y ∈ ys, R x y := by
  induction h with
  | nil => cases hx
  | cons hxy _ ih =>
    rcases mem_cons.mp hx with rfl | htail
    · exact ⟨_, mem_cons_self, hxy⟩
    · obtain ⟨y, hy, hxy⟩ := ih htail
      exact ⟨y, mem_cons_of_mem _ hy, hxy⟩

end List
