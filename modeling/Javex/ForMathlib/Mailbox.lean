import Mathlib.Data.List.Basic

/-!
# Selective receive

A mailbox is a list. A receive with the patterns of `p` takes the first message that matches, so
`findSome?` is what it gets and `eraseP` what it leaves.

A receive that is not selective would be `head?` and `tail`. With patterns, the messages that are
passed over stay where they are, and the question is always what a receive does to the messages of
another kind: `filterMap_eraseP_of_disjoint` says that it leaves them as they are and in their
order.
-/

namespace List

variable {α β γ : Type*} {q : α → Option γ}

/-- What matches is left without its first one. -/
theorem filterMap_eraseP_isSome (p : α → Option β) (xs : List α) :
    (xs.eraseP fun a => (p a).isSome).filterMap p = (xs.filterMap p).tail := by
  have htail (ys : List β) : ys.tail = ys.eraseP fun _ => true := by
    cases ys with
    | nil => rfl
    | cons b ys => rw [eraseP_cons_of_pos rfl, tail_cons]
  rw [htail, eraseP_filterMap]
  rfl

/-- What matches other patterns stays. -/
theorem filterMap_eraseP_of_disjoint {r : α → Bool} (h : ∀ a, r a → q a = none) (xs : List α) :
    (xs.eraseP r).filterMap q = xs.filterMap q := by
  induction xs with
  | nil => rfl
  | cons a xs ih =>
    by_cases hr : r a
    · rw [eraseP_cons_of_pos hr, filterMap_cons_none (h a hr)]
    · rw [eraseP_cons_of_neg hr, filterMap_cons, filterMap_cons, ih]

end List
