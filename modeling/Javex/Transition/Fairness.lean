import Javex.Transition.System
import Mathlib.Data.Nat.Init

/-!
# Work and fairness

Rules that a system gets somewhere. Two of them go by a number that no step makes larger, the work
that is left.

* `Run.countP_add_work_le`: a run takes no more steps of a kind that uses up work than there is
  work, whatever steps of other kinds it takes in between.
* `Behaviour.leads_to`: the rule for one kind of step that gets to the goal at once.
* `Helpful.eventually`: if at every state short of the goal some thread is due to use up work, and
  stays the one that is until work has been used up, then a behaviour that is fair to the threads
  gets to the goal.

Fairness is asked of kinds of steps, not of single steps, and in the form that a scheduler gives it:
a step that is due from some time on is taken some time. What makes a step due is a parameter of
`FairTo`, because a step being enabled is often not what a real scheduler goes by: a timer that has
fired once is not due again although its message may still be read, and a process is due to die once
it has been told to and not whenever it could. `WeaklyFair` is the case where enabledness is all
there is to it.

The rules do not ask that the work that is left be a step's own: a thread may lower the work of
another. They ask only that whoever is due stays due while no work is used up, so that the fairness
of the one thread at hand is enough to get to the next smaller number, and the induction is on that
number. A `Behaviour` is infinite; one that has nothing to do repeats a state, which is why it may
stutter.
-/

namespace Transition

universe u v w

variable {σ : Type u} {ℓ : Type v} {κ : Type w} {S : System σ ℓ}

namespace System

/-- **Bounded work.** Where an invariant holds steps of a kind use up work, and no step adds to
it. -/
theorem Run.countP_add_work_le {I : σ → Prop} {work : σ → ℕ} {own : ℓ → Bool}
    (hstep : ∀ s l t, I s → S.step s l t → I t)
    (hle : ∀ s l t, I s → S.step s l t → work t ≤ work s)
    (hlt : ∀ s l t, own l = true → I s → S.step s l t → work t < work s) {s t : σ} {ls : List ℓ}
    (h : S.Run s ls t) (hs : I s) : ls.countP own + work t ≤ work s := by
  induction h with
  | refl => simp
  | @snoc t u ls l hrun hlast ih =>
    have ht := hrun.invariant hstep hs
    rw [List.countP_append, List.countP_singleton]
    by_cases hown : own l = true
    · have hless := hlt t l u hown ht hlast
      rw [if_pos hown]
      omega
    · have hkeep := hle t l u ht hlast
      rw [if_neg hown]
      omega

/-- Some step of a kind can be taken. -/
def Enabled (S : System σ ℓ) (kind : ℓ → Prop) (s : σ) : Prop := ∃ l t, kind l ∧ S.step s l t

/-- A behaviour that goes on for ever. -/
structure Behaviour (S : System σ ℓ) where
  state : ℕ → σ
  label : ℕ → ℓ
  step : ∀ i, S.step (state i) (label i) (state (i + 1))

namespace Behaviour

variable (b : S.Behaviour)

/-- What is due from some point on is done. What is due may be less than what the system allows, as
when it lets a message come again that is sent only once. -/
def FairTo (due : σ → Prop) (kind : ℓ → Prop) : Prop :=
  ∀ i, (∀ j, i ≤ j → due (b.state j)) → ∃ j, i ≤ j ∧ kind (b.label j)

/-- Weak fairness: what can be done from some point on is done. -/
def WeaklyFair (kind : ℓ → Prop) : Prop := b.FairTo (S.Enabled kind) kind

/-- What every step keeps holds from where it holds first. -/
theorem invariant {I : σ → Prop} (hstep : ∀ s l t, I s → S.step s l t → I t) {i j : ℕ}
    (hij : i ≤ j) (hi : I (b.state i)) : I (b.state j) := by
  induction j, hij using Nat.le_induction with
  | base => exact hi
  | succ j _ ih => exact hstep _ _ _ ih (b.step j)

end Behaviour

/-- **Leads to.** What a kind of step does in one go, and is due to do until it is done, is done in
a behaviour that is fair to it. -/
theorem Behaviour.leads_to (b : S.Behaviour) {I G due : σ → Prop} {kind : ℓ → Prop}
    (hstep : ∀ s l t, I s → S.step s l t → I t ∨ G t) (hdue : ∀ s, I s → ¬ G s → due s)
    (hdone : ∀ s l t, I s → kind l → S.step s l t → G t) (hfair : b.FairTo due kind) {i : ℕ}
    (hi : I (b.state i)) : ∃ j, i ≤ j ∧ G (b.state j) := by
  by_contra hnever
  have hshort : ∀ j, i ≤ j → ¬ G (b.state j) := fun j hij hgoal => hnever ⟨j, hij, hgoal⟩
  have hinv : ∀ j, i ≤ j → I (b.state j) := by
    intro j hij
    induction j, hij using Nat.le_induction with
    | base => exact hi
    | succ j hij ih =>
      exact (hstep _ _ _ ih (b.step j)).resolve_right (hshort _ (Nat.le_succ_of_le hij))
  obtain ⟨j, hij, hkind⟩ := hfair i fun j hij => hdue _ (hinv j hij) (hshort j hij)
  exact hshort (j + 1) (Nat.le_succ_of_le hij) (hdone _ _ _ (hinv j hij) hkind (b.step j))

/-- At every state short of the goal `helper` names a thread that is due to use up work; no step
adds to the work, and one that leaves it as it is leaves the helper as it is. -/
structure Helpful (S : System σ ℓ) (I Goal : σ → Prop) (due : κ → σ → Prop)
    (thread : κ → ℓ → Prop) (work : σ → ℕ) (helper : σ → κ) : Prop where
  step : ∀ s l t, I s → S.step s l t → I t
  helps : ∀ s, I s → ¬ Goal s → due (helper s) s
  keeps : ∀ s l t, I s → ¬ Goal s → S.step s l t →
    work t < work s ∨ work t = work s ∧ helper t = helper s
  spends : ∀ s l t, I s → ¬ Goal s → thread (helper s) l → S.step s l t → work t < work s

/-- **Progress.** With a helper at every state short of the goal, a behaviour that is fair to every
thread gets to the goal. -/
theorem Helpful.eventually {I Goal : σ → Prop} {due : κ → σ → Prop} {thread : κ → ℓ → Prop}
    {work : σ → ℕ} {helper : σ → κ} (h : S.Helpful I Goal due thread work helper)
    (b : S.Behaviour) (hfair : ∀ k, b.FairTo (due k) (thread k)) {i : ℕ} (hi : I (b.state i)) :
    ∃ j, i ≤ j ∧ Goal (b.state j) := by
  induction hwork : work (b.state i) using Nat.strong_induction_on generalizing i with
  | _ n ih =>
    by_contra hnever
    have hshort : ∀ j, i ≤ j → ¬ Goal (b.state j) := fun j hij hgoal => hnever ⟨j, hij, hgoal⟩
    have hinv : ∀ j, i ≤ j → I (b.state j) := fun j hij => b.invariant h.step hij hi
    -- no work is ever used up, or the hypothesis of the induction applies
    have hsame : ∀ j, i ≤ j →
        work (b.state j) = n ∧ helper (b.state j) = helper (b.state i) := by
      intro j hij
      induction j, hij using Nat.le_induction with
      | base => exact ⟨hwork, rfl⟩
      | succ j hij hj =>
        rcases h.keeps _ _ _ (hinv j hij) (hshort j hij) (b.step j) with hless | ⟨hequal, hhelper⟩
        · rw [hj.1] at hless
          obtain ⟨k, hjk, hgoal⟩ := ih _ hless (hinv _ (Nat.le_succ_of_le hij)) rfl
          exact absurd hgoal (hshort k (by omega))
        · exact ⟨hequal.trans hj.1, hhelper.trans hj.2⟩
    -- so one thread is due throughout, and gets its turn
    have hdue : ∀ j, i ≤ j → due (helper (b.state i)) (b.state j) := by
      intro j hij
      rw [← (hsame j hij).2]
      exact h.helps _ (hinv j hij) (hshort j hij)
    obtain ⟨j, hij, hturn⟩ := hfair _ i hdue
    have hless := h.spends _ _ _ (hinv j hij) (hshort j hij)
      (by rw [(hsame j hij).2]; exact hturn) (b.step j)
    rw [(hsame j hij).1, (hsame (j + 1) (Nat.le_succ_of_le hij)).1] at hless
    exact Nat.lt_irrefl _ hless

end System

end Transition
