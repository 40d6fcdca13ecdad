import Mathlib.Logic.Relation
import Mathlib.Order.RelClasses
import Mathlib.Data.List.Basic
import Mathlib.Data.List.Induction
import Mathlib.Tactic.SplitIfs

/-!
# Labelled transition systems

A `System` is a set of initial states and a labelled step relation; its labels are the
messages, timers and choices of whatever is modelled on it. Two views of its behaviour
are used:

* `System.Reachable`, the states some run ends in, along which an inductive invariant
  (`System.Inductive`) is carried once and for all by `Inductive.of_reachable`;
* `System.Run`, the runs with their labels, for statements about which steps a run took.

An invariant that needs facts proved earlier is proved relative to the reachable states
(`of_reachable_rel`), so a development can stack invariants without restating them.
`Refinement` relates a system to a more abstract one through an abstraction map; each
concrete step is a path of abstract steps, so it may stutter or do several at once.

The relation is a `Prop`, so that a step may be as nondeterministic as the thing that it models: a
choice of the environment is a label, and what is left to chance within a label is whatever the
relation admits. Where the steps are computed, `ofStep` turns a partial function into a system, and
`trace` runs it on a list of labels, which is how a run on fixed inputs is exhibited and checked by
evaluation.

`restrict` keeps the steps that a predicate allows and leaves the states alone. An assumption about
the environment is stated so, as a restriction of the system rather than as a hypothesis about one
run: the states that are reachable without it stay reachable with it (`Reachable.of_restrict`), and
a stronger assumption reaches no more (`Reachable.mono`).
-/

namespace Transition

universe u v w x

variable {σ : Type u} {ℓ : Type v} {α : Type w} {κ : Type x}

/-- A labelled transition system: the states it starts in and its labelled steps. -/
structure System (σ : Type u) (ℓ : Type v) where
  /-- The states a run starts in. -/
  init : σ → Prop
  /-- `step s l t`: in state `s` the system may do `l` and be in `t`. -/
  step : σ → ℓ → σ → Prop

namespace System

variable (S : System σ ℓ)

/-- The runs from `s` to `t` with the labels they took, oldest first. -/
inductive Run : σ → List ℓ → σ → Prop
  | refl (s : σ) : Run s [] s
  | snoc {s t u : σ} {ls : List ℓ} {l : ℓ} : Run s ls t → S.step t l u → Run s (ls ++ [l]) u

/-- The states some run from an initial state ends in. -/
inductive Reachable : σ → Prop
  | init {s : σ} : S.init s → Reachable s
  | step {s t : σ} {l : ℓ} : Reachable s → S.step s l t → Reachable t

/-- An inductive invariant: it holds initially and every step keeps it. -/
structure Inductive (I : σ → Prop) : Prop where
  init : ∀ s, S.init s → I s
  step : ∀ s l t, I s → S.step s l t → I t

/-- The system of a step function: a label that is not enabled has no step. -/
def ofStep (init : σ → Prop) (f : σ → ℓ → Option σ) : System σ ℓ where
  init := init
  step s l t := f s l = some t

/-- The same system with only the steps that satisfy `P`. -/
def restrict (P : σ → ℓ → σ → Prop) : System σ ℓ where
  init := S.init
  step s l t := S.step s l t ∧ P s l t

variable {S}

/-- An inductive invariant holds in every reachable state. -/
theorem Inductive.of_reachable {I : σ → Prop} (h : S.Inductive I) {s : σ}
    (hs : S.Reachable s) : I s := by
  induction hs with
  | init h0 => exact h.init _ h0
  | step _ hst ih => exact h.step _ _ _ ih hst

/-- An invariant whose step case may use that the source state is reachable, hence every
invariant proved before it. -/
theorem of_reachable_rel {I : σ → Prop} (h0 : ∀ s, S.init s → I s)
    (hstep : ∀ s l t, S.Reachable s → I s → S.step s l t → I t) {s : σ}
    (hs : S.Reachable s) : I s := by
  induction hs with
  | init h => exact h0 _ h
  | step hr hst ih => exact hstep _ _ _ hr ih hst

/-- A run from a reachable state ends in a reachable state. -/
theorem Run.reachable {s t : σ} {ls : List ℓ} (h : S.Run s ls t) (hs : S.Reachable s) :
    S.Reachable t := by
  induction h with
  | refl => exact hs
  | snoc _ hst ih => exact ih.step hst

/-- Every reachable state ends a run from an initial one. -/
theorem Reachable.exists_run {t : σ} (h : S.Reachable t) :
    ∃ s ls, S.init s ∧ S.Run s ls t := by
  induction h with
  | init h0 => exact ⟨_, [], h0, .refl _⟩
  | step _ hst ih =>
    obtain ⟨s, ls, h0, hrun⟩ := ih
    exact ⟨s, _, h0, hrun.snoc hst⟩

/-- Runs compose. -/
theorem Run.trans {s t u : σ} {ls ms : List ℓ} (h₁ : S.Run s ls t) (h₂ : S.Run t ms u) :
    S.Run s (ls ++ ms) u := by
  induction h₂ with
  | refl => simpa using h₁
  | snoc _ hst ih =>
    rw [← List.append_assoc]
    exact ih.snoc hst

/-- One step is a run. -/
theorem Run.single {s t : σ} {l : ℓ} (h : S.step s l t) : S.Run s [l] t :=
  Run.snoc (.refl s) h

/-- The last step of a run. -/
theorem Run.of_concat {s u : σ} {ls : List ℓ} {l : ℓ} (h : S.Run s (ls ++ [l]) u) :
    ∃ t, S.Run s ls t ∧ S.step t l u := by
  generalize hlabels : ls ++ [l] = labels at h
  cases h with
  | refl => exact absurd hlabels (List.append_ne_nil_of_right_ne_nil _ (List.cons_ne_nil _ _))
  | snoc hrun hstep =>
    obtain ⟨rfl, hlast⟩ := List.append_inj' hlabels rfl
    obtain rfl := List.singleton_inj.mp hlast
    exact ⟨_, hrun, hstep⟩

/-- A run is cut anywhere. -/
theorem Run.of_append {s u : σ} {ls ms : List ℓ} (h : S.Run s (ls ++ ms) u) :
    ∃ t, S.Run s ls t ∧ S.Run t ms u := by
  induction ms using List.reverseRecOn generalizing u with
  | nil => exact ⟨u, by rwa [List.append_nil] at h, .refl u⟩
  | append_singleton ms l ih =>
    rw [← List.append_assoc] at h
    obtain ⟨v, hrun, hstep⟩ := Run.of_concat h
    obtain ⟨t, hfirst, hrest⟩ := ih hrun
    exact ⟨t, hfirst, hrest.snoc hstep⟩

/-- What holds of a state and is kept by every step holds along any run from it. -/
theorem Run.invariant {I : σ → Prop} (hstep : ∀ s l t, I s → S.step s l t → I t) {s t : σ}
    {ls : List ℓ} (h : S.Run s ls t) (hs : I s) : I t := by
  induction h with
  | refl => exact hs
  | snoc _ hst ih => exact hstep _ _ _ ih hst

/-- **Ranking.** If every state of a set that is short of the goal has a step within the set to a
state of smaller rank, then some run leads to the goal. -/
theorem exists_run_of_ranking {ρ : Type*} [LT ρ] [WellFoundedLT ρ] (rank : σ → ρ)
    {I Goal : σ → Prop}
    (hstep : ∀ s, I s → ¬ Goal s → ∃ l t, S.step s l t ∧ I t ∧ rank t < rank s) {s : σ}
    (hs : I s) : ∃ ls t, S.Run s ls t ∧ Goal t := by
  induction hr : rank s using WellFoundedLT.induction generalizing s with
  | ind r ih =>
    by_cases hgoal : Goal s
    · exact ⟨[], s, .refl s, hgoal⟩
    · obtain ⟨l, t, hst, ht, hlt⟩ := hstep s hs hgoal
      obtain ⟨ls, u, hrun, hu⟩ := ih _ (hr ▸ hlt) ht rfl
      exact ⟨[l] ++ ls, u, (Run.single hst).trans hrun, hu⟩

/-- A restriction reaches no more than the system. -/
theorem Reachable.of_restrict {P : σ → ℓ → σ → Prop} {s : σ}
    (h : (S.restrict P).Reachable s) : S.Reachable s := by
  induction h with
  | init h0 => exact .init h0
  | step _ hst ih => exact ih.step hst.1

/-- A restriction reaches no more than a weaker one. -/
theorem Reachable.mono {P Q : σ → ℓ → σ → Prop} (hPQ : ∀ s l t, P s l t → Q s l t) {s : σ}
    (h : (S.restrict P).Reachable s) : (S.restrict Q).Reachable s := by
  induction h with
  | init h0 => exact .init h0
  | step _ hst ih => exact ih.step ⟨hst.1, hPQ _ _ _ hst.2⟩

/-- The steps of a list are a run, if all of them are enabled. -/
theorem Run.of_foldlM {init : σ → Prop} {f : σ → ℓ → Option σ} {s t : σ} {ls : List ℓ}
    (h : ls.foldlM f s = some t) : (ofStep init f).Run s ls t := by
  induction ls generalizing s with
  | nil =>
    cases h
    exact .refl _
  | cons l ls ih =>
    rw [List.foldlM_cons] at h
    obtain ⟨u, hu, hrest⟩ := Option.bind_eq_some_iff.mp h
    exact (Run.single (S := ofStep init f) hu).trans (ih hrest)

/-- The state a list of steps ends in, if all of them are enabled and satisfy `P`. -/
def trace (f : σ → ℓ → Option σ) (P : σ → ℓ → Prop) [∀ s l, Decidable (P s l)] (s : σ)
    (ls : List ℓ) : Option σ :=
  ls.foldlM (fun s l => if P s l then f s l else none) s

/-- A trace from a reachable state of the restricted system ends in one. -/
theorem Reachable.of_trace {init : σ → Prop} {f : σ → ℓ → Option σ} {P : σ → ℓ → Prop}
    [∀ s l, Decidable (P s l)] {s t : σ} {ls : List ℓ}
    (hs : ((ofStep init f).restrict fun s l _ => P s l).Reachable s)
    (h : trace f P s ls = some t) : ((ofStep init f).restrict fun s l _ => P s l).Reachable t := by
  induction ls generalizing s with
  | nil =>
    cases h
    exact hs
  | cons l ls ih =>
    rw [trace, List.foldlM_cons] at h
    obtain ⟨u, hu, hrest⟩ := Option.bind_eq_some_iff.mp h
    split_ifs at hu with hP
    exact ih (hs.step ⟨hu, hP⟩) hrest

/-- A trace from an initial state ends in a reachable state of the restricted system. -/
theorem reachable_of_trace {init : σ → Prop} {f : σ → ℓ → Option σ} {P : σ → ℓ → Prop}
    [∀ s l, Decidable (P s l)] {s t : σ} {ls : List ℓ} (hs : init s)
    (h : trace f P s ls = some t) : ((ofStep init f).restrict fun s l _ => P s l).Reachable t :=
  Reachable.of_trace (.init hs) h

end System

/-- `abs` maps the states of `S` to those of `A` so that initial states stay initial and
every step from a reachable state is matched by a run of `A`. -/
structure Refinement (S : System σ ℓ) (A : System α κ) (abs : σ → α) : Prop where
  init : ∀ s, S.init s → A.init (abs s)
  step : ∀ s l t, S.Reachable s → S.step s l t → ∃ ks, A.Run (abs s) ks (abs t)

/-- A refinement maps reachable states to reachable states, so every invariant of the
abstract system holds of the concrete one. -/
theorem Refinement.reachable {S : System σ ℓ} {A : System α κ} {abs : σ → α}
    (h : Refinement S A abs) {s : σ} (hs : S.Reachable s) : A.Reachable (abs s) := by
  induction hs with
  | init h0 => exact .init (h.init _ h0)
  | step hr hst ih =>
    obtain ⟨ks, hrun⟩ := h.step _ _ _ hr hst
    exact hrun.reachable ih

end Transition
