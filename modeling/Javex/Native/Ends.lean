import Javex.Native.Execution

/-!
# How a computation of the host ends

Rules for what a closure returns and how it fails, one for each way in which closures are put
together. They say nothing of the sandbox: what host calls do to it is the subject of
`Host.Keeps`.

A statement `Ends m Q F` is a postcondition for the result and one for the failure, and there is no
precondition: what a closure starts from is part of its definition. The rules are for the shapes
that occur (a result lifted from `Except`, a call, an `ensure!`, a sequence and a choice), and a
proof about a closure follows its text line by line.
-/

namespace Javex.Native

variable {α β : Type}

/-- The value of the computation satisfies `Q`, or its failure satisfies `F`. -/
def Host.Ends (m : Host α) (Q : α → Prop) (F : Failure → Prop) : Prop :=
  ∀ s, match (m.run.run s).1 with
    | .ok a => Q a
    | .error failure => F failure

namespace Host.Ends

variable {m : Host α} {P P' : α → Prop} {Q : β → Prop} {F F' : Failure → Prop}

theorem mono (h : Host.Ends m P F) (hP : ∀ a, P a → P' a) (hF : ∀ failure, F failure → F' failure) :
    Host.Ends m P' F' := by
  intro s
  have hs := h s
  split at hs
  case h_1 a _ => exact hP a hs
  case h_2 failure _ => exact hF failure hs

theorem pure {a : α} (h : P a) : Host.Ends (Pure.pure a) P F := fun _ => h

theorem throw {failure : Failure} (h : F failure) :
    Host.Ends (MonadExcept.throw failure : Host α) P F := fun _ => h

/-- A result that is at hand. -/
theorem lift {result : Except Failure α} (hok : ∀ a, result = .ok a → P a)
    (herror : ∀ failure, result = .error failure → F failure) :
    Host.Ends (liftM result : Host α) P F := by
  intro s
  cases result with
  | ok a => exact hok a rfl
  | error failure => exact herror failure rfl

/-- One computation after the other. -/
theorem bind {f : α → Host β} (hm : Host.Ends m P F) (hf : ∀ a, P a → Host.Ends (f a) Q F) :
    Host.Ends (m >>= f) Q F := by
  intro s
  have hfirst := hm s
  rw [ExceptT.run_bind, StateT.run_bind]
  cases hrun : m.run.run s with
  | mk result t =>
    rw [hrun] at hfirst
    cases result with
    | error failure => exact hfirst
    | ok a => exact hf a hfirst t

/-- A call of a guest function ends with its result. -/
theorem call {call : Call α} (hok : ∀ a, call.result = .ok a → P a)
    (herror : ∀ failure, call.result = .error failure → F failure) : Host.Ends call.run P F :=
  bind (P := fun _ => True) (fun _ => trivial) fun _ _ => lift hok herror

theorem ensure {p : Prop} [Decidable p] {message : Bytes} (h : ¬ p → F (.other message)) :
    Host.Ends (ensure p message) (fun _ => p) F := by
  intro s
  unfold Native.ensure
  by_cases hp : p
  · rw [if_pos hp]
    exact hp
  · rw [if_neg hp]
    exact h hp

theorem ite {p : Prop} [Decidable p] {m n : Host α} (hm : p → Host.Ends m P F)
    (hn : ¬ p → Host.Ends n P F) : Host.Ends (if p then m else n) P F := by
  split_ifs with hp
  · exact hm hp
  · exact hn hp

end Host.Ends

end Javex.Native
