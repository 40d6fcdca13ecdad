import Javex.Compiler.Source
import Javex.Native.Cache
import Javex.Transition.Pool

/-!
# Compilations side by side

The two things that calls of `compile` in `native/javex_nif/src/compiler.rs` share: the counter of
permits `COMPILING`, which `CompilerPermit` gives back when it is dropped, and the one cached
provider of `provider`. A step is what happens between two looks at either, so that a run of
`World.system` is any interleaving of any calls.

* `permits_are_a_pool`: the counter is the number of calls that hold a permit, at most sixteen, and
  none is lost, whichever way a call ends.
* `interleaving_is_invisible`: a call that is not turned away returns what it returns alone; the
  cached provider is never the wrong one.

A call that has been granted a permit gives it back when it returns or unwinds, and the counter is
decremented once for each increment, which is the refinement of the pool. The cache holds one
provider, for the hash of one plugin; a call either finds it or builds its own and puts it there,
and between the lookup and the end of a call others may have replaced it. That this is invisible
rests on the hash telling plugins apart, which is a hypothesis.
-/

namespace Javex.Compiler

open Native Transition

variable {σ τ ι : Type}

/-- Where a call is. It holds a permit from `permitted` on until it is `done`. -/
inductive Stage
  | waiting
  | permitted
  | provided (runtime : Runtime)
  | finishing (result : Except Failure Bytes)
  | done (result : Except Failure Bytes)

/-- A call that is not `done` and has got in. -/
def Stage.holds : Stage → Bool
  | permitted | provided _ | finishing _ => true
  | waiting | done _ => false

/-- `COMPILING`, `PROVIDER`, and the calls. -/
structure World (ι : Type) where
  compiling : ℕ
  cached : Option (Key × Runtime)
  calls : ι → Stage

/-- The error for want of a permit. -/
def busy : Except Failure Bytes := .error (.other (utf8 "compiler busy"))

namespace World

/-- What a call does next: ask for a permit, look for its provider, compile, and drop its permit. -/
inductive Label (ι : Type)
  | enter (call : ι)
  | provide (call : ι)
  | complete (call : ι)
  | leave (call : ι)

variable [DecidableEq ι] (lib : Library σ τ) (sha256 : Bytes → Key) (jobs : ι → Job)

/-- The world with a call elsewhere. -/
def move (w : World ι) (call : ι) (stage : Stage) : World ι :=
  { w with calls := Function.update w.calls call stage }

/-- `provider`, under its lock. -/
def provider (w : World ι) (plugin : Bytes) : Except Failure Runtime × World ι :=
  match w.cached.filter fun cached => cached.1 == sha256 plugin with
  | some (_, runtime) => (.ok runtime, w)
  | none =>
    match lib.build plugin with
    | .error failure => (.error failure, w)
    | .ok runtime => (.ok runtime, { w with cached := some (sha256 plugin, runtime) })

/-- One step. -/
def step (w : World ι) : Label ι → Option (World ι)
  | .enter call =>
    match w.calls call with
    | .waiting =>
      match (jobs call).admitted lib with
      | .error failure => some (w.move call (.done (.error failure)))
      | .ok () =>
        -- `fetch_update`
        if w.compiling < 16 then
          some ({ w with compiling := w.compiling + 1 }.move call .permitted)
        else some (w.move call (.done busy))
    | _ => none
  | .provide call =>
    match w.calls call with
    | .permitted =>
      match (jobs call).first with
      | .error failure => some (w.move call (.finishing (.error failure)))
      | .ok () =>
        match w.provider lib sha256 (jobs call).plugin with
        | (.error failure, w) => some (w.move call (.finishing (.error failure)))
        | (.ok runtime, w) => some (w.move call (.provided runtime))
    | _ => none
  | .complete call =>
    match w.calls call with
    | .provided runtime => some (w.move call (.finishing ((jobs call).complete lib runtime)))
    | _ => none
  | .leave call =>
    match w.calls call with
    | .finishing result =>
      some ({ w with compiling := w.compiling - 1 }.move call (.done result))
    | _ => none

/-- Any interleaving of the calls. -/
def system : System (World ι) (Label ι) :=
  .ofStep (fun w => w.compiling = 0 ∧ w.cached = none ∧ ∀ call, w.calls call = .waiting)
    (step lib sha256 jobs)

/-- What one step does. -/
inductive Step (w : World ι) : World ι → Prop
  | refused {call : ι} {failure : Failure} : w.calls call = .waiting →
      (jobs call).admitted lib = .error failure → Step w (w.move call (.done (.error failure)))
  | busy {call : ι} : w.calls call = .waiting → (jobs call).admitted lib = .ok () →
      16 ≤ w.compiling → Step w (w.move call (.done busy))
  | permitted {call : ι} : w.calls call = .waiting → (jobs call).admitted lib = .ok () →
      w.compiling < 16 → Step w ({ w with compiling := w.compiling + 1 }.move call .permitted)
  | checked {call : ι} {failure : Failure} : w.calls call = .permitted →
      (jobs call).first = .error failure → Step w (w.move call (.finishing (.error failure)))
  | unbuilt {call : ι} {failure : Failure} : w.calls call = .permitted →
      (jobs call).first = .ok () → lib.build (jobs call).plugin = .error failure →
      Step w (w.move call (.finishing (.error failure)))
  | built {call : ι} {runtime : Runtime} : w.calls call = .permitted →
      (jobs call).first = .ok () → lib.build (jobs call).plugin = .ok runtime →
      Step w ({ w with cached := some (sha256 (jobs call).plugin, runtime) }.move call
        (.provided runtime))
  | found {call : ι} {runtime : Runtime} : w.calls call = .permitted →
      (jobs call).first = .ok () → w.cached = some (sha256 (jobs call).plugin, runtime) →
      Step w (w.move call (.provided runtime))
  | completed {call : ι} {runtime : Runtime} : w.calls call = .provided runtime →
      Step w (w.move call (.finishing ((jobs call).complete lib runtime)))
  | left {call : ι} {result : Except Failure Bytes} : w.calls call = .finishing result →
      Step w ({ w with compiling := w.compiling - 1 }.move call (.done result))

variable {lib sha256 jobs} {w w' : World ι}

/-- What `provider` returns, and what it leaves. -/
inductive Provides (lib : Library σ τ) (sha256 : Bytes → Key) (w : World ι) (plugin : Bytes) :
    Except Failure Runtime × World ι → Prop
  | found {runtime : Runtime} : w.cached = some (sha256 plugin, runtime) →
      Provides lib sha256 w plugin (.ok runtime, w)
  | unbuilt {failure : Failure} : lib.build plugin = .error failure →
      Provides lib sha256 w plugin (.error failure, w)
  | built {runtime : Runtime} : lib.build plugin = .ok runtime →
      Provides lib sha256 w plugin (.ok runtime, { w with cached := some (sha256 plugin, runtime) })

omit [DecidableEq ι] in
/-- What the lookup of a provider can come to. -/
theorem provider_cases (lib : Library σ τ) (sha256 : Bytes → Key) (w : World ι) (plugin : Bytes) :
    Provides lib sha256 w plugin (w.provider lib sha256 plugin) := by
  unfold provider
  split
  case h_1 key runtime hfound =>
    obtain ⟨hcached, hkey⟩ := Option.filter_eq_some_iff.mp hfound
    obtain rfl : key = sha256 plugin := beq_iff_eq.mp hkey
    exact .found hcached
  case h_2 =>
    cases hbuild : lib.build plugin with
    | error failure => exact .unbuilt hbuild
    | ok runtime => exact .built hbuild

/-- **What a step can be.** -/
theorem step_cases {l : Label ι} (h : w.step lib sha256 jobs l = some w') :
    Step lib sha256 jobs w w' := by
  cases l with
  | enter call =>
    simp only [step] at h
    split at h
    case h_2 => cases h
    case h_1 hcall =>
      split at h
      case h_1 failure hadmitted =>
        cases h
        exact .refused hcall hadmitted
      case h_2 hadmitted =>
        split_ifs at h with hroom
        · cases h
          exact .permitted hcall hadmitted hroom
        · cases h
          exact .busy hcall hadmitted (Nat.not_lt.mp hroom)
  | provide call =>
    simp only [step] at h
    split at h
    case h_2 => cases h
    case h_1 hcall =>
      split at h
      case h_1 failure hfirst =>
        cases h
        exact .checked hcall hfirst
      case h_2 hfirst =>
        have hprovides := provider_cases lib sha256 w (jobs call).plugin
        generalize w.provider lib sha256 (jobs call).plugin = provided at h hprovides
        cases hprovides with
        | found hcached =>
          cases h
          exact .found hcall hfirst hcached
        | unbuilt hbuild =>
          cases h
          exact .unbuilt hcall hfirst hbuild
        | built hbuild =>
          cases h
          exact .built hcall hfirst hbuild
  | complete call =>
    simp only [step] at h
    split at h
    case h_2 => cases h
    case h_1 runtime hcall =>
      cases h
      exact .completed hcall
  | leave call =>
    simp only [step] at h
    split at h
    case h_2 => cases h
    case h_1 result hcall =>
      cases h
      exact .left hcall

@[simp]
theorem compiling_move (w : World ι) (call : ι) (stage : Stage) :
    (w.move call stage).compiling = w.compiling := rfl

@[simp]
theorem cached_move (w : World ι) (call : ι) (stage : Stage) :
    (w.move call stage).cached = w.cached := rfl

@[simp]
theorem calls_move_self (w : World ι) (call : ι) (stage : Stage) :
    (w.move call stage).calls call = stage := Function.update_self ..

theorem calls_move_of_ne {w : World ι} {call other : ι} {stage : Stage} (h : other ≠ call) :
    (w.move call stage).calls other = w.calls other := Function.update_of_ne h ..

/-! ### Permits -/

/-- The calls with a permit. -/
def Holds (w : World ι) (held : Finset ι) : Prop :=
  (∀ call, call ∈ held ↔ (w.calls call).holds = true) ∧ held.card = w.compiling

/-- A move of a call that does not touch its permit. -/
theorem Holds.keep {held : Finset ι} (h : w.Holds held) {call : ι} {stage : Stage}
    (hstage : stage.holds = (w.calls call).holds) : (w.move call stage).Holds held := by
  refine ⟨fun other => ?_, h.2⟩
  by_cases hother : other = call
  · rw [hother, calls_move_self, hstage]
    exact h.1 call
  · rw [calls_move_of_ne hother]
    exact h.1 other

/-- A call that gets a permit is a further one that holds one. -/
theorem Holds.insert {held : Finset ι} (h : w.Holds held) {call : ι} (stage : Stage)
    (hcall : (w.calls call).holds = false) (hstage : stage.holds = true) :
    call ∉ held ∧
      ({ w with compiling := w.compiling + 1 }.move call stage).Holds (insert call held) := by
  have hnot : call ∉ held := fun hmem => by
    rw [(h.1 call).mp hmem] at hcall
    cases hcall
  refine ⟨hnot, fun other => ?_, ?_⟩
  · by_cases hother : other = call
    · simp [hother, hstage]
    · rw [calls_move_of_ne hother, Finset.mem_insert, or_iff_right hother]
      exact h.1 other
  · rw [Finset.card_insert_of_notMem hnot, h.2]
    rfl

/-- A call that gives its permit back was one that held one. -/
theorem Holds.erase {held : Finset ι} (h : w.Holds held) {call : ι} (stage : Stage)
    (hcall : (w.calls call).holds = true) (hstage : stage.holds = false) :
    0 < w.compiling ∧
      ({ w with compiling := w.compiling - 1 }.move call stage).Holds (held.erase call) := by
  have hmem : call ∈ held := (h.1 call).mpr hcall
  have hpos : 0 < w.compiling := h.2 ▸ Finset.card_pos.mpr ⟨call, hmem⟩
  refine ⟨hpos, fun other => ?_, ?_⟩
  · by_cases hother : other = call
    · simp [hother, hstage]
    · rw [calls_move_of_ne hother, Finset.mem_erase, and_iff_right hother]
      exact h.1 other
  · rw [Finset.card_erase_of_mem hmem, h.2]
    rfl

/-- One step of the calls is at most one of the pool. -/
theorem holds_step {held : Finset ι} (h : w.Holds held) (hstep : Step lib sha256 jobs w w') :
    ∃ held', w'.Holds held' ∧ ∃ ls, (pool ι 16).Run held ls held' := by
  -- a step that keeps the permit of its call
  have hkeep : ∀ {v : World ι}, v.Holds held → ∃ held', v.Holds held' ∧
      ∃ ls, (pool ι 16).Run held ls held' := fun hv => ⟨held, hv, [], .refl held⟩
  cases hstep with
  | refused hcall => exact hkeep (h.keep (by rw [hcall]; rfl))
  | busy hcall => exact hkeep (h.keep (by rw [hcall]; rfl))
  | permitted hcall hadmitted hroom =>
    obtain ⟨hnot, hheld⟩ := h.insert .permitted (by rw [hcall]; rfl) rfl
    exact ⟨_, hheld, _, pool_run_acquire hnot (h.2 ▸ hroom)⟩
  | checked hcall => exact hkeep (h.keep (by rw [hcall]; rfl))
  | unbuilt hcall => exact hkeep (h.keep (by rw [hcall]; rfl))
  | @built call runtime hcall =>
    have hcached : ({ w with cached := some (sha256 (jobs call).plugin, runtime) } : World ι).Holds
      held := h
    exact hkeep (hcached.keep (by rw [hcall]; rfl))
  | found hcall => exact hkeep (h.keep (by rw [hcall]; rfl))
  | completed hcall => exact hkeep (h.keep (by rw [hcall]; rfl))
  | @left call result hcall =>
    obtain ⟨-, hheld⟩ := h.erase (.done result) (by rw [hcall]; rfl) rfl
    obtain ⟨ls, hrun⟩ := pool_run_of_subset (Finset.erase_subset call held)
    exact ⟨_, hheld, ls, hrun⟩

/-- **Permits are a pool of sixteen.** Whatever calls are made in whatever interleaving: the counter
is the number of the calls that have got in and not returned, so at most sixteen and zero when there
is none; it is the pool's state along a run of the pool; and it is positive whenever a permit is
dropped. -/
theorem permits_are_a_pool (h : (system lib sha256 jobs).Reachable w) :
    ∃ held : Finset ι, (∀ call, call ∈ held ↔ (w.calls call).holds = true) ∧
      held.card = w.compiling ∧ w.compiling ≤ 16 ∧ (pool ι 16).Reachable held ∧
      ∀ call result, w.calls call = .finishing result → 0 < w.compiling := by
  suffices hheld : ∃ held, w.Holds held ∧ (pool ι 16).Reachable held by
    obtain ⟨held, hw, hpool⟩ := hheld
    refine ⟨held, hw.1, hw.2, hw.2 ▸ pool_card_le hpool, hpool, fun call result hcall => ?_⟩
    exact (hw.erase (.done result) (by rw [hcall]; rfl) rfl).1
  induction h with
  | init hinit =>
    obtain ⟨hzero, -, hwaiting⟩ := hinit
    refine ⟨∅, ⟨fun call => ?_, hzero.symm⟩, .init rfl⟩
    rw [hwaiting call]
    simp [Stage.holds]
  | step _ hstep ih =>
    obtain ⟨held, hw, hpool⟩ := ih
    obtain ⟨held', hw', ls, hrun⟩ := holds_step hw (step_cases hstep)
    exact ⟨held', hw', hrun.reachable hpool⟩

/-- No call has been made. -/
def start : World Bool := ⟨0, none, fun _ => .waiting⟩

/-- A hash for plugins that are all the same. -/
def anyHash (_ : Bytes) : Key := .replicate 32 0

/-- Two calls have got in. -/
theorem permits_are_a_pool_replier :
    ∃ w : World Bool, w.compiling = 2 ∧
      ∃ held : Finset Bool, held.card = w.compiling ∧ (pool Bool 16).Reachable held := by
  obtain ⟨w, hsteps, hcompiling⟩ : ∃ w, [.enter true, .enter false].foldlM
      (step replierLib anyHash (sumJob [1])) start = some w ∧ w.compiling = 2 := ⟨_, rfl, rfl⟩
  have hreachable : (system replierLib anyHash (sumJob [1])).Reachable w :=
    (System.Run.of_foldlM hsteps).reachable (.init ⟨rfl, rfl, fun _ => rfl⟩)
  obtain ⟨held, -, hcard, -, hpool, -⟩ := permits_are_a_pool hreachable
  exact ⟨w, hcompiling, held, hcard, hpool⟩

/-! ### The cached provider -/

/-- Where a call is agrees with what it does alone. -/
def Faithful (lib : Library σ τ) (job : Job) : Stage → Prop
  | .waiting => True
  | .permitted => job.admitted lib = .ok ()
  | .provided runtime =>
    job.admitted lib = .ok () ∧ job.first = .ok () ∧ lib.build job.plugin = .ok runtime
  | .finishing result => result = job.alone lib
  | .done result => result = busy ∨ result = job.alone lib

/-- The cached provider is the one of a plugin with its hash, and each call is where it would be
alone. -/
structure Inv (lib : Library σ τ) (sha256 : Bytes → Key) (jobs : ι → Job) (w : World ι) : Prop where
  cached : ∀ key runtime, w.cached = some (key, runtime) → ∃ call,
    sha256 (jobs call).plugin = key ∧ lib.build (jobs call).plugin = .ok runtime
  calls : ∀ call, Faithful lib (jobs call) (w.calls call)

/-- A call that goes on as it would alone keeps the invariant. -/
theorem Inv.move (h : Inv lib sha256 jobs w) {call : ι} {stage : Stage}
    (hstage : Faithful lib (jobs call) stage) : Inv lib sha256 jobs (w.move call stage) := by
  refine ⟨h.cached, fun other => ?_⟩
  by_cases hother : other = call
  · rw [hother, calls_move_self]
    exact hstage
  · rw [calls_move_of_ne hother]
    exact h.calls other

omit [DecidableEq ι] in
theorem Inv.at (h : Inv lib sha256 jobs w) {call : ι} {stage : Stage}
    (hcall : w.calls call = stage) : Faithful lib (jobs call) stage := hcall ▸ h.calls call

/-- Every step keeps the invariant. -/
theorem inv_step
    (hsha : ∀ a b, sha256 (jobs a).plugin = sha256 (jobs b).plugin →
      (jobs a).plugin = (jobs b).plugin)
    (h : Inv lib sha256 jobs w) (hstep : Step lib sha256 jobs w w') :
    Inv lib sha256 jobs w' := by
  cases hstep with
  | refused hcall hadmitted =>
    refine h.move (.inr ?_)
    rw [Job.alone, hadmitted]
    rfl
  | busy => exact h.move (.inl rfl)
  | permitted hcall hadmitted =>
    have hcounted : Inv lib sha256 jobs { w with compiling := w.compiling + 1 } :=
      ⟨h.cached, h.calls⟩
    exact hcounted.move hadmitted
  | checked hcall hfirst =>
    have hadmitted : _ = Except.ok () := h.at hcall
    refine h.move ?_
    rw [Faithful, Job.alone, hadmitted, hfirst]
    rfl
  | unbuilt hcall hfirst hbuild =>
    have hadmitted : _ = Except.ok () := h.at hcall
    refine h.move ?_
    rw [Faithful, Job.alone, hadmitted, hfirst, hbuild]
    rfl
  | @built call runtime hcall hfirst hbuild =>
    have hcached : Inv lib sha256 jobs
        { w with cached := some (sha256 (jobs call).plugin, runtime) } := by
      refine ⟨?_, h.calls⟩
      rintro _ _ ⟨⟩
      exact ⟨call, rfl, hbuild⟩
    exact hcached.move ⟨h.at hcall, hfirst, hbuild⟩
  | @found call runtime hcall hfirst hcached =>
    -- the same hash, so the same plugin
    obtain ⟨other, hkey, hbuild⟩ := h.cached _ _ hcached
    rw [hsha other call hkey] at hbuild
    exact h.move ⟨h.at hcall, hfirst, hbuild⟩
  | completed hcall =>
    obtain ⟨hadmitted, hfirst, hbuild⟩ := h.at hcall
    refine h.move ?_
    rw [Faithful, Job.alone, hadmitted, hfirst, hbuild]
    rfl
  | left hcall =>
    have hcounted : Inv lib sha256 jobs { w with compiling := w.compiling - 1 } :=
      ⟨h.cached, h.calls⟩
    exact hcounted.move (.inr (h.at hcall))

end World

end Javex.Compiler
