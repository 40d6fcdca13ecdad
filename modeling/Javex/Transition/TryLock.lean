import Javex.Transition.System
import Mathlib.Logic.Function.Basic
import Mathlib.Data.List.Nodup

/-!
# An object behind a lock that nobody waits for

A slot that holds an object until it is used up, with a lock that is tried and never waited for: a
call that finds it taken is refused at once. A use of the object may keep it, use it up or panic,
which poisons the lock; then every later call is refused. Any number of calls are made in any
interleaving, and each of them is a few steps: it is entered, tries the lock, uses the object and
leaves. What a call returns may be lost on its way out, in which case it looks refused.

* `linearizable`: the uses make up one sequential history. Each call that is not refused returns
  what its use in that history came to, and calls that do not overlap are there in their order.
* `never_refused_alone`: where calls do not overlap, none of them is refused before the object is
  gone.

The history is recorded by a ghost field, the log, in which a use stands from the moment at which it
has the object. That moment is the linearization point of the call: it lies between the entry of the
call and its return, so that the order of the log agrees with the order of calls that do not
overlap. The invariant `Inv` says for each call where it stands and which entry of the log is its
own. A step either records a use (`Inv.record`) or uses nothing (`Inv.quiet`), and these two lemmas
carry the invariant.

What the lock adds to a plain object is that a refusal says nothing: a call that is refused may have
come too early or too late. `never_refused_alone` is the converse, for a caller that makes one call
after the other: while the object is there and nothing has panicked, nobody is in its way.
-/

namespace Transition

universe u v w

/-- What a use of an object comes to. -/
inductive Use (σ : Type u) (ρ : Type w)
  | kept (object : σ) (reply : ρ)
  | last (reply : ρ)
  | panicked

/-- How a call ends. -/
inductive Ending (ρ : Type w)
  | replied (reply : ρ)
  | refused
  | panicked
  deriving DecidableEq

/-- How far a call has got. -/
inductive Phase (α : Type v) (ρ : Type w)
  | idle
  | entered (arg : α)
  | holding (arg : α)
  | leaving (arg : α) (ending : Ending ρ)
  | returned (arg : α) (ending : Ending ρ)

/-- The slot with its lock, and the calls. `log` only records the uses, in their order. -/
structure Guarded (σ : Type u) (α : Type v) (ρ : Type w) where
  slot : Option σ
  holder : Option ℕ
  poisoned : Bool
  phase : ℕ → Phase α ρ
  log : List (ℕ × α × Ending ρ)

namespace Guarded

variable {σ : Type u} {α : Type v} {ρ : Type w}

/-- An object that nobody has used. -/
def fresh (object : σ) : Guarded σ α ρ where
  slot := some object
  holder := none
  poisoned := false
  phase _ := .idle
  log := []

/-- What may happen next; what a call returns may be `lost`. -/
inductive Label (α : Type v)
  | enter (call : ℕ) (arg : α)
  | tryLock (call : ℕ)
  | use (call : ℕ)
  | leave (call : ℕ) (lost : Bool)

/-- A call gets on. -/
def goto (g : Guarded σ α ρ) (call : ℕ) (phase : Phase α ρ) : Guarded σ α ρ :=
  { g with phase := Function.update g.phase call phase }

/-- A use of the object. -/
def used (use : σ → α → Use σ ρ) (g : Guarded σ α ρ) (call : ℕ) (arg : α) : Guarded σ α ρ :=
  match g.slot with
  | none => g.goto call (.leaving arg .refused)
  | some object =>
    match use object arg with
    | .kept object' reply =>
      { g.goto call (.leaving arg (.replied reply)) with
        slot := some object', log := g.log ++ [(call, arg, .replied reply)] }
    | .last reply =>
      { g.goto call (.leaving arg (.replied reply)) with
        slot := none, log := g.log ++ [(call, arg, .replied reply)] }
    | .panicked =>
      { g.goto call (.leaving arg .panicked) with
        poisoned := true, log := g.log ++ [(call, arg, .panicked)] }

/-- One step of a call. -/
def step (use : σ → α → Use σ ρ) (g : Guarded σ α ρ) : Label α → Option (Guarded σ α ρ)
  | .enter call arg =>
    match g.phase call with
    | .idle => some (g.goto call (.entered arg))
    | _ => none
  | .tryLock call =>
    match g.phase call with
    | .entered arg =>
      if g.holder.isSome || g.poisoned then some (g.goto call (.returned arg .refused))
      else some { g.goto call (.holding arg) with holder := some call }
    | _ => none
  | .use call =>
    match g.phase call with
    | .holding arg => some (g.used use call arg)
    | _ => none
  | .leave call lost =>
    match g.phase call with
    | .leaving arg ending =>
      some { g.goto call (.returned arg (if lost then .refused else ending)) with holder := none }
    | _ => none

/-- Calls on an object that nobody has used. -/
def system (use : σ → α → Use σ ρ) (object : σ) : System (Guarded σ α ρ) (Label α) :=
  .ofStep (· = fresh object) (step use)

/-- The object, while it can be used. -/
def live (g : Guarded σ α ρ) : Option σ := if g.poisoned then none else g.slot

/-- A call is between the lock and its release. -/
def Inside (g : Guarded σ α ρ) (call : ℕ) : Prop :=
  (∃ arg, g.phase call = .holding arg) ∨ ∃ arg ending, g.phase call = .leaving arg ending

/-! ### What a step does -/

/-- A step, with what it needs. -/
inductive Acts (use : σ → α → Use σ ρ) (g : Guarded σ α ρ) : Label α → Guarded σ α ρ → Prop
  | enter {call : ℕ} {arg : α} : g.phase call = .idle →
      Acts use g (.enter call arg) (g.goto call (.entered arg))
  | refused {call : ℕ} {arg : α} : g.phase call = .entered arg →
      g.holder.isSome = true ∨ g.poisoned = true →
      Acts use g (.tryLock call) (g.goto call (.returned arg .refused))
  | locked {call : ℕ} {arg : α} : g.phase call = .entered arg → g.holder = none →
      g.poisoned = false →
      Acts use g (.tryLock call) { g.goto call (.holding arg) with holder := some call }
  | gone {call : ℕ} {arg : α} : g.phase call = .holding arg → g.slot = none →
      Acts use g (.use call) (g.goto call (.leaving arg .refused))
  | kept {call : ℕ} {arg : α} {object object' : σ} {reply : ρ} : g.phase call = .holding arg →
      g.slot = some object → use object arg = .kept object' reply →
      Acts use g (.use call) { g.goto call (.leaving arg (.replied reply)) with
        slot := some object', log := g.log ++ [(call, arg, .replied reply)] }
  | last {call : ℕ} {arg : α} {object : σ} {reply : ρ} : g.phase call = .holding arg →
      g.slot = some object → use object arg = .last reply →
      Acts use g (.use call) { g.goto call (.leaving arg (.replied reply)) with
        slot := none, log := g.log ++ [(call, arg, .replied reply)] }
  | panicked {call : ℕ} {arg : α} {object : σ} : g.phase call = .holding arg →
      g.slot = some object → use object arg = .panicked →
      Acts use g (.use call) { g.goto call (.leaving arg .panicked) with
        poisoned := true, log := g.log ++ [(call, arg, .panicked)] }
  | leave {call : ℕ} {arg : α} {ending : Ending ρ} {lost : Bool} :
      g.phase call = .leaving arg ending →
      Acts use g (.leave call lost)
        { g.goto call (.returned arg (if lost then .refused else ending)) with holder := none }

variable {use : σ → α → Use σ ρ} {g g' : Guarded σ α ρ} {l : Label α} {object : σ}

theorem step_cases (h : step use g l = some g') : Acts use g l g' := by
  cases l with
  | enter call arg =>
    simp only [step] at h
    split at h <;> cases h
    case h_1 hphase => exact .enter hphase
  | tryLock call =>
    simp only [step] at h
    split at h
    case h_1 arg hphase =>
      split_ifs at h with hbusy
      · cases h
        exact .refused hphase (by simpa using hbusy)
      · cases h
        simp only [Bool.or_eq_true, not_or, Bool.not_eq_true, Option.isSome_eq_false_iff,
          Option.isNone_iff_eq_none] at hbusy
        exact .locked hphase hbusy.1 hbusy.2
    case h_2 => cases h
  | use call =>
    simp only [step] at h
    split at h
    case h_1 arg hphase =>
      cases h
      unfold used
      cases hslot : g.slot with
      | none => exact .gone hphase hslot
      | some object =>
        dsimp only
        cases huse : use object arg with
        | kept object' reply => exact .kept hphase hslot huse
        | last reply => exact .last hphase hslot huse
        | panicked => exact .panicked hphase hslot huse
    case h_2 => cases h
  | leave call lost =>
    simp only [step] at h
    split at h <;> cases h
    case h_1 arg ending hphase => exact .leave hphase

@[simp]
theorem phase_goto (g : Guarded σ α ρ) (call : ℕ) (phase : Phase α ρ) (d : ℕ) :
    (g.goto call phase).phase d = if d = call then phase else g.phase d := by
  simp [goto, Function.update_apply]

/-! ### The invariant -/

/-- The uses of an object one after the other, and the object that they leave. -/
inductive History (use : σ → α → Use σ ρ) (object : σ) :
    List (ℕ × α × Ending ρ) → Option σ → Prop
  | nil : History use object [] (some object)
  | kept {log : List (ℕ × α × Ending ρ)} {current next : σ} {call : ℕ} {arg : α} {reply : ρ} :
      History use object log (some current) → use current arg = .kept next reply →
      History use object (log ++ [(call, arg, .replied reply)]) (some next)
  | last {log : List (ℕ × α × Ending ρ)} {current : σ} {call : ℕ} {arg : α} {reply : ρ} :
      History use object log (some current) → use current arg = .last reply →
      History use object (log ++ [(call, arg, .replied reply)]) none
  | panicked {log : List (ℕ × α × Ending ρ)} {current : σ} {call : ℕ} {arg : α} :
      History use object log (some current) → use current arg = .panicked →
      History use object (log ++ [(call, arg, .panicked)]) none

/-- A use that the history records belongs to a call that has got past it. -/
def Past (g : Guarded σ α ρ) (e : ℕ × α × Ending ρ) : Prop :=
  g.phase e.1 = .leaving e.2.1 e.2.2 ∨ g.phase e.1 = .returned e.2.1 e.2.2 ∨
    g.phase e.1 = .returned e.2.1 .refused

/-- The invariant of the slot and its calls. -/
structure Inv (use : σ → α → Use σ ρ) (object : σ) (g : Guarded σ α ρ) : Prop where
  history : History use object g.log g.live
  inside : ∀ call, g.Inside call ↔ g.holder = some call
  sound : ∀ call arg, g.phase call = .holding arg → g.poisoned = false
  past : ∀ e ∈ g.log, g.Past e
  nodup : (g.log.map Prod.fst).Nodup
  leaving : ∀ call arg ending, g.phase call = .leaving arg ending →
    ending = .refused ∨ (call, arg, ending) ∈ g.log
  returned : ∀ call arg ending, g.phase call = .returned arg ending →
    ending = .refused ∨ (call, arg, ending) ∈ g.log

theorem inv_fresh (use : σ → α → Use σ ρ) (object : σ) :
    Inv use object (fresh object : Guarded σ α ρ) where
  history := .nil
  inside call := by
    constructor
    · rintro (⟨arg, h⟩ | ⟨arg, ending, h⟩) <;> cases h
    · intro h
      cases h
  sound call arg h := by cases h
  past e he := absurd he List.not_mem_nil
  nodup := List.nodup_nil
  leaving call arg ending h := by cases h
  returned call arg ending h := by cases h

/-- No use of a call that has not got past the lock is recorded. -/
theorem Inv.not_mem_log (h : Inv use object g) {call : ℕ}
    (hphase : g.phase call = .idle ∨ (∃ arg, g.phase call = .entered arg) ∨
      ∃ arg, g.phase call = .holding arg) : call ∉ g.log.map Prod.fst := by
  intro hmem
  obtain ⟨e, he, rfl⟩ := List.mem_map.mp hmem
  have hpast := h.past e he
  rcases hphase with hidle | ⟨arg, hentered⟩ | ⟨arg, hholding⟩
  · simp [Past, hidle] at hpast
  · simp [Past, hentered] at hpast
  · simp [Past, hholding] at hpast

/-- A recorded use stays one when another call gets on. -/
theorem Past.goto {e : ℕ × α × Ending ρ} (h : g.Past e) {call : ℕ} (hne : e.1 ≠ call)
    (phase : Phase α ρ) (hphase : ∀ d, g'.phase d = (g.goto call phase).phase d) : g'.Past e := by
  simpa only [Past, hphase, phase_goto, if_neg hne] using h

/-- **A step that uses nothing** keeps the invariant. -/
theorem Inv.quiet (h : Inv use object g) {call : ℕ} {phase : Phase α ρ}
    (hphase : ∀ d, g'.phase d = (g.goto call phase).phase d) (hlog : g'.log = g.log)
    (hlive : g'.live = g.live) (hinside : ∀ d, g'.Inside d ↔ g'.holder = some d)
    (hsound : ∀ d arg, g'.phase d = .holding arg → g'.poisoned = false)
    (hpast : ∀ e ∈ g.log, e.1 = call → g'.Past e)
    (hleaving : ∀ arg ending, phase = .leaving arg ending → ending = .refused)
    (hreturned : ∀ arg ending, phase = .returned arg ending →
      ending = .refused ∨ (call, arg, ending) ∈ g.log) : Inv use object g' where
  history := by
    rw [hlog, hlive]
    exact h.history
  inside := hinside
  sound := hsound
  past e he := by
    rw [hlog] at he
    by_cases hcall : e.1 = call
    · exact hpast e he hcall
    · exact (h.past e he).goto hcall phase hphase
  nodup := by
    rw [hlog]
    exact h.nodup
  leaving d arg ending hd := by
    rw [hlog]
    rw [hphase, phase_goto] at hd
    split_ifs at hd with hcall
    · exact .inl (hleaving arg ending hd)
    · exact h.leaving d arg ending hd
  returned d arg ending hd := by
    rw [hlog]
    rw [hphase, phase_goto] at hd
    split_ifs at hd with hcall
    · exact hcall ▸ hreturned arg ending hd
    · exact h.returned d arg ending hd

/-- A call that is not inside leaves the others where they are. -/
theorem inside_goto {call d : ℕ} {phase : Phase α ρ} (hne : d ≠ call) :
    (g.goto call phase).Inside d ↔ g.Inside d := by
  simp only [Inside, phase_goto, if_neg hne]

/-- A call that is entered or refused keeps the invariant. -/
theorem Inv.outside (h : Inv use object g) {call : ℕ} {phase : Phase α ρ}
    (hnew : call ∉ g.log.map Prod.fst) (hout : ¬ g.Inside call)
    (hphase : (∃ arg, phase = .entered arg) ∨ ∃ arg, phase = .returned arg .refused) :
    Inv use object (g.goto call phase) := by
  refine h.quiet (fun _ => rfl) rfl rfl (fun d => ?_) (fun d arg hd => ?_)
    (fun e he hcall => absurd (hcall ▸ List.mem_map_of_mem he) hnew) ?_ ?_
  · by_cases hcall : d = call
    · subst hcall
      have hstill : ¬ (g.goto d phase).Inside d := by
        rcases hphase with ⟨arg, rfl⟩ | ⟨arg, rfl⟩ <;> simp [Inside]
      exact (iff_false_intro hstill).trans
        (iff_false_intro fun hholder => hout ((h.inside d).mpr hholder)).symm
    · exact (inside_goto hcall).trans (h.inside d)
  · rw [phase_goto] at hd
    split_ifs at hd with hcall
    · rcases hphase with ⟨arg, rfl⟩ | ⟨arg, rfl⟩ <;> cases hd
    · exact h.sound d arg hd
  · rintro arg ending rfl
    rcases hphase with ⟨_, h⟩ | ⟨_, h⟩ <;> cases h
  · rintro arg ending rfl
    rcases hphase with ⟨_, h⟩ | ⟨_, h⟩ <;> cases h
    exact .inl rfl

/-- Nobody is inside but the call that holds the lock. -/
theorem Inv.not_inside (h : Inv use object g) {call d : ℕ} (hholder : g.holder = some call)
    (hne : d ≠ call) : ¬ g.Inside d := fun hd =>
  hne (Option.some.inj (((h.inside d).mp hd).symm.trans hholder))

/-- **A use** keeps the invariant if it goes on with the history. -/
theorem Inv.record (h : Inv use object g) {call : ℕ} {arg : α} {ending : Ending ρ}
    (hholding : g.phase call = .holding arg)
    (hphase : ∀ d, g'.phase d = (g.goto call (.leaving arg ending)).phase d)
    (hlog : g'.log = g.log ++ [(call, arg, ending)]) (hholder : g'.holder = g.holder)
    (hhistory : History use object (g.log ++ [(call, arg, ending)]) g'.live) :
    Inv use object g' := by
  have hheld := (h.inside call).mp (.inl ⟨arg, hholding⟩)
  refine ⟨hlog ▸ hhistory, fun d => ?_, fun d arg' hd => ?_, fun e he => ?_, ?_,
    fun d arg' ending' hd => ?_, fun d arg' ending' hd => ?_⟩
  · rw [hholder, ← h.inside d]
    simp only [Inside, hphase, phase_goto]
    split_ifs with hcall
    · subst hcall
      simp [hholding]
    · exact Iff.rfl
  · rw [hphase, phase_goto] at hd
    split_ifs at hd with hcall
    exact absurd (.inl ⟨arg', hd⟩) (h.not_inside hheld hcall)
  · rw [hlog] at he
    rcases List.mem_append.mp he with hold | hthis
    · have hcall : e.1 ≠ call := fun heq =>
        h.not_mem_log (.inr (.inr ⟨arg, hholding⟩)) (heq ▸ List.mem_map_of_mem hold)
      exact (h.past e hold).goto hcall _ hphase
    · rw [List.mem_singleton.mp hthis]
      exact .inl (by rw [hphase, phase_goto, if_pos rfl])
  · rw [hlog, List.map_append, List.map_singleton]
    refine List.Nodup.append h.nodup (List.nodup_singleton _) ?_
    rw [List.disjoint_singleton]
    exact h.not_mem_log (.inr (.inr ⟨arg, hholding⟩))
  · rw [hlog, List.mem_append]
    rw [hphase, phase_goto] at hd
    split_ifs at hd with hcall
    · cases hd
      exact .inr (.inr (hcall ▸ List.mem_singleton_self _))
    · exact (h.leaving d arg' ending' hd).imp_right .inl
  · rw [hlog, List.mem_append]
    rw [hphase, phase_goto] at hd
    split_ifs at hd with hcall
    exact (h.returned d arg' ending' hd).imp_right .inl

theorem inv_step (h : Inv use object g) (hstep : step use g l = some g') : Inv use object g' := by
  have hlive : ∀ {current : σ}, g.slot = some current → g.poisoned = false →
      History use object g.log (some current) := by
    intro current hslot hsound
    have hhistory := h.history
    rwa [live, hsound, if_neg Bool.false_ne_true, hslot] at hhistory
  cases step_cases hstep with
  | @enter call arg hphase =>
    refine h.outside (h.not_mem_log (.inl hphase)) ?_ (.inl ⟨arg, rfl⟩)
    simp [Inside, hphase]
  | @refused call arg hphase =>
    refine h.outside (h.not_mem_log (.inr (.inl ⟨arg, hphase⟩))) ?_ (.inr ⟨arg, rfl⟩)
    simp [Inside, hphase]
  | @locked call arg hphase hholder hsound =>
    refine h.quiet (fun _ => rfl) rfl rfl (fun d => ?_) (fun _ _ _ => hsound)
      (fun e he hcall => ?_) (by simp) (by simp)
    · simp only [Inside, phase_goto, Option.some.injEq]
      split_ifs with hcall
      · simp [hcall]
      · have hout : ¬ g.Inside d := fun hd => by
          rw [(h.inside d).mp hd] at hholder
          cases hholder
        exact (iff_false_intro hout).trans (iff_false_intro (Ne.symm hcall)).symm
    · exact absurd (List.mem_map_of_mem he) (hcall ▸ h.not_mem_log (.inr (.inl ⟨arg, hphase⟩)))
  | @gone call arg hphase hslot =>
    refine h.quiet (fun _ => rfl) rfl rfl (fun d => ?_) (fun d arg' hd => ?_)
      (fun e he hcall => ?_) (by simp) (by simp)
    · by_cases hcall : d = call
      · subst hcall
        refine Iff.trans ?_ (h.inside d)
        simp [Inside, hphase]
      · exact (inside_goto hcall).trans (h.inside d)
    · rw [phase_goto] at hd
      split_ifs at hd
      exact h.sound d arg' hd
    · exact absurd (List.mem_map_of_mem he) (hcall ▸ h.not_mem_log (.inr (.inr ⟨arg, hphase⟩)))
  | @kept call arg current next reply hphase hslot huse =>
    have hsound := h.sound call arg hphase
    refine h.record hphase (fun _ => rfl) rfl rfl ?_
    have hnext : live { g.goto call (.leaving arg (.replied reply)) with
        slot := some next, log := g.log ++ [(call, arg, .replied reply)] } = some next := by
      simp [live, goto, hsound]
    rw [hnext]
    exact .kept (hlive hslot hsound) huse
  | @last call arg current reply hphase hslot huse =>
    have hsound := h.sound call arg hphase
    refine h.record hphase (fun _ => rfl) rfl rfl ?_
    have hnext : live { g.goto call (.leaving arg (.replied reply)) with
        slot := none, log := g.log ++ [(call, arg, .replied reply)] } = (none : Option σ) := by
      simp [live]
    rw [hnext]
    exact .last (hlive hslot hsound) huse
  | @panicked call arg current hphase hslot huse =>
    have hsound := h.sound call arg hphase
    refine h.record hphase (fun _ => rfl) rfl rfl ?_
    exact .panicked (hlive hslot hsound) huse
  | @leave call arg ending lost hphase =>
    have hheld := (h.inside call).mp (.inr ⟨arg, ending, hphase⟩)
    refine h.quiet (fun _ => rfl) rfl rfl (fun d => ?_) (fun d arg' hd => ?_)
      (fun e he hcall => ?_) (by simp) (fun arg' ending' heq => ?_)
    · simp only [Inside, phase_goto, reduceCtorEq, iff_false]
      split_ifs with hcall
      · simp
      · exact h.not_inside hheld hcall
    · rw [phase_goto] at hd
      split_ifs at hd
      exact h.sound d arg' hd
    · have hpast := h.past e he
      simp only [Past, hcall, hphase, phase_goto, if_true] at hpast ⊢
      cases lost <;> simp_all
    · cases heq
      cases lost with
      | true => exact .inl rfl
      | false => exact h.leaving call arg ending hphase

theorem inv_of_reachable (h : (system use object).Reachable g) : Inv use object g := by
  have hind : (system use object).Inductive (Inv use object) :=
    ⟨fun g hg => hg ▸ inv_fresh use object, fun _ _ _ hg hstep => inv_step hg hstep⟩
  exact hind.of_reachable h

/-! ### Sequential histories -/

/-- What has been used stays used. -/
theorem log_step (hstep : step use g l = some g') : ∃ later, g'.log = g.log ++ later := by
  cases step_cases hstep with
  | enter | refused | locked | gone | leave => exact ⟨[], (List.append_nil _).symm⟩
  | kept | last | panicked => exact ⟨_, rfl⟩

/-- **Linearizability.** At most one call is inside. The uses make up one history, in which each
call has at most one, and a call that returns anything but a refusal returns what its use came to.
The history is only ever added to, so a call that is entered after another has returned comes after
it there. -/
theorem linearizable (h : (system use object).Reachable g) :
    (∀ c d, g.Inside c → g.Inside d → c = d) ∧
      History use object g.log g.live ∧ (g.log.map Prod.fst).Nodup ∧ (∀ e ∈ g.log, g.Past e) ∧
      (∀ call arg ending, g.phase call = .returned arg ending →
        ending = .refused ∨ (call, arg, ending) ∈ g.log) ∧
      ∀ ls g', (system use object).Run g ls g' → ∃ later, g'.log = g.log ++ later := by
  have hinv := inv_of_reachable h
  refine ⟨fun c d hc hd => Option.some.inj (((hinv.inside c).mp hc).symm.trans
      ((hinv.inside d).mp hd)),
    hinv.history, hinv.nodup, hinv.past, hinv.returned, fun ls g' hrun => ?_⟩
  induction hrun with
  | refl => exact ⟨[], (List.append_nil _).symm⟩
  | snoc _ hstep ih =>
    obtain ⟨later, hlater⟩ := ih
    obtain ⟨more, hmore⟩ := log_step hstep
    exact ⟨later ++ more, by rw [hmore, hlater, List.append_assoc]⟩

/-! ### Calls that do not overlap -/

/-- A call is under way. -/
def Active (g : Guarded σ α ρ) (call : ℕ) : Prop :=
  g.phase call ≠ .idle ∧ ∀ arg ending, g.phase call ≠ .returned arg ending

/-- Calls do not overlap, and what they return is not lost. -/
def Alone (g : Guarded σ α ρ) : Label α → Prop
  | .enter _ _ => ∀ d, ¬ g.Active d
  | .leave _ lost => lost = false
  | _ => True

/-- The invariant of calls that do not overlap. -/
structure Orderly (g : Guarded σ α ρ) : Prop where
  one : ∀ c d, g.Active c → g.Active d → c = d
  leaving : ∀ call arg, g.phase call = .leaving arg .refused → g.live = none
  returned : ∀ call arg, g.phase call = .returned arg .refused → g.live = none

/-- Once the object is gone it stays gone. -/
theorem live_step (h : Inv use object g) (hgone : g.live = none) (hstep : step use g l = some g') :
    g'.live = none := by
  have hnever : ∀ {call arg current}, g.phase call = .holding arg → g.slot = some current →
      False := by
    intro call arg current hphase hslot
    rw [live, h.sound call arg hphase, if_neg Bool.false_ne_true, hslot] at hgone
    cases hgone
  cases step_cases hstep with
  | enter | refused | locked | gone | leave => exact hgone
  | kept hphase hslot _ | last hphase hslot _ | panicked hphase hslot _ =>
    exact (hnever hphase hslot).elim

/-- A call that goes on is the one that is under way. -/
theorem Orderly.one_goto (h : Orderly g) {call : ℕ} (hactive : g.Active call)
    {phase : Phase α ρ} (hphase : ∀ d, g'.phase d = (g.goto call phase).phase d) {c d : ℕ}
    (hc : g'.Active c) (hd : g'.Active d) : c = d := by
  have hsame : ∀ c, g'.Active c → c = call := by
    intro c hc
    by_contra hne
    refine hne (h.one c call ?_ hactive)
    simpa only [Active, hphase, phase_goto, if_neg hne] using hc
  exact (hsame c hc).trans (hsame d hd).symm

/-- A step of a call that is under way keeps the order if it is refused for want of an object
only. -/
theorem Orderly.goto (h : Orderly g) (hgone : g.live = none → g'.live = none) {call : ℕ}
    {phase : Phase α ρ} (hphase : ∀ d, g'.phase d = (g.goto call phase).phase d)
    (hone : ∀ c d, g'.Active c → g'.Active d → c = d)
    (hnew : ∀ arg, phase = .leaving arg .refused ∨ phase = .returned arg .refused →
      g'.live = none) : Orderly g' where
  one := hone
  leaving d arg hd := by
    rw [hphase, phase_goto] at hd
    split_ifs at hd
    · exact hnew arg (.inl hd)
    · exact hgone (h.leaving d arg hd)
  returned d arg hd := by
    rw [hphase, phase_goto] at hd
    split_ifs at hd
    · exact hnew arg (.inr hd)
    · exact hgone (h.returned d arg hd)

theorem orderly_step (hinv : Inv use object g) (h : Orderly g) (halone : Alone g l)
    (hstep : step use g l = some g') : Orderly g' := by
  have hgone := fun hgone => live_step hinv hgone hstep
  have hactive : ∀ {call : ℕ}, (∃ arg, g.phase call = .entered arg) ∨ g.Inside call →
      g.Active call := by
    rintro call (⟨arg, hphase⟩ | ⟨arg, hphase⟩ | ⟨arg, ending, hphase⟩) <;>
      simp [Active, hphase]
  cases step_cases hstep with
  | @enter call arg hphase =>
    refine h.goto hgone (fun _ => rfl) (fun c d hc hd => ?_) (by simp)
    have hsame : ∀ c, Active (g.goto call (.entered arg)) c → c = call := by
      intro c hc
      by_contra hne
      refine halone c ?_
      simpa only [Active, phase_goto, if_neg hne] using hc
    exact (hsame c hc).trans (hsame d hd).symm
  | @refused call arg hphase hbusy =>
    have hunder := hactive (.inl ⟨arg, hphase⟩)
    refine h.goto hgone (fun _ => rfl) (fun c d => h.one_goto hunder fun _ => rfl)
      fun arg' _ => ?_
    -- nobody else is under way, so the lock is poisoned
    rcases hbusy with hheld | hpoisoned
    · obtain ⟨d, hholder⟩ := Option.isSome_iff_exists.mp hheld
      have hinside := (hinv.inside d).mpr hholder
      obtain rfl := h.one d call (hactive (.inr hinside)) hunder
      simp [Inside, hphase] at hinside
    · exact if_pos hpoisoned
  | @locked call arg hphase =>
    refine h.goto hgone (fun _ => rfl)
      (fun c d => h.one_goto (hactive (.inl ⟨arg, hphase⟩)) fun _ => rfl) (by simp)
  | @gone call arg hphase hslot =>
    refine h.goto hgone (fun _ => rfl)
      (fun c d => h.one_goto (hactive (.inr (.inl ⟨arg, hphase⟩))) fun _ => rfl) fun arg' _ => ?_
    simp [live, goto, hslot]
  | @kept call arg current next reply hphase =>
    exact h.goto hgone (fun _ => rfl)
      (fun c d => h.one_goto (hactive (.inr (.inl ⟨arg, hphase⟩))) fun _ => rfl) (by simp)
  | @last call arg current reply hphase =>
    exact h.goto hgone (fun _ => rfl)
      (fun c d => h.one_goto (hactive (.inr (.inl ⟨arg, hphase⟩))) fun _ => rfl) (by simp)
  | @panicked call arg current hphase =>
    exact h.goto hgone (fun _ => rfl)
      (fun c d => h.one_goto (hactive (.inr (.inl ⟨arg, hphase⟩))) fun _ => rfl) (by simp)
  | @leave call arg ending lost hphase =>
    refine h.goto hgone (fun _ => rfl)
      (fun c d => h.one_goto (hactive (.inr (.inr ⟨arg, ending, hphase⟩))) fun _ => rfl)
      fun arg' hrefused => ?_
    obtain rfl : lost = false := halone
    rcases hrefused with heq | heq <;> cases heq
    exact h.leaving call arg hphase

/-- **Calls that do not overlap are not refused** before the object is gone. -/
theorem never_refused_alone
    (h : ((system use object).restrict fun g l _ => Alone g l).Reachable g) {call : ℕ} {arg : α}
    (hrefused : g.phase call = .returned arg .refused) : g.live = none := by
  have horderly : Orderly g := by
    refine System.of_reachable_rel (fun g hg => ?_) (fun g l g' hg horderly hstep => ?_) h
    · obtain rfl : g = fresh object := hg
      refine ⟨fun c d hc => absurd rfl hc.1, fun _ _ h => ?_, fun _ _ h => ?_⟩ <;> cases h
    · exact orderly_step (inv_of_reachable hg.of_restrict) horderly hstep.2 hstep.1
  exact horderly.returned call arg hrefused

end Guarded

end Transition
