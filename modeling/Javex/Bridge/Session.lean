import Javex.Bridge.Guest
import Javex.Callbacks.Replies

/-!
# A guest, its run worker and the broker

The four parties of a run with callbacks. The guest hands frames over, the run worker dispatches
them to the broker, takes the broker's messages in their order and hands the completions on. In
process the run worker does so only while the guest waits (`continue_native/3`); isolated, frames
and completions lie in the pipes in between, and the run worker listens at any time. A run worker
that has been cancelled, or has received an error, hands nothing on any more: for the guest the
run has ended then.

The isolated backend adds the pipes and takes away an order: in process a frame is dispatched and a
completion delivered by the same process, which waits in between. The system has both kinds of
steps, and a run on one backend is a run that uses one kind; an invariant of all steps covers
either. The broker's own system of `Javex.Callbacks.Run` is a component here, so that what is known
of its reachable worlds is known of the broker of every session.
-/

namespace Javex.Bridge

open Codec Transition Callbacks

/-- The parties and what is on its way between them: `frames` to the broker, `completions` to the
guest; `read` counts the messages of the broker that the run worker has received. -/
structure Session where
  world : World
  guest : Guest
  frames : List Bytes
  completions : List (Completion × Bytes)
  read : ℕ
  cancelled : Bool

/-- What may happen next. -/
inductive Label
  | broker (label : Callbacks.Label)
  | guest (action : Action)
  | forward
  | receive
  | resume
  | cancel

/-- The session as the module of the guest begins. -/
def Session.start : Session := ⟨.start, .start, [], [], 0, false⟩

/-- The run worker listens to the broker. -/
def Session.listens (s : Session) : Backend → Bool
  | .isolated => true
  | .inProcess => s.guest.status == .waiting && s.frames.isEmpty && s.completions.isEmpty

/-- The run worker receives a message of the broker. -/
def Session.receive (s : Session) : Event → Session
  | .reply c text => { s with
      read := s.read + 1
      completions := if s.cancelled then s.completions else s.completions ++ [(c, text)] }
  | .error _ _ => { s with read := s.read + 1, cancelled := true }

/-- One step. -/
def step (cfg : Config) (backend : Backend) (s : Session) : Label → Option Session
  | .broker (.dispatch _) => none
  | .broker label => (Callbacks.step cfg s.world label).map fun world => { s with world }
  | .guest action =>
    (s.guest.act cfg action).map fun next =>
      { s with guest := next.1, frames := s.frames ++ next.2.toList }
  | .forward =>
    match s.frames with
    | bytes :: frames =>
      if s.cancelled then some { s with frames }
      else (Callbacks.step cfg s.world (.dispatch bytes)).map fun world => { s with world, frames }
    | [] => none
  | .receive =>
    match s.world.worker, s.world.events[s.read]? with
    | .working, some event => if s.listens backend then some (s.receive event) else none
    | _, _ => none
  | .resume =>
    match s.guest.status, s.completions with
    | .waiting, (_, text) :: completions =>
      some { s with guest := s.guest.resume text, completions }
    | _, _ => none
  | .cancel =>
    match s.world.worker with
    | .working => some { s with cancelled := true }
    | _ => none

/-- What a step does, with what it asks of the session. -/
inductive Session.Steps (cfg : Config) (backend : Backend) (s : Session) : Label → Session → Prop
  | broker {label : Callbacks.Label} {world : World} (hquiet : ∀ bytes, label ≠ .dispatch bytes)
      (hstep : Callbacks.step cfg s.world label = some world) :
      Steps cfg backend s (.broker label) { s with world }
  | guest {action : Action} {next : Guest × Option Bytes}
      (hact : s.guest.act cfg action = some next) :
      Steps cfg backend s (.guest action)
        { s with guest := next.1, frames := s.frames ++ next.2.toList }
  | drop {bytes : Bytes} {frames : List Bytes} (hframes : s.frames = bytes :: frames) :
      Steps cfg backend s .forward { s with frames }
  | forward {bytes : Bytes} {frames : List Bytes} (hframes : s.frames = bytes :: frames)
      (hstep : Callbacks.step cfg s.world (.dispatch bytes) =
        some (s.world.post (.dispatch bytes))) :
      Steps cfg backend s .forward { s with world := s.world.post (.dispatch bytes), frames }
  | receive {event : Event} (hevent : s.world.events[s.read]? = some event) :
      Steps cfg backend s .receive (s.receive event)
  | resume {c : Completion} {text : Bytes} {completions : List (Completion × Bytes)}
      (hstatus : s.guest.status = .waiting)
      (hcompletions : s.completions = (c, text) :: completions) :
      Steps cfg backend s .resume { s with guest := s.guest.resume text, completions }
  | cancel : Steps cfg backend s .cancel { s with cancelled := true }

theorem step_cases {cfg : Config} {backend : Backend} {s s' : Session} {l : Label}
    (h : step cfg backend s l = some s') : s.Steps cfg backend l s' := by
  cases l with
  | broker label =>
    have hother : (∀ bytes, label ≠ .dispatch bytes) ∧
        (Callbacks.step cfg s.world label).map (fun world => { s with world }) = some s' := by
      cases label with
      | dispatch bytes => cases h
      | _ => exact ⟨by rintro _ ⟨⟩, h⟩
    obtain ⟨world, hstep, rfl⟩ := Option.map_eq_some_iff.mp hother.2
    exact .broker hother.1 hstep
  | guest action =>
    obtain ⟨next, hact, rfl⟩ := Option.map_eq_some_iff.mp h
    exact .guest hact
  | forward =>
    simp only [step] at h
    split at h
    · rename_i bytes frames hframes
      split_ifs at h
      · cases h
        exact .drop hframes
      · obtain ⟨world, hstep, rfl⟩ := Option.map_eq_some_iff.mp h
        obtain rfl : world = s.world.post (.dispatch bytes) := by
          have hpost := hstep
          simp only [Callbacks.step] at hpost
          split at hpost <;> cases hpost
          rfl
        exact .forward hframes hstep
    · cases h
  | receive =>
    simp only [step] at h
    split at h
    · rename_i event _ hevent
      split_ifs at h
      cases h
      exact .receive hevent
    · cases h
  | resume =>
    simp only [step] at h
    split at h
    · rename_i hstatus hcompletions
      cases h
      exact .resume hstatus hcompletions
    · cases h
  | cancel =>
    simp only [step] at h
    split at h <;> cases h
    exact .cancel

/-- A run with its guest. -/
def system (cfg : Config) (backend : Backend) : System Session Label :=
  .ofStep (· = .start) (step cfg backend)

end Javex.Bridge
