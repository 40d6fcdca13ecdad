import Javex.Plugin.Exchange
import Javex.Transition.TryLock

/-!
# The execution resource

`run_step` and `advance` of `native/javex_nif/src/lib.rs` on the resource of an execution, a mutex
around the execution that is tried and never waited for. Any process of the virtual machine that
has the reference may call `run_step`, on any scheduler, so the calls on one resource are those of
`Javex.Transition.TryLock`. A panic of a library poisons the mutex, and an allocation that fails in
`binary` loses what the call would have returned.

* `racing_calls_are_dialogue`: whatever the calls and their interleaving, the engine is in one
  dialogue, with the completions of the calls that got in.

The object behind the lock is the conversation of `Javex.Plugin.Exchange`, and a use of it is one
`advance`. That calls from any number of processes make one sequential history is the general
result; what is added here is what the history says to the engine. Its completions are those of the
calls that got in, in the order of the history, and a call that was refused has said nothing.
-/

namespace Javex.Plugin

open Native Wasm Transition

variable {Γ : Type}

/-- A call of `run_step`: its advance, and whether a library panics in it. -/
structure StepCall where
  advance : Advance
  panics : Bool

/-- What `advance` of `lib.rs` returns to the virtual machine. -/
inductive StepReply
  | ok (bytes : Bytes)
  | continue_ (bytes : Bytes)
  | error (kind : Kind) (message : Bytes)
  deriving DecidableEq

/-- The result that a reply is about, if it is the last. -/
def StepReply.result : StepReply → Option (Except (Kind × Bytes) Bytes)
  | .ok bytes => some (.ok bytes)
  | .continue_ _ => none
  | .error kind message => some (.error (kind, message))

section Code

variable (p : Platform Γ) (fromSlice : Bytes → Except Bytes Codec.Json)

/-- `advance` of `lib.rs` with the lock held and an execution in the slot: the execution stays while
it is pending. -/
def useExecution (c : Conversation Γ) (call : StepCall) : Use (Conversation Γ) StepReply :=
  if call.panics then .panicked
  else
    let l := call.advance
    let (result, execution) := c.execution.advance fromSlice l.completion
      (c.plugin.turn p l.completion l.rides) l.now
    match result with
    | .ok (.done bytes) => .last (.ok bytes)
    | .ok (.pending bytes) =>
      .kept ({ c with execution, plugin := c.plugin.next p l.completion }.note result)
        (.continue_ bytes)
    | .error (kind, message) => .last (.error kind message)

/-- Calls of `run_step` on the resource of an execution. -/
def resource (c : Conversation Γ) :
    System (Guarded (Conversation Γ) StepCall StepReply) (Guarded.Label StepCall) :=
  Guarded.system (useExecution p fromSlice) c

end Code

/-- The advance of a use that has not panicked. -/
def advanced : ℕ × StepCall × Ending StepReply → Option Advance
  | (_, call, .replied _) => some call.advance
  | _ => none

/-- What the virtual machine is told in a reply that is not the last. -/
def continued : ℕ × StepCall × Ending StepReply → Option Bytes
  | (_, _, .replied (.continue_ bytes)) => some bytes
  | _ => none

/-! ### The history of a resource -/

variable {p : Platform Γ} {held : Multiset Block} {fromSlice : Bytes → Except Bytes Codec.Json}
  {c c' : Conversation Γ} {call : StepCall} {reply : StepReply}

/-- While there is no result, a step is an advance. -/
theorem step_of_open (hresult : c.result = none) (l : Advance) :
    c.step p fromSlice l =
      some ({ c with
        execution := (c.execution.advance fromSlice l.completion
          (c.plugin.turn p l.completion l.rides) l.now).2
        plugin := c.plugin.next p l.completion }.note
          (c.execution.advance fromSlice l.completion
            (c.plugin.turn p l.completion l.rides) l.now).1) := by
  rw [Conversation.step, hresult]
  rfl

/-- A use that keeps the execution is an advance that is pending. -/
theorem step_of_kept (hresult : c.result = none)
    (h : useExecution p fromSlice c call = .kept c' reply) :
    c.step p fromSlice call.advance = some c' ∧ c'.result = none ∧
      ∃ bytes, reply = .continue_ bytes ∧ c'.heard = c.heard ++ [bytes] := by
  rw [step_of_open hresult]
  unfold useExecution at h
  split_ifs at h
  dsimp only at h
  split at h <;> cases h
  case h_2 bytes heq =>
    rw [heq]
    exact ⟨rfl, hresult, bytes, rfl, rfl⟩

/-- A use that is the last is an advance with a result. -/
theorem step_of_last (hresult : c.result = none)
    (h : useExecution p fromSlice c call = .last reply) :
    ∃ c', c.step p fromSlice call.advance = some c' ∧ c'.result = reply.result ∧
      reply.result ≠ none ∧ c'.heard = c.heard := by
  rw [step_of_open hresult]
  unfold useExecution at h
  split_ifs at h
  dsimp only at h
  split at h <;> cases h
  case h_1 bytes heq =>
    rw [heq]
    exact ⟨_, rfl, rfl, Option.some_ne_none _, rfl⟩
  case h_3 kind message heq =>
    rw [heq]
    exact ⟨_, rfl, rfl, Option.some_ne_none _, rfl⟩

/-- What a history says: its advances are a run of the conversation, in which the virtual machine
hears what the host hears, and a reply with a result is the last. -/
structure Tells (p : Platform Γ) (held : Multiset Block)
    (fromSlice : Bytes → Except Bytes Codec.Json) (c : Conversation Γ)
    (log : List (ℕ × StepCall × Ending StepReply)) (live : Option (Conversation Γ))
    (c' : Conversation Γ) : Prop where
  run : (Conversation.system p held fromSlice).Run c (log.filterMap advanced) c'
  heard : c'.heard = c.heard ++ log.filterMap continued
  live : ∀ d, live = some d → d = c' ∧ c'.result = none
  result : ∀ e ∈ log, ∀ reply, e.2.2 = .replied reply → reply.result ≠ none →
    c'.result = reply.result

theorem tells_of_history (hresult : c.result = none)
    {log : List (ℕ × StepCall × Ending StepReply)} {live : Option (Conversation Γ)}
    (h : Guarded.History (useExecution p fromSlice) c log live) :
    ∃ c', Tells p held fromSlice c log live c' := by
  induction h with
  | nil =>
    refine ⟨c, .refl c, (List.append_nil _).symm, fun d hd => ?_, fun e he => ?_⟩
    · cases hd
      exact ⟨rfl, hresult⟩
    · exact absurd he List.not_mem_nil
  | @kept log current next call arg reply _ huse ih =>
    obtain ⟨d, htells⟩ := ih
    obtain ⟨rfl, hnone⟩ := htells.live current rfl
    obtain ⟨hstep, hnone', bytes, rfl, hheard⟩ := step_of_kept hnone huse
    refine ⟨next, ?_, ?_, fun d hd => ?_, fun e he reply hreply hlast => ?_⟩
    · rw [List.filterMap_append]
      exact htells.run.snoc hstep
    · rw [hheard, htells.heard, List.filterMap_append, List.append_assoc]
      rfl
    · cases hd
      exact ⟨rfl, hnone'⟩
    · rcases List.mem_append.mp he with hold | hthis
      · exact absurd ((htells.result e hold reply hreply hlast).symm.trans hnone) hlast
      · rw [List.mem_singleton.mp hthis] at hreply
        cases hreply
        exact absurd rfl hlast
  | @last log current call arg reply _ huse ih =>
    obtain ⟨d, htells⟩ := ih
    obtain ⟨rfl, hnone⟩ := htells.live current rfl
    obtain ⟨next, hstep, hresult', hlast', hheard⟩ := step_of_last hnone huse
    refine ⟨next, ?_, ?_, fun d hd => ?_, fun e he reply' hreply hlast => ?_⟩
    · rw [List.filterMap_append]
      exact htells.run.snoc hstep
    · rw [hheard, htells.heard, List.filterMap_append]
      cases reply with
      | continue_ bytes => exact absurd rfl hlast'
      | ok bytes | error kind message => exact congrArg _ (List.append_nil _).symm
    · cases hd
    · rcases List.mem_append.mp he with hold | hthis
      · exact absurd ((htells.result e hold reply' hreply hlast).symm.trans hnone) hlast
      · rw [List.mem_singleton.mp hthis] at hreply
        cases hreply
        exact hresult'
  | @panicked log current call arg _ huse ih =>
    obtain ⟨d, htells⟩ := ih
    refine ⟨d, ?_, ?_, fun d hd => ?_, fun e he reply' hreply hlast => ?_⟩
    · rw [List.filterMap_append]
      exact (List.append_nil (log.filterMap advanced)).symm ▸ htells.run
    · rw [htells.heard, List.filterMap_append]
      exact congrArg _ (List.append_nil _).symm
    · cases hd
    · rcases List.mem_append.mp he with hold | hthis
      · exact htells.result e hold reply' hreply hlast
      · rw [List.mem_singleton.mp hthis] at hreply
        cases hreply

/-- An execution that is gone went with a last reply or with a panic. -/
theorem ended_of_history {log : List (ℕ × StepCall × Ending StepReply)}
    (h : Guarded.History (useExecution p fromSlice) c log none) :
    ∃ before e, log = before ++ [e] ∧
      (e.2.2 = .panicked ∨ ∃ reply, e.2.2 = .replied reply ∧ reply.result ≠ none) := by
  cases h with
  | @last log current call arg reply _ huse =>
    refine ⟨_, _, rfl, .inr ⟨reply, rfl, fun hnone => ?_⟩⟩
    unfold useExecution at huse
    split_ifs at huse
    dsimp only at huse
    split at huse <;> cases huse <;> cases hnone
  | panicked => exact ⟨_, _, rfl, .inl rfl⟩

/-- **Racing calls are one dialogue.** Take any calls of `run_step` on the resource of an execution,
by any processes, in any interleaving. At most one of them is in the execution at a time. Those that
got in form one history, and each gets the reply to its own completion, unless that was lost; a call
that is refused is not in it. In that history the engine is told the completions in their order and
the virtual machine hears its answers byte for byte. A reply with a result is the last. And where
calls do not overlap, a call is refused only after such a reply or a panic. -/
theorem racing_calls_are_dialogue (hinit : (Conversation.system p held fromSlice).init c) :
    (∀ g, (resource p fromSlice c).Reachable g →
      (∀ a b, g.Inside a → g.Inside b → a = b) ∧ (g.log.map Prod.fst).Nodup ∧
        (∀ e ∈ g.log, g.Past e) ∧
        (∀ a call ending, g.phase a = .returned call ending →
          ending = .refused ∨ (a, call, ending) ∈ g.log) ∧
        (∀ ls g', (resource p fromSlice c).Run g ls g' → ∃ later, g'.log = g.log ++ later) ∧
        ∃ c' talk engine, Tells p held fromSlice c g.log g.live c' ∧
          Conversation.Dialogue p held fromSlice c c' (g.log.filterMap advanced) talk engine) ∧
      ∀ g, ((resource p fromSlice c).restrict fun g l _ => Guarded.Alone g l).Reachable g →
        ∀ a call, g.phase a = .returned call .refused →
          ∃ before e, g.log = before ++ [e] ∧
            (e.2.2 = .panicked ∨ ∃ reply, e.2.2 = .replied reply ∧ reply.result ≠ none) := by
  refine ⟨fun g hg => ?_, fun g hg a call hrefused => ?_⟩
  · obtain ⟨hone, hhistory, hnodup, hpast, hreturned, hlater⟩ := Guarded.linearizable hg
    obtain ⟨c', htells⟩ := tells_of_history hinit.2.2.2 hhistory
    obtain ⟨⟨talk, engine, hdialogue⟩, -⟩ := Conversation.dialogue_of_run hinit htells.run
    exact ⟨hone, hnodup, hpast, hreturned, hlater, c', talk, engine, htells, hdialogue⟩
  · have hgone := Guarded.never_refused_alone hg hrefused
    obtain ⟨-, hhistory, -⟩ := Guarded.linearizable hg.of_restrict
    rw [hgone] at hhistory
    exact ended_of_history hhistory

/-- A call in which nothing goes wrong. -/
def stepCall (completion : Bytes) : StepCall := ⟨Conversation.advance completion, false⟩

/-- Two calls at the same time: one of them gets in and is told `{}`, the other is refused. -/
theorem racing_calls_are_dialogue_replier :
    ∃ g : Guarded (Conversation ℕ) StepCall StepReply, ∃ c' talk engine,
      g.phase 0 = .returned (stepCall []) (.replied (.continue_ [0x7b, 0x7d])) ∧
      g.phase 1 = .returned (stepCall []) .refused ∧
      Conversation.Dialogue replier 0 (fun _ => .ok (.obj [])) Conversation.opening c'
        [Conversation.advance []] talk engine := by
  have hinit : (Conversation.system replier 0 fun _ => .ok (.obj [])).init Conversation.opening :=
    ⟨⟨sound_fresh, rfl⟩, rfl, rfl, rfl⟩
  obtain ⟨g, hsteps, h₀, h₁, hlog⟩ :
      ∃ g, [.enter 0 (stepCall []), .enter 1 (stepCall []), .tryLock 0, .tryLock 1, .use 0,
        .leave 0 false].foldlM (Guarded.step (useExecution replier fun _ => .ok (.obj [])))
          (.fresh Conversation.opening) = some g ∧
        g.phase 0 = .returned (stepCall []) (.replied (.continue_ [0x7b, 0x7d])) ∧
        g.phase 1 = .returned (stepCall []) .refused ∧
        g.log.filterMap advanced = [Conversation.advance []] := ⟨_, rfl, rfl, rfl, rfl⟩
  have hreachable : (resource replier (fun _ => .ok (.obj [])) Conversation.opening).Reachable g :=
    (System.Run.of_foldlM hsteps).reachable (.init rfl)
  obtain ⟨-, -, -, -, -, c', talk, engine, -, hdialogue⟩ :=
    (racing_calls_are_dialogue hinit).1 g hreachable
  exact ⟨g, c', talk, engine, h₀, h₁, hlog ▸ hdialogue⟩

end Javex.Plugin
