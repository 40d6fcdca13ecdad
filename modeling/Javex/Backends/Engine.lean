import Javex.Backends.Execution
import Javex.Plugin.Exchange

/-!
# A run and the engine

The executions of `Javex.Backends.Execution` are functions from completions to progress. Here one is
made of the parts below it: `advance` of `native/javex_nif/src/lib.rs` on an execution of
`native/javex_nif/src/sandbox.rs`, whose bridge calls the plugin in its memory.

* `execution`: such an execution.
* `run_is_dialogue`: an in-process run with it is a dialogue of the broker with the engine. The
  engine is told the completions of the broker in their order, and the broker is given what the
  engine answers, until one of them ends it.

The layer above knows an execution as a function, and the layer below as a life with a plugin in its
memory; the conversation between the host and the engine is the same for both (`step_known`,
`next_known`). What a run adds is who speaks: the completions are the broker's replies in their
order, which the run worker takes one after the other while the guest waits, and a notice other than
a reply (a timeout, a cancellation, an error of the broker) is the end whatever the engine would
have said.

`Begun` and `Conducted` are the two forms of an unfinished and a finished run, and the induction is
on the list of notices.
-/

namespace Javex.Backends

open Isolated Plugin Transition

variable {Γ α : Type}

/-! ### The errors of an execution -/

/-- The kinds of the errors of `Sandbox::finish`. -/
theorem finish_known {sandbox : Javex.Native.Sandbox} {now : Javex.Native.Moment}
    {result : Except Javex.Native.Failure α} {kind : Kind} {message : Bytes}
    (h : sandbox.finish now result = .error (kind, message)) : kind ∈ executionKinds := by
  simp only [Javex.Native.Sandbox.finish] at h
  cases result with
  | ok value =>
    simp only at h
    split_ifs at h <;> cases h <;> decide
  | error failure =>
    cases failure <;> simp only at h <;> split_ifs at h <;> cases h <;> decide

/-- The kinds of the errors of `Execution::advance`. -/
theorem advance_known {fromSlice : Bytes → Except Bytes Codec.Json} {e : Javex.Native.Execution}
    {completion : Bytes} {turn : Javex.Native.Turn} {now : Javex.Native.Moment} {kind : Kind}
    {message : Bytes}
    (h : (e.advance fromSlice completion turn now).1 = .error (kind, message)) :
    kind ∈ executionKinds := by
  cases hbridge : e.bridge with
  | false => simp [Javex.Native.Execution.advance, hbridge] at h
  | true =>
    simp only [Javex.Native.Execution.advance, hbridge, Bool.not_true, Bool.false_eq_true,
      if_false] at h
    cases hrun : (e.body completion turn).run.run e.sandbox with
    | mk inner sandbox =>
      rw [hrun] at h
      cases hfinish : sandbox.finish now inner with
      | error error =>
        simp only [hfinish, Except.bind] at h
        cases h
        exact finish_known hfinish
      | ok record =>
        simp only [hfinish, Except.bind, Javex.Native.conclude] at h
        split_ifs at h
        · cases h
          decide
        · cases h
          decide
        · split at h
          · cases h
            decide
          · split_ifs at h
            cases h
            decide

/-! ### The execution -/

/-- How the calls of each turn go for the host, and when the turn ends. -/
abbrev Fate := ℕ → Rides × Javex.Native.Moment

/-- The advance of a turn. -/
def Fate.advance (fate : Fate) (turn : ℕ) (completion : Bytes) : Advance :=
  ⟨completion, (fate turn).1, (fate turn).2⟩

/-- What an execution has returned last. -/
def progress (c : Conversation Γ) : Progress :=
  match c.result with
  | some (.ok bytes) => .done bytes
  | some (.error (kind, message)) => .err kind message
  | none => .pending (c.heard.getLastD [])

section Code

variable (p : Platform Γ) (fromSlice : Bytes → Except Bytes Codec.Json) (fate : Fate)
  (c₀ : Conversation Γ)

/-- One more completion. After a result the execution is gone. -/
def next (s : Conversation Γ × ℕ) (completion : Bytes) : Conversation Γ × ℕ :=
  match s.1.step p fromSlice (fate.advance s.2 completion) with
  | none => s
  | some c => (c, s.2 + 1)

/-- The conversation after some completions: `run_start` says `[]`, and `run_step` each of them. -/
def played (completions : List Bytes) : Conversation Γ × ℕ :=
  ([0x5b, 0x5d] :: completions).foldl (next p fromSlice fate) (c₀, 0)

/-- One more completion is one more step. -/
theorem played_append (completions : List Bytes) (completion : Bytes) :
    played p fromSlice fate c₀ (completions ++ [completion]) =
      next p fromSlice fate (played p fromSlice fate c₀ completions) completion := by
  simp [played, List.foldl_append]

variable {p fromSlice fate c₀} {held : Multiset Wasm.Block} {c c' : Conversation Γ}

/-- A conversation whose error, if it has one, is of a known kind. -/
def Known (c : Conversation Γ) : Prop :=
  ∀ kind message, c.result = some (.error (kind, message)) → kind ∈ executionKinds

theorem step_known {l : Advance} (h : c.step p fromSlice l = some c') : Known c' := by
  have hnone := Conversation.result_of_step h
  unfold Conversation.step at h
  split_ifs at h
  cases hadvance : c.execution.advance fromSlice l.completion (c.plugin.turn p l.completion l.rides)
      l.now with
  | mk result execution =>
    rw [hadvance] at h
    cases h
    intro kind message hresult
    rcases result with error | ⟨bytes⟩ | ⟨bytes⟩
    · cases hresult
      exact advance_known (congrArg Prod.fst hadvance)
    · cases hresult
    · rw [Conversation.note, hnone] at hresult
      cases hresult

theorem next_known {s : Conversation Γ × ℕ} (h : Known s.1) (completion : Bytes) :
    Known (next p fromSlice fate s completion).1 := by
  unfold next
  split
  case h_1 => exact h
  case h_2 hstep => exact step_known hstep

theorem played_known (h : c₀.result = none) (completions : List Bytes) :
    Known (played p fromSlice fate c₀ completions).1 := by
  have hstart : Known (next p fromSlice fate (c₀, 0) [0x5b, 0x5d]).1 :=
    next_known (fun _ _ herror => by rw [h] at herror; cases herror) _
  induction completions using List.reverseRecOn with
  | nil => exact hstart
  | append_singleton completions completion ih =>
    rw [played_append]
    exact next_known ih completion

theorem eq_of_progress_err {kind : Kind} {message : Bytes} (h : progress c = .err kind message) :
    c.result = some (.error (kind, message)) := by
  unfold progress at h
  split at h <;> cases h
  assumption

variable (p fromSlice fate c₀)

/-- The execution that begins with a conversation. -/
def execution (h : c₀.result = none) : Execution where
  advance completions := progress (played p fromSlice fate c₀ completions).1
  known {completions _ _} herror := played_known h completions _ _ (eq_of_progress_err herror)

variable {p fromSlice fate c₀}

/-! ### The run -/

/-- The outcome that a notice other than a reply makes. -/
def Notice.outcome? : Notice → Option Outcome
  | .reply _ => none
  | .error kind message => some (.error (kind, message))
  | .brokerDown => some (.error (.trap, utf8 "callback broker stopped"))
  | .runtimeDown => some (.error (.cancelled, utf8 "runtime stopped"))
  | .cancel => some (.error (.cancelled, utf8 "execution cancelled"))

/-- The advances that deliver some completions. -/
def Fate.advances (fate : Fate) (completions : List Bytes) : List Advance :=
  ([0x5b, 0x5d] :: completions).mapIdx fate.advance

theorem Fate.advances_append (completions : List Bytes) (completion : Bytes) :
    fate.advances (completions ++ [completion]) =
      fate.advances completions ++ [fate.advance (completions.length + 1) completion] := by
  rw [Fate.advances, ← List.cons_append, List.mapIdx_concat, List.length_cons]
  rfl

/-- What `run_native/8` of a conversation comes to when it is given some notices: it has taken
replies as long as the execution went on, and `rest` is what it left. -/
structure Conducted (p : Platform Γ) (held : Multiset Wasm.Block)
    (fromSlice : Bytes → Except Bytes Codec.Json) (fate : Fate) (c₀ c : Conversation Γ)
    (replies : List Bytes) (rest : List Notice) (result : List Bytes × Option Outcome) :
    Prop where
  run : (Conversation.system p held fromSlice).Run c₀ (fate.advances replies) c
  dispatched : result.1 = c.heard
  outcome : result.2 = c.result.or (rest.head?.bind Notice.outcome?)
  waiting : c.result = none → ∀ completion later, rest ≠ .reply completion :: later

/-- A conversation after its first completions. -/
structure Begun (p : Platform Γ) (held : Multiset Wasm.Block)
    (fromSlice : Bytes → Except Bytes Codec.Json) (fate : Fate) (c₀ c : Conversation Γ)
    (delivered sent : List Bytes) : Prop where
  reached : played p fromSlice fate c₀ delivered = (c, delivered.length + 1)
  run : (Conversation.system p held fromSlice).Run c₀ (fate.advances delivered) c
  open_ : c.result = none → ∃ frame, c.heard = sent ++ [frame]
  closed : c.result.isSome → c.heard = sent

/-- `dialogue_step` for a conversation under way. -/
theorem heard_step (hinit : (Conversation.system p held fromSlice).init c₀) {ls : List Advance}
    (hrun : (Conversation.system p held fromSlice).Run c₀ ls c) {l : Advance}
    (hstep : c.step p fromSlice l = some c') :
    (c'.result = none → ∃ frame, c'.heard = c.heard ++ [frame]) ∧
      (c'.result.isSome → c'.heard = c.heard) := by
  obtain ⟨⟨talk, g, hdialogue⟩, hbridge⟩ := Conversation.dialogue_of_run hinit hrun
  obtain ⟨-, hsound, -⟩ := hdialogue.running (Conversation.result_of_step hstep)
  obtain ⟨-, ⟨bytes, hheard, hnone, -⟩ | ⟨result, hheard, hsome, -⟩⟩ :=
    Conversation.dialogue_step hsound hbridge hstep
  · refine ⟨fun _ => ⟨bytes, hheard⟩, fun h => ?_⟩
    rw [hnone] at h
    cases h
  · refine ⟨fun h => ?_, fun _ => hheard⟩
    rw [hsome] at h
    cases h

/-- An open conversation takes an advance. -/
theorem exists_step (h : c.result = none) (l : Advance) : ∃ d, c.step p fromSlice l = some d := by
  rw [Conversation.step, h]
  exact ⟨_, rfl⟩

/-- One more reply. -/
theorem Begun.step (hinit : (Conversation.system p held fromSlice).init c₀)
    {delivered sent : List Bytes} (h : Begun p held fromSlice fate c₀ c delivered sent)
    (hnone : c.result = none) (completion : Bytes) :
    ∃ d, Begun p held fromSlice fate c₀ d (delivered ++ [completion]) c.heard := by
  obtain ⟨d, hstep⟩ : ∃ d,
      c.step p fromSlice (fate.advance (delivered.length + 1) completion) = some d :=
    exists_step hnone _
  obtain ⟨hopen, hclosed⟩ := heard_step hinit h.run hstep
  refine ⟨d, ?_, ?_, hopen, hclosed⟩
  · rw [played_append, h.reached, next, hstep, List.length_append]
    rfl
  · rw [Fate.advances_append]
    exact h.run.snoc hstep

/-- The first turn. -/
theorem exists_begun (hinit : (Conversation.system p held fromSlice).init c₀) (fate : Fate) :
    ∃ c, Begun p held fromSlice fate c₀ c [] [] := by
  obtain ⟨-, -, hheard, hresult⟩ := id hinit
  obtain ⟨c, hstep⟩ : ∃ c, c₀.step p fromSlice (fate.advance 0 [0x5b, 0x5d]) = some c :=
    exists_step hresult _
  obtain ⟨hopen, hclosed⟩ := heard_step hinit (.refl c₀) hstep
  rw [hheard] at hopen hclosed
  exact ⟨c, by rw [played, List.foldl_cons, List.foldl_nil, next, hstep]; rfl, .single hstep, hopen,
    hclosed⟩

/-- What is left of a run: `continue_native/3` after some completions. -/
def left (p : Platform Γ) (fromSlice : Bytes → Except Bytes Codec.Json) (fate : Fate)
    (c₀ : Conversation Γ) (hresult : c₀.result = none) (delivered : List Bytes)
    (c : Conversation Γ) (notices : List Notice) : List Bytes × Option Outcome :=
  continueNative (execution p fromSlice fate c₀ hresult) delivered (.of (progress c)) notices

variable {hresult : c₀.result = none} {delivered sent : List Bytes}

/-- A reply is one more turn. -/
theorem left_reply (hnone : c.result = none) {frame : Bytes} (hheard : c.heard = sent ++ [frame])
    {completion : Bytes}
    (hnext : (played p fromSlice fate c₀ (delivered ++ [completion])).1 = c')
    (later : List Notice) :
    left p fromSlice fate c₀ hresult delivered c (.reply completion :: later) =
      (frame :: (left p fromSlice fate c₀ hresult (delivered ++ [completion]) c' later).1,
        (left p fromSlice fate c₀ hresult (delivered ++ [completion]) c' later).2) := by
  subst hnext
  have hprogress : progress c = .pending frame := by
    rw [progress, hnone, hheard, List.getLastD_concat]
  rw [left, hprogress]
  rfl

/-- A result ends the run, and the notices are left. -/
theorem Begun.conducted_of_result (h : Begun p held fromSlice fate c₀ c delivered sent)
    {outcome : Outcome} (hsome : c.result = some outcome) (notices : List Notice) :
    Conducted p held fromSlice fate c₀ c delivered notices
      (sent ++ (left p fromSlice fate c₀ hresult delivered c notices).1,
        (left p fromSlice fate c₀ hresult delivered c notices).2) := by
  have hleft : left p fromSlice fate c₀ hresult delivered c notices = ([], some outcome) := by
    unfold left progress
    rw [hsome]
    rcases outcome with ⟨kind, message⟩ | bytes
    · simp only [Native.of, continueNative]
    · simp only [Native.of, continueNative]
  refine ⟨h.run, ?_, ?_, fun hnone => ?_⟩
  · rw [hleft, h.closed (by rw [hsome]; rfl), List.append_nil]
  · rw [hleft, hsome]
    rfl
  · rw [hsome] at hnone
    cases hnone

/-- So does a notice that is no reply, and while there is none the run waits. -/
theorem Begun.conducted_of_notice (h : Begun p held fromSlice fate c₀ c delivered sent)
    (hnone : c.result = none) {notices : List Notice}
    (hnotices : ∀ completion later, notices ≠ .reply completion :: later) :
    Conducted p held fromSlice fate c₀ c delivered notices
      (sent ++ (left p fromSlice fate c₀ hresult delivered c notices).1,
        (left p fromSlice fate c₀ hresult delivered c notices).2) := by
  obtain ⟨frame, hheard⟩ := h.open_ hnone
  have hleft : left p fromSlice fate c₀ hresult delivered c notices =
      ([frame], notices.head?.bind Notice.outcome?) := by
    unfold left progress
    rw [hnone, hheard]
    cases notices with
    | nil => simp [Native.of, continueNative]
    | cons notice later =>
      cases notice with
      | reply completion => exact absurd rfl (hnotices completion later)
      | _ => simp [Native.of, continueNative, Notice.outcome?]
  refine ⟨h.run, ?_, ?_, fun _ => hnotices⟩
  · rw [hleft, hheard]
  · rw [hleft, hnone]
    rfl

/-- From any turn of the run to what it comes to. -/
theorem Begun.conducted (hinit : (Conversation.system p held fromSlice).init c₀)
    (hresult : c₀.result = none) (h : Begun p held fromSlice fate c₀ c delivered sent)
    (notices : List Notice) :
    ∃ d replies rest, notices = replies.map .reply ++ rest ∧
      Conducted p held fromSlice fate c₀ d (delivered ++ replies) rest
        (sent ++ (left p fromSlice fate c₀ hresult delivered c notices).1,
          (left p fromSlice fate c₀ hresult delivered c notices).2) := by
  induction notices generalizing c delivered sent with
  | nil =>
    refine ⟨c, [], [], rfl, ?_⟩
    rw [List.append_nil]
    cases hc : c.result with
    | some outcome => exact h.conducted_of_result hc []
    | none => exact h.conducted_of_notice hc fun _ _ => (List.cons_ne_nil _ _).symm
  | cons notice later ih =>
    cases hc : c.result with
    | some outcome =>
      refine ⟨c, [], notice :: later, rfl, ?_⟩
      rw [List.append_nil]
      exact h.conducted_of_result hc _
    | none =>
      cases notice with
      | reply completion =>
        obtain ⟨d, hd⟩ := h.step hinit hc completion
        obtain ⟨e, replies, rest, rfl, he⟩ := ih hd
        refine ⟨e, completion :: replies, rest, rfl, ?_⟩
        obtain ⟨frame, hheard⟩ := h.open_ hc
        rw [left_reply hc hheard (congrArg Prod.fst hd.reached)]
        rw [hheard, List.append_assoc, List.append_assoc] at he
        exact he
      | _ =>
        refine ⟨c, [], _, rfl, ?_⟩
        rw [List.append_nil]
        exact h.conducted_of_notice hc fun _ _ heq => nomatch heq

/-- **A run is a dialogue.** Whatever the broker, the runtime and the caller send, and however the
calls of the plugin go for the host: an in-process run takes the replies of the broker as long as
the execution goes on. The engine is told `[]` and these replies in their order, all but the one
that gave the result. What the broker is given are the answers of the engine, byte for byte, and
the outcome is that of the execution, or that of the first notice after the replies. -/
theorem run_is_dialogue (hinit : (Conversation.system p held fromSlice).init c₀) (fate : Fate)
    (notices : List Notice) :
    ∃ c replies rest talk g, notices = replies.map .reply ++ rest ∧
      Conducted p held fromSlice fate c₀ c replies rest
        (inProcess (execution p fromSlice fate c₀ hinit.2.2.2) notices) ∧
      Conversation.Dialogue p held fromSlice c₀ c (fate.advances replies) talk g := by
  obtain ⟨c, hbegun⟩ := exists_begun hinit fate
  have hstart : inProcess (execution p fromSlice fate c₀ hinit.2.2.2) notices =
      left p fromSlice fate c₀ hinit.2.2.2 [] c notices := by
    rw [inProcess, runStart, left]
    simp only [execution, hbegun.reached]
  obtain ⟨d, replies, rest, hnotices, hconducted⟩ :=
    hbegun.conducted hinit hinit.2.2.2 notices
  obtain ⟨⟨talk, g, hdialogue⟩, -⟩ := Conversation.dialogue_of_run hinit hconducted.run
  exact ⟨d, replies, rest, talk, g, hnotices, hstart ▸ hconducted, hdialogue⟩

end Code

/-- Turns in which nothing goes wrong. -/
def calm : Fate := fun _ => ⟨⟨.ok (), ⟨[], none⟩, ⟨[], none⟩, ⟨[], none⟩⟩, ⟨false, false⟩⟩

/-- A run on a fresh plugin that is answered once and then cancelled: the broker is given `{}`
twice. -/
theorem run_is_dialogue_cancelled : ∃ hresult,
    inProcess (execution replier (fun _ => .ok (.obj [])) calm Conversation.opening hresult)
        [.reply [0x5b, 0x5d], .cancel] =
      ([[0x7b, 0x7d], [0x7b, 0x7d]], some (.error (.cancelled, utf8 "execution cancelled"))) ∧
    ∃ c replies rest talk g,
      [.reply [0x5b, 0x5d], .cancel] = replies.map Notice.reply ++ rest ∧
      Conversation.Dialogue replier 0 (fun _ => .ok (.obj [])) Conversation.opening c
        (calm.advances replies) talk g := by
  have hinit : (Conversation.system replier 0 fun _ => .ok (.obj [])).init Conversation.opening :=
    ⟨⟨Plugin.sound_fresh, rfl⟩, rfl, rfl, rfl⟩
  obtain ⟨c, replies, rest, talk, g, hnotices, -, hdialogue⟩ :=
    run_is_dialogue hinit calm [.reply [0x5b, 0x5d], .cancel]
  exact ⟨rfl, rfl, c, replies, rest, talk, g, hnotices, hdialogue⟩

end Javex.Backends
