import Javex.Compile.Deadline

/-!
# The guardian and the caller

What has happened in each place of the two functions. The guardian tells the caller at most two
things, in this order: the result that it sends, and that it is down (`State.told`). What is in the
mailbox of the caller and on the way to it is what the caller has been told and has not taken
(`CallerSound`); it takes one, and whichever it takes, nothing but the `:DOWN` is left, which
`demonitor` removes.

The proof keeps two accounts. One is of the guardian, what it has been told by the compiler and by
its own monitors and what it has made of that; the other is of the caller. Between them is the list
of what the guardian has told, which only grows at its end, and of which the caller's account knows
a front part. Every move lengthens one list or moves the border in the other.

What is not of this call (`Own`) is left in its order, which is said by filtering the mailbox.
-/

namespace Javex.Compile

open Transition

variable {ρ : Type} {s t : State ρ} {l : Label ρ}

namespace State

/-- What the guardian has told the caller. -/
def told (s : State ρ) : List (Own ρ) :=
  (s.sent.map Own.reply).toList ++ if s.guardian.gone then [.down] else []

/-- What is in the mailbox of the caller and on the way to it. -/
def stream (s : State ρ) : List (Own ρ) :=
  s.mailbox.filterMap CallerMessage.own? ++ s.toCaller.filterMap CallerSignal.own?

end State

/-! ### Frames -/

theorem arrive_frame (s : State ρ) (signal : CallerSignal ρ) : s.arrive signal = { s with
    watched := (s.arrive signal).watched
    mailbox := (s.arrive signal).mailbox
    fromCaller := (s.arrive signal).fromCaller } := by
  cases signal with
  | monitor =>
    simp only [State.arrive]
    split_ifs <;> rfl
  | message message =>
    cases message <;> simp only [State.arrive] <;> split_ifs <;> rfl

theorem tell_frame (s : State ρ) (message : GuardianMessage ρ) :
    s.tell message = { s with inbox := (s.tell message).inbox } := by
  unfold State.tell
  split_ifs <;> rfl

theorem handle_frame (s : State ρ) (message : GuardianMessage ρ) :
    s.handle message = { s with guardian := (s.handle message).guardian } := by
  cases message <;> rfl

/-! ### The guardian -/

/-- What the guardian has done, in each place of its code. -/
def GuardianSound (s : State ρ) : Prop :=
  match s.guardian with
  | .unborn | .monitoring | .controlling | .spawning => s.sent = none
  | .receiving | .replying _ => s.sent = none ∧ s.worker ≠ .unborn
  | .cancelling => s.worker ≠ .unborn
  | .killing => s.cancelled = true ∧ s.worker ≠ .unborn
  | .leaving | .ended =>
    s.cancelled = true ∧ s.worker ≠ .unborn ∧ (s.killed = true ∨ s.worker = .gone)
  | .dead => True

/-- The worker goes on, or is gone. -/
theorem GuardianSound.worker (h : GuardianSound s) (hguardian : t.guardian = s.guardian)
    (hsent : t.sent = s.sent) (hcancelled : t.cancelled = s.cancelled)
    (hborn : s.worker ≠ .unborn → t.worker ≠ .unborn)
    (hkilled : s.worker ≠ .unborn → s.killed = true ∨ s.worker = .gone →
      t.killed = true ∨ t.worker = .gone) : GuardianSound t := by
  unfold GuardianSound at h ⊢
  rw [hguardian, hsent, hcancelled]
  split at h
  · exact h
  · exact h
  · exact h
  · exact h
  · exact ⟨h.1, hborn h.2⟩
  · exact ⟨h.1, hborn h.2⟩
  · exact hborn h
  · exact ⟨h.1, hborn h.2⟩
  · exact ⟨h.1, hborn h.2.1, hkilled h.2.1 h.2.2⟩
  · exact ⟨h.1, hborn h.2.1, hkilled h.2.1 h.2.2⟩
  · trivial

/-- A worker that does not run is gone, once there has been one. -/
theorem Worker.eq_gone {w : Worker ρ} (hdead : w.alive = false) (hborn : w ≠ .unborn) :
    w = .gone := by
  cases w with
  | unborn => exact absurd rfl hborn
  | gone => rfl
  | compiling | sending | leaving => cases hdead

/-- **Every step keeps** what the guardian has done. -/
theorem guardianSound_move (hunborn : s.caller = .aliased → s.guardian = .unborn)
    (h : GuardianSound s) (hmove : Move s l t) : GuardianSound t := by
  cases hmove with
  | spawnGuardian hcaller =>
    simp only [GuardianSound, hunborn hcaller] at h
    exact h
  | monitorCaller hguardian | newControl hguardian | timeout hguardian =>
    simp only [GuardianSound, hguardian] at h
    exact h
  | spawnWorker hguardian =>
    simp only [GuardianSound, hguardian] at h
    exact ⟨h, nofun⟩
  | @handle message rest hguardian hinbox =>
    simp only [GuardianSound, hguardian] at h
    cases message with
    | compiled | workerDown => exact h
    | callerDown => exact h.2
  | reply hguardian =>
    simp only [GuardianSound, hguardian] at h
    exact h.2
  | cancel hguardian =>
    simp only [GuardianSound, hguardian] at h
    exact ⟨rfl, h⟩
  | kill hguardian =>
    simp only [GuardianSound, hguardian] at h
    exact ⟨h.1, h.2, .inl rfl⟩
  | leave hguardian =>
    simp only [GuardianSound, hguardian] at h
    exact h
  | guardianDies => trivial
  | finish hworker | raise hworker | send hworker =>
    refine h.worker rfl rfl rfl (fun _ => nofun) fun _ => Or.imp_right fun hgone => ?_
    rw [hworker] at hgone
    cases hgone
  | workerEnds | workerDies | killWorker =>
    exact h.worker rfl rfl rfl (fun _ => nofun) fun _ _ => .inr rfl
  | killNobody hkilled hdead =>
    exact h.worker rfl rfl rfl id fun hborn _ => .inr (Worker.eq_gone hdead hborn)
  | toCaller =>
    rw [arrive_frame]
    exact h
  | fromCaller | fromWorker =>
    rw [tell_frame]
    exact h
  | _ => exact h

/-! ### The caller -/

/-- What is still to come to the caller, in each place of its code. -/
def CallerSound (s : State ρ) : Prop :=
  match s.caller with
  | .entering => s.guardian = .unborn ∧ s.stream = []
  | .aliased => s.guardian = .unborn ∧ s.stream = [] ∧ s.aliased = true
  | .waiting =>
    s.guardian ≠ .unborn ∧ s.aliased = true ∧ s.monitored = true ∧ s.told = s.stream
  | .answered result =>
    s.guardian ≠ .unborn ∧ s.aliased = true ∧ s.monitored = true ∧
      ∃ message, s.told = message :: s.stream ∧ message.result = result
  | .unaliased result =>
    s.guardian ≠ .unborn ∧ s.aliased = false ∧ s.monitored = true ∧
      ∃ message, s.told = message :: s.stream ∧ message.result = result
  | .returned result =>
    s.guardian ≠ .unborn ∧ s.aliased = false ∧ s.monitored = false ∧
      s.mailbox.filterMap CallerMessage.own? = [] ∧
      ∃ message rest, s.told = message :: rest ∧ message.result = result
  | .dead => True

/-- After the first message the caller is told no result. -/
theorem State.told_tail {m : Own ρ} {rest : List (Own ρ)} (h : s.told = m :: rest) :
    rest = [] ∨ rest = [.down] := by
  unfold State.told at h
  cases hsent : s.sent with
  | none =>
    rw [hsent] at h
    split_ifs at h with hgone
    · cases h
      exact .inl rfl
    · cases h
  | some result =>
    rw [hsent] at h
    split_ifs at h with hgone
    · cases h
      exact .inr rfl
    · cases h
      exact .inl rfl

/-- The guardian tells the caller something, or nothing; what is on the way may arrive. -/
theorem CallerSound.tell (h : CallerSound s) (messages : List (Own ρ))
    (hunborn : s.guardian = .unborn → t.guardian = .unborn ∧ messages = [])
    (hborn : s.guardian ≠ .unborn → t.guardian ≠ .unborn) (hcaller : t.caller = s.caller)
    (haliased : t.aliased = s.aliased) (hmonitored : t.monitored = s.monitored)
    (hmailbox : ∀ result, s.caller = .returned result →
      t.mailbox.filterMap CallerMessage.own? = s.mailbox.filterMap CallerMessage.own?)
    (htold : t.told = s.told ++ messages) (hstream : t.stream = s.stream ++ messages) :
    CallerSound t := by
  unfold CallerSound at h ⊢
  rw [hcaller, haliased, hmonitored, htold, hstream]
  split at h
  · obtain ⟨hguardian, hnone⟩ := h
    obtain ⟨hguardian', rfl⟩ := hunborn hguardian
    exact ⟨hguardian', by rw [hnone, List.append_nil]⟩
  · obtain ⟨hguardian, hnone, ha⟩ := h
    obtain ⟨hguardian', rfl⟩ := hunborn hguardian
    exact ⟨hguardian', by rw [hnone, List.append_nil], ha⟩
  · obtain ⟨hguardian, ha, hm, htold⟩ := h
    exact ⟨hborn hguardian, ha, hm, by rw [htold]⟩
  · obtain ⟨hguardian, ha, hm, message, htold, hresult⟩ := h
    exact ⟨hborn hguardian, ha, hm, message, by rw [htold, List.cons_append], hresult⟩
  · obtain ⟨hguardian, ha, hm, message, htold, hresult⟩ := h
    exact ⟨hborn hguardian, ha, hm, message, by rw [htold, List.cons_append], hresult⟩
  · rename_i hreturned
    obtain ⟨hguardian, ha, hm, hnone, message, rest, htold, hresult⟩ := h
    refine ⟨hborn hguardian, ha, hm, ?_, message, _, by rw [htold, List.cons_append], hresult⟩
    rw [hmailbox _ hreturned, hnone]
  · trivial

/-- What arrives is not lost, while the alias and the monitor are there for it. -/
theorem arrive_stream {signal : CallerSignal ρ} {rest : List (CallerSignal ρ)}
    (hsignals : s.toCaller = signal :: rest) (halive : s.caller.alive = true)
    (hreply : ∀ result, signal = .message (.reply result) → s.aliased = true)
    (hdown : signal = .message .down → s.monitored = true) :
    ({ s with toCaller := rest }.arrive signal).stream = s.stream := by
  unfold State.stream
  rw [hsignals]
  cases signal with
  | monitor =>
    simp only [State.arrive, halive, if_true]
    rfl
  | message message =>
    cases message with
    | reply result =>
      simp only [State.arrive, halive, hreply result rfl, and_self, if_true, State.post,
        List.filterMap_append, List.append_assoc]
      rfl
    | down =>
      simp only [State.arrive, halive, hdown rfl, and_self, if_true, State.post,
        List.filterMap_append, List.append_assoc]
      rfl

/-- What arrives is dropped, when neither is there. -/
theorem arrive_mailbox (signal : CallerSignal ρ) (haliased : s.aliased = false)
    (hmonitored : s.monitored = false) : (s.arrive signal).mailbox = s.mailbox := by
  cases signal with
  | monitor =>
    simp only [State.arrive]
    split_ifs <;> rfl
  | message message =>
    cases message <;> simp [State.arrive, haliased, hmonitored]

/-- The message in a signal on the way is in the stream. -/
theorem mem_stream {m : Own ρ} {rest : List (CallerSignal ρ)}
    (hsignals : s.toCaller = .message m :: rest) : m ∈ s.stream := by
  unfold State.stream
  rw [hsignals]
  exact List.mem_append_right _ List.mem_cons_self

/-- **An arrival keeps** what is still to come to the caller. -/
theorem CallerSound.arrive (h : CallerSound s) {signal : CallerSignal ρ}
    {rest : List (CallerSignal ρ)} (hsignals : s.toCaller = signal :: rest) :
    CallerSound ({ s with toCaller := rest }.arrive signal) := by
  -- in the places where something may be lost, it is nothing that the caller has been told
  have hkeep (halive : s.caller.alive = true)
      (hreturned : ∀ result, s.caller ≠ .returned result)
      (hreply : ∀ result, signal = .message (.reply result) → s.aliased = true)
      (hdown : signal = .message .down → s.monitored = true) :
      CallerSound ({ s with toCaller := rest }.arrive signal) := by
    refine h.tell [] ?_ ?_ ?_ ?_ ?_ (fun _ hr => absurd hr (hreturned _)) ?_ ?_
    · rw [arrive_frame]
      exact fun hguardian => ⟨hguardian, rfl⟩
    · rw [arrive_frame]
      exact id
    · rw [arrive_frame]
    · rw [arrive_frame]
    · rw [arrive_frame]
    · rw [arrive_frame, List.append_nil]
      rfl
    · rw [arrive_stream hsignals halive hreply hdown, List.append_nil]
  obtain ⟨caller, hcaller⟩ : ∃ caller, s.caller = caller := ⟨_, rfl⟩
  cases caller with
  | entering =>
    simp only [CallerSound, hcaller] at h
    refine hkeep (by rw [hcaller]; rfl) (by rw [hcaller]; nofun) ?_ ?_
    · rintro result rfl
      exact absurd (mem_stream hsignals) (by simp [h.2])
    · rintro rfl
      exact absurd (mem_stream hsignals) (by simp [h.2])
  | aliased =>
    simp only [CallerSound, hcaller] at h
    refine hkeep (by rw [hcaller]; rfl) (by rw [hcaller]; nofun) (fun _ _ => h.2.2) ?_
    rintro rfl
    exact absurd (mem_stream hsignals) (by simp [h.2.1])
  | waiting | answered result =>
    simp only [CallerSound, hcaller] at h
    exact hkeep (by rw [hcaller]; rfl) (by rw [hcaller]; nofun) (fun _ _ => h.2.1)
      fun _ => h.2.2.1
  | unaliased result =>
    simp only [CallerSound, hcaller] at h
    obtain ⟨-, -, hmonitored, message, htold, -⟩ := h
    refine hkeep (by rw [hcaller]; rfl) (by rw [hcaller]; nofun) ?_ fun _ => hmonitored
    rintro result rfl
    have hmem := mem_stream hsignals
    obtain hnone | hdown := State.told_tail htold
    · simp [hnone] at hmem
    · simp [hdown] at hmem
  | returned result =>
    simp only [CallerSound, hcaller] at h
    obtain ⟨hguardian, haliased, hmonitored, hnone, htold⟩ := h
    have hmailbox :=
      arrive_mailbox (s := { s with toCaller := rest }) signal haliased hmonitored
    rw [arrive_frame, hmailbox]
    simp only [CallerSound, hcaller]
    exact ⟨hguardian, haliased, hmonitored, hnone, htold⟩
  | dead =>
    rw [arrive_frame]
    simp only [CallerSound, hcaller]

/-- A flush takes the `:DOWN` from the messages of the compilation. -/
theorem flush_own (mailbox : List (CallerMessage ρ)) :
    (mailbox.eraseP CallerMessage.isDown).filterMap CallerMessage.own? =
      (mailbox.filterMap CallerMessage.own?).eraseP Own.isDown := by
  rw [List.eraseP_filterMap]
  congr 2
  funext m
  cases m <;> rfl

/-- A message of somebody else is none of the compilation. -/
theorem filterMap_own_post (s : State ρ) (n : ℕ) :
    (s.post (.other n)).mailbox.filterMap CallerMessage.own? =
      s.mailbox.filterMap CallerMessage.own? := by
  rw [State.post, List.filterMap_append]
  exact List.append_nil _

/-- What a guardian that ends tells the caller. -/
theorem told_stopGuardian {g : Guardian ρ} (halive : s.guardian.alive = true)
    (hgone : g.gone = true) : (s.stopGuardian g).told = s.told ++ [.down] := by
  have hrun : s.guardian.gone = false := by
    revert halive
    cases s.guardian <;> simp [Guardian.alive, Guardian.gone]
  simp [State.told, State.stopGuardian, hrun, hgone]

/-- A guardian that ends keeps what is still to come to the caller. -/
theorem CallerSound.stopGuardian (h : CallerSound s) {g : Guardian ρ}
    (halive : s.guardian.alive = true) (hgone : g.gone = true) :
    CallerSound (s.stopGuardian g) := by
  refine h.tell [.down] ?_ ?_ rfl rfl rfl (fun _ _ => rfl) (told_stopGuardian halive hgone) ?_
  · intro hunborn
    rw [hunborn] at halive
    cases halive
  · rintro - hunborn
    cases (show g = .unborn from hunborn)
    cases hgone
  · simp [State.stream, State.stopGuardian, CallerSignal.own?]

/-- A step that tells the caller nothing and takes nothing from it. -/
theorem CallerSound.silent (h : CallerSound s) (hborn : s.guardian ≠ .unborn)
    (hborn' : t.guardian ≠ .unborn) (hcaller : t.caller = s.caller)
    (haliased : t.aliased = s.aliased) (hmonitored : t.monitored = s.monitored)
    (hmailbox : t.mailbox = s.mailbox) (htold : t.told = s.told) (hstream : t.stream = s.stream) :
    CallerSound t := by
  refine h.tell [] (fun hunborn => absurd hunborn hborn) (fun _ => hborn') hcaller haliased
    hmonitored (fun _ _ => by rw [hmailbox]) ?_ ?_
  · rw [htold, List.append_nil]
  · rw [hstream, List.append_nil]

/-- **Every step keeps** what is still to come to the caller. -/
theorem callerSound_move (hg : GuardianSound s) (h : CallerSound s) (hmove : Move s l t) :
    CallerSound t := by
  cases hmove with
  | makeAlias hcaller =>
    simp only [CallerSound, hcaller] at h
    exact ⟨h.1, h.2, rfl⟩
  | spawnGuardian hcaller =>
    simp only [CallerSound, hcaller] at h
    obtain ⟨hunborn, hnone, haliased⟩ := h
    simp only [GuardianSound, hunborn] at hg
    refine ⟨nofun, haliased, rfl, ?_⟩
    simp only [State.told, hg, Guardian.gone]
    exact hnone.symm
  | @receive message hcaller hfirst =>
    simp only [CallerSound, hcaller] at h
    obtain ⟨hborn, haliased, hmonitored, htold⟩ := h
    refine ⟨hborn, haliased, hmonitored, message, ?_, rfl⟩
    -- what it takes is the first of the stream
    have hhead : (s.mailbox.filterMap CallerMessage.own?).head? = some message := by
      rw [List.head?_filterMap, hfirst]
    rw [State.stream, ← List.cons_head?_tail hhead] at htold
    rw [State.stream, List.filterMap_eraseP_isSome]
    exact htold
  | unalias hcaller =>
    simp only [CallerSound, hcaller] at h
    exact ⟨h.1, rfl, h.2.2⟩
  | demonitor hcaller =>
    simp only [CallerSound, hcaller] at h
    obtain ⟨hborn, haliased, -, message, htold, hresult⟩ := h
    refine ⟨hborn, haliased, rfl, ?_, message, _, htold, hresult⟩
    -- only the `:DOWN` can be left, and the flush takes it
    rw [flush_own]
    obtain hnone | hdown := State.told_tail htold
    · rw [(List.append_eq_nil_iff.mp hnone).1]
      rfl
    · obtain ⟨hnone, -⟩ | ⟨hlast, -⟩ := List.append_eq_singleton_iff.mp hdown
      · rw [hnone]
        rfl
      · rw [hlast]
        rfl
  | callerDies => trivial
  | monitorCaller hguardian =>
    refine h.silent (by simp [hguardian]) nofun rfl rfl rfl rfl ?_ ?_
    · simp [State.told, hguardian, Guardian.gone]
    · simp [State.stream, CallerSignal.own?]
  | newControl hguardian | spawnWorker hguardian | timeout hguardian | cancel hguardian
  | kill hguardian =>
    refine h.silent (by simp [hguardian]) nofun rfl rfl rfl rfl ?_ rfl
    simp [State.told, hguardian, Guardian.gone]
  | @handle message rest hguardian hinbox =>
    cases message with
    | compiled | callerDown | workerDown =>
      refine h.silent (by simp [hguardian]) nofun rfl rfl rfl rfl ?_ rfl
      simp [State.told, State.handle, hguardian, Guardian.gone]
  | @reply result hguardian =>
    simp only [GuardianSound, hguardian] at hg
    refine h.tell [.reply result] (by simp [hguardian]) (fun _ => nofun) rfl rfl rfl
      (fun _ _ => rfl) ?_ ?_
    · simp [State.told, hguardian, hg.1, Guardian.gone]
    · simp [State.stream, CallerSignal.own?]
  | leave hguardian => exact h.stopGuardian (by rw [hguardian]; rfl) rfl
  | guardianDies halive => exact h.stopGuardian halive rfl
  | finish | raise | send | workerEnds | workerDies | killWorker | killNobody => exact h
  | toCaller hsignals => exact h.arrive hsignals
  | fromCaller | fromWorker =>
    rw [tell_frame]
    exact h
  | noise halive n =>
    have hother := filterMap_own_post s n
    refine h.tell [] (fun hunborn => ⟨hunborn, rfl⟩) id rfl rfl rfl (fun _ _ => hother) ?_ ?_
    · rw [List.append_nil]
      rfl
    · rw [List.append_nil]
      exact congrArg (· ++ _) hother

/-! ### The rest of the mailbox -/

/-- A message of the compilation is none of others. -/
theorem filterMap_other_post (s : State ρ) (message : Own ρ) :
    (s.post (.own message)).mailbox.filterMap CallerMessage.other? =
      s.mailbox.filterMap CallerMessage.other? := by
  rw [State.post, List.filterMap_append]
  exact List.append_nil _

/-- **Every step keeps** what others have sent. -/
theorem arrived_move (h : s.mailbox.filterMap CallerMessage.other? = s.arrived)
    (hmove : Move s l t) : t.mailbox.filterMap CallerMessage.other? = t.arrived := by
  cases hmove with
  | receive =>
    refine (List.filterMap_eraseP_of_disjoint (fun m hm => ?_) _).trans h
    cases m with
    | own => rfl
    | other => cases hm
  | demonitor =>
    refine (List.filterMap_eraseP_of_disjoint (fun m hm => ?_) _).trans h
    cases m with
    | own => rfl
    | other => cases hm
  | @toCaller signal rest hsignals =>
    cases signal with
    | monitor =>
      simp only [State.arrive]
      split_ifs <;> exact h
    | message message =>
      cases message with
      | reply | down =>
        simp only [State.arrive]
        split_ifs
        · exact (filterMap_other_post _ _).trans h
        · exact h
  | fromCaller | fromWorker =>
    rw [tell_frame]
    exact h
  | @handle message =>
    rw [handle_frame]
    exact h
  | noise halive n =>
    simp [State.post, CallerMessage.other?, h]
  | _ => exact h

/-- A mailbox without a message of the compilation. -/
theorem eq_map_other {mailbox : List (CallerMessage ρ)}
    (h : mailbox.filterMap CallerMessage.own? = []) :
    mailbox = (mailbox.filterMap CallerMessage.other?).map .other := by
  induction mailbox with
  | nil => rfl
  | cons m mailbox ih =>
    cases m with
    | own => cases h
    | other n => exact congrArg (_ :: ·) (ih h)

/-! ### Runs -/

/-- What holds in every state of a call. -/
structure Sound (s : State ρ) : Prop where
  guardian : GuardianSound s
  caller : CallerSound s
  arrived : s.mailbox.filterMap CallerMessage.other? = s.arrived

/-- A guardian is born once. -/
theorem CallerSound.unborn (h : CallerSound s) (hcaller : s.caller = .aliased) :
    s.guardian = .unborn := by
  simp only [CallerSound, hcaller] at h
  exact h.1

/-- It is so at the start, and **every step keeps it**. -/
theorem sound_inductive : (system ρ).Inductive Sound where
  init := by
    rintro _ rfl
    exact ⟨rfl, ⟨rfl, rfl⟩, rfl⟩
  step s l t hs hst := by
    have hmove := move_of_step hst
    exact ⟨guardianSound_move hs.caller.unborn hs.guardian hmove,
      callerSound_move hs.guardian hs.caller hmove, arrived_move hs.arrived hmove⟩

end Javex.Compile
