import Javex.Native.Ends
import Javex.Plugin.Abi
import Javex.Bridge.Terminal

/-!
# The host and the plugin

What `Execution::advance` of `native/javex_nif/src/sandbox.rs` does with the exports of the plugin:
it asks `cabi_realloc` for room, writes the completion there, calls `step`, reads the record with
its bytes, and gives the room back. A turn of an execution is computed from the plugin in memory
(`Instance.turn`); the engine of the host may stop any of the calls (`Ride`).

* `body_turn`: an advance returns what the closure of `step` returned, and it fails for the reasons
  it lists only. The memory is never the reason.
* `advances_are_dialogue`: over any run of advances the host hears what the engine says to the
  completions, in their order, as if there were no memory between them.

The host's reads are checked against the memory of the moment, and that they are in bounds is a fact
about the record: it says where the bytes are, and they are in a block in use. So the only ways for
an advance to fail are those of the engine, of an abort of the allocator and of a result that is
longer than its limit, and `Fails` lists them.

The conversation is the abstract side: a list of completions and answers, in which an answer depends
on the state of the engine only. `Dialogue` is a run of it together with the run of the code, and
the memory does not occur in it.
-/

namespace Javex.Plugin

open Native Wasm Transition

/-! ### A turn with the plugin -/

/-- How a call of the plugin goes for the host: the host calls made in it, and the failure with
which the engine of the host stops it, if it does. -/
structure Ride where
  actions : List Action
  stopped : Option Failure

/-- The call, with the result that the plugin gives it. -/
def Ride.call {α : Type} (ride : Ride) (result : Except Failure α) : Call α where
  actions := ride.actions
  result :=
    match ride.stopped with
    | some failure => .error failure
    | none => result

/-- What an advance meets: the check of its control, and its three calls. -/
structure Rides where
  checked : Except Failure Unit
  realloc : Ride
  step : Ride
  free : Ride

section Source

variable {Γ : Type} (p : Platform Γ)

namespace Instance

variable (i : Instance Γ)

/-- Room for the completion. -/
def room (completion : Bytes) : Except Failure (ℕ × Heap) :=
  Plugin.realloc p i.heap 0 0 1 completion.length

/-- The host writes `input` into its room, and calls an exported function on it. The result is the
room, the record and the plugin. -/
def answered (entry : Entry) (input : Bytes) : Except Failure (ℕ × ℕ × Instance Γ) :=
  match i.room p input with
  | .error failure => .error failure
  | .ok (ptr, heap) =>
    match heap.memory.write ptr input with
    | none => .error p.outOfBounds
    | some memory =>
      ({ i with heap := heap.withMemory memory }.exported p entry ptr input.length).map (ptr, ·)

/-- The host gives its room back. -/
def released (ptr len : ℕ) : Except Failure (Instance Γ) :=
  (Plugin.realloc p i.heap ptr len 1 0).map fun (_, heap) => { i with heap }

/-- The calls of an advance. -/
def turn (completion : Bytes) (rides : Rides) : Turn where
  checked := rides.checked
  realloc := rides.realloc.call ((i.room p completion).map Prod.fst)
  size :=
    match i.room p completion with
    | .ok (_, heap) => heap.memory.size
    | .error _ => 0
  step := rides.step.call ((i.answered p .step completion).map fun (_, record, _) => record)
  memory :=
    match i.answered p .step completion with
    | .ok (_, _, j) => j.heap.memory.bytes
    | .error _ => []
  free := rides.free.call
    (match i.answered p .step completion with
    | .ok (ptr, _, j) => (j.released p ptr completion.length).map fun _ => ()
    | .error failure => .error failure)

/-- The plugin after an advance. -/
def next (completion : Bytes) : Instance Γ :=
  match i.answered p .step completion with
  | .error _ => i
  | .ok (ptr, _, j) =>
    match j.released p ptr completion.length with
    | .error _ => j
    | .ok k => k

end Instance

end Source

/-! ### Reading a record -/

theorem word_leBytes {n : ℕ} (h : n < 2 ^ 32) : word (leBytes n) = n := by
  simp only [leBytes, word, List.foldr_cons, List.foldr_nil, UInt8.toNat_ofNat']
  omega

theorem readMemory_eq {m : Wasm.Memory} {ptr len : ℕ} {bytes : Bytes}
    (h : m.read ptr len = some bytes) : readMemory m.bytes ptr len = .ok bytes := by
  obtain ⟨hbounds, heq⟩ := Wasm.Memory.read_eq_some.mp h
  exact (if_pos hbounds).trans (congrArg Except.ok heq)

/-- The host reads what the memory encodes. -/
theorem Encodes.read {m : Wasm.Memory} {record tag : ℕ} {bytes : Bytes}
    (h : Encodes m record tag bytes) (htag : tag < 2 ^ 32) :
    ∃ fields, readMemory m.bytes record 12 = .ok fields ∧ word (fields.take 4) = tag ∧
      word ((fields.drop 8).take 4) = bytes.length ∧
      readMemory m.bytes (word ((fields.drop 4).take 4)) bytes.length = .ok bytes := by
  obtain ⟨ptr, hptr, hlength, hfields, hbytes⟩ := h
  refine ⟨leBytes tag ++ leBytes ptr ++ leBytes bytes.length, ?_, word_leBytes htag,
    word_leBytes hlength, ?_⟩
  · exact readMemory_eq hfields
  · have hword : word ((List.drop 4 (leBytes tag ++ leBytes ptr ++ leBytes bytes.length)).take 4) =
        ptr := word_leBytes hptr
    rw [hword]
    exact readMemory_eq hbytes

variable {Γ : Type} {p : Platform Γ}

namespace Instance

variable {i j : Instance Γ} {entry : Entry} {input : Bytes} {held : Multiset Block}

/-! ### The room of the host -/

/-- `realloc_spec` for a new block. -/
theorem Sound.room_fresh (hsound : i.Sound p held) (input : Bytes) :
    (∀ failure, i.room p input = .error failure ↔ failure = p.aborted ∧ input.length ≠ 0 ∧
      (ValidLayout input.length 1 → p.allocator.alloc i.heap input.length 1 = none)) ∧
    ∀ new heap, i.room p input = .ok (new, heap) →
      i.heap.Trades heap 0 (range new input.length) := by
  obtain ⟨hfails, hok⟩ := @realloc_spec Γ p i.heap hsound.heap 0 0 1 (Multiset.zero_le _)
    (fun h => absurd rfl h) input.length
  exact ⟨hfails, fun new heap hroom => (hok new heap hroom).1⟩

/-- Room for nothing is no block. -/
theorem room_nil (hlength : input.length = 0) : i.room p input = .ok (1, i.heap) := by
  rw [room, realloc, if_pos hlength, if_neg (not_not.mpr rfl)]

/-- The room is one block more, or none for nothing. -/
theorem sound_room (hsound : i.Sound p held) {ptr : ℕ} {heap : Heap}
    (hroom : i.room p input = .ok (ptr, heap)) :
    ({ i with heap } : Instance Γ).Sound p (range ptr input.length + held) := by
  have htrades := (hsound.room_fresh input).2 ptr heap hroom
  obtain ⟨hheap, hlive, -⟩ := htrades i.heap.live (Multiset.zero_add _).symm hsound.heap
  refine ⟨hheap, ?_⟩
  rw [hlive, hsound.live, add_left_comm]
  rfl

/-- The room is a place in the memory. -/
theorem room_spec (hsound : i.Sound p held) {ptr : ℕ} {heap : Heap}
    (hroom : i.room p input = .ok (ptr, heap)) :
    ptr < 2 ^ 32 ∧ ptr + input.length ≤ heap.memory.size ∧
      (input.length ≠ 0 → ValidLayout input.length 1) := by
  have hsound' := sound_room hsound hroom
  by_cases hlength : input.length = 0
  · obtain ⟨rfl, rfl⟩ := Prod.mk.inj (Except.ok.inj ((room_nil hlength).symm.trans hroom))
    have hpos := hsound.heap.size_pos hsound.record_mem
    exact ⟨by decide, by omega, fun hne => absurd hlength hne⟩
  · have hmem : (⟨ptr, input.length⟩ : Block) ∈ heap.live := by
      rw [hsound'.live, add_left_comm]
      exact Multiset.mem_add.mpr (.inl (mem_range hlength))
    refine ⟨hsound'.heap.ptr_lt hmem, hsound'.heap.bounds _ hmem, fun hne => ?_⟩
    by_contra hlayout
    have herror := ((hsound.room_fresh input).1 p.aborted).mpr
      ⟨rfl, hne, fun h => absurd h hlayout⟩
    cases herror.symm.trans hroom

/-- The host writes into its room. -/
theorem exists_written (hsound : i.Sound p held) {ptr : ℕ} {heap : Heap}
    (hroom : i.room p input = .ok (ptr, heap)) :
    ∃ memory, heap.memory.write ptr input = some memory ∧
      ({ i with heap := heap.withMemory memory } : Instance Γ).Sound p
        (range ptr input.length + held) ∧
      memory.read ptr input.length = some input := by
  have hsound' := sound_room hsound hroom
  obtain ⟨memory, hwrite⟩ := Wasm.Memory.exists_write (room_spec hsound hroom).2.1
  exact ⟨memory, hwrite, ⟨hsound'.heap.write hwrite, hsound'.live⟩, Wasm.Memory.read_write hwrite⟩

/-- Room is refused by aborting. -/
theorem room_eq_error (hsound : i.Sound p held) {failure : Failure}
    (hroom : i.room p input = .error failure) : failure = p.aborted := by
  exact (((hsound.room_fresh input).1 failure).mp hroom).1

/-- The room is given back. -/
theorem released_spec {ptr len : ℕ} (hsound : j.Sound p (range ptr len + held))
    (hlayout : len ≠ 0 → ValidLayout len 1) :
    ∃ k, j.released p ptr len = .ok k ∧ k.Sound p held ∧ k.engine = j.engine ∧
      k.record = j.record := by
  have hle : range ptr len ≤ j.heap.live := by
    rw [hsound.live, add_left_comm]
    exact Multiset.le_add_right _ _
  obtain ⟨hfails, hok⟩ := realloc_spec (p := p) hsound.heap hle hlayout 0
  cases hrealloc : Plugin.realloc p j.heap ptr len 1 0 with
  | error failure => exact absurd rfl ((hfails failure).mp hrealloc).2.1
  | ok result =>
    obtain ⟨new, heap⟩ := result
    obtain ⟨htrades, -, -⟩ := hok new heap hrealloc
    obtain ⟨hheap, hlive, -⟩ :=
      htrades (j.own p + held) (hsound.live.trans (add_left_comm _ _ _)) hsound.heap
    refine ⟨{ j with heap }, by rw [released, hrealloc]; rfl, ⟨hheap, ?_⟩, rfl, rfl⟩
    rw [hlive, range_zero, zero_add]
    rfl

/-! ### An exported function on what the host has written -/

/-- The function fails where there is no room, or as its closure does. -/
theorem answered_eq_error (hsound : i.Sound p held) {failure : Failure}
    (h : i.answered p entry input = .error failure) :
    failure = p.aborted ∨ ∃ heap, p.run entry input i.engine heap = .error failure := by
  unfold answered at h
  cases hroom : i.room p input with
  | error failure' =>
    rw [hroom] at h
    cases h
    exact .inl (room_eq_error hsound hroom)
  | ok found =>
    obtain ⟨ptr, heap⟩ := found
    obtain ⟨memory, hwrite, hwritten, hread⟩ := exists_written hsound hroom
    simp only [hroom, hwrite] at h
    obtain ⟨hfails, -⟩ := exported_spec hwritten entry hread
    cases hcall : exported p { i with heap := heap.withMemory memory } entry ptr input.length with
    | error failure' =>
      rw [hcall] at h
      cases h
      exact .inr ⟨_, (hfails failure).mp hcall⟩
    | ok result =>
      rw [hcall] at h
      cases h

/-- The function leaves a record of an answer, and the host still has its room. -/
theorem answered_spec (hsound : i.Sound p held) {ptr record : ℕ}
    (h : i.answered p entry input = .ok (ptr, record, j)) :
    (∃ heap, i.room p input = .ok (ptr, heap)) ∧ record = i.record ∧ j.record = i.record ∧
      j.Sound p (range ptr input.length + held) ∧
      ∃ answer, Returns p entry input i.engine answer j.engine ∧
        Encodes j.heap.memory record answer.1 answer.2 := by
  unfold answered at h
  cases hroom : i.room p input with
  | error failure =>
    rw [hroom] at h
    cases h
  | ok found =>
    obtain ⟨ptr', heap⟩ := found
    obtain ⟨memory, hwrite, hwritten, hread⟩ := exists_written hsound hroom
    simp only [hroom, hwrite] at h
    obtain ⟨-, hok⟩ := exported_spec hwritten entry hread
    cases hcall : exported p { i with heap := heap.withMemory memory } entry ptr' input.length with
    | error failure =>
      rw [hcall] at h
      cases h
    | ok result =>
      obtain ⟨record', j'⟩ := result
      rw [hcall] at h
      cases h
      obtain ⟨hrecord, hrecord', hj, -, answer, hreturns, hencodes⟩ := hok record j hcall
      exact ⟨⟨heap, rfl⟩, hrecord, hrecord', hj, answer, hreturns, hrecord ▸ hencodes⟩

/-! ### One advance -/

/-- Why the closure of an advance may fail. -/
inductive Fails (p : Platform Γ) (i : Instance Γ) (e : Execution) (completion : Bytes)
    (rides : Rides) : Failure → Prop
  | checked {failure : Failure} : rides.checked = .error failure →
      Fails p i e completion rides failure
  | completion : e.maxCompletion < completion.length →
      Fails p i e completion rides (.other (utf8 "callback completion limit exceeded"))
  | length : 2 ^ 32 ≤ completion.length →
      Fails p i e completion rides
        (.other (utf8 "out of range integral type conversion attempted"))
  | stopped {failure : Failure} : rides.realloc.stopped = some failure ∨
      rides.step.stopped = some failure ∨ rides.free.stopped = some failure →
      Fails p i e completion rides failure
  | aborted : Fails p i e completion rides p.aborted
  | step {heap : Heap} {failure : Failure} : p.run .step completion i.engine heap = .error failure →
      Fails p i e completion rides failure
  | frame {bytes : Bytes} {g : Γ} : Returns p .step completion i.engine (0, bytes) g →
      e.maxStep < bytes.length →
      Fails p i e completion rides (.other (utf8 "callback request frame limit exceeded"))

/-- What the closure of an advance makes of an answer: a diagnostic that is too long is left
unread. -/
def heard (e : Execution) (answer : ℕ × Bytes) : ℕ × Bytes :=
  if answer.1 = 1 ∧ e.maxDiagnostic < answer.2.length then (2, []) else answer

theorem Ride.call_ok {α : Type} {ride : Ride} {result : Except Failure α} {a : α}
    (h : (ride.call result).result = .ok a) : result = .ok a := by
  unfold Ride.call at h
  split at h
  · cases h
  · exact h

theorem Ride.call_error {α : Type} {ride : Ride} {result : Except Failure α} {failure : Failure}
    (h : (ride.call result).result = .error failure) :
    ride.stopped = some failure ∨ result = .error failure := by
  unfold Ride.call at h
  split at h
  case h_1 stopped hstopped =>
    cases h
    exact .inl hstopped
  case h_2 => exact .inr h

/-- The call for room. -/
theorem room_call (hsound : i.Sound p held) (ride : Ride) :
    (ride.call ((i.room p input).map Prod.fst)).run.Ends
      (fun ptr => ∃ heap, i.room p input = .ok (ptr, heap))
      (fun failure => ride.stopped = some failure ∨ failure = p.aborted) := by
  refine .call (fun ptr h => ?_) fun failure h => ?_
  · have hok := Ride.call_ok h
    cases hroom : i.room p input with
    | error failure =>
      rw [hroom] at hok
      cases hok
    | ok found =>
      rw [hroom] at hok
      cases hok
      exact ⟨found.2, rfl⟩
  · refine (Ride.call_error h).imp_right fun herror => ?_
    cases hroom : i.room p input with
    | error failure' =>
      rw [hroom] at herror
      cases herror
      exact room_eq_error hsound hroom
    | ok found =>
      rw [hroom] at herror
      cases herror

/-- The call of an exported function. -/
theorem answered_call (hsound : i.Sound p held) (ride : Ride) :
    (ride.call ((i.answered p entry input).map fun (_, record, _) => record)).run.Ends
      (fun record => ∃ ptr j, i.answered p entry input = .ok (ptr, record, j))
      (fun failure => ride.stopped = some failure ∨ failure = p.aborted ∨
        ∃ heap, p.run entry input i.engine heap = .error failure) := by
  refine .call (fun record h => ?_) fun failure h => ?_
  · have hok := Ride.call_ok h
    cases hanswered : i.answered p entry input with
    | error failure =>
      rw [hanswered] at hok
      cases hok
    | ok found =>
      rw [hanswered] at hok
      cases hok
      exact ⟨found.1, found.2.2, rfl⟩
  · refine (Ride.call_error h).imp_right fun herror => ?_
    cases hanswered : i.answered p entry input with
    | error failure' =>
      rw [hanswered] at herror
      cases herror
      exact answered_eq_error hsound hanswered
    | ok found =>
      rw [hanswered] at herror
      cases herror

theorem Returns.tag_le {answer : ℕ × Bytes} {g g' : Γ}
    (h : Returns p entry input g answer g') : answer.1 ≤ 1 := by
  obtain ⟨_, _, result, -, htag, -⟩ := h
  rw [htag]
  cases result with
  | ok => exact Nat.zero_le 1
  | error => exact Nat.le_refl 1

/-- What an advance leaves when the plugin answers. -/
structure Answers (p : Platform Γ) (held : Multiset Block) (i : Instance Γ) (completion : Bytes)
    (answer : ℕ × Bytes) : Prop where
  returns : Returns p .step completion i.engine answer (i.next p completion).engine
  sound : (i.next p completion).Sound p held
  record : (i.next p completion).record = i.record

/-- The plugin after an answer. -/
theorem answers_of_answered (hsound : i.Sound p held) {completion : Bytes} {ptr record : ℕ}
    (h : i.answered p .step completion = .ok (ptr, record, j)) :
    ∃ answer, Answers p held i completion answer ∧ Encodes j.heap.memory record answer.1 answer.2 ∧
      ∃ k, j.released p ptr completion.length = .ok k := by
  obtain ⟨⟨heap, hroom⟩, -, hrecord, hj, answer, hreturns, hencodes⟩ := answered_spec hsound h
  obtain ⟨-, -, hlayout⟩ := room_spec hsound hroom
  obtain ⟨k, hreleased, hk, hengine, hrecord'⟩ := released_spec hj hlayout
  have hnext : i.next p completion = k := by simp only [next, h, hreleased]
  refine ⟨answer, ⟨?_, ?_, ?_⟩, hencodes, k, hreleased⟩
  · rw [hnext, hengine]
    exact hreturns
  · rw [hnext]
    exact hk
  · rw [hnext, hrecord', hrecord]

section Closure

variable (e : Execution) (completion : Bytes) (rides : Rides)

theorem free_ends {ptr record : ℕ} {k : Instance Γ}
    (hanswered : i.answered p .step completion = .ok (ptr, record, j))
    (hreleased : j.released p ptr completion.length = .ok k) :
    (i.turn p completion rides).free.run.Ends (fun _ => True) (Fails p i e completion rides) := by
  refine .call (fun _ _ => trivial) fun failure h => ?_
  rcases Ride.call_error h with hstopped | herror
  · exact .stopped (.inr (.inr hstopped))
  · simp only [hanswered, hreleased] at herror
    cases herror

/-- The tag of an answer passes, and its length is checked. -/
theorem checkRecord_ends {answer : ℕ × Bytes} {g : Γ}
    (hreturns : Returns p .step completion i.engine answer g) :
    (e.checkRecord answer.1 answer.2.length).Ends
      (fun _ => answer.1 = 0 → answer.2.length ≤ e.maxStep) (Fails p i e completion rides) := by
  have htag := hreturns.tag_le
  refine .ite (fun hzero => ?_) fun hne => ?_
  · refine (Host.Ends.ensure fun h => ?_).mono (fun _ hle _ => hle) fun _ h => h
    obtain ⟨tag, bytes⟩ := answer
    obtain rfl : tag = 0 := hzero
    exact .frame hreturns (Nat.not_le.mp h)
  · exact (Host.Ends.ensure fun h => absurd (by omega) h).mono (fun _ _ h => absurd h hne)
      fun _ h => h

/-- **An advance returns what `step` returned.** Whatever the completion and however the calls go
for the host, the closure of an advance returns the tag and the bytes that the closure of `step`
returned (but for a diagnostic that is too long), and the plugin then owns what it did. It fails
only for the reasons of `Fails`: the room is never out of bounds, nor is the record, nor what it
points to, and the tag is never invalid. -/
theorem body_turn (hsound : i.Sound p held) : (e.body completion (i.turn p completion rides)).Ends
    (fun record => ∃ answer, Answers p held i completion answer ∧ record = heard e answer ∧
      (answer.1 = 0 → answer.2.length ≤ e.maxStep))
    (Fails p i e completion rides) := by
  unfold Execution.body
  refine .bind (.lift (P := fun _ => True) (fun _ _ => trivial) fun failure h => .checked h)
    fun _ _ => ?_
  refine .bind (.ensure fun h => .completion (Nat.not_le.mp h)) fun _ _ => ?_
  refine .bind (.ensure fun h => .length (Nat.not_lt.mp h)) fun _ _ => ?_
  refine .bind ((room_call hsound rides.realloc).mono (fun _ h => h) ?_) fun ptr hptr => ?_
  · rintro failure (hstopped | rfl)
    · exact .stopped (.inl hstopped)
    · exact .aborted
  obtain ⟨heap, hroom⟩ := hptr
  obtain ⟨-, hbounds, -⟩ := room_spec hsound hroom
  refine .bind (.ensure fun h => absurd ?_ h) fun _ _ => ?_
  · simp only [turn, hroom]
    exact hbounds
  refine .bind ((answered_call hsound rides.step).mono (fun _ h => h) ?_) fun record hrecord => ?_
  · rintro failure (hstopped | rfl | ⟨heap', hrun⟩)
    · exact .stopped (.inr (.inl hstopped))
    · exact .aborted
    · exact .step hrun
  obtain ⟨ptr', j, hanswered⟩ := hrecord
  obtain ⟨answer, hanswers, hencodes, k, hreleased⟩ := answers_of_answered hsound hanswered
  -- the record is what the memory encodes
  obtain ⟨fields, hfields, hfieldTag, hfieldLength, hbytes⟩ :=
    hencodes.read (hanswers.returns.tag_le.trans_lt (by decide))
  have hmemory : (i.turn p completion rides).memory = j.heap.memory.bytes := by
    simp only [turn, hanswered]
  rw [hmemory]
  refine .bind (.lift (P := fun read => read = fields) (fun read h => ?_) fun failure h => ?_)
    fun read hread => ?_
  · exact Except.ok.inj (h.symm.trans hfields)
  · cases h.symm.trans hfields
  subst hread
  simp only [hfieldTag, hfieldLength]
  refine .bind (checkRecord_ends e completion rides hanswers.returns) fun _ hstep => ?_
  refine .ite (fun hlong => .pure ⟨answer, hanswers, (if_pos hlong).symm, hstep⟩) fun hshort => ?_
  refine .bind (.lift (P := fun read => read = answer.2) (fun read h => ?_) fun failure h => ?_)
    fun read hread => ?_
  · exact Except.ok.inj (h.symm.trans hbytes)
  · cases h.symm.trans hbytes
  subst hread
  exact .bind (free_ends e completion rides hanswered hreleased) fun _ _ =>
    .pure ⟨answer, hanswers, (if_neg hshort).symm, hstep⟩

end Closure

/-- The record that the model of the bridge looks for is in the memory of the turn. -/
theorem holds_turn (hsound : i.Sound p held) {completion : Bytes} {rides : Rides}
    (hstopped : rides.step.stopped = none) {ptr record : ℕ}
    (h : i.answered p .step completion = .ok (ptr, record, j)) :
    ∃ answer, Answers p held i completion answer ∧
      Bridge.holds (i.turn p completion rides) answer = true := by
  obtain ⟨answer, hanswers, hencodes, -⟩ := answers_of_answered hsound h
  obtain ⟨fields, hfields, htag, hlength, hbytes⟩ :=
    hencodes.read (hanswers.returns.tag_le.trans_lt (by decide))
  refine ⟨answer, hanswers, ?_⟩
  have hstep : (i.turn p completion rides).step.result = .ok record := by
    simp only [turn, Ride.call, hstopped, h]
    rfl
  have hmemory : (i.turn p completion rides).memory = j.heap.memory.bytes := by
    simp only [turn, h]
  simp only [Bridge.holds, hstep, hmemory, hfields, htag, hlength, hbytes, beq_self_eq_true,
    Bool.and_self]

end Instance

/-! ### A run of advances -/

/-- An execution with its plugin, what the host has heard of it so far, and the result that ends
it. -/
structure Conversation (Γ : Type) where
  plugin : Instance Γ
  execution : Execution
  heard : List Bytes
  result : Option (Except (Kind × Bytes) Bytes)

/-- A call of `advance`. -/
structure Advance where
  completion : Bytes
  rides : Rides
  now : Moment

namespace Conversation

variable (p : Platform Γ) (held : Multiset Block) (fromSlice : Bytes → Except Bytes Codec.Json)

/-- What the host notes. -/
def note (c : Conversation Γ) : Except (Kind × Bytes) Progress → Conversation Γ
  | .ok (.pending bytes) => { c with heard := c.heard ++ [bytes] }
  | .ok (.done bytes) => { c with result := some (.ok bytes) }
  | .error error => { c with result := some (.error error) }

/-- An advance; after a result there is none. -/
def step (c : Conversation Γ) (l : Advance) : Option (Conversation Γ) :=
  if c.result.isSome then none
  else
    let (result, execution) := c.execution.advance fromSlice l.completion
      (c.plugin.turn p l.completion l.rides) l.now
    some ({ c with execution, plugin := c.plugin.next p l.completion }.note result)

/-- A conversation from its start. -/
def system : System (Conversation Γ) Advance :=
  .ofStep (fun c => c.plugin.Sound p held ∧ c.execution.bridge = true ∧ c.heard = [] ∧
    c.result = none) (step p fromSlice)

/-- The engine, to which completions are said, with its answers. -/
def dialogue : System Γ (Bytes × (ℕ × Bytes)) where
  init _ := True
  step g said g' := Instance.Returns p .step said.1 g said.2 g'

variable {p held fromSlice} {c c' : Conversation Γ}

/-- How an advance comes out: with what is concluded from an answer of the engine, or with an error
of `Sandbox::finish`, after a failure of `Fails` if there was one. -/
inductive Outcome (p : Platform Γ) (held : Multiset Block)
    (fromSlice : Bytes → Except Bytes Codec.Json) (c : Conversation Γ) (l : Advance) :
    Except (Kind × Bytes) Progress → Prop
  | answered {answer : ℕ × Bytes} {stdout : Bytes} :
      Instance.Answers p held c.plugin l.completion answer →
      Outcome p held fromSlice c l (conclude fromSlice stdout (Instance.heard c.execution answer))
  | ended {inner : Except Failure (ℕ × Bytes)} {sandbox : Sandbox} {error : Kind × Bytes} :
      (∀ failure, inner = .error failure →
        Instance.Fails p c.plugin c.execution l.completion l.rides failure) →
      sandbox.finish l.now inner = .error error → Outcome p held fromSlice c l (.error error)

theorem advance_outcome (hsound : c.plugin.Sound p held) (hbridge : c.execution.bridge = true)
    (l : Advance) :
    Outcome p held fromSlice c l (c.execution.advance fromSlice l.completion
      (c.plugin.turn p l.completion l.rides) l.now).1 := by
  have hends := Instance.body_turn c.execution l.completion l.rides hsound c.execution.sandbox
  simp only [Execution.advance, hbridge, Bool.not_true, Bool.false_eq_true, if_false]
  cases hrun : (c.execution.body l.completion (c.plugin.turn p l.completion l.rides)).run.run
      c.execution.sandbox with
  | mk inner sandbox =>
    rw [hrun] at hends
    simp only
    cases hfinish : sandbox.finish l.now inner with
    | error error =>
      refine .ended (fun failure hfailure => ?_) hfinish
      rw [hfailure] at hends
      exact hends
    | ok record =>
      obtain rfl := Sandbox.eq_of_finish hfinish
      obtain ⟨answer, hanswers, rfl, -⟩ := hends
      exact .answered hanswers

/-- Only an answer with tag 0 is pending. -/
theorem eq_of_conclude_pending {stdout bytes : Bytes} {record : ℕ × Bytes}
    (h : conclude fromSlice stdout record = .ok (.pending bytes)) : record = (0, bytes) := by
  obtain ⟨tag, text⟩ := record
  simp only [conclude] at h
  split_ifs at h with htag hzero
  obtain rfl : tag = 0 := not_not.mp hzero
  split at h
  · cases h
  · split_ifs at h <;> cases h
    rfl

/-- An answer that the host heard with tag 0. -/
theorem eq_of_heard {e : Execution} {answer : ℕ × Bytes} {bytes : Bytes}
    (h : Instance.heard e answer = (0, bytes)) : answer = (0, bytes) := by
  unfold Instance.heard at h
  split_ifs at h with hlong
  · cases h
  · exact h

theorem advance_bridge {e e' : Execution} {completion : Bytes} {turn : Turn} {now : Moment}
    {result : Except (Kind × Bytes) Progress}
    (h : e.advance fromSlice completion turn now = (result, e')) : e'.bridge = e.bridge := by
  unfold Execution.advance at h
  split_ifs at h <;> cases h <;> rfl

/-- What a run of advances from `c` has led to: the engine was told the completions of all but the
advance that gave the result, and the host heard its answers. -/
structure Dialogue (p : Platform Γ) (held : Multiset Block)
    (fromSlice : Bytes → Except Bytes Codec.Json) (c c' : Conversation Γ) (ls : List Advance)
    (talk : List (Bytes × (ℕ × Bytes))) (g : Γ) : Prop where
  run : (dialogue p).Run c.plugin.engine talk g
  tags : ∀ said ∈ talk, said.2.1 = 0
  heard : c'.heard = talk.map fun said => said.2.2
  running : c'.result = none → c'.plugin.engine = g ∧ c'.plugin.Sound p held ∧
    ls.map Advance.completion = talk.map Prod.fst
  ended : ∀ result, c'.result = some result → ∃ before l d, ls = before ++ [l] ∧
    (system p held fromSlice).Run c before d ∧ d.plugin.engine = g ∧
    before.map Advance.completion = talk.map Prod.fst ∧
    Outcome p held fromSlice d l (result.map .done)

/-- An advance that leaves the conversation open has an answer. -/
theorem Outcome.answers_of_pending {l : Advance} {result : Except (Kind × Bytes) Progress}
    (h : Outcome p held fromSlice c l result) {bytes : Bytes}
    (hresult : result = .ok (.pending bytes)) :
    Instance.Answers p held c.plugin l.completion (0, bytes) := by
  cases h with
  | answered hanswers => exact eq_of_heard (eq_of_conclude_pending hresult) ▸ hanswers
  | ended => cases hresult

theorem result_of_step {l : Advance} (h : c.step p fromSlice l = some c') : c.result = none := by
  unfold step at h
  split_ifs at h with hnone
  exact Option.not_isSome_iff_eq_none.mp hnone

/-- **One advance**: the engine is told the completion, and either the host hears its answer or the
conversation has a result. -/
theorem dialogue_step (hsound : c.plugin.Sound p held) (hbridge : c.execution.bridge = true)
    {l : Advance} (h : c.step p fromSlice l = some c') :
    c'.execution.bridge = true ∧
      ((∃ bytes, c'.heard = c.heard ++ [bytes] ∧ c'.result = none ∧ c'.plugin.Sound p held ∧
          Instance.Returns p .step l.completion c.plugin.engine (0, bytes) c'.plugin.engine) ∨
        ∃ result, c'.heard = c.heard ∧ c'.result = some result ∧
          Outcome p held fromSlice c l (result.map .done)) := by
  have houtcome : Outcome p held fromSlice c l _ := advance_outcome hsound hbridge l
  unfold step at h
  split_ifs at h with hnone
  cases hadvance : c.execution.advance fromSlice l.completion
      (c.plugin.turn p l.completion l.rides) l.now with
  | mk result execution =>
    rw [hadvance] at h houtcome
    have hbridge' := (advance_bridge hadvance).trans hbridge
    cases h
    rcases result with error | ⟨bytes⟩ | ⟨bytes⟩
    · exact ⟨hbridge', .inr ⟨.error error, rfl, rfl, houtcome⟩⟩
    · exact ⟨hbridge', .inr ⟨.ok bytes, rfl, rfl, houtcome⟩⟩
    · have hanswers := houtcome.answers_of_pending rfl
      exact ⟨hbridge', .inl ⟨bytes, rfl, Option.not_isSome_iff_eq_none.mp hnone, hanswers.sound,
        hanswers.returns⟩⟩

/-- What a run of advances leads to. -/
theorem dialogue_of_run (hinit : (system p held fromSlice).init c) {ls : List Advance}
    (hrun : (system p held fromSlice).Run c ls c') :
    (∃ talk g, Dialogue p held fromSlice c c' ls talk g) ∧ c'.execution.bridge = true := by
  obtain ⟨hsound, hbridge, hheard, hresult⟩ := hinit
  induction hrun with
  | refl =>
    refine ⟨⟨[], c.plugin.engine, .refl _, by simp, by simp [hheard],
      fun _ => ⟨rfl, hsound, rfl⟩, fun result h => ?_⟩, hbridge⟩
    rw [hresult] at h
    cases h
  | @snoc d e before l hbefore hstep ih =>
    obtain ⟨⟨talk, g, hd⟩, hbridge'⟩ := ih
    have hrunning := result_of_step hstep
    obtain ⟨rfl, hsound', hcompletions⟩ := hd.running hrunning
    obtain ⟨hbridge'', ⟨bytes, hbytes, hnone, hsound'', hreturns⟩ | ⟨result, hsame, hsome, hout⟩⟩ :=
      dialogue_step hsound' hbridge' hstep
    · -- one more answer
      refine ⟨⟨talk ++ [(l.completion, (0, bytes))], e.plugin.engine, hd.run.snoc hreturns, ?_, ?_,
        fun _ => ⟨rfl, hsound'', ?_⟩, fun result h => ?_⟩, hbridge''⟩
      · intro said hsaid
        rcases List.mem_append.mp hsaid with hmem | hmem
        · exact hd.tags said hmem
        · rw [List.mem_singleton.mp hmem]
      · rw [hbytes, hd.heard, List.map_append]
        rfl
      · rw [List.map_append, List.map_append, hcompletions]
        rfl
      · rw [hnone] at h
        cases h
    · -- the result
      refine ⟨⟨talk, d.plugin.engine, hd.run, hd.tags, hsame.trans hd.heard, fun h => ?_,
        fun result' h => ?_⟩, hbridge''⟩
      · rw [hsome] at h
        cases h
      · rw [hsome] at h
        cases h
        exact ⟨before, l, d, rfl, hbefore, rfl, hcompletions, hout⟩

/-- An execution on a fresh plugin. -/
def opening : Conversation ℕ where
  plugin := fresh
  execution :=
    { sandbox :=
        { stdout := .new 0, stderr := .new 0, log := []
          limiter :=
            { limits := ⟨fun _ _ _ => .granted, fun _ _ _ => .granted⟩, memoryBytes := 64
              maxMemory := 64, exceeded := false } }
      bridge := true, maxStep := 16, maxCompletion := 16, maxDiagnostic := 16 }
  heard := []
  result := none

/-- An advance in which nothing goes wrong. -/
def advance (completion : Bytes) : Advance where
  completion
  rides := ⟨.ok (), ⟨[], none⟩, ⟨[], none⟩, ⟨[], none⟩⟩
  now := ⟨false, false⟩

end Conversation

end Javex.Plugin
