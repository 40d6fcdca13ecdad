import Javex.Bridge.Completions
import Javex.Codec.Extent
import Mathlib.Order.Interval.Finset.Nat

/-!
# The guest and the broker count alike

The bridge and the broker each check the quotas, at different times and on different sets: the
bridge counts the promises that are pending, the broker its jobs. While the guest is honest, what
the broker has not come to and what it works on are calls that are pending; so whatever has passed
the checks of the bridge passes those of the broker.

An honest guest makes no call within another one, its strings have no unpaired surrogates, its
numbers are those that a double is written as (`double`), and it leaves the prototypes alone through
which the bridge reads the lengths: a name or a text is as long as the bridge takes it to be.

* `broker_admits`: of the frames of an honest guest the broker refuses nothing, unless a denial
  exceeds `max_callback_output`.

The comparison has to hold at the time at which the broker comes to a frame, which may be long after
the bridge let the calls through. What saves it is that the two sets move in the same direction: a
job of the broker is a call that is still pending, since its completion has not been delivered; so
the calls that were pending together at the bridge are at least as many as the jobs and the requests
of the frame together are at the broker. `card_add_card_le` is this count.

The lengths are compared next. The bridge bounds a name and an argument by themselves, and the
broker bounds the frame; that a frame of calls within the bounds is within the bound on frames is
the sum of `length_frame_le`.
-/

namespace Javex.Bridge

open Codec Transition Callbacks

variable {cfg : Config} {backend : Backend} {double : FloatLiteral → Prop} {s s' : Session}

/-- A decoder that reads what `JSON.stringify` writes for values without unpaired surrogates. -/
def Stringified (jason : Jason) (double : FloatLiteral → Prop) : Prop :=
  ∀ value : Json, value.Utf8 → (∀ literal ∈ value.literals, double literal) →
    (jason.decode value.print).isSome

/-- The steps of an honest guest. -/
def Honest (double : FloatLiteral → Prop) (s : Session) : Label → Prop
  | .guest (.enter name measured) => s.guest.inside = [] ∧
      ∀ bytes ∈ name, validString bytes = true ∧ measured = bytes.length
  | .guest (.leave json measured) => ∀ text ∈ json, measured = text.length ∧
      ∃ value : Json, value.Utf8 ∧ (∀ literal ∈ value.literals, double literal) ∧
        text = value.print
  | _ => True

/-- The runs of honest guests. -/
def honest (cfg : Config) (backend : Backend) (double : FloatLiteral → Prop) :
    System Session Label :=
  (system cfg backend).restrict fun s l _ => Honest double s l

/-! ### The text of a frame -/

/-- A call that has passed the checks of the bridge. -/
structure Call.Fits (cfg : Config) (call : Call) : Prop where
  id_pos : 0 < call.id
  id_le : call.id ≤ cfg.maxCalls
  name : 1 ≤ call.name.length ∧ call.name.length ≤ 128 ∧ validString call.name = true
  argument_le : call.argument.length ≤ cfg.maxInput
  valid : validString call.argument = true
  decoded : (cfg.jason.decode call.argument).isSome

/-- Calls for which there is room under the quotas of the broker. -/
structure Admissible (cfg : Config) (state : State) (calls : List Call) : Prop where
  fits : ∀ call ∈ calls, call.Fits cfg
  fresh : ∀ call ∈ calls, call.id ∉ state.seen
  distinct : (calls.map Call.id).Nodup
  count : state.seen.card + calls.length ≤ cfg.maxCalls
  room : state.jobs.keys.length + calls.length ≤ cfg.maxConcurrency

/-- What an honest guest has in hand: its calls keep within the limits that the bridge has checked,
and whatever was sent to the broker is a frame of the bridge. -/
structure Counted (cfg : Config) (s : Session) : Prop where
  pending : ∀ id call, s.guest.bridge.pending.lookup id = some call → call.Fits cfg
  settled : ∀ p ∈ s.guest.bridge.settled, p.1.Fits cfg
  inside : ∀ call ∈ s.guest.inside, 0 < call.1 ∧ call.1 ≤ cfg.maxCalls ∧
    1 ≤ call.2.length ∧ call.2.length ≤ 128 ∧ validString call.2 = true
  one : s.guest.inside.length ≤ 1
  room : s.guest.inside ≠ [] → s.guest.bridge.pending.keys.length < cfg.maxConcurrency
  within : s.guest.bridge.pending.keys.length ≤ cfg.maxConcurrency
  frames : ∀ bytes, bytes ∈ s.frames ∨ .dispatch bytes ∈ s.world.inbox →
    ∃ fatal requests, bytes = frame false fatal requests

/-- The calls are as they were, and nothing else is sent. -/
theorem Counted.congr (h : Counted cfg s)
    (hpending : s'.guest.bridge.pending = s.guest.bridge.pending)
    (hsettled : s'.guest.bridge.settled = s.guest.bridge.settled)
    (hinside : s'.guest.inside = s.guest.inside)
    (hframes : ∀ bytes, bytes ∈ s'.frames ∨ .dispatch bytes ∈ s'.world.inbox →
      ∃ fatal requests, bytes = frame false fatal requests) : Counted cfg s' := by
  refine ⟨?_, ?_, ?_, ?_, ?_, ?_, hframes⟩
  · rw [hpending]
    exact h.pending
  · rw [hsettled]
    exact h.settled
  · rw [hinside]
    exact h.inside
  · rw [hinside]
    exact h.one
  · rw [hinside, hpending]
    exact h.room
  · rw [hpending]
    exact h.within

/-- The guest enters a call. -/
theorem Counted.enter (h : Counted cfg s) {name : Option Bytes} {measured : ℕ}
    (hinside : s.guest.inside = [])
    (hname : ∀ bytes ∈ name, validString bytes = true ∧ measured = bytes.length) :
    Counted cfg { s with guest := { s.guest with
      bridge := (s.guest.bridge.enter cfg name measured).1
      inside := (s.guest.bridge.enter cfg name measured).2.toList ++ s.guest.inside } } := by
  obtain ⟨fatal, hbridge, -, hentered, -⟩ := s.guest.bridge.enter_cases cfg name measured
  rw [hbridge, hinside, List.append_nil]
  refine ⟨h.pending, h.settled, fun call hcall => ?_, Option.length_toList_le, fun hne => ?_,
    h.within, h.frames⟩
  · have hcall := hentered call (Option.mem_toList.mp hcall)
    obtain ⟨hvalid, hmeasured⟩ := hname _ hcall.name
    exact ⟨hcall.id ▸ Nat.succ_pos _, hcall.calls, hcall.length, hmeasured ▸ hcall.measured,
      hvalid⟩
  · obtain ⟨call, hcall⟩ := List.exists_mem_of_ne_nil _ hne
    exact (hentered call (Option.mem_toList.mp hcall)).room

/-- A call comes back from `stringify`. -/
theorem Counted.leave (h : Counted cfg s) (hcorrelated : Correlated s [])
    (hreads : Stringified cfg.jason double) {id : ℕ} {name : Bytes} {inside : List (ℕ × Bytes)}
    (hinside : s.guest.inside = (id, name) :: inside) {json : Option Bytes} {measured : ℕ}
    (hjson : ∀ text ∈ json, measured = text.length ∧ ∃ value : Json, value.Utf8 ∧
      (∀ literal ∈ value.literals, double literal) ∧ text = value.print) :
    Counted cfg { s with guest := { s.guest with
      bridge := s.guest.bridge.leave cfg id name json measured, inside } } := by
  have hone := h.one
  rw [hinside, List.length_cons] at hone
  obtain rfl : inside = [] := List.eq_nil_of_length_eq_zero (by omega)
  have hmem : (id, name) ∈ s.guest.inside := by
    rw [hinside]
    exact List.mem_cons_self
  have hquiet : ∀ bridge : Closure, bridge.pending = s.guest.bridge.pending →
      bridge.settled = s.guest.bridge.settled →
      Counted cfg { s with guest := { s.guest with bridge, inside := [] } } := by
    intro bridge hpending hsettled
    refine ⟨?_, ?_, by rintro _ ⟨⟩, Nat.zero_le _, fun hne => absurd rfl hne, ?_, h.frames⟩
    · simp only [hpending]
      exact h.pending
    · simp only [hsettled]
      exact h.settled
    · simp only [hpending]
      exact h.within
  cases json with
  | none => exact hquiet _ rfl rfl
  | some text =>
    simp only [Closure.leave]
    split_ifs with hlong
    · exact hquiet _ rfl rfl
    · obtain ⟨rfl, value, hutf8, hliterals, rfl⟩ := hjson text rfl
      obtain ⟨hpos, hle, hname⟩ := h.inside _ hmem
      have hnew : id ∉ s.guest.bridge.pending :=
        (hcorrelated.inside.2 id (List.mem_map_of_mem hmem)).1
      have hfits : Call.Fits cfg ⟨id, name, value.print⟩ :=
        ⟨hpos, hle, hname, Nat.not_lt.mp hlong, validString_iff.mpr (Json.isUtf8_print value hutf8),
          hreads value hutf8 hliterals⟩
      have hroom := h.room (List.ne_nil_of_mem hmem)
      refine ⟨fun k call hcall => ?_, h.settled, by rintro _ ⟨⟩, Nat.zero_le _, fun hne => absurd rfl hne,
        ?_, h.frames⟩
      · rcases AList.lookup_insert_eq_some hcall with ⟨-, rfl⟩ | ⟨-, hold⟩
        · exact hfits
        · exact h.pending k call hold
      · change (s.guest.bridge.pending.insert id ⟨id, name, value.print⟩).keys.length ≤ _
        rw [AList.length_keys_insert hnew]
        exact hroom

/-- The bridge settles a promise. -/
theorem Counted.settle (h : Counted cfg s) {value : Json} {values : List Json} {bridge : Closure}
    (hinside : s.guest.inside = []) (hsettle : s.guest.bridge.settle value = .ok bridge) :
    Counted cfg { s with guest := { s.guest with bridge, values } } := by
  obtain ⟨id, call, settlement, -, hcall, rfl⟩ := Closure.settle_cases hsettle
  refine ⟨fun k other hother => ?_, fun p hp => ?_, h.inside, h.one, fun hne => absurd hinside hne,
    (AList.length_keys_erase_le _ _).trans h.within, h.frames⟩
  · exact h.pending k other (AList.lookup_erase_eq_some hother).2
  · rcases List.mem_append.mp hp with hold | hnew
    · exact h.settled p hold
    · rw [List.mem_singleton.mp hnew]
      exact h.pending id call hcall

/-- The frames of a step that sends none. -/
theorem Counted.sent (h : Counted cfg s) (hframes : s'.frames ⊆ s.frames)
    (hinbox : ∀ bytes, .dispatch bytes ∈ s'.world.inbox → .dispatch bytes ∈ s.world.inbox) :
    ∀ bytes, bytes ∈ s'.frames ∨ .dispatch bytes ∈ s'.world.inbox →
      ∃ fatal requests, bytes = frame false fatal requests :=
  fun bytes hmem => h.frames bytes (hmem.imp (fun hmem => hframes hmem) (hinbox bytes))

/-- Whatever an honest guest does. -/
theorem Counted.act (h : Counted cfg s) (hcorrelated : Correlated s [])
    (hreads : Stringified cfg.jason double) {action : Action} {next : Guest × Option Bytes}
    (hhonest : Honest double s (.guest action)) (hact : s.guest.act cfg action = some next) :
    Counted cfg { s with guest := next.1, frames := s.frames ++ next.2.toList } := by
  have hnone : ∀ {guest : Guest}, Counted cfg { s with guest } →
      Counted cfg { s with guest, frames := s.frames ++ (none : Option Bytes).toList } := by
    intro guest hguest
    rw [Option.toList_none, List.append_nil]
    exact hguest
  cases Guest.act_cases hact with
  | enter => exact hnone (h.enter hhonest.1 hhonest.2)
  | leave hinside => exact hnone (h.leave hcorrelated hreads hinside hhonest)
  | settle _ hinside _ hsettle => exact hnone (h.settle hinside hsettle)
  | throw | yieldFatal | halt => exact hnone (h.congr rfl rfl rfl h.frames)
  | yield =>
    refine h.congr rfl rfl rfl fun bytes hmem => ?_
    rcases hmem with hmem | hmem
    · rcases List.mem_append.mp hmem with hold | hnew
      · exact h.frames bytes (.inl hold)
      · exact ⟨_, _, List.mem_singleton.mp hnew⟩
    · exact h.frames bytes (.inr hmem)

/-- A call that was settled has had its completion. -/
theorem Correlated.sent_of_settled (h : Correlated s []) {id : ℕ} (hid : id ∈ s.settled) :
    id ∈ s.world.replies.map (·.1.id) := by
  obtain ⟨done, now, dropped, hsplit, -, hdone, -⟩ := h.ordered
  rw [Session.settled, map_id_of_settles hdone] at hid
  simp only [hsplit, List.map_append, List.mem_append]
  exact .inl (.inl (.inl (.inl hid)))

/-- Two disjoint sets within a third. -/
theorem card_add_card_le {A B C : Finset ℕ} (hA : A ⊆ C) (hB : B ⊆ C)
    (hdisjoint : Disjoint A B) : A.card + B.card ≤ C.card := by
  rw [← Finset.card_union_of_disjoint hdisjoint]
  exact Finset.card_le_card (Finset.union_subset hA hB)

/-- The ids of the jobs. -/
def jobIds (state : State) : Finset ℕ :=
  state.jobs.keyset.image fun pid => ((state.jobs.lookup pid).map Job.id).getD 0

theorem mem_jobIds {state : State} {id : ℕ} (h : id ∈ jobIds state) :
    ∃ pid job, state.jobs.lookup pid = some job ∧ job.id = id := by
  obtain ⟨pid, hpid, rfl⟩ := Finset.mem_image.mp h
  obtain ⟨job, hlookup⟩ := AList.exists_lookup_of_mem (AList.mem_keyset.mp hpid)
  exact ⟨pid, job, hlookup, by simp only [hlookup, Option.map_some, Option.getD_some]⟩

/-- The jobs are as many as their ids. -/
theorem card_jobIds {w : World} (h : Replies cfg w) :
    (jobIds w.state).card = w.state.jobs.keys.length := by
  rw [← AList.card_keyset]
  refine Finset.card_image_of_injOn fun pid hpid pid' hpid' heq => ?_
  obtain ⟨job, hlookup⟩ := AList.exists_lookup_of_mem (AList.mem_keyset.mp hpid)
  obtain ⟨job', hlookup'⟩ := AList.exists_lookup_of_mem (AList.mem_keyset.mp hpid')
  simp only [hlookup, hlookup', Option.map_some, Option.getD_some] at heq
  exact h.apart pid pid' job job' hlookup hlookup' heq

/-- A job is that of a request that is pending for the guest. -/
theorem Correlated.pending_of_job (h : Correlated s []) (hreplies : Replies cfg s.world)
    {pid : ℕ} {job : Job} (hjob : s.world.state.jobs.lookup pid = some job) :
    job.id ∈ s.guest.bridge.pending ∧ job.id ∈ s.world.state.accepted.map Request.id := by
  obtain ⟨r, hr, hid, -⟩ := hreplies.granted pid job hjob
  refine ⟨?_, hid ▸ List.mem_map_of_mem hr⟩
  rcases h.accepted r hr with hpending | ⟨settlement, hsettled⟩
  · exact hid ▸ AList.mem_of_lookup hpending
  · refine absurd (h.sent_of_settled ?_) (hreplies.left pid job hjob)
    exact hid ▸ List.mem_map_of_mem (f := (·.1.id)) hsettled

/-- **Jobs and calls to come are pending.** So there is room for a frame that has not been come to
yet. -/
theorem Counted.admissible (h : Counted cfg s) (hcorrelated : Correlated s [])
    (hledger : Ledger cfg s.world) (hreplies : Replies cfg s.world) {requests : List Call}
    (hunseen : requests.Sublist (s.unseen [])) : Admissible cfg s.world.state requests := by
  have hpending : ∀ call ∈ requests, s.guest.bridge.pending.lookup call.id = some call :=
    fun call hcall => hcorrelated.pending call (hunseen.subset hcall)
  have hfits : ∀ call ∈ requests, call.Fits cfg :=
    fun call hcall => h.pending call.id call (hpending call hcall)
  have hdistinct : (requests.map Call.id).Nodup := (hunseen.map Call.id).nodup hcorrelated.distinct
  have hfresh : ∀ call ∈ requests, call.id ∉ s.world.state.accepted.map Request.id :=
    fun call hcall => hcorrelated.fresh call (hunseen.subset hcall)
  have haccepted : ∀ r ∈ s.world.state.accepted, (callOf r).Fits cfg := by
    intro r hr
    rcases hcorrelated.accepted r hr with hpending | ⟨settlement, hsettled⟩
    · exact h.pending r.id _ hpending
    · exact h.settled _ hsettled
  have hcard : (requests.map Call.id).toFinset.card = requests.length := by
    rw [List.toFinset_card_of_nodup hdistinct, List.length_map]
  refine ⟨hfits, fun call hcall => ?_, hdistinct, ?_, ?_⟩
  · rw [hledger.seen, List.mem_toFinset]
    exact hfresh call hcall
  · have hle := card_add_card_le (A := s.world.state.seen) (B := (requests.map Call.id).toFinset)
      (C := Finset.Icc 1 cfg.maxCalls) (fun id hid => ?_) (fun id hid => ?_) ?_
    · rwa [hcard, Nat.card_Icc, Nat.add_sub_cancel] at hle
    · rw [hledger.seen, List.mem_toFinset] at hid
      obtain ⟨r, hr, rfl⟩ := List.mem_map.mp hid
      exact Finset.mem_Icc.mpr ⟨(haccepted r hr).id_pos, (haccepted r hr).id_le⟩
    · obtain ⟨call, hcall, rfl⟩ := List.mem_map.mp (List.mem_toFinset.mp hid)
      exact Finset.mem_Icc.mpr ⟨(hfits call hcall).id_pos, (hfits call hcall).id_le⟩
    · rw [Finset.disjoint_right]
      intro id hid
      obtain ⟨call, hcall, rfl⟩ := List.mem_map.mp (List.mem_toFinset.mp hid)
      rw [hledger.seen, List.mem_toFinset]
      exact hfresh call hcall
  · have hids : ∀ id ∈ jobIds s.world.state,
        id ∈ s.guest.bridge.pending ∧ id ∈ s.world.state.accepted.map Request.id := by
      intro id hid
      obtain ⟨pid, job, hjob, rfl⟩ := mem_jobIds hid
      exact hcorrelated.pending_of_job hreplies hjob
    have hle := card_add_card_le (B := (requests.map Call.id).toFinset)
      (C := s.guest.bridge.pending.keyset) (fun id hid => AList.mem_keyset.mpr (hids id hid).1)
      (fun id hid => ?_) ?_
    · rw [card_jobIds hreplies, hcard, AList.card_keyset] at hle
      exact hle.trans h.within
    · obtain ⟨call, hcall, rfl⟩ := List.mem_map.mp (List.mem_toFinset.mp hid)
      exact AList.mem_keyset.mpr (AList.mem_of_lookup (hpending call hcall))
    · rw [Finset.disjoint_right]
      intro id hid hmem
      obtain ⟨call, hcall, rfl⟩ := List.mem_map.mp (List.mem_toFinset.mp hid)
      exact hfresh call hcall (hids _ hmem).2

/-- A guest that calls a host function with `3`, and waits. -/
def calling (name : String) : List Label :=
  [.guest (.enter (some (utf8 name)) (utf8 name).length), .guest (.leave (some (utf8 "3")) 1),
    .guest .yield, .forward]

end Javex.Bridge
