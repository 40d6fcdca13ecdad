import Javex.Worker.Supervisor
import Mathlib.Algebra.Order.BigOperators.Group.List
import Mathlib.Algebra.Order.Ring.Nat

/-!
# The relay

What the reader thread forwards, whatever the child writes. The child is an adversary here: it
may write any bytes at any moment, and close its pipes and end as it likes. The invariant
`Relay` follows the reader through its rounds: the events it has forwarded are those it read
off the front of the child's stream, within a traffic budget and a number of rounds that shrink
together.

* `relay_step`: every step keeps the invariant.
* `relay_is_safe`: what has been forwarded in any reachable state, and what a status 0 means.

The reader thread stops for good at the first event that is not valid, at the first one beyond a
bound, and after the terminal event; before that, each round costs it a round and the bytes of the
event. The budgets are therefore part of the invariant and not of the statement: what has been
forwarded is bounded because what is left of the budget and what has been used add up to what there
was.

Nothing is asked of the child, not even that it be a worker. It is enough that the thread reads
whole frames and forwards an event only after it has checked it, so an event that is forwarded is
one that was read and is complete.
-/

namespace Javex.Worker

open Codec Codec.Decoder Isolated Transition

/-- Every event of a list is a callback request. -/
def AllCallbacks (es : List Relayed) : Prop := ∀ e ∈ es, e.kind = utf8 "callbacks"

/-- Callback requests and one terminal event. -/
def Complete (es : List Relayed) : Prop :=
  ∃ (callbacks : List Relayed) (terminal : Relayed), es = callbacks ++ [terminal] ∧
    AllCallbacks callbacks ∧ terminal.kind ≠ utf8 "callbacks"

/-- What some events took from the traffic budget. -/
def traffic (es : List Relayed) : ℕ := (es.map Relayed.traffic).sum

/-- An event that the reader may forward: one of a known kind within the bound of its kind. -/
def Admissible (cfg : Config) (e : Relayed) : Prop :=
  cfg.serde.fromSlice e.header = some e.kind ∧
    ∃ maximum, eventMaximum cfg.operation cfg.budgets e.kind = some maximum ∧
      e.payload.length ≤ maximum

theorem AllCallbacks.append {es : List Relayed} {e : Relayed} (h : AllCallbacks es)
    (he : e.kind = utf8 "callbacks") : AllCallbacks (es ++ [e]) := by
  intro d hd
  rcases List.mem_append.mp hd with hold | hthis
  · exact h d hold
  · exact List.mem_singleton.mp hthis ▸ he

theorem AllCallbacks.dropLast {es : List Relayed} (h : AllCallbacks es) :
    AllCallbacks es.dropLast := fun e he => h e (List.mem_of_mem_dropLast he)

theorem traffic_append (es : List Relayed) (e : Relayed) :
    traffic (es ++ [e]) = traffic es + e.traffic := by
  simp [traffic]

/-- What the stage of the reader says about the events it forwarded. -/
def Stage (cfg : Config) (s : State) : Reader → Prop
  | .reading left remaining => AllCallbacks s.forwarded ∧
      s.forwarded.length + left = cfg.maxCallbacks + 1 ∧
      traffic s.forwarded + remaining = mib64
  | .last => Complete s.forwarded
  | .storing ok | .done ok =>
    ok = true → Complete s.forwarded ∧ s.childOut = [] ∧ s.childWrites = false

/-- What the polling loop may report: a status 0 only once the reader is done and content. -/
def Reported (s : State) : Poll → Prop
  | .killing reason => reason ≠ 0
  | .returned status => status = 0 → s.reader = .done true
  | _ => True

/-- The invariant of the relay. -/
structure Relay (cfg : Config) (s : State) : Prop where
  stream : s.produced = s.forwarded.flatMap Relayed.bytes ++ s.childOut
  admissible : ∀ e ∈ s.forwarded, Admissible cfg e
  length_le : s.forwarded.length ≤ cfg.maxCallbacks + 2
  traffic_le : traffic s.forwarded ≤ mib64
  terminal_last : AllCallbacks s.forwarded.dropLast
  stage : Stage cfg s s.reader
  reported : Reported s s.poll

variable {cfg : Config} {s t : State}

theorem relay_start : Relay cfg (.start cfg) where
  stream := rfl
  admissible e he := absurd he List.not_mem_nil
  length_le := Nat.zero_le _
  traffic_le := Nat.zero_le _
  terminal_last e he := absurd he List.not_mem_nil
  stage := ⟨fun e he => absurd he List.not_mem_nil, by simp [State.start], by simp [State.start,
    traffic]⟩
  reported := trivial

/-- A stage survives the closing of the child's stdout. -/
theorem Stage.close {r : Reader} (h : Stage cfg s r) (hforwarded : t.forwarded = s.forwarded)
    (hout : t.childOut = s.childOut) (hwrites : s.childWrites = false → t.childWrites = false) :
    Stage cfg t r := by
  cases r with
  | reading left remaining => simpa [Stage, hforwarded] using h
  | last => simpa [Stage, hforwarded] using h
  | storing ok =>
    intro hok
    obtain ⟨hcomplete, hempty, hclosed⟩ := h hok
    exact ⟨hforwarded ▸ hcomplete, hout.trans hempty, hwrites hclosed⟩
  | done ok =>
    intro hok
    obtain ⟨hcomplete, hempty, hclosed⟩ := h hok
    exact ⟨hforwarded ▸ hcomplete, hout.trans hempty, hwrites hclosed⟩

/-- **Elsewhere.** A step that leaves the reader's side alone keeps the invariant, also when it
closes the child's stdout. -/
theorem Relay.elsewhere (h : Relay cfg s) (hproduced : t.produced = s.produced)
    (hout : t.childOut = s.childOut) (hforwarded : t.forwarded = s.forwarded)
    (hreader : t.reader = s.reader) (hpoll : t.poll = s.poll)
    (hwrites : s.childWrites = false → t.childWrites = false) : Relay cfg t where
  stream := by rw [hproduced, hforwarded, hout, h.stream]
  admissible := by rw [hforwarded]; exact h.admissible
  length_le := by rw [hforwarded]; exact h.length_le
  traffic_le := by rw [hforwarded]; exact h.traffic_le
  terminal_last := by rw [hforwarded]; exact h.terminal_last
  stage := by rw [hreader]; exact h.stage.close hforwarded hout hwrites
  reported := by
    have hr := h.reported
    rw [hpoll]
    cases hp : s.poll <;> rw [hp] at hr <;> first | exact hr | exact fun h0 => hreader ▸ hr h0

/-- **Output.** The child may write whatever it likes while its stdout is open. -/
theorem Relay.print (h : Relay cfg s) (hwrites : s.childWrites = true) (bytes : Bytes) :
    Relay cfg (s.print bytes) where
  stream := by
    simp only [State.print]
    rw [h.stream, List.append_assoc]
  admissible := h.admissible
  length_le := h.length_le
  traffic_le := h.traffic_le
  terminal_last := h.terminal_last
  stage := by
    have hstage := h.stage
    have hopen : ∀ ok, (ok = true → Complete s.forwarded ∧ s.childOut = [] ∧
        s.childWrites = false) → ok = false := by
      intro ok hok
      cases ok with
      | false => rfl
      | true => exact absurd (hok rfl).2.2 (by rw [hwrites]; decide)
    change Stage cfg _ s.reader
    cases hr : s.reader with
    | reading left remaining => rw [hr] at hstage; exact hstage
    | last => rw [hr] at hstage; exact hstage
    | storing ok =>
      rw [hr] at hstage
      exact fun hok => absurd hok (by rw [hopen ok hstage]; decide)
    | done ok =>
      rw [hr] at hstage
      exact fun hok => absurd hok (by rw [hopen ok hstage]; decide)
  reported := h.reported

/-- **A round.** An event is read off the front and forwarded. -/
theorem Relay.forward (h : Relay cfg s) {left remaining : ℕ}
    (hr : s.reader = .reading left remaining) {e : Relayed} {rest : Bytes}
    (hnext : (readEvent cfg.serde cfg.operation cfg.budgets remaining).next s.childOut =
      .done e rest) :
    Relay cfg { s with
      childOut := rest
      forwarded := s.forwarded ++ [e]
      reader := if e.kind ≠ utf8 "callbacks" then .last
        else if left = 0 then .storing false
        else .reading (left - 1) (remaining - e.traffic) } := by
  obtain ⟨hbytes, hkind, hmaximum, -, htraffic⟩ := of_readEvent_next hnext
  have hstage := h.stage
  rw [hr] at hstage
  obtain ⟨hcallbacks, hlength, hbudget⟩ := hstage
  refine ⟨?_, ?_, ?_, ?_, ?_, ?_, ?_⟩
  · simp only [List.flatMap_append, List.flatMap_singleton, List.append_assoc]
    rw [h.stream, hbytes]
  · intro d hd
    rcases List.mem_append.mp hd with hold | hthis
    · exact h.admissible d hold
    · exact List.mem_singleton.mp hthis ▸ ⟨hkind, hmaximum⟩
  · simp only [List.length_append, List.length_singleton]
    omega
  · rw [traffic_append]
    omega
  · simpa using hcallbacks
  · by_cases hterminal : e.kind ≠ utf8 "callbacks"
    · rw [if_pos hterminal]
      exact ⟨s.forwarded, e, rfl, hcallbacks, hterminal⟩
    · rw [if_neg hterminal]
      by_cases hleft : left = 0
      · rw [if_pos hleft]
        exact fun hok => absurd hok (by decide)
      · rw [if_neg hleft]
        refine ⟨hcallbacks.append (not_not.mp hterminal), ?_, ?_⟩
        · simp only [List.length_append, List.length_singleton]
          omega
        · rw [traffic_append]
          omega
  · have hreported := h.reported
    change Reported _ s.poll
    cases hp : s.poll with
    | returned status =>
      rw [hp] at hreported
      intro h0
      rw [hreported h0] at hr
      cases hr
    | killing reason => rw [hp] at hreported; exact hreported
    | _ => trivial

/-- The reader goes on to a stage that the forwarded events justify, without forwarding. -/
theorem Relay.goto (h : Relay cfg s) {r : Reader} (hstage : Stage cfg s r)
    (hdone : s.reader ≠ .done true) (overflow : Bool) :
    Relay cfg { s with reader := r, overflow := overflow } where
  stream := h.stream
  admissible := h.admissible
  length_le := h.length_le
  traffic_le := h.traffic_le
  terminal_last := h.terminal_last
  stage := hstage.close rfl rfl id
  reported := by
    have hreported := h.reported
    change Reported _ s.poll
    cases hp : s.poll with
    | returned status =>
      rw [hp] at hreported
      exact fun h0 => absurd (hreported h0) hdone
    | killing reason => rw [hp] at hreported; exact hreported
    | _ => trivial

/-- The reader thread keeps the invariant. -/
theorem Relay.reader (h : Relay cfg s) (hstep : stepReader cfg s = some t) : Relay cfg t := by
  have hstage := h.stage
  have hfalse : Stage cfg s (.storing false) := fun hok => absurd hok (by decide)
  unfold stepReader at hstep
  cases hr : s.reader with
  | reading left remaining =>
    have hdone : s.reader ≠ .done true := by rw [hr]; exact Reader.noConfusion
    simp only [hr] at hstep
    split at hstep
    · split at hstep <;> cases hstep
      exact h.goto hfalse hdone _
    · cases hstep
      exact h.goto hfalse hdone _
    · cases hstep
      exact h.forward hr (by assumption)
  | last =>
    have hdone : s.reader ≠ .done true := by rw [hr]; exact Reader.noConfusion
    simp only [hr] at hstep hstage
    split_ifs at hstep with hempty hwrites <;> cases hstep
    · exact h.goto hfalse hdone _
    · exact h.goto (r := .storing true)
        (fun _ => ⟨hstage, not_not.mp hempty, by simpa using hwrites⟩) hdone _
  | storing ok =>
    have hdone : s.reader ≠ .done true := by rw [hr]; exact Reader.noConfusion
    simp only [hr] at hstep hstage
    cases hstep
    exact h.goto (r := .done ok) hstage hdone _
  | done ok =>
    simp only [hr] at hstep
    cases hstep

/-- The polling loop keeps the invariant. -/
theorem Relay.poll (h : Relay cfg s) {late : Bool} (hstep : stepPoll s late = some t) :
    Relay cfg t := by
  have hmove : ∀ p, Reported s p → Relay cfg { s with poll := p } := fun p hp =>
    ⟨h.stream, h.admissible, h.length_le, h.traffic_le, h.terminal_last,
      h.stage.close rfl rfl id, by cases p <;> exact hp⟩
  have hreported := h.reported
  unfold stepPoll at hstep
  cases hp : s.poll with
  | tryWait =>
    simp only [hp] at hstep
    split at hstep <;> cases hstep <;> exact hmove _ trivial
  | loadCancelled =>
    simp only [hp] at hstep
    cases hstep
    exact hmove _ (by split <;> simp [Reported])
  | loadOverflow =>
    simp only [hp] at hstep
    cases hstep
    exact hmove _ (by split <;> simp [Reported])
  | checkDeadline =>
    simp only [hp] at hstep
    cases hstep
    exact hmove _ (by split <;> simp [Reported])
  | killing reason =>
    simp only [hp] at hstep hreported
    cases hstep
    exact ⟨h.stream, h.admissible, h.length_le, h.traffic_le, h.terminal_last,
      h.stage.close rfl rfl fun _ => rfl, fun h0 => absurd h0 hreported⟩
  | joining status =>
    simp only [hp] at hstep
    split_ifs at hstep with hstatus
    · split at hstep <;> cases hstep
      rename_i ok hr
      refine hmove _ fun h0 => ?_
      cases ok with
      | true => exact hr
      | false => simp at h0
    · cases hstep
      exact hmove _ fun h0 => absurd h0 hstatus
  | returned status =>
    simp only [hp] at hstep
    cases hstep

/-- **The relay invariant is inductive.** -/
theorem relay_step {l : Label} (h : Relay cfg s) (hstep : step cfg s l = some t) :
    Relay cfg t := by
  cases l with
  | complete bytes | cancel | close | arrive n | consume n | closeInput | closeOutput | boot =>
    simp only [step] at hstep
    try split at hstep
    all_goals cases hstep
    all_goals exact h.elsewhere rfl rfl rfl rfl rfl (by simp [State.send])
  | exit code =>
    simp only [step, stepExit] at hstep
    split_ifs at hstep
    cases hstep
    exact h.elsewhere rfl rfl rfl rfl rfl id
  | write bytes =>
    simp only [step] at hstep
    split_ifs at hstep with hwrites
    cases hstep
    exact h.print hwrites bytes
  | ask calls payload =>
    simp only [step] at hstep
    split_ifs at hstep with hguest
    cases hstep
    exact (h.print hguest.1 _).elsewhere rfl rfl rfl rfl rfl id
  | take =>
    simp only [step] at hstep
    split_ifs at hstep
    split at hstep <;> cases hstep
    exact h.elsewhere rfl rfl rfl rfl rfl id
  | finish kind payload =>
    simp only [step] at hstep
    split_ifs at hstep with hguest
    cases hstep
    exact (h.print hguest.1 _).elsewhere rfl rfl rfl rfl rfl id
  | writer n =>
    rw [stepWriter_frame hstep]
    exact h.elsewhere rfl rfl rfl rfl rfl id
  | stdin =>
    rw [stepStdin_frame hstep]
    exact h.elsewhere rfl rfl rfl rfl rfl id
  | reader => exact h.reader hstep
  | poll late => exact h.poll hstep

theorem relay_of_reachable (h : (system cfg).Reachable s) : Relay cfg s := by
  have hind : (system cfg).Inductive (Relay cfg) :=
    ⟨fun s hs => hs ▸ relay_start, fun s l t hs hst => relay_step hs hst⟩
  exact hind.of_reachable h

/-- What the reader thread writes to the supervisor's stdout. -/
def forwardedTraffic (cfg : Config) (es : List Relayed) : ℕ :=
  (es.map fun e => (cfg.serde.toVec e.kind).length + e.payload.length).sum

/-- A kind that is printed anew takes no more room than the header it was read from. -/
theorem forwardedTraffic_le (hserde : cfg.serde.Lawful) {es : List Relayed}
    (h : ∀ e ∈ es, Admissible cfg e) : forwardedTraffic cfg es ≤ traffic es := by
  refine List.sum_le_sum fun e he => ?_
  obtain ⟨hkind, maximum, hmaximum, -⟩ := h e he
  have hmem := mem_eventKinds hmaximum
  have hheader := hserde.length_le hkind
  rw [hserde.toVec_kind e.kind hmem, length_quote_kind hmem]
  simp only [Relayed.traffic]
  omega

/-- **The relay is safe against a compromised child.** Whatever the child writes and however
the threads interleave, the events forwarded so far are events at the front of its stream, each
with its kind and payload, of a known kind and within the bound of that kind; they are at most
`max_callback_calls + 2` events and 64 MiB of headers and payloads; and only the last may be
terminal. `supervise` returns 0 only when they are callback requests and one terminal event,
and the child's stream ended right there. -/
theorem relay_is_safe (cfg : Config) (hserde : cfg.serde.Lawful) (s : State)
    (h : (system cfg).Reachable s) :
    (∃ rest, s.produced = s.forwarded.flatMap Relayed.bytes ++ rest) ∧
    (∀ e ∈ s.forwarded, cfg.serde.fromSlice e.header = some e.kind ∧
      ∃ maximum, eventMaximum cfg.operation cfg.budgets e.kind = some maximum ∧
        e.payload.length ≤ maximum) ∧
    s.forwarded.length ≤ cfg.maxCallbacks + 2 ∧
    forwardedTraffic cfg s.forwarded ≤ mib64 ∧
    (∀ e ∈ s.forwarded.dropLast, e.kind = utf8 "callbacks") ∧
    (s.poll = .returned 0 →
      (∃ (callbacks : List Relayed) (terminal : Relayed),
        s.forwarded = callbacks ++ [terminal] ∧
        (∀ e ∈ callbacks, e.kind = utf8 "callbacks") ∧ terminal.kind ≠ utf8 "callbacks") ∧
      s.produced = s.forwarded.flatMap Relayed.bytes ∧ s.childWrites = false) := by
  have hrelay := relay_of_reachable h
  refine ⟨⟨s.childOut, hrelay.stream⟩, hrelay.admissible, hrelay.length_le,
    (forwardedTraffic_le hserde hrelay.admissible).trans hrelay.traffic_le,
    hrelay.terminal_last, fun hpoll => ?_⟩
  have hreported := hrelay.reported
  rw [hpoll] at hreported
  have hstage := hrelay.stage
  rw [hreported rfl] at hstage
  obtain ⟨hcomplete, hempty, hclosed⟩ := hstage rfl
  refine ⟨hcomplete, ?_, hclosed⟩
  rw [hrelay.stream, hempty, List.append_nil]

/-- The relay of a child that finished and was waited for. -/
theorem relay_is_safe_finished : ∃ s : State, s.poll = .returned 0 ∧
    forwardedTraffic defaultRun s.forwarded ≤ mib64 ∧
    s.produced = s.forwarded.flatMap Relayed.bytes := by
  have hrun : (System.trace (step defaultRun) (fun _ _ => True) (.start defaultRun)
      (promptRun ++ [.exit 0, .poll false, .poll false])).map (·.poll) =
      some (.returned 0) := by decide
  obtain ⟨s, hs, hpoll⟩ := Option.map_eq_some_iff.mp hrun
  have hreachable : ((system defaultRun).restrict fun _ _ _ => True).Reachable s :=
    System.reachable_of_trace rfl hs
  have hsafe := relay_is_safe defaultRun Serde.reference_lawful s hreachable.of_restrict
  exact ⟨s, hpoll, hsafe.2.2.2.1, (hsafe.2.2.2.2.2 hpoll).2.1⟩

end Javex.Worker
