import Javex.Isolated.Grammar

/-!
# Late callback replies

Detached callbacks may still finish while an isolated run ends, so their replies race the last
output and the exit status for the run worker's mailbox. A `Schedule` is one such race: what
arrives in the mailbox and when the worker takes a turn. The port closes when the exit status
is queued, and a reply that is received after that is forwarded to a closed port.

* `drain_eq_receiveAll`: a schedule is a run of the loop over the arrivals, each with whether
  the port was open when it was received.
* `late_reply`: the decoded result survives exactly when no reply waits in the mailbox at the
  moment the exit status is queued.

The mailbox of the run worker is a queue with two writers, the port and the broker, and the order in
which their messages are queued is not determined by either. A schedule fixes one order and the
moments at which the worker takes its turns; quantifying over schedules is quantifying over every
race. The port is open until its exit status has been queued, whether or not that status has been
received, and this is the moment that the condition is about.

A reply that is received while the port is open does no harm even after the last output: it is
written to a child that will not read it. One that is received later raises, and the exception is
turned into an error of the worker by the function that made the call, together with the result that
had been decoded.
-/

namespace Javex.Isolated

open Codec Codec.Decoder

/-! ### Schedules -/

/-- A message arrives, or the worker takes a turn. -/
inductive Moment
  | arrive (message : Message)
  | receive

/-- One order of arrivals and turns. -/
abbrev Schedule := List Moment

/-- The run worker: its mailbox, whether the exit status was queued, and how far the call got:
a state of the loop, or what the call returned. -/
structure Worker where
  mailbox : List Message
  exited : Bool
  progress : State ⊕ Outcome

/-- A worker about to enter the loop. -/
def Worker.start : Worker := ⟨[], false, .inl .start⟩

/-- The exit status of the port. -/
def isExit : Message → Bool
  | .exitStatus _ => true
  | _ => false

/-- The completion of a callback reply. -/
def isReply : Message → Bool
  | .callbackReply _ => true
  | _ => false

/-- The output a message carries. -/
def output : Message → Bytes
  | .data bytes => bytes
  | _ => []

section Run

variable (decode : Bytes → Option Json) (call : Call) (reason : Bytes)

/-- One moment of a schedule. The loop waits while its mailbox is empty. -/
def Worker.step (w : Worker) : Moment → Worker
  | .arrive message =>
    { w with mailbox := w.mailbox ++ [message], exited := w.exited || isExit message }
  | .receive =>
    match w.progress, w.mailbox with
    | .inl state, message :: later =>
      { w with
        mailbox := later
        progress := match (receiveResult decode call (!w.exited) state message).2 with
          | .loop state' => .inl state'
          | .return outcome => .inr outcome
          | .raised => .inr (unavailable reason) }
    | _, _ => w

/-- What the call returns once the worker has received all that is left. -/
def Worker.drain (w : Worker) : Option Outcome :=
  match w.progress with
  | .inl state => (receiveAll decode call reason state (w.mailbox.map fun m => (m, !w.exited))).2
  | .inr outcome => some outcome

/-- What the call returns after a schedule, with everything received in the end. -/
def finish (schedule : Schedule) : Option Outcome :=
  (schedule.foldl (Worker.step decode call reason) .start).drain decode call reason

end Run

/-- The messages of a schedule in the order they arrive. -/
def arrivals (schedule : Schedule) : List Message :=
  schedule.filterMap fun
    | .arrive message => some message
    | .receive => none

/-- What the turns of a schedule leave in a mailbox. -/
def waiting (mailbox : List Message) : Schedule → List Message
  | [] => mailbox
  | .arrive message :: later => waiting (mailbox ++ [message]) later
  | .receive :: later => waiting mailbox.tail later

/-- What the turns of a schedule take from a mailbox. -/
def taken (mailbox : List Message) : Schedule → List Message
  | [] => []
  | .arrive message :: later => taken (mailbox ++ [message]) later
  | .receive :: later => mailbox.head?.toList ++ taken mailbox.tail later

/-- The messages in the order they are received, each with whether the port is open then. -/
def deliveries (mailbox : List Message) (exited : Bool) : Schedule → List (Message × Bool)
  | [] => mailbox.map fun m => (m, !exited)
  | .arrive message :: later =>
    deliveries (mailbox ++ [message]) (exited || isExit message) later
  | .receive :: later =>
    (mailbox.head?.toList.map fun m => (m, !exited)) ++ deliveries mailbox.tail exited later

/-- Nothing but output and replies before the exit status 0, and nothing but replies after it:
no cancellation, no broker error, no `:DOWN`. -/
structure Ended (before after : Schedule) : Prop where
  before : ∀ m ∈ arrivals before, (∃ bytes, m = .data bytes) ∨ isReply m
  after : ∀ m ∈ arrivals after, isReply m

variable {decode : Bytes → Option Json} {call : Call} {reason : Bytes}

/-! ### A schedule is a run of the loop -/

/-- **Schedules.** A schedule returns what the loop returns over its deliveries. -/
theorem drain_eq_receiveAll (w : Worker) (schedule : Schedule) :
    (schedule.foldl (Worker.step decode call reason) w).drain decode call reason =
      match w.progress with
      | .inl state =>
        (receiveAll decode call reason state (deliveries w.mailbox w.exited schedule)).2
      | .inr outcome => some outcome := by
  induction schedule generalizing w with
  | nil => rfl
  | cons moment later ih =>
    rw [List.foldl_cons, ih]
    cases moment with
    | arrive message => rfl
    | receive =>
      obtain ⟨mailbox, exited, progress⟩ := w
      cases progress with
      | inr outcome => cases mailbox <;> rfl
      | inl state =>
        cases mailbox with
        | nil => rfl
        | cons message mailbox =>
          simp only [Worker.step, deliveries, List.head?_cons, Option.toList_some, List.map_cons,
            List.map_nil, List.cons_append, List.nil_append, List.tail_cons, receiveAll]
          cases receiveResult decode call (!exited) state message with
          | mk effects turn => cases turn <;> rfl

/-- Before the exit status everything is received with the port open. -/
theorem deliveries_append (mailbox : List Message) {before : Schedule}
    (h : ∀ m ∈ arrivals before, isExit m = false) (later : Schedule) :
    deliveries mailbox false (before ++ later) =
      (taken mailbox before).map (fun m => (m, true)) ++
        deliveries (waiting mailbox before) false later := by
  induction before generalizing mailbox with
  | nil => rfl
  | cons moment before ih =>
    cases moment with
    | arrive message =>
      have hmem : message ∈ arrivals (.arrive message :: before) := by simp [arrivals]
      have hrest := ih (mailbox ++ [message])
        fun m hm => h m (by simp only [arrivals] at hm ⊢; simp [hm])
      simp only [List.cons_append, deliveries, h message hmem, Bool.or_false, taken, waiting]
      exact hrest
    | receive =>
      have hrest := ih mailbox.tail h
      simp only [List.cons_append, deliveries, taken, waiting, List.map_append, List.append_assoc,
        hrest]
      rfl

/-- After the exit status everything is received with the port closed. -/
theorem deliveries_exited (mailbox : List Message) (schedule : Schedule) :
    deliveries mailbox true schedule =
      (mailbox ++ arrivals schedule).map fun m => (m, false) := by
  induction schedule generalizing mailbox with
  | nil => simp [deliveries, arrivals]
  | cons moment later ih =>
    cases moment with
    | arrive message => simp [deliveries, ih, arrivals]
    | receive =>
      have harrivals : arrivals (.receive :: later) = arrivals later := rfl
      cases mailbox <;> simp [deliveries, ih, harrivals]

/-- Turns take messages from the front of the mailbox. -/
theorem taken_append_waiting (mailbox : List Message) (schedule : Schedule) :
    taken mailbox schedule ++ waiting mailbox schedule = mailbox ++ arrivals schedule := by
  induction schedule generalizing mailbox with
  | nil => simp [taken, waiting, arrivals]
  | cons moment later ih =>
    cases moment with
    | arrive message =>
      have harrivals : arrivals (.arrive message :: later) = message :: arrivals later := rfl
      simp [taken, waiting, ih, harrivals]
    | receive =>
      have harrivals : arrivals (.receive :: later) = arrivals later := rfl
      cases mailbox <;> simp [taken, waiting, ih, harrivals]

/-! ### What the loop makes of a reply -/

/-- A reply that is received after the port closed. -/
def isLate (delivery : Message × Bool) : Bool := isReply delivery.1 && !delivery.2

/-- A chunk of a stream that the scan accepts is taken without a failure. -/
theorem receiveResult_data_pending {state : State} {bytes rest : Bytes} {effects : List Effect}
    {found : Option Outcome × List Effect} {buffer : Bytes} (portOpen : Bool)
    (hcancelled : state.cancelled = false) (hsize : state.size + bytes.length ≤ mib64)
    (hscan : scanEvents decode call false state.result effects
      (state.buffer ++ (bytes ++ rest)) = .pending found buffer) :
    ∃ sent state' effects', receiveResult decode call portOpen state (.data bytes) =
        (sent, .loop state') ∧
      state'.cancelled = false ∧ state'.failure = state.failure ∧
      state'.size = state.size + bytes.length ∧
      (eventDecoder call.maximum).next state'.buffer = .more ∧
      scanEvents decode call false state'.result effects' (state'.buffer ++ rest) =
        .pending found buffer := by
  obtain ⟨-, hstate⟩ := decodeEvents_scan decode call (received state bytes) effects
  have hreceived : (received state bytes).cancelled = false := hcancelled
  have hsplit : scanEvents decode call false state.result effects
      (state.buffer ++ (bytes ++ rest)) =
        feed (eventDecoder call.maximum) (absorb decode call false)
          (scanEvents decode call false (received state bytes).result effects
            (received state bytes).buffer) rest := by
    rw [scanEvents, ← List.append_assoc, scan_append]
    rfl
  rw [hreceived] at hstate
  rw [hsplit] at hscan
  rw [receiveResult_data decode call portOpen hsize]
  cases hfirst : scanEvents decode call false (received state bytes).result effects
    (received state bytes).buffer with
  | failed found' =>
    rw [hfirst] at hscan
    cases hscan
  | pending found' buffer' =>
    rw [hfirst] at hscan hstate
    cases hdecoded : decodeEvents decode call (received state bytes) with
    | mk sent next =>
      rw [hdecoded] at hstate
      obtain rfl := hstate
      exact ⟨sent, _, found'.2, rfl, rfl, rfl, rfl, next_of_scan_pending hfirst, hscan⟩

/-- **Replies.** Over output that is a complete stream, and replies, the loop returns the
decoded result at the exit status 0, unless it raised on a late reply before. -/
theorem receiveAll_ended (decode : Bytes → Option Json) (call : Call) (reason : Bytes)
    (deliveries : List (Message × Bool)) (portOpen : Bool) (later : List (Message × Bool))
    (state : State) (effects : List Effect) {all : List Effect} {result : Outcome}
    (hcancelled : state.cancelled = false) (hfailure : state.failure = none)
    (hbuffer : (eventDecoder call.maximum).next state.buffer = .more)
    (hkind : ∀ d ∈ deliveries, (∃ bytes, d.1 = .data bytes) ∨ isReply d.1)
    (hsize : state.size + (deliveries.flatMap fun d => output d.1).length ≤ mib64)
    (hscan : scanEvents decode call false state.result effects
      (state.buffer ++ deliveries.flatMap fun d => output d.1) = .pending (some result, all) []) :
    (receiveAll decode call reason state
      (deliveries ++ (.exitStatus 0, portOpen) :: later)).2 =
        some (if deliveries.any isLate then unavailable reason else result) := by
  induction deliveries generalizing state effects with
  | nil =>
    rw [List.flatMap_nil, List.append_nil, scanEvents, scan_more hbuffer] at hscan
    simp only [Scan.pending.injEq, Prod.mk.injEq] at hscan
    simp [receiveAll, receiveResult, hfailure, workerResult_zero, hscan.1.1, hscan.2]
  | cons delivery deliveries ih =>
    obtain ⟨message, isOpen⟩ := delivery
    obtain ⟨hthis, hrest⟩ := List.forall_mem_cons.mp hkind
    rcases hthis with ⟨bytes, rfl⟩ | hreply
    · have houtput : output (.data bytes) = bytes := rfl
      simp only [List.flatMap_cons, houtput, List.length_append] at hsize hscan
      obtain ⟨sent, state', effects', hturn, hcancelled', hfailure', hsize', hbuffer', hscan'⟩ :=
        receiveResult_data_pending isOpen hcancelled (by omega) hscan
      have htail := ih state' effects' hcancelled' (hfailure'.trans hfailure) hbuffer' hrest
        (by omega) hscan'
      have hlate : isLate (.data bytes, isOpen) = false := rfl
      simp only [List.cons_append, receiveAll, hturn, htail, List.any_cons, hlate, Bool.false_or]
    · obtain ⟨completion, rfl⟩ : ∃ completion, message = .callbackReply completion := by
        cases message <;> first | exact ⟨_, rfl⟩ | cases hreply
      have houtput : output (.callbackReply completion) = [] := rfl
      simp only [List.flatMap_cons, houtput, List.nil_append] at hsize hscan
      cases isOpen with
      | true =>
        have htail := ih state effects hcancelled hfailure hbuffer hrest hsize hscan
        have hlate : isLate (.callbackReply completion, true) = false := rfl
        have hturn : receiveResult decode call true state (.callbackReply completion) =
            ([.command (frameBytes completion)], .loop state) := by
          simp [receiveResult, hcancelled]
        simp only [List.cons_append, receiveAll, hturn, htail, List.any_cons, hlate, Bool.false_or]
      | false => simp [receiveAll, receiveResult, hcancelled, isLate, isReply]

/-! ### The race -/

/-- What a race returns: the decoded result, unless a reply waits in the mailbox when the exit
status is queued. -/
theorem finish_race {before after : Schedule} (h : Ended before after) {payloads : List Bytes}
    {result : Outcome}
    (hstream : Stream decode call ((arrivals before).flatMap output) payloads result)
    (hsize : ((arrivals before).flatMap output).length ≤ mib64) :
    finish decode call reason (before ++ .arrive (.exitStatus 0) :: after) =
      some (if (waiting [] before).any isReply then unavailable reason else result) := by
  have hnoexit : ∀ m ∈ arrivals before, isExit m = false := by
    intro m hm
    rcases h.before m hm with ⟨bytes, rfl⟩ | hreply
    · rfl
    · cases m <;> first | rfl | cases hreply
  have harrivals := taken_append_waiting [] before
  rw [List.nil_append] at harrivals
  have hdeliveries : deliveries [] false (before ++ .arrive (.exitStatus 0) :: after) =
      ((taken [] before).map (fun m => (m, true)) ++
        (waiting [] before).map fun m => (m, false)) ++
          (.exitStatus 0, false) :: (arrivals after).map fun m => (m, false) := by
    rw [deliveries_append _ hnoexit, deliveries, isExit, Bool.or_true, deliveries_exited]
    simp
  have houtput : (((taken [] before).map (fun m => (m, true)) ++
      (waiting [] before).map fun m => (m, false)).flatMap fun d => output d.1) =
        (arrivals before).flatMap output := by
    rw [← harrivals]
    simp [List.flatMap_map]
  have hlate : ((taken [] before).map (fun m => (m, true)) ++
      (waiting [] before).map fun m => (m, false)).any isLate =
        (waiting [] before).any isReply := by
    simp [isLate, List.any_map, Function.comp_def]
  have hkind : ∀ d ∈ (taken [] before).map (fun m => (m, true)) ++
      (waiting [] before).map (fun m => (m, false)),
        (∃ bytes, d.1 = .data bytes) ∨ isReply d.1 := by
    intro d hd
    refine h.before d.1 ?_
    rw [← harrivals]
    simp only [List.mem_append, List.mem_map] at hd ⊢
    rcases hd with ⟨m, hm, rfl⟩ | ⟨m, hm, rfl⟩
    · exact .inl hm
    · exact .inr hm
  have hrun := receiveAll_ended decode call reason _ false
    ((arrivals after).map fun m => (m, false)) .start [] rfl rfl rfl hkind
    (by rw [houtput]; simpa [State.start] using hsize)
    (by rw [houtput]; exact hstream.scanEvents)
  rw [hlate, ← hdeliveries] at hrun
  rw [finish, drain_eq_receiveAll]
  exact hrun

/-- **A late callback reply.** In a race between a complete stream, the exit status 0 and any
number of callback replies, the call returns the decoded terminal event exactly when no reply
waits in the mailbox at the moment the exit status is queued (or that event is itself the
error of a raising port). -/
theorem late_reply (decode : Bytes → Option Json) (call : Call) (reason : Bytes)
    (before after : Schedule) (payloads : List Bytes) (result : Outcome)
    (hended : Ended before after)
    (hstream : Stream decode call ((arrivals before).flatMap output) payloads result)
    (hsize : ((arrivals before).flatMap output).length ≤ mib64) :
    finish decode call reason (before ++ .arrive (.exitStatus 0) :: after) = some result ↔
      (∀ m ∈ waiting [] before, isReply m = false) ∨ result = unavailable reason := by
  rw [finish_race hended hstream hsize]
  cases hwaiting : (waiting [] before).any isReply with
  | false =>
    have hall := List.any_eq_false.mp hwaiting
    simp only [Bool.false_eq_true, if_false]
    exact iff_of_true trivial (.inl fun m hm => Bool.not_eq_true _ ▸ hall m hm)
  | true =>
    obtain ⟨m, hm, hreply⟩ := List.any_eq_true.mp hwaiting
    simp only [if_true, Option.some.injEq]
    constructor
    · exact fun h => .inr h.symm
    · rintro (hnone | rfl)
      · rw [hnone m hm] at hreply
        cases hreply
      · rfl

/-- The whole output of a run that returns one byte. -/
def okOutput : Bytes := [0, 0, 0, 4] ++ utf8 "\"ok\"" ++ [0, 0, 0, 1, 7]

theorem okOutput_stream : Stream Json.parse (.of .run .builtin) okOutput [] (.ok [7]) :=
  ⟨[], (utf8 "\"ok\"", [7]), by decide, by simp,
    .ok (by decide) (by decide) (by decide) (by rfl), rfl⟩

/-- The output and a reply that was received before the child ended. -/
theorem late_reply_received :
    finish Json.parse (.of .run .builtin) []
      ([.arrive (.data okOutput), .arrive (.callbackReply (utf8 "[]")), .receive, .receive] ++
        .arrive (.exitStatus 0) :: []) = some (.ok [7]) :=
  (late_reply Json.parse (.of .run .builtin) []
    [.arrive (.data okOutput), .arrive (.callbackReply (utf8 "[]")), .receive, .receive] [] [] _
    ⟨by simp [arrivals, isReply], by simp [arrivals]⟩ okOutput_stream (by decide)).mpr
    (.inl (by decide))

/-- The same race, with the exit status queued before the worker takes a turn. -/
theorem late_reply_lost :
    ¬ ∀ (before after : Schedule) (payloads : List Bytes) (result : Outcome),
      Ended before after →
      Stream Json.parse (.of .run .builtin) ((arrivals before).flatMap output) payloads result →
      ((arrivals before).flatMap output).length ≤ mib64 →
      finish Json.parse (.of .run .builtin) []
        (before ++ .arrive (.exitStatus 0) :: after) = some result := by
  intro h
  have hresult := h [.arrive (.data okOutput), .arrive (.callbackReply (utf8 "[]"))] [] [] _
    ⟨by simp [arrivals, isReply], by simp [arrivals]⟩ okOutput_stream (by decide)
  rw [finish_race ⟨by simp [arrivals, isReply], by simp [arrivals]⟩ okOutput_stream (by decide)]
    at hresult
  simp [waiting, isReply, unavailable] at hresult

end Javex.Isolated
