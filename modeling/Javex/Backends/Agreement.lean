import Javex.Backends.Progress

/-!
# The two backends agree

The outcome of an execution on the isolated backend against that in process.

* `backends_agree`: an undisturbed run within the limits always gets to its outcome, whatever
  the interleaving, and that is the outcome in process exactly if `response` leaves it alone.
* `backends_differ`: `response` replaces a message that is longer than `max_module`, `max_output`
  and `max_stderr`, although every other bound on an error is at least 4096 bytes.

The proof of agreement is in the modules before this one: `Javex.Backends.Faithful` and
`Javex.Backends.Heard` for what holds in every state, `Javex.Backends.Progress` for a run getting to
its end. Here they are put together, and the difference that remains is named: `response` may cut an
error down, and then the two backends disagree in that error.
-/

namespace Javex.Backends

open Codec Codec.Decoder Isolated Worker Transition

/-- The runs of the isolated backend that nothing disturbs. -/
def undisturbedRuns (setup : Setup) (completions : List Bytes) : System Session Label :=
  (system setup).restrict fun s l _ => Provided setup completions s l

/-- **The two backends agree** on an execution that keeps within the limits and is handed the same
completions, whatever the interleaving of the run worker, the supervisor and the child, if and
only if its outcome fits the response limit of the child. Every undisturbed run of the isolated
backend can go on to its outcome. -/
theorem backends_agree (setup : Setup) (hserde : setup.serde.Lawful)
    (hdecode : Decodes setup.decode) (completions : List Bytes)
    (hwithin : Within setup completions) :
    ∃ outcome, (setup.execution.advance completions).outcome? = some outcome ∧
      (inProcess setup.execution (completions.map .reply)).2 = some outcome ∧
      ∀ s, (undisturbedRuns setup completions).Reachable s →
        (∀ isolated, s.outcome = some isolated →
          (isolated = outcome ↔ Unchanged setup.maximum outcome)) ∧
        ∃ ls t, (undisturbedRuns setup completions).Run s ls t ∧ t.outcome.isSome := by
  obtain ⟨outcome, hended, -⟩ := hwithin.ended
  have hind : (undisturbedRuns setup completions).Inductive (Faithful setup completions) :=
    ⟨fun s hs => hs ▸ faithful_start,
      fun s l t hs hst => faithful_step hserde hdecode hwithin hs hst.2 hst.1⟩
  refine ⟨outcome, hended, inProcess_eq hwithin hended, fun s hs => ⟨?_, ?_⟩⟩
  · intro isolated hisolated
    obtain ⟨result, hresult, rfl⟩ := (hind.of_reachable hs).outcome isolated hisolated
    obtain rfl : outcome = result := Option.some.inj (hended.symm.trans hresult)
    exact responded_eq_iff setup.maximum outcome
  · refine System.exists_run_of_ranking (rank completions) (fun s hs hgoal => ?_)
      (hind.of_reachable hs)
    obtain ⟨l, t, hstep, hl, hlt⟩ :=
      hs.enabled hserde hdecode hwithin (Option.not_isSome_iff_eq_none.mp hgoal)
    exact ⟨l, t, ⟨hstep, hl⟩, hind.step s l t hs ⟨hstep, hl⟩, hlt⟩

/-- An execution that asks once and returns a byte. -/
def asksOnce : Setup where
  serde := .reference
  decode := Json.parse
  reason := []
  header := []
  plugin := []
  mod := []
  input := []
  budgets := .builtin
  execution :=
    { advance := fun completions => if completions = [] then .pending (utf8 "[1]") else .done [7]
      known := fun {completions kind message} h => by split at h <;> cases h }

theorem decodes_parse : Decodes Json.parse := by
  intro kind _
  have hparse := Json.parse_print (.str kind)
  rwa [Json.print] at hparse

theorem within_asksOnce : Within asksOnce [utf8 "[1]"] where
  pending n hn := by
    obtain rfl : n = 0 := by simpa using hn
    exact ⟨utf8 "[1]", rfl, by decide⟩
  ended := ⟨.ok [7], rfl, by decide⟩
  calls_le := by decide
  bounded := by
    intro c hc
    obtain rfl := List.mem_singleton.mp hc
    exact ⟨by decide, by decide⟩
  inbound_le := by decide
  outbound_le := by decide

/-- The end of a child that has printed its last event, and of its supervisor. -/
def ending : List Label :=
  [.worker .closeInput, .worker .closeOutput, .worker (.exit 0), .worker .reader, .worker .reader,
    .worker (.poll false), .worker (.poll false)]

/-- The run that asks once and is answered, up to its outcome. -/
theorem backends_agree_answered : ∃ s : Session, s.outcome = some (.ok [7]) ∧
    ∃ outcome, (inProcess asksOnce.execution ([utf8 "[1]"].map .reply)).2 = some outcome ∧
      (Except.ok [7] = outcome ↔ Unchanged asksOnce.maximum outcome) := by
  have hrun : (System.trace (step asksOnce) (Provided asksOnce [utf8 "[1]"]) (.start asksOnce)
      ([.worker (.writer 16), .worker .boot, .advance, .worker .reader, .data 3 true,
        .data 19 true, .notice (.reply (utf8 "[1]")) true, .worker (.arrive 7), .worker .stdin,
        .worker .stdin, .worker (.writer 0), .worker (.writer 7), .worker .take, .advance,
        .worker .reader] ++ ending ++ [.data 13 false, .exitStatus])).map (·.outcome) =
      some (some (.ok [7])) := by decide +kernel
  obtain ⟨s, hs, houtcome⟩ := Option.map_eq_some_iff.mp hrun
  obtain ⟨outcome, -, hprocess, hall⟩ := backends_agree asksOnce Serde.reference_lawful
    decodes_parse [utf8 "[1]"] within_asksOnce
  exact ⟨s, houtcome, outcome, hprocess,
    (hall s (System.reachable_of_trace rfl hs)).1 _ houtcome⟩

/-- Budgets for the smallest module and no output. -/
def tightBudgets : Budgets where
  value
    | .maxModule => 8
    | .maxOutput => 0
    | .maxStderr => 0
    | key => key.builtinDefault
  minimum_le key := by cases key <;> decide
  le_maximum key := by cases key <;> decide

/-- The empty Wasm module: it has no `_start` to call. -/
def emptyModule : Setup where
  serde := .reference
  decode := Json.parse
  reason := []
  header := []
  plugin := []
  mod := [0x00, 0x61, 0x73, 0x6d, 0x01, 0x00, 0x00, 0x00]
  input := []
  budgets := tightBudgets
  execution :=
    { advance := fun _ => .err .trap (utf8 "failed to find function export `_start`")
      known := fun {completions kind message} h => by cases h; decide }

theorem within_emptyModule : Within emptyModule [] where
  pending n hn := by cases hn
  ended := ⟨.error (.trap, utf8 "failed to find function export `_start`"), rfl, by decide⟩
  calls_le := by decide
  bounded _ hc := by cases hc
  inbound_le := by decide
  outbound_le := by decide

/-- **The backends differ** on a module without `_start`: in process the trap is reported, but the
child replaces its message, which is longer than the response limit of 8 bytes. -/
theorem backends_differ : Within emptyModule [] ∧
    (inProcess emptyModule.execution []).2 =
      some (.error (.trap, utf8 "failed to find function export `_start`")) ∧
    ∃ s, (undisturbedRuns emptyModule []).Reachable s ∧ s.outcome =
      some (.error (.outputLimit, utf8 "worker response limit exceeded")) := by
  have hrun : (System.trace (step emptyModule) (Provided emptyModule []) (.start emptyModule)
      ([.worker (.writer 24), .worker .boot, .advance, .worker .reader] ++ ending ++
        [.data 52 false, .exitStatus])).map (·.outcome) =
      some (some (.error (.outputLimit, utf8 "worker response limit exceeded"))) := by
    decide +kernel
  obtain ⟨s, hs, houtcome⟩ := Option.map_eq_some_iff.mp hrun
  exact ⟨within_emptyModule, rfl, s, System.reachable_of_trace rfl hs, houtcome⟩

end Javex.Backends
