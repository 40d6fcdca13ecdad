import Javex.Isolated.Request
import Javex.Native.Store
import Javex.Options.Accepted
import Mathlib.Data.List.Perm.Lattice

/-!
# Requests on both hops

How `native/javex_nif/src/worker.rs` reads a request, passes it on and reads it again: `read_frame`,
`write_frame` and `request`, with the subtractions from `remaining` checked, and the derived
`Deserialize` of `Request` and `Budgets`. `Jason` and `serde_json` are the parameter `HeaderJson`.

* `requests_survive`: the header and the payloads of every request that `call/7` sends arrive in
  the child as they were sent, and mean there what they meant.

The header is the only part that is not forwarded as it came: it is read by the supervisor for the
budgets, and then written again to the child as the bytes that were received. Both ends read the
same text, and what they read are the limits of the call as numbers of the types that the structure
`Budgets` of the source gives them; that a number fits its type is a fact about the option checks.

`HeaderJson` is the pair of the encoder on one side and the parser on the other, and its laws are
about texts of plain values only, which is what a header is. The order of the members is not fixed:
`IsHeader` admits every order of the two maps, and a struct that is read from a map does not depend
on it.
-/

namespace Javex.Worker

open Codec Codec.Decoder Codec.Json Isolated

/-! ### Frames -/

/-- Why `request` fails: the input ends or has not arrived yet, a frame is too large, or a
subtraction would underflow. -/
inductive ReadError
  | incomplete | limit | underflow
  deriving DecidableEq

/-- `usize` subtraction. -/
def sub (m n : ℕ) : Except ReadError ℕ := if n ≤ m then .ok (m - n) else .error .underflow

/-- `read_frame`: the frame, the input after it and what is left of `remaining`. -/
def readFrame (input : Bytes) (remaining : ℕ) : Except ReadError (Bytes × Bytes × ℕ) :=
  match input with
  | a :: b :: c :: d :: rest =>
    let size := word a b c d
    if size ≤ remaining then do
      let remaining ← sub remaining size
      if rest.length < size then .error .incomplete
      else .ok (rest.take size, rest.drop size, remaining)
    else .error .limit
  | _ => .error .incomplete

/-- `write_frame`, which fails on a length that does not fit in 32 bits. -/
def writeFrame (bytes : Bytes) : Option Bytes :=
  if bytes.length < 4294967296 then some (frameBytes bytes) else none

/-- `MAX_REQUEST`. -/
def maxRequest : ℕ := 64 * 1024 * 1024

/-- `MAX_HEADER`. -/
def maxHeader : ℕ := 1024 * 1024

/-- `request`: the four frames, and the input after them. -/
def request (input : Bytes) : Except ReadError (List Bytes × Bytes) := do
  let (header, input, _) ← readFrame input maxHeader
  let remaining ← sub maxRequest header.length
  let (first, input, remaining) ← readFrame input remaining
  let (second, input, remaining) ← readFrame input remaining
  let (third, input, _) ← readFrame input remaining
  return ([header, first, second, third], input)

/-- The frames as the writer thread of the supervisor passes them on. -/
def passOn (frames : List Bytes) : Option Bytes := (frames.mapM writeFrame).map List.flatten

/-! ### The header -/

/-- The value of a member, which is there once. -/
def field? (name : String) (members : List (Bytes × Json)) : Option Json :=
  match members.filter fun member => member.1 == utf8 name with
  | [member] => some member.2
  | _ => none

/-- An unsigned number of so many bits. -/
def unsigned? (bits : ℕ) : Json → Option ℕ
  | .int n => if 0 ≤ n ∧ n < 2 ^ bits then some n.toNat else none
  | _ => none

/-- `bool`. -/
def bool? : Json → Option Bool
  | .bool b => some b
  | _ => none

/-- `String`. -/
def string? : Json → Option Bytes
  | .str s => some s
  | _ => none

/-- `(String, String)`. -/
def pair? : Json → Option (Bytes × Bytes)
  | .arr [.str key, .str value] => some (key, value)
  | _ => none

/-- `Vec<(String, String)>`. -/
def pairs? : Json → Option (List (Bytes × Bytes))
  | .arr js => js.mapM pair?
  | _ => none

/-- The `Deserialize` of `Budgets`; `usize` has 64 bits. -/
def Budgets.deserialize : Json → Option Native.Budgets
  | .obj members => do
    let fuel ← (field? "fuel" members).bind (unsigned? 64)
    let maxMemory ← (field? "max_memory" members).bind (unsigned? 64)
    let maxInput ← (field? "max_input" members).bind (unsigned? 64)
    let maxOutput ← (field? "max_output" members).bind (unsigned? 64)
    let maxStderr ← (field? "max_stderr" members).bind (unsigned? 64)
    let maxModule ← (field? "max_module" members).bind (unsigned? 64)
    let maxCallbackCalls ← (field? "max_callback_calls" members).bind (unsigned? 32)
    let maxCallbackConcurrency ← (field? "max_callback_concurrency" members).bind (unsigned? 32)
    let maxCallbackInput ← (field? "max_callback_input" members).bind (unsigned? 32)
    let maxCallbackOutput ← (field? "max_callback_output" members).bind (unsigned? 32)
    let env ← (field? "env" members).bind pairs?
    let staticMode ← (field? "static_mode" members).bind bool?
    return { fuel, maxMemory, maxInput, maxOutput, maxStderr, maxModule, maxCallbackCalls,
             maxCallbackConcurrency, maxCallbackInput, maxCallbackOutput, env, staticMode }
  | _ => none

/-- `Request`. -/
structure Request where
  operation : Bytes
  limits : Native.Budgets
  deriving DecidableEq

/-- The `Deserialize` of `Request`. -/
def Request.deserialize : Json → Option Request
  | .obj members => do
    let operation ← (field? "operation" members).bind string?
    let limits ← (field? "limits" members).bind Budgets.deserialize
    return { operation, limits }
  | _ => none

/-- The JSON libraries at the header: `Jason.encode!/1` of a map in the order it is iterated in,
and the parser of `serde_json`. -/
structure HeaderJson where
  encode : Json → Bytes
  parse : Bytes → Option Json

/-- What the code relies on: `Jason` writes the compact JSON of a value, with at most six bytes for
a byte of a string, and `serde_json` reads that. -/
structure HeaderJson.Lawful (lib : HeaderJson) : Prop where
  parse_encode : ∀ {j}, Plain 127 j → lib.parse (lib.encode j) = some j
  length_encode : ∀ {j}, Plain 127 j → (lib.encode j).length ≤ j.extent

/-- The printer and the parser of JSON. -/
def HeaderJson.reference : HeaderJson := ⟨Json.print, Json.parse⟩

theorem HeaderJson.reference_lawful : HeaderJson.reference.Lawful where
  parse_encode _ := Json.parse_print _
  length_encode _ := Json.length_print_le _

/-- `serde_json::from_slice` of a header. -/
def HeaderJson.fromSlice (lib : HeaderJson) (header : Bytes) : Option Request :=
  (lib.parse header).bind Request.deserialize

/-! ### Reading -/

/-- `read_frame` is the decoder of frames: a subtraction never underflows. -/
theorem readFrame_eq (input : Bytes) (remaining : ℕ) :
    readFrame input remaining =
      match (frame remaining).next input with
      | .more => .error .incomplete
      | .bad => .error .limit
      | .done bytes rest => .ok (bytes, rest, remaining - bytes.length) := by
  match input with
  | a :: b :: c :: d :: rest =>
    rw [frame_next_cons]
    by_cases hsize : word a b c d ≤ remaining
    · have hsub : sub remaining (word a b c d) = .ok (remaining - word a b c d) := if_pos hsize
      simp only [readFrame, hsize, if_true, hsub, if_neg (Nat.not_lt.mpr hsize)]
      by_cases hshort : rest.length < word a b c d
      · rw [if_pos hshort]
        exact if_pos hshort
      · have htake : (rest.take (word a b c d)).length = word a b c d := by
          rw [List.length_take]
          omega
        rw [if_neg hshort]
        simp only [htake]
        exact if_neg hshort
    · simp only [readFrame, hsize, if_false, if_pos (Nat.lt_of_not_le hsize)]
  | [] | [_] | [_, _] | [_, _, _] => rfl

/-- A frame within what remains is read back, whatever follows it. -/
theorem readFrame_frameBytes {bytes : Bytes} {remaining : ℕ} (h : bytes.length ≤ remaining)
    (hremaining : remaining ≤ maxRequest) (rest : Bytes) :
    readFrame (frameBytes bytes ++ rest) remaining =
      .ok (bytes, rest, remaining - bytes.length) := by
  have hword : maxRequest < 4294967296 := by decide
  rw [readFrame_eq, frame_next h (by omega)]

theorem of_readFrame {input bytes rest : Bytes} {remaining left : ℕ}
    (h : readFrame input remaining = .ok (bytes, rest, left)) :
    input = frameBytes bytes ++ rest ∧ bytes.length ≤ remaining ∧
      left = remaining - bytes.length := by
  rw [readFrame_eq] at h
  cases hnext : (frame remaining).next input with
  | more =>
    rw [hnext] at h
    cases h
  | bad =>
    rw [hnext] at h
    cases h
  | done value tail =>
    rw [hnext] at h
    cases h
    obtain ⟨hinput, hle, -⟩ := of_frame_next hnext
    exact ⟨hinput, hle, rfl⟩

theorem readFrame_ne_underflow (input : Bytes) (remaining : ℕ) :
    readFrame input remaining ≠ .error .underflow := by
  rw [readFrame_eq]
  intro h
  split at h <;> cases h

/-- **A request is read back**, whatever follows it, if its header keeps to `MAX_HEADER` and
everything to `MAX_REQUEST`. -/
theorem request_frameBytes {header first second third : Bytes} (hheader : header.length ≤ maxHeader)
    (htotal : header.length + (first.length + (second.length + third.length)) ≤ maxRequest)
    (rest : Bytes) :
    request ([header, first, second, third].flatMap frameBytes ++ rest) =
      .ok ([header, first, second, third], rest) := by
  have hmax : maxHeader ≤ maxRequest := by decide
  have hsub : sub maxRequest header.length = .ok (maxRequest - header.length) :=
    if_pos (by omega)
  simp only [List.flatMap_cons, List.flatMap_nil, List.append_nil, List.append_assoc]
  simp only [request, Bind.bind, Except.bind, hsub, readFrame_frameBytes hheader hmax,
    readFrame_frameBytes (show first.length ≤ maxRequest - header.length by omega) (by omega),
    readFrame_frameBytes (show second.length ≤ maxRequest - header.length - first.length by omega)
      (by omega),
    readFrame_frameBytes (show third.length ≤
      maxRequest - header.length - first.length - second.length by omega) (by omega)]
  rfl

/-- **What `request` accepts** is four frames, with a header within `MAX_HEADER` and payloads
within the rest of `MAX_REQUEST`. -/
theorem of_request {input rest : Bytes} {frames : List Bytes}
    (h : request input = .ok (frames, rest)) :
    ∃ header first second third, frames = [header, first, second, third] ∧
      input = frames.flatMap frameBytes ++ rest ∧ header.length ≤ maxHeader ∧
      first.length + (second.length + third.length) ≤ maxRequest - header.length := by
  obtain ⟨⟨header, afterHeader, _⟩, hheader, h⟩ := Except.bind_eq_ok.mp h
  obtain ⟨remaining, hsub, h⟩ := Except.bind_eq_ok.mp h
  obtain ⟨⟨first, afterFirst, _⟩, hfirst, h⟩ := Except.bind_eq_ok.mp h
  obtain ⟨⟨second, afterSecond, _⟩, hsecond, h⟩ := Except.bind_eq_ok.mp h
  obtain ⟨⟨third, afterThird, _⟩, hthird, h⟩ := Except.bind_eq_ok.mp h
  cases h
  obtain ⟨rfl, hheaderLe, -⟩ := of_readFrame hheader
  obtain ⟨rfl, hfirstLe, rfl⟩ := of_readFrame hfirst
  obtain ⟨rfl, hsecondLe, rfl⟩ := of_readFrame hsecond
  obtain ⟨rfl, hthirdLe, -⟩ := of_readFrame hthird
  unfold sub at hsub
  split_ifs at hsub
  cases hsub
  refine ⟨header, first, second, third, rfl, ?_, hheaderLe, by omega⟩
  simp only [List.flatMap_cons, List.flatMap_nil, List.append_nil, List.append_assoc]

/-- No subtraction underflows, whatever arrives. -/
theorem request_ne_underflow (input : Bytes) : request input ≠ .error .underflow := by
  have hmax : maxHeader ≤ maxRequest := by decide
  intro h
  rcases Except.bind_eq_error.mp h with h | ⟨⟨header, rest, _⟩, hheader, h⟩
  · exact readFrame_ne_underflow _ _ h
  -- the header is within `MAX_REQUEST`, so that something remains
  obtain ⟨-, hle, -⟩ := of_readFrame hheader
  have hsub : sub maxRequest header.length = .ok (maxRequest - header.length) :=
    if_pos (by omega)
  rcases Except.bind_eq_error.mp h with h | ⟨remaining, -, h⟩
  · rw [hsub] at h
    cases h
  rcases Except.bind_eq_error.mp h with h | ⟨first, -, h⟩
  · exact readFrame_ne_underflow _ _ h
  rcases Except.bind_eq_error.mp h with h | ⟨second, -, h⟩
  · exact readFrame_ne_underflow _ _ h
  rcases Except.bind_eq_error.mp h with h | ⟨third, -, h⟩
  · exact readFrame_ne_underflow _ _ h
  · cases h

/-- Frames that fit in 32 bits are passed on as they came. -/
theorem passOn_eq {frames : List Bytes} (h : ∀ bytes ∈ frames, bytes.length < 4294967296) :
    passOn frames = some (frames.flatMap frameBytes) := by
  have hwritten : ∀ frames : List Bytes, (∀ bytes ∈ frames, bytes.length < 4294967296) →
      frames.mapM writeFrame = some (frames.map frameBytes) := by
    intro frames
    induction frames with
    | nil =>
      intro _
      rfl
    | cons bytes frames ih =>
      intro hall
      have hfirst : writeFrame bytes = some (frameBytes bytes) :=
        if_pos (hall bytes List.mem_cons_self)
      rw [List.mapM_cons, hfirst, ih fun bytes hbytes => hall bytes (List.mem_cons_of_mem _ hbytes)]
      rfl
  rw [passOn, hwritten frames h, Option.map_some, List.flatMap_def]

/-! ### What the header says -/

/-- The order of the members does not matter to a field. -/
theorem field?_perm (name : String) {members members' : List (Bytes × Json)}
    (h : members.Perm members') : field? name members = field? name members' := by
  have hfilter := h.filter fun member => member.1 == utf8 name
  unfold field?
  generalize members.filter (fun member => member.1 == utf8 name) = xs at hfilter ⊢
  generalize members'.filter (fun member => member.1 == utf8 name) = ys at hfilter ⊢
  have hlength := hfilter.length_eq
  match ys with
  | [] => rw [hfilter.eq_nil]
  | [y] => rw [hfilter.eq_singleton]
  | y :: y' :: ys =>
    match xs, hlength with
    | x :: x' :: xs, _ => rfl

/-- The budgets of a call, as `Budgets` has them. -/
def budgetsOf (sent : Sent) : Native.Budgets where
  fuel := sent.amount .fuel
  maxMemory := sent.amount .maxMemory
  maxInput := sent.amount .maxInput
  maxOutput := sent.amount .maxOutput
  maxStderr := sent.amount .maxStderr
  maxModule := sent.amount .maxModule
  maxCallbackCalls := sent.amount .maxCallbackCalls
  maxCallbackConcurrency := sent.amount .maxCallbackConcurrency
  maxCallbackInput := sent.amount .maxCallbackInput
  maxCallbackOutput := sent.amount .maxCallbackOutput
  env := sent.env
  staticMode := sent.static

/-- The environment of a header is read back. -/
theorem pairs?_envJson (env : List (Bytes × Bytes)) : pairs? (envJson env) = some env := by
  induction env with
  | nil => rfl
  | cons pair env ih =>
    simp only [envJson, pairs?, List.map_cons, List.mapM_cons] at ih ⊢
    rw [ih]
    rfl

theorem unsigned?_of_lt {bits n : ℕ} (h : n < 2 ^ bits) : unsigned? bits (.int n) = some n := by
  have hint : (n : ℤ) < 2 ^ bits := by exact_mod_cast h
  rw [unsigned?, if_pos ⟨Int.natCast_nonneg n, hint⟩, Int.toNat_natCast]

/-- **The budgets** that the worker reads are those of the call. -/
theorem deserialize_members {sent : Sent} (h : sent.Admitted) {members : List (Bytes × Json)}
    (hmembers : members.Perm sent.members) :
    Budgets.deserialize (.obj members) = some (budgetsOf sent) := by
  have hlong : ∀ key ∈ nativeKeys,
      (some (.int (sent.value key))).bind (unsigned? 64) = some (sent.amount key) := by
    intro key hkey
    rw [Option.bind_some, sent.value_eq_amount hkey]
    exact unsigned?_of_lt (sent.amount_lt h key)
  have hshort : ∀ key ∈ nativeKeys, key.maximum < 2 ^ 32 →
      (some (.int (sent.value key))).bind (unsigned? 32) = some (sent.amount key) := by
    intro key hkey hmaximum
    rw [Option.bind_some, sent.value_eq_amount hkey]
    exact unsigned?_of_lt (Nat.lt_of_le_of_lt (sent.amount_le h key) hmaximum)
  have henv : (field? "env" sent.members).bind pairs? = some sent.env :=
    pairs?_envJson sent.env
  have hstatic : (field? "static_mode" sent.members).bind bool? = some sent.static := rfl
  simp only [Budgets.deserialize, field?_perm _ hmembers]
  -- the fields in the order of the structure
  rw [show (field? "fuel" sent.members).bind (unsigned? 64) = _ from hlong .fuel (by decide),
    show (field? "max_memory" sent.members).bind (unsigned? 64) = _ from
      hlong .maxMemory (by decide),
    show (field? "max_input" sent.members).bind (unsigned? 64) = _ from
      hlong .maxInput (by decide),
    show (field? "max_output" sent.members).bind (unsigned? 64) = _ from
      hlong .maxOutput (by decide),
    show (field? "max_stderr" sent.members).bind (unsigned? 64) = _ from
      hlong .maxStderr (by decide),
    show (field? "max_module" sent.members).bind (unsigned? 64) = _ from
      hlong .maxModule (by decide),
    show (field? "max_callback_calls" sent.members).bind (unsigned? 32) = _ from
      hshort .maxCallbackCalls (by decide) (by decide),
    show (field? "max_callback_concurrency" sent.members).bind (unsigned? 32) = _ from
      hshort .maxCallbackConcurrency (by decide) (by decide),
    show (field? "max_callback_input" sent.members).bind (unsigned? 32) = _ from
      hshort .maxCallbackInput (by decide) (by decide),
    show (field? "max_callback_output" sent.members).bind (unsigned? 32) = _ from
      hshort .maxCallbackOutput (by decide) (by decide), henv, hstatic]
  rfl

/-- **The header is read** as the operation and the budgets of the call. -/
theorem fromSlice_header {lib : HeaderJson} (hlib : lib.Lawful) {sent : Sent} (h : sent.Admitted)
    {header : Json} (hheader : sent.IsHeader header) :
    lib.fromSlice (lib.encode header) = some ⟨utf8 sent.operation.name, budgetsOf sent⟩ := by
  have hplain := sent.plain_header h hheader
  have hparse := hlib.parse_encode hplain
  obtain ⟨members, top, hmembers, rfl, htop⟩ := sent.exists_members hheader
  have hlimits := deserialize_members h hmembers
  rw [HeaderJson.fromSlice, hparse, Option.bind_some]
  simp only [Request.deserialize, field?_perm _ htop]
  rw [show (field? "limits" [(utf8 "operation", Json.str (utf8 sent.operation.name)),
    (utf8 "limits", .obj members)]).bind Budgets.deserialize = _ from hlimits]
  rfl

/-- **Requests survive both hops.** Of every request that `call/7` sends, the header keeps to
`MAX_HEADER` and is read as the budgets of the call, and the supervisor and the child read the
frames that were sent; nothing that arrives makes a subtraction underflow, and a request that is
accepted keeps to its limits. -/
theorem requests_survive (lib : HeaderJson) (hlib : lib.Lawful) (sent : Sent) (h : sent.Admitted)
    (header : Json) (hheader : sent.IsHeader header) (bytes : Bytes)
    (hsent : call lib.encode header sent.payloads = .ok bytes) :
    (lib.encode header).length ≤ maxHeader ∧
    lib.fromSlice (lib.encode header) = some ⟨utf8 sent.operation.name, budgetsOf sent⟩ ∧
    (∀ later, request (bytes ++ later) = .ok (lib.encode header :: sent.payloads, later)) ∧
    (∃ passed, passOn (lib.encode header :: sent.payloads) = some passed ∧
      ∀ later, request (passed ++ later) = .ok (lib.encode header :: sent.payloads, later)) ∧
    (∀ input, request input ≠ .error .underflow) ∧
    (∀ input frames rest, request input = .ok (frames, rest) →
      ∃ header payloads, frames = header :: payloads ∧ payloads.length = 3 ∧
        header.length ≤ maxHeader ∧
        (payloads.map List.length).sum ≤ maxRequest - header.length) := by
  have hfits : maxHeader ≤ maxRequest ∧ 400000 ≤ maxHeader := by decide
  have hlength : (lib.encode header).length ≤ maxHeader :=
    (hlib.length_encode (sent.plain_header h hheader)).trans
      ((sent.extent_header_le h hheader).trans hfits.2)
  obtain ⟨first, second, third, hpayloads⟩ : ∃ first second third,
      sent.payloads = [first, second, third] := by
    cases sent <;> exact ⟨_, _, _, rfl⟩
  rw [hpayloads] at hsent ⊢
  obtain ⟨hsum, hbytes⟩ := call_eq_ok.mp hsent
  have htotal : (lib.encode header).length + (first.length + (second.length + third.length)) ≤
      maxRequest := by
    have hmib : mib64 = maxRequest := rfl
    simp only [List.map_cons, List.map_nil, List.sum_cons, List.sum_nil] at hsum
    omega
  have hpassed : passOn [lib.encode header, first, second, third] =
      some ([lib.encode header, first, second, third].flatMap frameBytes) := by
    have hword : maxRequest < 4294967296 := by decide
    refine passOn_eq fun frame hframe => ?_
    simp only [List.mem_cons, List.not_mem_nil, or_false] at hframe
    rcases hframe with rfl | rfl | rfl | rfl <;> omega
  refine ⟨hlength, fromSlice_header hlib h hheader, fun later => ?_, ⟨_, hpassed, fun later => ?_⟩,
    request_ne_underflow, fun input frames rest hrequest => ?_⟩
  · rw [← hbytes]
    exact request_frameBytes hlength htotal later
  · exact request_frameBytes hlength htotal later
  · obtain ⟨header, first, second, third, rfl, -, hheader, hpayloads⟩ := of_request hrequest
    refine ⟨header, [first, second, third], rfl, rfl, hheader, ?_⟩
    simp only [List.map_cons, List.map_nil, List.sum_cons, List.sum_nil]
    omega

/-- Options with a value in the environment that JSON has to escape. -/
def greetingOpts : Term :=
  .cons (.tuple [.atom "env", .cons (.tuple [.binary (utf8 "GREETING"),
    .binary (utf8 "say \"hi\"\n")]) .nil]) .nil

/-- The limits of a run with these options. -/
def greetingLimits : Limits := ⟨.builtin, .json, [(utf8 "GREETING", utf8 "say \"hi\"\n")], ∅⟩

theorem run_greeting : Options.run (fun _ => "") greetingOpts .builtin = .ok greetingLimits :=
  Options.run_eq_ok.mpr ⟨_, "json", rfl, ⟨by decide, by decide⟩, fun key => by cases key <;> rfl,
    ⟨by decide, rfl⟩,
    ⟨rfl, List.forall_mem_singleton.mpr ⟨by decide +kernel, by decide +kernel, by decide +kernel,
      by decide +kernel, by decide +kernel⟩, by decide, by decide +kernel⟩,
    Options.denotesGrants_empty, rfl⟩

/-- A run of a module on an input, ten milliseconds after it was asked for. -/
def greetingRun : Sent :=
  .run ⟨greetingLimits, 4990, 5000⟩ true (utf8 "plugin") (utf8 "module") (utf8 "[1,2]")

/-- The request of this run: the header is read with its environment, and the payloads arrive. -/
theorem requests_survive_greeting : ∃ bytes, call Json.print greetingRun.header
      greetingRun.payloads = .ok bytes ∧
    HeaderJson.reference.fromSlice (Json.print greetingRun.header) =
      some ⟨utf8 "run", budgetsOf greetingRun⟩ ∧
    (budgetsOf greetingRun).env = [(utf8 "GREETING", utf8 "say \"hi\"\n")] ∧
    request bytes = .ok ([Json.print greetingRun.header, utf8 "plugin", utf8 "module",
      utf8 "[1,2]"], []) := by
  have hsent : call Json.print greetingRun.header greetingRun.payloads =
      .ok ((Json.print greetingRun.header :: greetingRun.payloads).flatMap frameBytes) :=
    call_eq_ok.mpr ⟨by decide +kernel, rfl⟩
  obtain ⟨-, hheader, hread, -⟩ := requests_survive .reference HeaderJson.reference_lawful
    greetingRun ⟨_, _, _, run_greeting⟩ _ greetingRun.isHeader_header _ hsent
  refine ⟨_, hsent, hheader, rfl, ?_⟩
  have hall := hread []
  rwa [List.append_nil] at hall

end Javex.Worker
