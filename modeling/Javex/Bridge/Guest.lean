import Javex.Callbacks.Reference

/-!
# The bridge in the guest

The closure of `native/javex_plugin/src/bridge.js` and the guest code around it. A string of the
guest stands as its bytes in UTF-8; a name with an unpaired surrogate, which `stringify` would
spell as an escape, stands as its three generalized bytes, and the broker refuses either.

`call` runs code of the guest when it stringifies its argument (`toJSON`), so it is split there:
`enter` takes an id, `leave` comes back with the text, and calls in between nest. The bridge
function delivers completions, with code of the guest between two of them, and hands the requests
over as the text of a frame.

* `callsOf_frame`: the text of a frame reads back as the calls in it.

What the bridge measures is the `length` of an encoded text, and that is an accessor on a prototype
which the guest can write to. The measured number is therefore an argument of `enter` and of `leave`
beside the text, and the two are related only where a guest is assumed to leave the prototype alone.

The completions come as a text that the bridge parses and loops over. A text that is not an array is
not an error in every case, since the loop asks for a length and an index only: `looped` is what the
loop makes of each kind of value.
-/

namespace Javex.Bridge

open Codec Callbacks

/-! ### Calls and frames -/

/-- A call that has got through: an entry of `requests`, and the promise kept in `pending`. -/
structure Call where
  id : ℕ
  name : Bytes
  argument : Bytes
  deriving DecidableEq

/-- `{"id":${id},"name":${stringify(name)},"argument":${stringify(json)}}`. -/
def Call.toJson (call : Call) : Json :=
  .obj [(utf8 "id", .int call.id), (utf8 "name", .str call.name),
    (utf8 "argument", .str call.argument)]

/-- `{"done":${done},"fatal":${fatal},"requests":[${requests}]}`. -/
def frame (done fatal : Bool) (requests : List Call) : Bytes :=
  Json.print (.obj [(utf8 "done", .bool done), (utf8 "fatal", .bool fatal),
    (utf8 "requests", .arr (requests.map Call.toJson))])

/-- The call of a request in a frame. -/
def call? (json : Json) : Option Call :=
  match json.get (utf8 "id"), json.get (utf8 "name"), json.get (utf8 "argument") with
  | some (.int (.ofNat id)), some (.str name), some (.str argument) => some ⟨id, name, argument⟩
  | _, _, _ => none

/-- The calls in a frame. -/
def callsOf (bytes : Bytes) : List Call :=
  match (Json.parse bytes).bind (Json.get (utf8 "requests")) with
  | some (.arr requests) => requests.filterMap call?
  | _ => []

theorem Call.get_toJson (call : Call) : call.toJson.get (utf8 "id") = some (.int call.id) ∧
    call.toJson.get (utf8 "name") = some (.str call.name) ∧
      call.toJson.get (utf8 "argument") = some (.str call.argument) := by
  have hget := @get_members [("id", .int call.id), ("name", .binary call.name),
    ("argument", .binary call.argument)] (by simp)
  have hid := hget "id"
  have hname := hget "name"
  have hargument := hget "argument"
  simp [Scalar.members, List.lookup_cons, Scalar.toJson] at hid hname hargument
  exact ⟨hid, hname, hargument⟩

theorem call?_toJson (call : Call) : call? call.toJson = some call := by
  obtain ⟨hid, hname, hargument⟩ := call.get_toJson
  simp only [call?, hid, hname, hargument]

/-- **A frame reads back as its calls.** -/
theorem callsOf_frame (done fatal : Bool) (requests : List Call) :
    callsOf (frame done fatal requests) = requests := by
  have hget : (Json.obj [(utf8 "done", .bool done), (utf8 "fatal", .bool fatal),
      (utf8 "requests", .arr (requests.map Call.toJson))]).get (utf8 "requests") =
      some (.arr (requests.map Call.toJson)) := by
    simp [Json.get]
  have hcalls : callsOf (frame done fatal requests) =
      (requests.map Call.toJson).filterMap call? := by
    simp only [callsOf, frame, Json.parse_print, Option.bind_some, hget]
  rw [hcalls, List.filterMap_map]
  exact (List.filterMap_congr fun call _ => call?_toJson call).trans List.filterMap_some

/-! ### The closure -/

/-- How a promise is settled. -/
inductive Settlement
  | resolved (value : Json)
  | rejected (code message : Option Json)

/-- The variables of the closure. `settled` only records the promises that were settled. -/
structure Closure where
  count : ℕ
  pending : AList fun _ : ℕ => Call
  requests : List Call
  fatal : Bool
  settled : List (Call × Settlement)

/-- The exceptions that the bridge may throw at a completion. -/
inductive Thrown
  | unknownCompletion | syntaxError | typeError
  deriving DecidableEq

/-- What `for (let i = 0; i < values.length; i++)` goes through. A value without a `length` is
compared with `undefined`, so nothing is delivered; `null` has no members, and the completion that
is read from a string has no `id`. -/
def looped : Json → Except Thrown (List Json)
  | .arr values => .ok values
  | .null => .error .typeError
  | .str text => if text = [] then .ok [] else .error .unknownCompletion
  | .obj members =>
    -- the members of an array-like object, of which the host sends none
    if ((Json.obj members).get (utf8 "length")).isSome then .error .typeError else .ok []
  | .bool _ | .int _ | .float _ => .ok []

namespace Closure

variable (cfg : Config) (b : Closure)

def start : Closure := ⟨0, ∅, [], false, []⟩

/-- `call` until it stringifies its argument; `none` is a name that is no string. The call goes
on inside `stringify` under its id and name, or it is over. `measured` is what
`encode(name).length` evaluates to: an accessor of a prototype, which the guest may replace. -/
def enter (name : Option Bytes) (measured : ℕ) : Closure × Option (ℕ × Bytes) :=
  let id := b.count + 1
  let b := { b with count := id }
  if cfg.maxCalls < id ∨ cfg.maxConcurrency ≤ b.pending.keys.length then
    ({ b with fatal := true }, none)
  else
    match name with
    | some name => if name.length = 0 ∨ 128 < measured then (b, none) else (b, some (id, name))
    | none => (b, none)

/-- `call` when `stringify` is back; `none` is an exception, or an argument that is not JSON.
`measured` is what `encode(json).length` evaluates to. -/
def leave (id : ℕ) (name : Bytes) (json : Option Bytes) (measured : ℕ) : Closure :=
  match json with
  | some json =>
    if cfg.maxInput < measured then { b with fatal := true }
    else { b with
      pending := b.pending.insert id ⟨id, name, json⟩
      requests := b.requests ++ [⟨id, name, json⟩] }
  | none => b

/-- One turn of the loop over the completions. -/
def settle (completion : Json) : Except Thrown Closure :=
  match completion.get (utf8 "id") with
  | some (.int (.ofNat id)) =>
    match b.pending.lookup id with
    | some call =>
      let b := { b with pending := b.pending.erase id }
      -- `ok` is a boolean in every completion
      match completion.get (utf8 "ok") with
      | some (.bool true) =>
        match completion.get (utf8 "value") with
        | some (.str value) =>
          match Json.parse value with
          | some value => .ok { b with settled := b.settled ++ [(call, .resolved value)] }
          | none => .error .syntaxError
        | _ => .error .syntaxError
      | _ => .ok { b with settled := b.settled ++ [(call,
          .rejected (completion.get (utf8 "code")) (completion.get (utf8 "message")))] }
    | none => .error .unknownCompletion
  | _ => .error .unknownCompletion

/-- What `call` has checked when it goes on inside `stringify`. -/
structure Entered (name : Option Bytes) (measured : ℕ) (call : ℕ × Bytes) : Prop where
  id : call.1 = b.count + 1
  calls : call.1 ≤ cfg.maxCalls
  room : b.pending.keys.length < cfg.maxConcurrency
  name : name = some call.2
  length : 1 ≤ call.2.length
  measured : measured ≤ 128

/-- What `call` does before it stringifies. Without room under the quota it is over, and leaves
the bridge fatal. -/
theorem enter_cases (name : Option Bytes) (measured : ℕ) :
    ∃ fatal, (b.enter cfg name measured).1 = { b with count := b.count + 1, fatal } ∧
      (b.fatal = true → fatal = true) ∧
      (∀ call ∈ (b.enter cfg name measured).2, b.Entered cfg name measured call) ∧
      (cfg.maxConcurrency ≤ b.pending.keys.length →
        fatal = true ∧ (b.enter cfg name measured).2 = none) := by
  unfold enter
  dsimp only
  split_ifs with hquota
  · exact ⟨true, rfl, fun _ => rfl, nofun, fun _ => ⟨rfl, rfl⟩⟩
  · rw [not_or, Nat.not_lt, Nat.not_le] at hquota
    have hfull : ¬ cfg.maxConcurrency ≤ b.pending.keys.length := Nat.not_le.mpr hquota.2
    cases name with
    | none => exact ⟨b.fatal, rfl, id, nofun, fun h => absurd h hfull⟩
    | some name =>
      dsimp only
      split_ifs with hlength
      · exact ⟨b.fatal, rfl, id, nofun, fun h => absurd h hfull⟩
      · refine ⟨b.fatal, rfl, id, fun call hcall => ?_, fun h => absurd h hfull⟩
        cases hcall
        rw [not_or, Nat.not_lt] at hlength
        exact ⟨rfl, hquota.1, hquota.2, rfl, Nat.one_le_iff_ne_zero.mpr hlength.1, hlength.2⟩

end Closure

/-- What a completion makes of its promise. -/
def settlement? : Completion → Option Settlement
  | .ok _ value => (Json.parse value).map .resolved
  | .error _ code message => some (.rejected (some (.str code)) (some (.str message)))

/-- The JSON value is a record of the completion. -/
def Reads (json : Json) (c : Completion) : Prop :=
  ∀ key, json.get (utf8 key) = (c.fields.lookup key).map Scalar.toJson

/-- A completion of a pending call settles it. -/
theorem Closure.settle_ok {b : Closure} {json : Json} {c : Completion} {call : Call}
    (hreads : Reads json c) (hreadable : c.Readable) (hcall : b.pending.lookup c.id = some call) :
    ∃ settlement, settlement? c = some settlement ∧
      b.settle json = .ok { b with
        pending := b.pending.erase c.id, settled := b.settled ++ [(call, settlement)] } := by
  have hid := hreads "id"
  have hok := hreads "ok"
  cases c with
  | ok id value =>
    obtain ⟨j, hj⟩ := Option.isSome_iff_exists.mp hreadable
    have hvalue := hreads "value"
    simp [Completion.fields, List.lookup_cons, Scalar.toJson] at hid hok hvalue
    refine ⟨.resolved j, by rw [settlement?, hj]; rfl, ?_⟩
    simp only [settle, hid, hok, hvalue, hj, show b.pending.lookup id = some call from hcall]
    rfl
  | error id code message =>
    have hcode := hreads "code"
    have hmessage := hreads "message"
    simp [Completion.fields, List.lookup_cons, Scalar.toJson] at hid hok hcode hmessage
    refine ⟨_, rfl, ?_⟩
    simp only [settle, hid, hok, hcode, hmessage,
      show b.pending.lookup id = some call from hcall]
    rfl

/-! ### The guest -/

/-- What the guest is doing: its code runs, it has handed a frame over and waits for completions,
the bridge has thrown at a completion, or its execution has ended in any other way. -/
inductive Status
  | running | waiting | threw (thrown : Thrown) | ended
  deriving DecidableEq

/-- A guest with its bridge. `inside` are the calls that stringify their argument, the innermost
first, and `values` the completions that the bridge has not come to yet. -/
structure Guest where
  bridge : Closure
  inside : List (ℕ × Bytes)
  values : List Json
  status : Status

/-- The guest as its module begins. -/
def Guest.start : Guest := ⟨.start, [], [], .running⟩

/-- What the guest may do. The length of a name or a text is that which the bridge reads. -/
inductive Action
  | enter (name : Option Bytes) (measured : ℕ)
  | leave (json : Option Bytes) (measured : ℕ)
  | settle
  | yield
  | halt

/-- One action, and the frame it hands over. -/
def Guest.act (cfg : Config) (g : Guest) : Action → Option (Guest × Option Bytes)
  | .enter name measured =>
    if g.status = .running then
      match g.bridge.enter cfg name measured with
      | (bridge, some call) => some ({ g with bridge, inside := call :: g.inside }, none)
      | (bridge, none) => some ({ g with bridge }, none)
    else none
  | .leave json measured =>
    match g.status, g.inside with
    | .running, (id, name) :: inside =>
      some ({ g with bridge := g.bridge.leave cfg id name json measured, inside }, none)
    | _, _ => none
  | .settle =>
    match g.status, g.inside, g.values with
    | .running, [], value :: values =>
      match g.bridge.settle value with
      | .ok bridge => some ({ g with bridge, values }, none)
      | .error thrown => some ({ g with values, status := .threw thrown }, none)
    | _, _, _ => none
  | .yield =>
    match g.status, g.inside, g.values with
    | .running, [], [] =>
      -- a fatal bridge ends the execution instead
      if g.bridge.fatal then some ({ g with status := .ended }, none)
      else some ({ g with bridge := { g.bridge with requests := [] }, status := .waiting },
        some (frame false g.bridge.fatal g.bridge.requests))
    | _, _, _ => none
  | .halt => some ({ g with status := .ended }, none)

/-- What the guest does, with what it asks of the guest. -/
inductive Guest.Acts (cfg : Config) (g : Guest) : Action → Guest × Option Bytes → Prop
  | enter {name : Option Bytes} {measured : ℕ} (hstatus : g.status = .running) :
      Acts cfg g (.enter name measured) ({ g with
        bridge := (g.bridge.enter cfg name measured).1
        inside := (g.bridge.enter cfg name measured).2.toList ++ g.inside }, none)
  | leave {json : Option Bytes} {measured id : ℕ} {name : Bytes} {inside : List (ℕ × Bytes)}
      (hinside : g.inside = (id, name) :: inside) :
      Acts cfg g (.leave json measured)
        ({ g with bridge := g.bridge.leave cfg id name json measured, inside }, none)
  | settle {value : Json} {values : List Json} {bridge : Closure} (hstatus : g.status = .running)
      (hinside : g.inside = []) (hvalues : g.values = value :: values)
      (hsettle : g.bridge.settle value = .ok bridge) :
      Acts cfg g .settle ({ g with bridge, values }, none)
  | throw {value : Json} {values : List Json} {thrown : Thrown} (hstatus : g.status = .running)
      (hvalues : g.values = value :: values) (hsettle : g.bridge.settle value = .error thrown) :
      Acts cfg g .settle ({ g with values, status := .threw thrown }, none)
  | yieldFatal : Acts cfg g .yield ({ g with status := .ended }, none)
  | yield (hvalues : g.values = []) :
      Acts cfg g .yield ({ g with bridge := { g.bridge with requests := [] }, status := .waiting },
        some (frame false g.bridge.fatal g.bridge.requests))
  | halt : Acts cfg g .halt ({ g with status := .ended }, none)

theorem Guest.act_cases {cfg : Config} {g : Guest} {action : Action} {next : Guest × Option Bytes}
    (h : g.act cfg action = some next) : g.Acts cfg action next := by
  cases action with
  | enter name measured =>
    simp only [Guest.act] at h
    split_ifs at h with hstatus
    have hentered := @Acts.enter cfg g name measured hstatus
    split at h
    all_goals
      rename_i hbridge
      cases h
      rw [hbridge] at hentered
      exact hentered
  | leave json measured =>
    simp only [Guest.act] at h
    split at h
    · rename_i hinside
      cases h
      exact .leave hinside
    · cases h
  | settle =>
    simp only [Guest.act] at h
    split at h
    · rename_i hstatus hinside hvalues
      split at h
      · rename_i hsettle
        cases h
        exact .settle hstatus hinside hvalues hsettle
      · rename_i hsettle
        cases h
        exact .throw hstatus hvalues hsettle
    · cases h
  | yield =>
    simp only [Guest.act] at h
    split at h
    · rename_i hvalues
      split_ifs at h
      · cases h
        exact .yieldFatal
      · cases h
        exact .yield hvalues
    · cases h
  | halt =>
    cases h
    exact .halt

/-- The bridge is called with completions. -/
def Guest.resume (g : Guest) (text : Bytes) : Guest :=
  match Json.parse text with
  | none => { g with status := .threw .syntaxError }
  | some json =>
    match looped json with
    | .ok values => { g with values, status := .running }
    | .error thrown => { g with status := .threw thrown }

end Javex.Bridge
