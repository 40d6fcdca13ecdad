import Javex.Bridge.Guest
import Javex.Callbacks.Broker
import Javex.Codec.Extent
import Javex.Codec.Stringify
import Javex.Transition.System

/-!
# The bridge on strings of code units

The closure of `bridge.js` with the strings of the engine: a name is any sequence of code units, an
argument is any value that `JSON.stringify` writes, and the state is put together from pieces of
text. Its readers are strict parsers of JSON: `serde_json` in `step` of the plugin and in
`Execution::advance`, `Jason` in `dispatch_requests/2` and once more for each argument.

A name is checked for its length as `TextEncoder` encodes it, with a replacement character for an
unpaired surrogate; a guest that replaces the accessor of the length is left to the closure on
bytes. `stringify` writes an escape there, which none of the parsers takes.

* `Script.exists_shows`: run for run, the closure on bytes does the same, and without unpaired
  surrogates in the names its frame is the state.
* `frames_survive_iff`: the state survives the parsers exactly if no accepted call has an unpaired
  surrogate in its name or its argument.

There are two models of one closure. `Closure` of `Javex.Bridge.Guest` has byte strings, which is
enough wherever a text has reached a parser; `Script` here has what the engine has. `Shows` relates
the two run for run, so a statement about the closure on bytes is one about the engine as long as no
name has an unpaired surrogate, and where one has, the state is refused before it gets further.

The parsers are parameters, and their laws are about texts that `JSON.stringify` writes
(`JsValue.Written`): such a text never spells a number in a way that a parser might not read back.
The arguments of the calls are values and not texts here, because a parser reads an argument in a
second step of its own.
-/

namespace Javex.Bridge

open Codec Codec.Utf16 Transition Callbacks

variable {double : FloatLiteral → Prop}

/-! ### The texts -/

/-- A call that has got through, as the guest made it. -/
structure Spoken (double : FloatLiteral → Prop) where
  id : ℕ
  name : List UInt16
  argument : JsValue double

namespace Spoken

/-- `{"id":${id},"name":${stringify(name)},"argument":${stringify(json)}}`. -/
def entry (call : Spoken double) : List UInt16 :=
  widen (utf8 "\x7b\"id\":") ++ (widen (Json.natText call.id) ++ (widen (utf8 ",\"name\":") ++
    (quoteString call.name ++ (widen (utf8 ",\"argument\":") ++
      (quoteString call.argument.stringify ++ widen (utf8 "\x7d"))))))

/-- The request as a value. -/
def value (call : Spoken double) : JsValue double :=
  .object [(widen (utf8 "id"), .int call.id), (widen (utf8 "name"), .string call.name),
    (widen (utf8 "argument"), .string call.argument.stringify)]

/-- The call as it stands on bytes. -/
def call (call : Spoken double) : Call :=
  ⟨call.id, generalized call.name, encode call.argument.stringify⟩

/-- Every surrogate in the name and in the argument is in a pair. -/
def WellFormed (call : Spoken double) : Prop :=
  Utf16.WellFormed call.name ∧ call.argument.WellFormed

end Spoken

/-- A boolean in a template. -/
def boolText (b : Bool) : List UInt16 := widen (utf8 (if b then "true" else "false"))

/-- `{"done":${done},"fatal":${fatal},"requests":[${done ? "" : out}]}`. -/
def stateText (done fatal : Bool) (out : List UInt16) : List UInt16 :=
  widen (utf8 "\x7b\"done\":") ++ (boolText done ++ (widen (utf8 ",\"fatal\":") ++
    (boolText fatal ++ (widen (utf8 ",\"requests\":[") ++
      ((if done then [] else out) ++ widen (utf8 "]\x7d"))))))

/-- The state as a value. -/
def stateValue (done fatal : Bool) (calls : List (Spoken double)) : JsValue double :=
  .object [(widen (utf8 "done"), .bool done), (widen (utf8 "fatal"), .bool fatal),
    (widen (utf8 "requests"), .array (calls.map Spoken.value))]

/-- The state as it is read. -/
def stateJson (done fatal : Bool) (calls : List Call) : Json :=
  .obj [(utf8 "done", .bool done), (utf8 "fatal", .bool fatal),
    (utf8 "requests", .arr (calls.map Call.toJson))]

/-- A call is written as its value. -/
theorem stringify_value (call : Spoken double) : call.value.stringify = call.entry := by
  have hkeys : quoteString (widen (utf8 "id")) = widen (utf8 "\"id\"") ∧
      quoteString (widen (utf8 "name")) = widen (utf8 "\"name\"") ∧
        quoteString (widen (utf8 "argument")) = widen (utf8 "\"argument\"") := by decide
  have hid : Json.intText (call.id : ℤ) = Json.natText call.id := by simp [Json.intText]
  simp only [Spoken.value, JsValue.stringify, JsValue.stringifyMembers, hkeys, hid, Spoken.entry]
  rfl

theorem stringify_bool (b : Bool) : (JsValue.bool b : JsValue double).stringify = boolText b := by
  cases b <;> rfl

/-- **A state is written as its value**, if the requests are those of the calls. -/
theorem stringify_stateValue (done fatal : Bool) (calls : List (Spoken double)) :
    (stateValue done fatal (if done then [] else calls)).stringify =
      stateText done fatal ([0x2c].intercalate (calls.map Spoken.entry)) := by
  have hkeys : quoteString (widen (utf8 "done")) = widen (utf8 "\"done\"") ∧
      quoteString (widen (utf8 "fatal")) = widen (utf8 "\"fatal\"") ∧
        quoteString (widen (utf8 "requests")) = widen (utf8 "\"requests\"") := by decide
  have helements : JsValue.stringifyElements ((if done then [] else calls).map Spoken.value) =
      (if done then [] else [0x2c].intercalate (calls.map Spoken.entry)) ++ [0x5d] := by
    have hentry : JsValue.stringify ∘ @Spoken.value double = Spoken.entry :=
      funext stringify_value
    rw [JsValue.stringifyElements_eq, List.map_map, hentry]
    cases done <;> rfl
  have htext : (stateValue done fatal (if done then [] else calls)).stringify =
      0x7b :: (quoteString (widen (utf8 "done")) ++ 0x3a :: ((JsValue.bool done).stringify ++
        0x2c :: (quoteString (widen (utf8 "fatal")) ++ 0x3a :: ((JsValue.bool fatal).stringify ++
          0x2c :: (quoteString (widen (utf8 "requests")) ++ 0x3a :: ((0x5b ::
            JsValue.stringifyElements ((if done then [] else calls).map Spoken.value)) ++
              [0x7d])))))) := rfl
  rw [htext, stringify_bool, stringify_bool, hkeys.1, hkeys.2.1, hkeys.2.2, helements,
    List.cons_append, List.append_assoc]
  rfl

/-! ### What the texts say -/

/-- The keys of the records are ASCII. -/
theorem generalized_key {key : String} (h : (utf8 key).all (decide <| · < 0x80) = true) :
    generalized (widen (utf8 key)) = utf8 key :=
  generalized_widen fun b hb => of_decide_eq_true (List.all_eq_true.mp h b hb)

theorem toJson_value (call : Spoken double) : call.value.toJson = call.call.toJson := by
  simp only [Spoken.value, JsValue.toJson, JsValue.toJsonMembers, Spoken.call, Call.toJson,
    generalized_key (show (utf8 "id").all (decide <| · < 0x80) = true by decide),
    generalized_key (show (utf8 "name").all (decide <| · < 0x80) = true by decide),
    generalized_key (show (utf8 "argument").all (decide <| · < 0x80) = true by decide),
    encode_eq_generalized (JsValue.wellFormed_stringify call.argument)]

theorem toJsonElements_map (calls : List (Spoken double)) :
    JsValue.toJsonElements (calls.map Spoken.value) =
      (calls.map Spoken.call).map Call.toJson := by
  induction calls with
  | nil => rfl
  | cons call calls ih =>
    rw [List.map_cons, JsValue.toJsonElements, toJson_value, ih]
    rfl

/-- **A state is read as the calls on bytes.** -/
theorem toJson_stateValue (done fatal : Bool) (calls : List (Spoken double)) :
    (stateValue done fatal calls).toJson = stateJson done fatal (calls.map Spoken.call) := by
  simp only [stateValue, JsValue.toJson, JsValue.toJsonMembers, stateJson, toJsonElements_map,
    generalized_key (show (utf8 "done").all (decide <| · < 0x80) = true by decide),
    generalized_key (show (utf8 "fatal").all (decide <| · < 0x80) = true by decide),
    generalized_key (show (utf8 "requests").all (decide <| · < 0x80) = true by decide)]

/-- A state can only have unpaired surrogates in the names: the texts of the arguments have none. -/
theorem wellFormed_stateValue (done fatal : Bool) (calls : List (Spoken double)) :
    (stateValue done fatal calls).WellFormed ↔ ∀ call ∈ calls, Utf16.WellFormed call.name := by
  have hkeys : Utf16.WellFormed (widen (utf8 "done")) ∧ Utf16.WellFormed (widen (utf8 "fatal")) ∧
      Utf16.WellFormed (widen (utf8 "requests")) ∧ Utf16.WellFormed (widen (utf8 "id")) ∧
        Utf16.WellFormed (widen (utf8 "name")) ∧ Utf16.WellFormed (widen (utf8 "argument")) := by
    decide
  have helements : JsValue.WellFormedElements (calls.map Spoken.value) ↔
      ∀ call ∈ calls, Utf16.WellFormed call.name := by
    induction calls with
    | nil => exact iff_of_true trivial nofun
    | cons call calls ih =>
      rw [List.map_cons, JsValue.WellFormedElements, ih, List.forall_mem_cons]
      simp only [Spoken.value, JsValue.WellFormed, JsValue.WellFormedMembers, hkeys,
        JsValue.wellFormed_stringify, true_and, and_true]
  simp only [stateValue, JsValue.WellFormed, JsValue.WellFormedMembers, hkeys, helements, true_and,
    and_true]

/-- The state of calls without unpaired surrogates in their names is a plain value. -/
theorem plain_stateJson (done fatal : Bool) {calls : List (Spoken double)}
    (hid : ∀ call ∈ calls, call.id < 18446744073709551616)
    (hname : ∀ call ∈ calls, Utf16.WellFormed call.name) :
    Json.Plain 127 (stateJson done fatal (calls.map Spoken.call)) := by
  have hcall : ∀ json ∈ (calls.map Spoken.call).map Call.toJson, Json.Plain 125 json := by
    simp only [List.map_map, List.forall_mem_map]
    intro call hcall
    have hargument : IsUtf8 (encode call.argument.stringify) := by
      have htext := JsValue.wellFormed_stringify call.argument
      rw [encode_eq_generalized htext]
      exact isUtf8_generalized_iff.mpr htext
    have hpos := hid call hcall
    refine List.forall_mem_cons.mpr ⟨⟨isUtf8_utf8 _, ?_, ?_⟩, List.forall_mem_cons.mpr
      ⟨⟨isUtf8_utf8 _, isUtf8_generalized_iff.mpr (hname call hcall)⟩,
        List.forall_mem_singleton.mpr ⟨isUtf8_utf8 _, hargument⟩⟩⟩
    · exact Int.natCast_nonneg _
    · exact Int.ofNat_lt.mpr hpos
  exact List.forall_mem_cons.mpr ⟨⟨isUtf8_utf8 _, trivial⟩, List.forall_mem_cons.mpr
    ⟨⟨isUtf8_utf8 _, trivial⟩, List.forall_mem_singleton.mpr ⟨isUtf8_utf8 _, hcall⟩⟩⟩

/-- **Without unpaired surrogates in the names, the text is that of the closure on bytes.** -/
theorem encode_stateText (done fatal : Bool) {calls : List (Spoken double)}
    (h : ∀ call ∈ calls, Utf16.WellFormed call.name) :
    encode (stateText done fatal ([0x2c].intercalate (calls.map Spoken.entry))) =
      frame done fatal (if done then [] else calls.map Spoken.call) := by
  have hcalls : ∀ call ∈ (if done then [] else calls), Utf16.WellFormed call.name := by
    cases done
    · exact h
    · nofun
  rw [← stringify_stateValue, JsValue.encode_stringify _ ((wellFormed_stateValue _ _ _).mpr hcalls),
    toJson_stateValue]
  cases done <;> rfl

/-! ### The closure -/

/-- The variables of the closure, `pending` as the keys of the map. `inside` are the calls that
stringify their argument, the innermost first; `accepted` only records the calls in `requests`. -/
structure Script (double : FloatLiteral → Prop) where
  count : ℕ
  pending : List ℕ
  requests : List UInt16
  fatal : Bool
  inside : List (ℕ × List UInt16)
  accepted : List (Spoken double)

/-- What happens to the closure: a call begins, it is back from `stringify`, the promise of a
completion is removed, and the bridge returns a state. A name may be no string, and an argument may
have no text. -/
inductive Script.Label (double : FloatLiteral → Prop)
  | enter (name : Option (List UInt16))
  | leave (argument : Option (JsValue double))
  | remove (id : ℕ)
  | state

namespace Script

variable (cfg : Config) (b : Script double)

def start : Script double := ⟨0, [], [], false, [], []⟩

/-- `call` until it stringifies its argument. -/
def enter (name : Option (List UInt16)) : Script double :=
  let id := b.count + 1
  let b := { b with count := id }
  if cfg.maxCalls < id ∨ cfg.maxConcurrency ≤ b.pending.length then { b with fatal := true }
  else
    match name with
    | some name =>
      if name.length = 0 ∨ 128 < (encode name).length then b
      else { b with inside := (id, name) :: b.inside }
    | none => b

/-- `call` when `stringify` is back. -/
def leave (id : ℕ) (name : List UInt16) : Option (JsValue double) → Script double
  | some argument =>
    if cfg.maxInput < (encode argument.stringify).length then { b with fatal := true }
    else
      let call : Spoken double := ⟨id, name, argument⟩
      { b with
        pending := id :: b.pending.erase id
        requests := b.requests ++ ((if b.requests = [] then [] else [0x2c]) ++ call.entry)
        accepted := b.accepted ++ [call] }
  | none => b

def step : Label double → Option (Script double)
  | .enter name => some (b.enter cfg name)
  | .leave argument =>
    match b.inside with
    | (id, name) :: inside => some ({ b with inside }.leave cfg id name argument)
    | [] => none
  | .remove id => some { b with pending := b.pending.erase id }
  | .state => some { b with requests := [], accepted := [] }

variable (double) in
/-- The closure over a whole run of the guest. -/
def system : System (Script double) (Label double) := .ofStep (· = start) (step cfg)

/-- The text of the state that the bridge returns. -/
def text (done : Bool) : List UInt16 := stateText done b.fatal b.requests

/-- The calls in that state. -/
def spoken (done : Bool) : List (Spoken double) := if done then [] else b.accepted

variable {cfg} {b} {c : Closure} {inside : List (ℕ × Bytes)}

/-- The checks of a call until it stringifies its argument. -/
structure Named (cfg : Config) (call : ℕ × List UInt16) : Prop where
  id_pos : 0 < call.1
  id_le : call.1 ≤ cfg.maxCalls
  name_ne : call.2 ≠ []
  name_le : (encode call.2).length ≤ 128

/-- The checks of a call. -/
structure Accepted (cfg : Config) (call : Spoken double) : Prop where
  named : Named cfg (call.id, call.name)
  argument_le : (encode call.argument.stringify).length ≤ cfg.maxInput

/-- A call takes its id; either it goes on under its name, or it is over. -/
theorem enter_cases (cfg : Config) (b : Script double) (name : Option (List UInt16)) :
    (∃ units, name = some units ∧ Named cfg (b.count + 1, units) ∧ b.enter cfg name =
      { b with count := b.count + 1, inside := (b.count + 1, units) :: b.inside }) ∨
    ∃ fatal, b.enter cfg name = { b with count := b.count + 1, fatal } := by
  by_cases hquota : cfg.maxCalls < b.count + 1 ∨ cfg.maxConcurrency ≤ b.pending.length
  · exact .inr ⟨true, if_pos hquota⟩
  · rw [not_or] at hquota
    cases name with
    | none => exact .inr ⟨b.fatal, by simp only [enter, if_neg (not_or.mpr hquota)]⟩
    | some units =>
      by_cases hname : units.length = 0 ∨ 128 < (encode units).length
      · exact .inr ⟨b.fatal, by simp only [enter, if_neg (not_or.mpr hquota), if_pos hname]⟩
      · refine .inl ⟨units, rfl, ⟨Nat.succ_pos _, Nat.not_lt.mp hquota.1, ?_, ?_⟩,
          by simp only [enter, if_neg (not_or.mpr hquota), if_neg hname]⟩
        · rintro rfl
          exact hname (.inl rfl)
        · exact Nat.not_lt.mp fun hlt => hname (.inr hlt)

/-- A call that is back either gets through, or nothing but `fatal` may have changed. -/
theorem leave_cases (id : ℕ) (name : List UInt16) (argument : Option (JsValue double)) :
    (∃ value, argument = some value ∧ (encode value.stringify).length ≤ cfg.maxInput ∧
      b.leave cfg id name argument = { b with
        pending := id :: b.pending.erase id
        requests := b.requests ++
          ((if b.requests = [] then [] else [0x2c]) ++ (Spoken.mk id name value).entry)
        accepted := b.accepted ++ [⟨id, name, value⟩] }) ∨
    ∃ fatal, b.leave cfg id name argument = { b with fatal } := by
  cases argument with
  | none => exact .inr ⟨b.fatal, rfl⟩
  | some value =>
    by_cases hlong : cfg.maxInput < (encode value.stringify).length
    · exact .inr ⟨true, by simp only [leave, if_pos hlong]⟩
    · exact .inl ⟨value, rfl, Nat.not_lt.mp hlong, by simp only [leave, if_neg hlong]⟩

/-! ### The requests of a run -/

/-- The text of the requests is that of the accepted calls, and these have passed the checks. -/
structure Sound (cfg : Config) (b : Script double) : Prop where
  requests : b.requests = [0x2c].intercalate (b.accepted.map Spoken.entry)
  accepted : ∀ call ∈ b.accepted, Accepted cfg call
  inside : ∀ call ∈ b.inside, Named cfg call

theorem entry_ne_nil (call : Spoken double) : call.entry ≠ [] := by
  rw [← stringify_value]
  exact List.cons_ne_nil _ _

/-- A request is added with a comma, unless it is the first one. -/
theorem Sound.concat (h : b.Sound cfg) (call : Spoken double) :
    b.requests ++ ((if b.requests = [] then [] else [0x2c]) ++ call.entry) =
      [0x2c].intercalate ((b.accepted ++ [call]).map Spoken.entry) := by
  have hnil : b.requests = [] ↔ b.accepted.map Spoken.entry = [] := by
    rw [h.requests]
    refine intercalate_eq_nil_iff fun text htext => ?_
    obtain ⟨other, -, rfl⟩ := List.mem_map.mp htext
    exact entry_ne_nil other
  rw [List.map_append, List.map_singleton, intercalate_concat, ← h.requests]
  simp only [hnil]

/-- What one step keeps. -/
theorem Sound.step (h : b.Sound cfg) {l : Label double} {b' : Script double}
    (hstep : b.step cfg l = some b') : b'.Sound cfg := by
  cases l with
  | enter name =>
    obtain rfl := Option.some.inj hstep
    rcases enter_cases cfg b name with ⟨units, rfl, hnamed, heq⟩ | ⟨fatal, heq⟩
    · rw [heq]
      exact ⟨h.requests, h.accepted, List.forall_mem_cons.mpr ⟨hnamed, h.inside⟩⟩
    · rw [heq]
      exact ⟨h.requests, h.accepted, h.inside⟩
  | leave argument =>
    rw [Script.step] at hstep
    split at hstep
    · rename_i id name inside hinside
      obtain ⟨hnamed, hrest⟩ := List.forall_mem_cons.mp (hinside ▸ h.inside)
      have hsound : Sound cfg { b with inside } := ⟨h.requests, h.accepted, hrest⟩
      obtain rfl := Option.some.inj hstep
      rcases leave_cases id name argument with ⟨value, rfl, hle, heq⟩ | ⟨fatal, heq⟩
      · rw [heq]
        exact ⟨hsound.concat _, List.forall_mem_append.mpr ⟨h.accepted,
          List.forall_mem_singleton.mpr ⟨hnamed, hle⟩⟩, hrest⟩
      · rw [heq]
        exact ⟨h.requests, h.accepted, hrest⟩
    · cases hstep
  | remove id =>
    obtain rfl := Option.some.inj hstep
    exact ⟨h.requests, h.accepted, h.inside⟩
  | state =>
    obtain rfl := Option.some.inj hstep
    exact ⟨rfl, nofun, h.inside⟩

theorem sound_of_reachable (h : (system double cfg).Reachable b) : b.Sound cfg := by
  refine System.Inductive.of_reachable ⟨?_, ?_⟩ h
  · rintro _ rfl
    exact ⟨rfl, nofun, nofun⟩
  · intro s l t hs hstep
    exact hs.step hstep

/-- **The state that the bridge returns** is the text of its value. -/
theorem text_eq (h : (system double cfg).Reachable b) (done : Bool) :
    b.text done = (stateValue done b.fatal (b.spoken done)).stringify := by
  rw [text, (sound_of_reachable h).requests, spoken, stringify_stateValue]

/-! ### The closure on bytes -/

/-- `encode(text).length`, with the prototypes as they are. -/
def measure (text : Option (List UInt16)) : ℕ := (text.elim [] encode).length

theorem measure_some (text : List UInt16) : measure (some text) = (encode text).length := rfl

/-- The closure on bytes stands for this one. -/
structure Shows (b : Script double) (c : Closure) (inside : List (ℕ × Bytes)) : Prop where
  count : c.count = b.count
  pending : c.pending.keys = b.pending
  requests : c.requests = b.accepted.map Spoken.call
  fatal : c.fatal = b.fatal
  inside : inside = b.inside.map fun call => (call.1, generalized call.2)

theorem shows_start : (start : Script double).Shows .start [] where
  count := rfl
  pending := rfl
  requests := rfl
  fatal := rfl
  inside := rfl

/-- **A call begins alike** on strings and on bytes. -/
theorem Shows.enter (h : b.Shows c inside) (name : Option (List UInt16)) :
    (b.enter cfg name).Shows (c.enter cfg (name.map generalized) (measure name)).1
      ((c.enter cfg (name.map generalized) (measure name)).2.toList ++ inside) := by
  have hquota : (cfg.maxCalls < c.count + 1 ∨ cfg.maxConcurrency ≤ c.pending.keys.length) ↔
      (cfg.maxCalls < b.count + 1 ∨ cfg.maxConcurrency ≤ b.pending.length) := by
    rw [h.count, h.pending]
  have hcount : c.count + 1 = b.count + 1 := congrArg (· + 1) h.count
  unfold Script.enter Closure.enter
  simp only [hquota]
  split_ifs
  · exact ⟨hcount, h.pending, h.requests, rfl, h.inside⟩
  · cases name with
    | none => exact ⟨hcount, h.pending, h.requests, h.fatal, h.inside⟩
    | some units =>
      have hname : ((generalized units).length = 0 ∨ 128 < measure (some units)) ↔
          (units.length = 0 ∨ 128 < (encode units).length) := by
        rw [measure_some, List.length_eq_zero_iff, List.length_eq_zero_iff, generalized_eq_nil_iff]
      simp only [Option.map_some, hname]
      split_ifs
      · exact ⟨hcount, h.pending, h.requests, h.fatal, h.inside⟩
      · refine ⟨hcount, h.pending, h.requests, h.fatal, ?_⟩
        rw [Option.toList_some, List.singleton_append, List.map_cons, h.inside, h.count]

/-- **A call gets through alike.** -/
theorem Shows.leave (h : b.Shows c inside) (id : ℕ) (name : List UInt16)
    (argument : Option (JsValue double)) : (b.leave cfg id name argument).Shows
      (c.leave cfg id (generalized name) (argument.map fun value => encode value.stringify)
        (measure (argument.map JsValue.stringify))) inside := by
  cases argument with
  | none => exact h
  | some value =>
    by_cases hlong : cfg.maxInput < (encode value.stringify).length
    · simp only [Script.leave, Option.map_some, Closure.leave, measure_some, hlong, if_true]
      exact ⟨h.count, h.pending, h.requests, rfl, h.inside⟩
    · simp only [Script.leave, Option.map_some, Closure.leave, measure_some, hlong, if_false]
      refine ⟨h.count, ?_, ?_, h.fatal, h.inside⟩
      · rw [AList.keys_insert, h.pending]
      · rw [h.requests, List.map_append]
        rfl

variable (cfg) in
/-- The steps on bytes. -/
def onBytes (s : Closure × List (ℕ × Bytes)) :
    Label double → Option (Closure × List (ℕ × Bytes))
  | .enter name =>
    let (c, call) := s.1.enter cfg (name.map generalized) (measure name)
    some (c, call.toList ++ s.2)
  | .leave argument =>
    match s.2 with
    | (id, name) :: inside =>
      some (s.1.leave cfg id name (argument.map fun value => encode value.stringify)
        (measure (argument.map JsValue.stringify)), inside)
    | [] => none
  | .remove id => some ({ s.1 with pending := s.1.pending.erase id }, s.2)
  | .state => some ({ s.1 with requests := [] }, s.2)

/-- **Step for step**, the closure on bytes follows. -/
theorem Shows.step (h : b.Shows c inside) {l : Label double} {b' : Script double}
    (hstep : b.step cfg l = some b') :
    ∃ s, onBytes cfg (c, inside) l = some s ∧ b'.Shows s.1 s.2 := by
  cases l with
  | enter name =>
    obtain rfl := Option.some.inj hstep
    exact ⟨_, rfl, h.enter name⟩
  | leave argument =>
    rw [Script.step] at hstep
    split at hstep
    · rename_i id name rest hinside
      obtain rfl := Option.some.inj hstep
      have hcons : inside = (id, generalized name) ::
          rest.map fun call => (call.1, generalized call.2) := by
        rw [h.inside, hinside]
        rfl
      have hrest : Shows { b with inside := rest } c
          (rest.map fun call => (call.1, generalized call.2)) :=
        ⟨h.count, h.pending, h.requests, h.fatal, rfl⟩
      subst hcons
      exact ⟨_, rfl, hrest.leave id name argument⟩
    · cases hstep
  | remove id =>
    obtain rfl := Option.some.inj hstep
    refine ⟨_, rfl, h.count, ?_, h.requests, h.fatal, h.inside⟩
    rw [AList.keys_erase, h.pending]
  | state =>
    obtain rfl := Option.some.inj hstep
    exact ⟨_, rfl, h.count, h.pending, rfl, h.fatal, h.inside⟩

/-- **Run for run**, the closure on bytes follows, and while no name has an unpaired surrogate, the
state is its frame. -/
theorem exists_shows (h : (system double cfg).Reachable b) :
    ∃ s, (System.ofStep (· = (.start, [])) (@onBytes double cfg)).Reachable s ∧
      b.Shows s.1 s.2 ∧ ((∀ call ∈ b.accepted, Utf16.WellFormed call.name) → ∀ done,
        encode (b.text done) = frame done s.1.fatal (if done then [] else s.1.requests)) := by
  have hshows : ∃ s, (System.ofStep (· = (Closure.start, []))
      (@onBytes double cfg)).Reachable s ∧ b.Shows s.1 s.2 := by
    induction h with
    | init hstart =>
      obtain rfl := hstart
      exact ⟨_, .init rfl, shows_start⟩
    | step _ hstep ih =>
      obtain ⟨s, hreach, hs⟩ := ih
      obtain ⟨s', hs', hnext⟩ := hs.step hstep
      exact ⟨s', hreach.step hs', hnext⟩
  obtain ⟨s, hreach, hs⟩ := hshows
  refine ⟨s, hreach, hs, fun hname done => ?_⟩
  rw [text, (sound_of_reachable h).requests, encode_stateText done b.fatal hname, hs.fatal,
    hs.requests]

end Script

/-! ### The parsers -/

/-- What `Jason` reads: strings of Unicode, and the numbers of doubles. -/
def Decodable (double : FloatLiteral → Prop) (json : Json) : Prop :=
  json.Utf8 ∧ ∀ literal ∈ json.literals, double literal

/-- A request is that of a call, and `Jason` decodes the argument in it. -/
def Heard (jason : Bytes → Option Json) (call : Spoken double) (json : Json) : Prop :=
  ∃ text, IsRequest json ⟨call.id, generalized call.name, text, call.argument.toJson⟩ ∧
    jason text = some call.argument.toJson

/-- A state that was parsed carries these calls, in this order. -/
def Carries (jason : Bytes → Option Json) (calls : List (Spoken double)) (state : Json) : Prop :=
  ∃ requests, state.get (utf8 "requests") = some (.arr requests) ∧
    List.Forall₂ (Heard jason) calls requests

/-- The text of a state survives the parsers: none of them fails, and each reads the calls. -/
structure Survives (serde jason : Bytes → Option Json) (text : Bytes)
    (calls : List (Spoken double)) : Prop where
  serde : ∃ state, serde text = some state ∧ Carries jason calls state
  jason : ∃ state, jason text = some state ∧ Carries jason calls state

theorem get_requests (done fatal : Bool) (calls : List Call) :
    (stateJson done fatal calls).get (utf8 "requests") = some (.arr (calls.map Call.toJson)) := by
  simp [stateJson, Json.get]

/-- The state of calls carries them if `Jason` decodes their arguments. -/
theorem carries_stateJson {jason : Bytes → Option Json} {done fatal : Bool}
    {calls : List (Spoken double)} :
    Carries jason calls (stateJson done fatal (calls.map Spoken.call))
      ↔ ∀ call ∈ calls, jason (encode call.argument.stringify) = some call.argument.toJson := by
  have hheard : ∀ call : Spoken double, Heard jason call call.call.toJson ↔
      jason (encode call.argument.stringify) = some call.argument.toJson := by
    intro call
    obtain ⟨hid, hname, hargument⟩ := call.call.get_toJson
    constructor
    · rintro ⟨text, ⟨-, -, htext⟩, hjason⟩
      rw [hargument] at htext
      obtain rfl := Json.str.inj (Option.some.inj htext)
      exact hjason
    · exact fun hjason => ⟨_, ⟨hid, hname, hargument⟩, hjason⟩
  have hforall : List.Forall₂ (Heard jason) calls ((calls.map Spoken.call).map Call.toJson) ↔
      ∀ call ∈ calls, jason (encode call.argument.stringify) = some call.argument.toJson := by
    rw [List.map_map, List.forall₂_map_right_iff, List.forall₂_same]
    exact forall₂_congr fun call _ => hheard call
  constructor
  · rintro ⟨requests, hget, hall⟩
    rw [get_requests] at hget
    obtain rfl := Json.arr.inj (Option.some.inj hget)
    exact hforall.mp hall
  · exact fun h => ⟨_, get_requests _ _ _, hforall.mpr h⟩

/-- The numbers of a state are integers. -/
theorem decodable_stateJson (done fatal : Bool) {calls : List (Spoken double)}
    (hname : ∀ call ∈ calls, Utf16.WellFormed call.name) :
    Decodable double (stateJson done fatal (calls.map Spoken.call)) := by
  rw [← toJson_stateValue]
  exact ⟨(JsValue.utf8_toJson_iff _).mpr ((wellFormed_stateValue _ _ _).mpr hname),
    JsValue.double_of_mem_literals _⟩

/-- A strict parser reads a state exactly if the names in it are well formed. -/
theorem decode_stateValue {readable : Json → Prop} {decode : Bytes → Option Json}
    (h : Json.Strict (JsValue.Written double) readable decode) (done fatal : Bool)
    {calls : List (Spoken double)}
    (hreadable : (∀ call ∈ calls, Utf16.WellFormed call.name) →
      readable (stateJson done fatal (calls.map Spoken.call))) {state : Json} :
    decode (encode (stateValue done fatal calls).stringify) = some state ↔
      (∀ call ∈ calls, Utf16.WellFormed call.name) ∧
        stateJson done fatal (calls.map Spoken.call) = state := by
  rw [← toJson_stateValue, ← wellFormed_stateValue done fatal] at hreadable ⊢
  exact JsValue.decode_stringify h hreadable

/-- **What survives the parsers.** The state that the bridge returns is parsed by `serde_json` and
by `Jason`, and each of them reads the calls in it, in order, with their arguments, exactly if no
name and no argument among these has an unpaired surrogate. -/
theorem frames_survive_iff (cfg : Config) {serde : Bytes → Option Json}
    (hserde : Json.Strict (JsValue.Written double) (Json.Plain 127) serde)
    (hjason : Json.Strict (JsValue.Written double) (Decodable double) cfg.jason.decode)
    {b : Script double} (h : (Script.system double cfg).Reachable b) (done : Bool) :
    Survives serde cfg.jason.decode (encode (b.text done)) (b.spoken done) ↔
      ∀ call ∈ b.spoken done, call.WellFormed := by
  have hid : ∀ call ∈ b.spoken done, call.id < 18446744073709551616 := by
    intro call hcall
    have hmem : call ∈ b.accepted := by
      cases done
      · exact hcall
      · cases hcall
    have hle := ((Script.sound_of_reachable h).accepted call hmem).named.id_le
    exact (hle.trans cfg.limits.budgets.maxCallbackCalls_le).trans_lt (by decide)
  have hserdeReads := @decode_stateValue _ _ _ hserde done b.fatal _ (plain_stateJson _ _ hid)
  have hjasonReads := @decode_stateValue _ _ _ hjason done b.fatal (b.spoken done)
    (decodable_stateJson _ _)
  have hargument : ∀ call : Spoken double, cfg.jason.decode (encode call.argument.stringify) =
      some call.argument.toJson ↔ call.argument.WellFormed := by
    intro call
    rw [JsValue.decode_stringify hjason, and_iff_left rfl]
    exact fun hv => ⟨(JsValue.utf8_toJson_iff _).mpr hv, JsValue.double_of_mem_literals _⟩
  rw [Script.text_eq h]
  constructor
  · rintro ⟨⟨state, hstate, -⟩, state', hstate', hcarries⟩ call hcall
    obtain ⟨hname, -⟩ := hserdeReads.mp hstate
    obtain ⟨-, rfl⟩ := hjasonReads.mp hstate'
    exact ⟨hname call hcall, (hargument call).mp (carries_stateJson.mp hcarries call hcall)⟩
  · intro hall
    have hname : ∀ call ∈ b.spoken done, Utf16.WellFormed call.name :=
      fun call hcall => (hall call hcall).1
    have hcarries := (@carries_stateJson _ _ done b.fatal _).mpr fun call hcall =>
      (hargument call).mpr (hall call hcall).2
    exact ⟨⟨_, hserdeReads.mpr ⟨hname, rfl⟩, hcarries⟩, ⟨_, hjasonReads.mpr ⟨hname, rfl⟩, hcarries⟩⟩

/-! ### One call -/

/-- The first call of a guest, if it passes the checks. -/
theorem Script.reachable_first (cfg : Config) (name : List UInt16) (argument : JsValue double)
    (h : Accepted cfg ⟨1, name, argument⟩) (hroom : 0 < cfg.maxConcurrency) :
    ∃ b, (system double cfg).Reachable b ∧ b.spoken false = [⟨1, name, argument⟩] := by
  have hquota : ¬ (cfg.maxCalls < 1 ∨ cfg.maxConcurrency ≤ 0) :=
    not_or.mpr ⟨Nat.not_lt.mpr h.named.id_le, Nat.not_le.mpr hroom⟩
  have hname : ¬ (name.length = 0 ∨ 128 < (encode name).length) :=
    not_or.mpr ⟨mt List.length_eq_zero_iff.mp h.named.name_ne, Nat.not_lt.mpr h.named.name_le⟩
  have hargument : ¬ cfg.maxInput < (encode argument.stringify).length :=
    Nat.not_lt.mpr h.argument_le
  have henter : (start : Script double).step cfg (.enter (some name)) =
      some { start with count := 1, inside := [(1, name)] } :=
    congrArg some ((if_neg hquota).trans (if_neg hname))
  have hleave : ({ start with count := 1 } : Script double).leave cfg 1 name (some argument) = _ :=
    if_neg hargument
  exact ⟨_, .step (l := .leave (some argument)) (.step (.init rfl) henter) (congrArg some hleave),
    rfl⟩

/-- A run with parsers that insist on Unicode. -/
def strictConfig : Config :=
  { echoConfig with jason := ⟨Json.parseStrict, Jason.reference.encode⟩ }

theorem frames_survive_echo : ∃ b, (Script.system (fun _ => True) strictConfig).Reachable b ∧
    b.spoken false = [⟨1, widen (utf8 "echo"), .string [0xd83d, 0xde00]⟩] ∧
      Survives Json.parseStrict strictConfig.jason.decode (encode (b.text false))
        (b.spoken false) := by
  obtain ⟨b, hb, hspoken⟩ := @Script.reachable_first (fun _ => True) strictConfig
    (widen (utf8 "echo")) (.string [0xd83d, 0xde00])
    ⟨⟨by decide, by decide, by decide, by decide⟩, by decide⟩ (by decide)
  refine ⟨b, hb, hspoken, (frames_survive_iff strictConfig
    (Json.strict_parseStrict fun _ h => h.utf8) (Json.strict_parseStrict fun _ h => h.1) hb
      false).mpr fun call hcall => ?_⟩
  rw [hspoken, List.mem_singleton] at hcall
  subst hcall
  exact ⟨by decide, show Utf16.WellFormed [0xd83d, 0xde00] by decide⟩

/-- **An unpaired surrogate** in a name, and one in an argument: the bridge accepts either call, and
a parser fails, whichever it is. -/
theorem surrogate_refused :
    (∃ b, (Script.system (fun _ => True) echoConfig).Reachable b ∧
      b.spoken false = [⟨1, [0xd800], .int 1⟩] ∧
        ∀ serde jason, Json.Strict (JsValue.Written fun _ => True) (Json.Plain 127) serde →
          serde (encode (b.text false)) = none ∧
            ¬ Survives serde jason (encode (b.text false)) (b.spoken false)) ∧
    ∃ b, (Script.system (fun _ => True) echoConfig).Reachable b ∧
      b.spoken false = [⟨1, widen (utf8 "echo"), .string [0xd800]⟩] ∧
        ∀ serde jason,
          Json.Strict (JsValue.Written fun _ => True) (Decodable fun _ => True) jason →
          jason (encode (JsValue.string [0xd800] : JsValue fun _ => True).stringify) = none ∧
            ¬ Survives serde jason (encode (b.text false)) (b.spoken false) := by
  have hlone : ¬ Utf16.WellFormed [0xd800] := by decide
  constructor
  · obtain ⟨b, hb, hspoken⟩ := @Script.reachable_first (fun _ => True) echoConfig [0xd800] (.int 1)
      ⟨⟨by decide, by decide, by decide, by decide⟩, by decide⟩ (by decide)
    refine ⟨b, hb, hspoken, fun serde jason hserde => ?_⟩
    have hnone : serde (encode (b.text false)) = none := by
      rw [Script.text_eq hb]
      refine JsValue.decode_stringify_eq_none hserde fun hvalue => hlone ?_
      rw [wellFormed_stateValue, hspoken] at hvalue
      exact hvalue _ List.mem_cons_self
    refine ⟨hnone, fun hsurvives => ?_⟩
    obtain ⟨state, hstate, -⟩ := hsurvives.serde
    rw [hnone] at hstate
    cases hstate
  · obtain ⟨b, hb, hspoken⟩ := @Script.reachable_first (fun _ => True) echoConfig
      (widen (utf8 "echo")) (.string [0xd800])
      ⟨⟨by decide, by decide, by decide, by decide⟩, by decide⟩ (by decide)
    refine ⟨b, hb, hspoken, fun serde jason hjason => ?_⟩
    have hnone := JsValue.decode_stringify_eq_none hjason
      (show ¬ (JsValue.string [0xd800] : JsValue fun _ => True).WellFormed from hlone)
    refine ⟨hnone, fun hsurvives => ?_⟩
    obtain ⟨state, hstate, hcarries⟩ := hsurvives.jason
    rw [Script.text_eq hb] at hstate
    obtain ⟨-, rfl⟩ := (decode_stateValue hjason false b.fatal (decodable_stateJson _ _)).mp hstate
    have hargument := carries_stateJson.mp hcarries _ (hspoken ▸ List.mem_cons_self)
    rw [hnone] at hargument
    cases hargument

end Javex.Bridge
