import Javex.Options
import Javex.Codec.Utf8

/-!
# What a callback comes to

How `lib/javex/callbacks.ex` makes a completion of what a host function returned or of its
failure: `json?/1`, `encode_result/3`, `encode_error/4` and `invoke/5`. `Jason` is a parameter
with the laws of `Jason.Lawful`, and a host function is whatever it comes to (`Outcome`).

* `invoke_ok`: whatever the host function does, its process has a result to send, for its own id.
* `completionText_ok`: a completion has a text, which reads back as the completion.

The laws are about the terms that the broker encodes. A value of a host function is encoded only
after `json?/1` has passed it, so that structs, which may have an encoder of their own, do not come
in; the other terms are records that the broker builds, with a fixed set of atom keys. That a record
is encoded exactly if its strings are UTF-8 makes a host function's declared error one of the places
where encoding can fail, and the source falls back on a constant error there.

A result that is too long is not an answer but a fatal error: it ends the run. So `Result` has two
cases, and which of them an outcome comes to is decided here, before the result is sent.
-/

namespace Javex.Callbacks

open Codec

/-! ### Jason -/

/-- `Jason`: `decode/1`, and `encode/1` of a term. -/
structure Jason where
  decode : Bytes → Option Json
  encode : Term → Option Bytes

/-- `Jason.encode!/1`. -/
def Jason.encode! (jason : Jason) (term : Term) : Except Raise Bytes :=
  match jason.encode term with
  | some bytes => .ok bytes
  | none => .error .encodeError

/-- The values of the fields of a completion. -/
inductive Scalar
  | int (n : ℕ)
  | bool (b : Bool)
  | binary (bytes : Bytes)

namespace Scalar

def toTerm : Scalar → Term
  | int n => .int n
  | bool b => .atom (if b then "true" else "false")
  | binary bytes => .binary bytes

def toJson : Scalar → Json
  | int n => .int n
  | bool b => .bool b
  | binary bytes => .str bytes

/-- A scalar that can be encoded. -/
def Valid : Scalar → Prop
  | binary bytes => validString bytes = true
  | _ => True

end Scalar

/-- A map with atom keys. -/
def record (fields : List (String × Scalar)) : Term :=
  .map (fields.map fun field => (.atom field.1, field.2.toTerm))

mutual

/-- `json?/1`; `Enum.all?/2` raises when it gets to the tail of an improper list. -/
def json? : Term → Except Raise Bool
  | .atom name => .ok (name == "nil" || name == "true" || name == "false")
  | .int _ | .float _ | .binary _ | .nil => .ok true
  | .cons head tail =>
    match json? head with
    | .ok true => jsonTail? tail
    | stop => stop
  | .map entries => if (Term.map entries).isStruct then .ok false else jsonEntries? entries
  | .bitstring _ | .tuple _ | .function _ _ | .other _ => .ok false

/-- The rest of a list. -/
def jsonTail? : Term → Except Raise Bool
  | .nil => .ok true
  | .cons head tail =>
    match json? head with
    | .ok true => jsonTail? tail
    | stop => stop
  | _ => .error .functionClauseError

/-- The entries of a map. -/
def jsonEntries? : List (Term × Term) → Except Raise Bool
  | [] => .ok true
  | (.binary _, value) :: entries =>
    match json? value with
    | .ok true => jsonEntries? entries
    | stop => stop
  | _ :: _ => .ok false

end

/-- What the broker relies on: a text that is decoded is JSON; the text of a value that passes
`json?/1` is JSON in UTF-8; a record is encoded if its strings are UTF-8, and the text of a list of
one record is a JSON text of it, with the members in any order. -/
structure Jason.Lawful (jason : Jason) : Prop where
  decoded : ∀ {bytes json}, jason.decode bytes = some json → Json.parse bytes = some json
  encoded : ∀ {value bytes}, json? value = .ok true → jason.encode value = some bytes →
    (Json.parse bytes).isSome
  valid : ∀ {value bytes}, json? value = .ok true → jason.encode value = some bytes →
    validString bytes = true
  encode_record : ∀ fields, (fields.map Prod.fst).Nodup →
    ((jason.encode (record fields)).isSome ↔ ∀ field ∈ fields, field.2.Valid)
  encode_list : ∀ fields, (fields.map Prod.fst).Nodup → (∀ field ∈ fields, field.2.Valid) →
    ∃ bytes members, jason.encode (.cons (record fields) .nil) = some bytes ∧
      Json.parse bytes = some (.arr [.obj members]) ∧
      ∀ key, (Json.obj members).get (utf8 key) = (fields.lookup key).map Scalar.toJson

/-! ### Results -/

/-- A completion, `%{id: id, ok: true, value: value}` or
`%{id: id, ok: false, code: code, message: message}`. -/
inductive Completion
  | ok (id : ℕ) (value : Bytes)
  | error (id : ℕ) (code message : Bytes)
  deriving DecidableEq

namespace Completion

def id : Completion → ℕ
  | ok id _ => id
  | error id _ _ => id

def fields : Completion → List (String × Scalar)
  | ok id value => [("id", .int id), ("ok", .bool true), ("value", .binary value)]
  | error id code message =>
    [("id", .int id), ("ok", .bool false), ("code", .binary code), ("message", .binary message)]

end Completion

/-- What a callback process sends: a completion, or `{:fatal, message}`. -/
inductive Result
  | completion (completion : Completion)
  | fatal (message : String)
  deriving DecidableEq

/-- What calling a host function comes to: it returns a term, or it raises, throws or exits. -/
inductive Outcome
  | returned (value : Term)
  | failed

/-- What a broker knows from its start: `Jason`, the limits of the run and its deadline. -/
structure Config where
  jason : Jason
  limits : Limits
  deadline : ℤ

namespace Config

variable (cfg : Config)

def maxCalls : ℕ := cfg.limits.budgets.maxCallbackCalls
def maxConcurrency : ℕ := cfg.limits.budgets.maxCallbackConcurrency
def maxInput : ℕ := cfg.limits.budgets.maxCallbackInput
def maxOutput : ℕ := cfg.limits.budgets.maxCallbackOutput

/-- `max_frame`. -/
def maxFrame : ℕ := min mib64 (cfg.maxConcurrency * (6 * cfg.maxInput + 2048) + 4096)

end Config

/-- The value of a map under a binary key. -/
def fetch (key : Bytes) (entries : List (Term × Term)) : Option Term :=
  entries.findSome? fun
    | (.binary name, value) => if name = key then some value else none
    | _ => none

/-- `Jason.encode!([result])`. -/
def completionText (cfg : Config) (completion : Completion) : Except Raise Bytes :=
  cfg.jason.encode! (.cons (record completion.fields) .nil)

section Results

variable (cfg : Config) (id : ℕ)

/-- `encode_error/4`. -/
def encodeError (code message : Bytes) : Except Raise Result := do
  let text ← cfg.jason.encode! (record [("code", .binary code), ("message", .binary message)])
  return if text.length ≤ cfg.maxOutput then .completion (.error id code message)
    else .fatal "callback error exceeds max_callback_output"

/-- `encode_error/4` for a host function that failed. -/
def callbackFailed : Except Raise Result :=
  encodeError cfg id (utf8 "callback_failed") (utf8 "Host callback failed")

/-- `encode_error/4` for a host function that returned something else. -/
def invalidResult : Except Raise Result :=
  encodeError cfg id (utf8 "callback_failed") (utf8 "Host callback returned an invalid result")

/-- `encode_result/3`. -/
def encodeResult : Term → Except Raise Result
  | .tuple [.atom "ok", value] => do
    if ← json? value then
      match cfg.jason.encode value with
      | some bytes =>
        if bytes.length ≤ cfg.maxOutput then return .completion (.ok id bytes)
        else return .fatal "callback result exceeds max_callback_output"
      | none => invalidResult cfg id
    else invalidResult cfg id
  | .tuple [.atom "error", .map entries] =>
    match fetch (utf8 "code") entries, fetch (utf8 "message") entries with
    | some (.binary code), some (.binary message) => encodeError cfg id code message
    | _, _ => invalidResult cfg id
  | _ => invalidResult cfg id

/-- `invoke/5` when the host function has come to its end: an exception of `encode_result/3` is
rescued as well. -/
def invoke : Outcome → Except Raise Result
  | .returned value =>
    match encodeResult cfg id value with
    | .ok result => .ok result
    | .error _ => callbackFailed cfg id
  | .failed => callbackFailed cfg id

end Results

/-! ### The results are there -/

theorem validString_iff {bytes : Bytes} : validString bytes = true ↔ IsUtf8 bytes :=
  isUtf8_iff_validateUTF8.symm

theorem validString_utf8 (s : String) : validString (utf8 s) = true := by
  refine validString_iff.mpr ⟨s.toList, ?_⟩
  have h := congrArg (fun b => b.data.toList) (String.utf8Encode_toList (b := s))
  simpa [utf8, List.utf8Encode] using h.symm

/-- A completion whose strings can be encoded. -/
def Completion.Valid (completion : Completion) : Prop :=
  ∀ field ∈ completion.fields, field.2.Valid

/-- The value of a completion is JSON. -/
def Completion.Readable : Completion → Prop
  | ok _ value => (Json.parse value).isSome
  | error _ _ _ => True

/-- A result of a callback process for an id: a valid completion of it, or a fatal error. -/
def Result.For (id : ℕ) : Result → Prop
  | .completion c => c.id = id ∧ c.Valid ∧ c.Readable
  | .fatal _ => True

variable {cfg : Config} {id : ℕ}

theorem encode!_eq_ok {jason : Jason} {term : Term} {bytes : Bytes} :
    jason.encode! term = .ok bytes ↔ jason.encode term = some bytes := by
  unfold Jason.encode!
  cases jason.encode term <;> simp

theorem exists_encode! {jason : Jason} {term : Term} :
    (∃ bytes, jason.encode! term = .ok bytes) ↔ (jason.encode term).isSome := by
  simp only [encode!_eq_ok, Option.isSome_iff_exists]

/-- An error that is encoded is a result for its id. -/
theorem encodeError_for (hjason : cfg.jason.Lawful) {code message : Bytes} {result : Result}
    (h : encodeError cfg id code message = .ok result) : result.For id := by
  simp only [encodeError] at h
  cases htext : cfg.jason.encode!
      (record [("code", .binary code), ("message", .binary message)]) with
  | error raise => rw [htext] at h; cases h
  | ok text =>
    rw [htext] at h
    have hvalid := (hjason.encode_record _ (by simp)).mp (exists_encode!.mp ⟨text, htext⟩)
    cases h
    split_ifs
    · refine ⟨rfl, ?_, trivial⟩
      simp only [Completion.Valid, Completion.fields, List.forall_mem_cons] at hvalid ⊢
      exact ⟨trivial, trivial, hvalid.1, hvalid.2.1, nofun⟩
    · trivial

/-- An error of valid strings is encoded. -/
theorem encodeError_ok (hjason : cfg.jason.Lawful) (id : ℕ) {code message : Bytes}
    (hcode : validString code = true) (hmessage : validString message = true) :
    ∃ result, encodeError cfg id code message = .ok result := by
  have hsome := (hjason.encode_record
    [("code", .binary code), ("message", .binary message)] (by simp)).mpr (by
      simp only [List.forall_mem_cons]
      exact ⟨hcode, hmessage, nofun⟩)
  obtain ⟨text, htext⟩ := exists_encode!.mpr hsome
  exact ⟨_, by rw [encodeError, htext]; rfl⟩

theorem callbackFailed_ok (hjason : cfg.jason.Lawful) (id : ℕ) :
    ∃ result, callbackFailed cfg id = .ok result ∧ result.For id := by
  obtain ⟨result, h⟩ := encodeError_ok hjason id (validString_utf8 "callback_failed")
    (validString_utf8 "Host callback failed")
  exact ⟨result, h, encodeError_for hjason h⟩

/-- A term that is encoded is a result for its id. -/
theorem encodeResult_for (hjason : cfg.jason.Lawful) {value : Term} {result : Result}
    (h : encodeResult cfg id value = .ok result) : result.For id := by
  unfold encodeResult at h
  split at h
  · rename_i value
    cases hjson : json? value with
    | error raise => rw [hjson] at h; cases h
    | ok isJson =>
      rw [hjson] at h
      cases isJson with
      | false => exact encodeError_for hjason h
      | true =>
        simp only [bind, Except.bind, if_true] at h
        split at h
        · rename_i bytes hbytes
          split_ifs at h <;> cases h
          · refine ⟨rfl, ?_, hjason.encoded hjson hbytes⟩
            simp only [Completion.Valid, Completion.fields, List.forall_mem_cons]
            exact ⟨trivial, trivial, hjason.valid hjson hbytes, nofun⟩
          · trivial
        · exact encodeError_for hjason h
  · split at h
    · exact encodeError_for hjason h
    · exact encodeError_for hjason h
  · exact encodeError_for hjason h

/-- **Whatever a host function does**, its process has a result for its id. -/
theorem invoke_ok (hjason : cfg.jason.Lawful) (id : ℕ) (outcome : Outcome) :
    ∃ result, invoke cfg id outcome = .ok result ∧ result.For id := by
  cases outcome with
  | failed => exact callbackFailed_ok hjason id
  | returned value =>
    cases hresult : encodeResult cfg id value with
    | ok result => exact ⟨result, by simp [invoke, hresult], encodeResult_for hjason hresult⟩
    | error raise =>
      obtain ⟨result, h, hfor⟩ := callbackFailed_ok hjason id
      exact ⟨result, by simpa [invoke, hresult] using h, hfor⟩

theorem nodup_fields (completion : Completion) : (completion.fields.map Prod.fst).Nodup := by
  cases completion <;> simp [Completion.fields]

/-- **A valid completion has a text**, which reads back as the list of it. -/
theorem completionText_ok (hjason : cfg.jason.Lawful) {completion : Completion}
    (h : completion.Valid) : ∃ text members, completionText cfg completion = .ok text ∧
      Json.parse text = some (.arr [.obj members]) ∧
      ∀ key, (Json.obj members).get (utf8 key) =
        (completion.fields.lookup key).map Scalar.toJson := by
  obtain ⟨text, members, htext, hparse, hget⟩ :=
    hjason.encode_list completion.fields (nodup_fields completion) h
  exact ⟨text, members, encode!_eq_ok.mpr htext, hparse, hget⟩

end Javex.Callbacks
