import Javex.Callbacks.Failures
import Javex.Codec.Extent

/-!
# The sizes of completions

The quota is checked before the second encoding. A host function comes to a completion (`Yields`);
what is held against `max_callback_output` is the encoded value or the encoded code and message,
`Completion.encoded`, and the completion with these strings is encoded once more. `Jason.Sized`
bounds both texts by the strings in them.

* `result_of_yields`: the completion is sent if that text is within the quota, and it is a fatal
  error otherwise.
* `length_text_le`: the text of a completion has six bytes for each byte of its strings, and 140
  more.

The quota is on what the caller chose, the encoded value or the encoded code and message, and not on
what is sent: the second encoding quotes a text once more, and every byte of it may become six. That
the frame is nonetheless bounded is what the other side of the channel relies on when it computes
the largest completion from the same quota, six times the quota and a constant; `length_text_le` is
that computation.
-/

namespace Javex.Callbacks

open Codec

/-! ### Texts and strings -/

/-- The bytes of a string. -/
def Scalar.size : Scalar → ℕ
  | binary bytes => bytes.length
  | int _ | bool _ => 0

/-- What is relied on for the length of a text: no string is shorter in it than it is, and in a list
of one record no byte of a string has more than six, with nothing between the tokens. -/
structure Jason.Sized (jason : Jason) : Prop where
  lower : ∀ fields, (fields.map Prod.fst).Nodup → ∀ bytes,
    jason.encode (record fields) = some bytes →
      (fields.map fun field => field.2.size).sum ≤ bytes.length
  upper : ∀ fields, (fields.map Prod.fst).Nodup → ∀ bytes,
    jason.encode (.cons (record fields) .nil) = some bytes →
      bytes.length ≤ (Json.arr [.obj (Scalar.members fields)]).extent

namespace Completion

/-- The bytes of the strings of a completion. -/
def size (c : Completion) : ℕ := (c.fields.map fun field => field.2.size).sum

/-- The record of an error that is encoded to be measured. -/
def errorFields (code message : Bytes) : List (String × Scalar) :=
  [("code", .binary code), ("message", .binary message)]

/-- The text that is held against `max_callback_output`. -/
def encoded (jason : Jason) : Completion → Bytes
  | ok _ value => value
  | error _ code message => (jason.encode (record (errorFields code message))).getD []

end Completion

variable {cfg : Config}

/-- **The text of a completion** has at most six bytes for each byte of its strings, and some
more. -/
theorem length_text_le (hsized : cfg.jason.Sized) {c : Completion} (hid : c.id ≤ 1024)
    {text : Bytes} (htext : completionText cfg c = .ok text) : text.length ≤ 6 * c.size + 140 := by
  have hle := hsized.upper c.fields (nodup_fields c) text (encode!_eq_ok.mp htext)
  have hdigits : (Json.intText (c.id : ℤ)).length ≤ 20 :=
    Json.length_intText_le (hid.trans_lt (by decide))
  have hkeys : Json.quoteExtent (utf8 "id") = 14 ∧ Json.quoteExtent (utf8 "ok") = 14 ∧
      Json.quoteExtent (utf8 "value") = 32 ∧ Json.quoteExtent (utf8 "code") = 26 ∧
        Json.quoteExtent (utf8 "message") = 44 := by decide
  refine hle.trans ?_
  cases c with
  | ok id value =>
    simp only [Completion.fields, Completion.size, Scalar.members, Scalar.toJson, Scalar.size,
      List.map_cons, List.map_nil, List.sum_cons, List.sum_nil, Json.extent, Json.extentElements,
      Json.extentMembers, hkeys]
    simp only [Json.quoteExtent, Completion.id] at hdigits ⊢
    omega
  | error id code message =>
    simp only [Completion.fields, Completion.size, Scalar.members, Scalar.toJson, Scalar.size,
      List.map_cons, List.map_nil, List.sum_cons, List.sum_nil, Json.extent, Json.extentElements,
      Json.extentMembers, hkeys]
    simp only [Json.quoteExtent, Completion.id] at hdigits ⊢
    omega

/-- The strings of a completion are no longer than the text that is measured. -/
theorem size_le_encoded (hjason : cfg.jason.Lawful) (hsized : cfg.jason.Sized) {c : Completion}
    (hvalid : c.Valid) : c.size ≤ (c.encoded cfg.jason).length := by
  cases c with
  | ok id value => simp [Completion.size, Completion.fields, Completion.encoded, Scalar.size]
  | error id code message =>
    have hfields : (Completion.errorFields code message).map Prod.fst = ["code", "message"] := rfl
    have hsome :=
      (hjason.encode_record (Completion.errorFields code message) (by simp [hfields])).mpr
      fun field hfield => hvalid field (List.mem_cons_of_mem _ (List.mem_cons_of_mem _ hfield))
    obtain ⟨bytes, hbytes⟩ := Option.isSome_iff_exists.mp hsome
    have hlower := hsized.lower _ (by simp [hfields]) bytes hbytes
    rw [Completion.encoded, hbytes, Option.getD_some]
    simpa [Completion.size, Completion.fields, Completion.errorFields, Scalar.size] using hlower

/-- A completion is not empty: its text is JSON. -/
theorem text_ne_nil (hjason : cfg.jason.Lawful) {c : Completion} (hvalid : c.Valid) {text : Bytes}
    (htext : completionText cfg c = .ok text) : text ≠ [] := by
  obtain ⟨text', members, htext', hparse, -⟩ := completionText_ok hjason hvalid
  cases htext.symm.trans htext'
  rintro rfl
  have hnone : Json.parse [] = none := by decide
  cases hnone.symm.trans hparse

/-! ### What a behaviour yields -/

/-- The completion that a behaviour comes to, whatever the quota: the encoded value, the declared
error, or the error of its failure. -/
inductive Behaviour.Yields (jason : Jason) (id : ℕ) : Behaviour → Completion → Prop
  | value {value : Term} {bytes : Bytes} (hjson : json? value = .ok true)
      (hencode : jason.encode value = some bytes) :
      Yields jason id (.returned (.tuple [.atom "ok", value])) (.ok id bytes)
  | declared {entries : List (Term × Term)} {code message : Bytes}
      (hcode : fetch (utf8 "code") entries = some (.binary code))
      (hmessage : fetch (utf8 "message") entries = some (.binary message))
      (hencode : (jason.encode (record (Completion.errorFields code message))).isSome) :
      Yields jason id (.returned (.tuple [.atom "error", .map entries])) (.error id code message)
  | failure {b : Behaviour} {failure : Failure} (h : b.failure? jason = some failure) :
      Yields jason id b (.error id (utf8 "callback_failed") failure.message)

/-- **Every behaviour yields a completion.** -/
theorem exists_yields (jason : Jason) (id : ℕ) (b : Behaviour) : ∃ c, b.Yields jason id c := by
  cases hfailure : b.failure? jason with
  | some failure => exact ⟨_, .failure hfailure⟩
  | none =>
    unfold Behaviour.failure? at hfailure
    split at hfailure
    · split at hfailure
      · cases hfailure
      · cases hfailure
      · rename_i hjson
        simp only [ite_eq_left_iff, reduceCtorEq, imp_false, not_not] at hfailure
        obtain ⟨bytes, hbytes⟩ := Option.isSome_iff_exists.mp hfailure
        exact ⟨_, .value hjson hbytes⟩
    · split at hfailure
      · rename_i code message hcode hmessage
        simp only [ite_eq_left_iff, reduceCtorEq, imp_false, not_not] at hfailure
        exact ⟨_, .declared hcode hmessage hfailure⟩
      · cases hfailure
    all_goals cases hfailure

/-- **The quota decides**: the completion is sent if the text that is measured is within it, and the
run fails otherwise. -/
theorem result_of_yields (hjason : cfg.jason.Lawful) {id : ℕ} {b : Behaviour} {c : Completion}
    (h : b.Yields cfg.jason id c) : ∃ message, b.result cfg id = .ok
      (if (c.encoded cfg.jason).length ≤ cfg.maxOutput then .completion c else .fatal message) := by
  cases h with
  | @value value bytes hjson hencode =>
    refine ⟨"callback result exceeds max_callback_output", ?_⟩
    have hresult : encodeResult cfg id (.tuple [.atom "ok", value]) =
        .ok (if bytes.length ≤ cfg.maxOutput then .completion (.ok id bytes)
          else .fatal "callback result exceeds max_callback_output") := by
      simp only [encodeResult, hjson, hencode, bind, Except.bind, if_true]
      split_ifs <;> rfl
    simp only [Behaviour.result, Behaviour.outcome?, invoke, hresult]
    rfl
  | @declared entries code message hcode hmessage hencode =>
    refine ⟨"callback error exceeds max_callback_output", ?_⟩
    obtain ⟨bytes, hbytes⟩ := Option.isSome_iff_exists.mp hencode
    have hencode := encode!_eq_ok.mpr hbytes
    unfold Completion.errorFields at hencode
    simp only [Behaviour.result, Behaviour.outcome?, invoke, encodeResult, hcode, hmessage,
      encodeError, hencode, Completion.encoded, hbytes, Option.getD_some]
    rfl
  | @failure b failure hfailure =>
    refine ⟨"callback error exceeds max_callback_output", ?_⟩
    rw [result_of_failure hjason hfailure, failureResult_eq hjason]
    rfl

/-! ### The instance -/

theorem size_le_print (scalar : Scalar) : scalar.size ≤ (Json.print scalar.toJson).length := by
  cases scalar with
  | int | bool => exact Nat.zero_le _
  | binary bytes =>
    have hquote := Json.length_quote bytes
    rw [Scalar.size, Scalar.toJson, Json.print]
    omega

theorem sum_size_le_printMembers (fields : List (String × Scalar)) :
    (fields.map fun field => field.2.size).sum ≤
      (Json.printMembers (Scalar.members fields)).length := by
  induction fields with
  | nil => exact Nat.zero_le _
  | cons field fields ih =>
    have hfirst := size_le_print field.2
    rw [List.map_cons, List.sum_cons]
    cases fields with
    | nil =>
      simp only [Scalar.members, List.map_cons, List.map_nil, Json.printMembers, List.length_append,
        List.length_cons, List.sum_nil]
      omega
    | cons next fields =>
      simp only [Scalar.members, List.map_cons, Json.printMembers, List.length_append,
        List.length_cons] at ih hfirst ⊢
      omega

/-- **The printer is sized.** -/
theorem Jason.reference_sized : Jason.reference.Sized where
  lower fields _ bytes h := by
    obtain ⟨json, hjson, rfl⟩ := Option.map_eq_some_iff.mp h
    rcases members?_record fields with ⟨-, hrecord⟩ | ⟨-, hnone⟩
    · cases hjson.symm.trans hrecord
      have hsum := sum_size_le_printMembers fields
      rw [Json.print, List.length_cons]
      omega
    · cases hjson.symm.trans hnone
  upper fields _ bytes h := by
    obtain ⟨json, hjson, rfl⟩ := Option.map_eq_some_iff.mp h
    rcases members?_record fields with ⟨-, hrecord⟩ | ⟨-, hnone⟩
    · rw [toJson?, hrecord, elements?] at hjson
      cases hjson
      exact Json.length_print_le _
    · rw [toJson?, hnone] at hjson
      cases hjson

end Javex.Callbacks
