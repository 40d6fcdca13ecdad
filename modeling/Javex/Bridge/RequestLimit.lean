import Javex.Bridge.Surrogates
import Javex.Native.Store
import Javex.Worker.Protocol

/-!
# Request frames fit

How long the state can be that the bridge returns. A request has its argument quoted once more, and
its name; a code point is quoted with at most six times its bytes, and a surrogate in no pair with
six bytes for the three of its replacement character. The rest of a request is shorter than the 2048
bytes that the limit has for it.

The limit itself is computed in four places, with unbounded numbers in `dispatch_requests/2` and
`call/7` and with saturating ones in `Budgets::callback_request_limit`.

* `request_frames_fit`: the four agree for all budgets, and a batch within the quotas fits.

The bound is proved for texts that `JSON.stringify` may have written, with the strings of the
engine, because that is where a surrogate without a partner can occur; for bytes there is nothing to
show. The worst case of a code point is an escape of six characters for a byte, and a call has two
strings that are escaped once more: its name is quoted once and its argument, which is a text
already, is quoted as a whole.

The saturating computations and those with unbounded numbers agree because the ranges of the budgets
keep every intermediate number far below the largest word.
-/

namespace Javex.Bridge

open Codec Codec.Utf16 Callbacks

/-- A request with whatever texts in it. -/
structure Draft where
  id : ℕ
  name : List UInt16
  text : List UInt16

/-- `{"id":${id},"name":${stringify(name)},"argument":${stringify(json)}}`. -/
def Draft.entry (draft : Draft) : List UInt16 :=
  widen (utf8 "\x7b\"id\":") ++ (widen (Json.natText draft.id) ++ (widen (utf8 ",\"name\":") ++
    (quoteString draft.name ++ (widen (utf8 ",\"argument\":") ++
      (quoteString draft.text ++ widen (utf8 "\x7d"))))))

/-- The request of a call. -/
def Spoken.draft {double : FloatLiteral → Prop} (call : Spoken double) : Draft :=
  ⟨call.id, call.name, call.argument.stringify⟩

theorem Spoken.entry_draft {double : FloatLiteral → Prop} :
    Draft.entry ∘ @Spoken.draft double = Spoken.entry :=
  funext fun _ => rfl

/-- A request within the quotas: an id that can be in use, a name and an argument of so many
bytes. -/
structure Draft.Fits (maxInput : ℕ) (draft : Draft) : Prop where
  id_le : draft.id ≤ 1024
  name_le : (encode draft.name).length ≤ 128
  text_le : (encode draft.text).length ≤ maxInput

variable {maxInput : ℕ}

/-- **A request with its comma** has the bytes that the limit has for it. -/
theorem Draft.Fits.length_entry_le {draft : Draft} (h : draft.Fits maxInput) :
    (encode draft.entry).length + (encode [0x2c]).length ≤ 6 * maxInput + 2048 := by
  have hdigits : (Json.natText draft.id).length ≤ 20 := by
    have hlt := h.id_le.trans_lt (by decide : 1024 < 18446744073709551616)
    have hlong := Json.length_intText_le hlt
    rwa [Json.intText, if_neg (by omega), Int.natAbs_natCast] at hlong
  have hid := length_encode_le (widen (Json.natText draft.id))
  have hwide : (widen (Json.natText draft.id)).length = (Json.natText draft.id).length :=
    List.length_map _
  have hname := length_encode_quoteString_le draft.name
  have htext := length_encode_quoteString_le draft.text
  have hnameQuota := h.name_le
  have htextQuota := h.text_le
  -- what is left are the keys and the punctuation
  have hrest : (encode (widen (utf8 "\x7b\"id\":"))).length = 6 ∧
      (encode (widen (utf8 ",\"name\":"))).length = 8 ∧
        (encode (widen (utf8 ",\"argument\":"))).length = 12 ∧
          (encode (widen (utf8 "\x7d"))).length = 1 ∧ (encode [0x2c]).length = 1 := by decide
  have hparts := length_encode_flatten_le [widen (utf8 "\x7b\"id\":"),
    widen (Json.natText draft.id), widen (utf8 ",\"name\":"), quoteString draft.name,
    widen (utf8 ",\"argument\":"), quoteString draft.text, widen (utf8 "\x7d")]
  simp only [List.flatten_cons, List.flatten_nil, List.append_nil, List.map_cons, List.map_nil,
    List.sum_cons, List.sum_nil] at hparts
  rw [Draft.entry]
  omega

/-- Texts of a bounded length with commas between them. -/
theorem length_encode_intercalate_le {k : ℕ} {texts : List (List UInt16)}
    (h : ∀ text ∈ texts, (encode text).length + (encode [0x2c]).length ≤ k) :
    (encode ([0x2c].intercalate texts)).length ≤ texts.length * k := by
  induction texts with
  | nil => exact Nat.zero_le _
  | cons text texts ih =>
    obtain ⟨htext, hrest⟩ := List.forall_mem_cons.mp h
    have htail := ih hrest
    rw [List.length_cons, Nat.succ_mul]
    cases texts with
    | nil =>
      rw [List.intercalate_singleton]
      omega
    | cons next texts =>
      have hfirst := length_encode_append_le text ([0x2c] ++ [0x2c].intercalate (next :: texts))
      have hcomma := length_encode_append_le [0x2c] ([0x2c].intercalate (next :: texts))
      rw [List.intercalate_cons_cons, List.append_assoc]
      omega

/-- **A state of some requests** is within the product of the limit, whatever its flags. -/
theorem length_encode_stateText_le {drafts : List Draft} (h : ∀ draft ∈ drafts, draft.Fits maxInput)
    (done fatal : Bool) :
    (encode (stateText done fatal ([0x2c].intercalate (drafts.map Draft.entry)))).length ≤
      drafts.length * (6 * maxInput + 2048) + 4096 := by
  have hrequests : (encode (if done then [] else
      [0x2c].intercalate (drafts.map Draft.entry))).length ≤
        drafts.length * (6 * maxInput + 2048) := by
    cases done with
    | true => exact Nat.zero_le _
    | false =>
      have hle := length_encode_intercalate_le (List.forall_mem_map.mpr fun draft hdraft =>
        (h draft hdraft).length_entry_le)
      rwa [List.length_map] at hle
  have hrest : (encode (widen (utf8 "\x7b\"done\":"))).length = 8 ∧
      (encode (widen (utf8 ",\"fatal\":"))).length = 9 ∧
        (encode (widen (utf8 ",\"requests\":["))).length = 13 ∧
          (encode (widen (utf8 "]\x7d"))).length = 2 := by decide
  have hflag : ∀ flag, (encode (boolText flag)).length ≤ 5 := by decide
  have hdone := hflag done
  have hfatal := hflag fatal
  have hparts := length_encode_flatten_le [widen (utf8 "\x7b\"done\":"), boolText done,
    widen (utf8 ",\"fatal\":"), boolText fatal, widen (utf8 ",\"requests\":["),
    if done then [] else [0x2c].intercalate (drafts.map Draft.entry), widen (utf8 "]\x7d")]
  simp only [List.flatten_cons, List.flatten_nil, List.append_nil, List.map_cons, List.map_nil,
    List.sum_cons, List.sum_nil] at hparts
  rw [stateText]
  omega

/-- **Request frames fit.** For the budgets that the options admit, the saturating limit of an
execution, the limit of the broker and that of a supervisor are one, and no more than the transport
of an isolated run admits. Where the product is no more than 64 MiB, no state with a batch within
the quotas exceeds it, whatever the characters; in particular none that the bridge returns with as
many calls as may be out. -/
theorem request_frames_fit (cfg : Config) (opts : Native.Budgets)
    (hconcurrency : opts.maxCallbackConcurrency = cfg.maxConcurrency)
    (hinput : opts.maxCallbackInput = cfg.maxInput) {w : ℕ} (hw : mib64 < 2 ^ w) :
    opts.requestLimit w = cfg.maxFrame ∧
      Worker.callbackRequestLimit cfg.limits.budgets = cfg.maxFrame ∧
      cfg.maxFrame ≤ (Isolated.Call.of .run cfg.limits.budgets).maximum ∧
      (cfg.maxConcurrency * (6 * cfg.maxInput + 2048) + 4096 ≤ mib64 →
        (∀ drafts : List Draft, drafts.length ≤ cfg.maxConcurrency →
          (∀ draft ∈ drafts, draft.Fits cfg.maxInput) → ∀ done fatal,
            (encode (stateText done fatal
              ([0x2c].intercalate (drafts.map Draft.entry)))).length ≤ opts.requestLimit w) ∧
        ∀ (double : FloatLiteral → Prop) (b : Script double),
          (Script.system double cfg).Reachable b →
            b.accepted.length ≤ cfg.maxConcurrency → ∀ done,
              (encode (b.text done)).length ≤ opts.requestLimit w) := by
  have hlimit : opts.requestLimit w = cfg.maxFrame := by
    rw [Native.Budgets.requestLimit_eq opts hw, Native.Budgets.callbackRequestLimit, hconcurrency,
      hinput, Nat.mul_comm cfg.maxInput 6, Nat.min_comm, Config.maxFrame]
  have hworker : Worker.callbackRequestLimit cfg.limits.budgets = cfg.maxFrame := by
    rw [Worker.callbackRequestLimit, Nat.mul_comm _ 6, Nat.min_comm]
    rfl
  refine ⟨hlimit, hworker, ?_, fun hcap => ?_⟩
  · exact min_le_min_left _ (le_max_right _ _)
  · have hbatch : ∀ drafts : List Draft, drafts.length ≤ cfg.maxConcurrency →
        (∀ draft ∈ drafts, draft.Fits cfg.maxInput) → ∀ done fatal,
          (encode (stateText done fatal
            ([0x2c].intercalate (drafts.map Draft.entry)))).length ≤ opts.requestLimit w := by
      intro drafts hcount hfits done fatal
      rw [hlimit, Config.maxFrame, min_eq_right hcap]
      refine (length_encode_stateText_le hfits done fatal).trans (Nat.add_le_add_right ?_ _)
      exact Nat.mul_le_mul_right _ hcount
    refine ⟨hbatch, fun double b hb hcount done => ?_⟩
    have hsound := Script.sound_of_reachable hb
    have hcalls := cfg.limits.budgets.maxCallbackCalls_le
    have htext := hbatch (b.accepted.map Spoken.draft) (by rwa [List.length_map])
      (List.forall_mem_map.mpr fun call hcall => ⟨(hsound.accepted call hcall).named.id_le.trans
        hcalls, (hsound.accepted call hcall).named.name_le,
          (hsound.accepted call hcall).argument_le⟩) done b.fatal
    rwa [List.map_map, Spoken.entry_draft, ← hsound.requests] at htext

/-- The built-in budgets, as an execution is told them. -/
def builtinBudgets : Native.Budgets where
  fuel := 100000000
  maxMemory := 67108864
  maxInput := 1048576
  maxOutput := 1048576
  maxStderr := 65536
  maxModule := 8388608
  maxCallbackCalls := 32
  maxCallbackConcurrency := 4
  maxCallbackInput := 65536
  maxCallbackOutput := 262144
  env := []
  staticMode := false

/-- Two requests of control characters and surrogates, each quoted with an escape. -/
theorem request_frames_fit_escapes :
    (encode (stateText false false ([0x2c].intercalate ([⟨1, [0xd800, 0x1f], [0x22, 0x5c]⟩,
      ⟨2, [0xdc00], [0x00, 0xd83d, 0xde00]⟩].map Draft.entry)))).length ≤
        builtinBudgets.requestLimit 64 := by
  obtain ⟨-, -, -, hfit⟩ := request_frames_fit echoConfig builtinBudgets rfl rfl
    (w := 64) (by decide)
  refine (hfit (by decide)).1 _ (by decide) (List.forall_mem_cons.mpr ⟨⟨?_, ?_, ?_⟩,
    List.forall_mem_singleton.mpr ⟨?_, ?_, ?_⟩⟩) false false
  all_goals decide

end Javex.Bridge
