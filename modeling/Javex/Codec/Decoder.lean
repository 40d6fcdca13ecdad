import Mathlib.Data.List.Basic
import Mathlib.Data.Nat.Notation

/-!
# Incremental decoders

A decoder looks at the bytes that have arrived and asks for more, rejects them, or reads one
event off their front. Its verdicts are final: bytes that arrive later can neither revive a
rejected stream nor change an event that was read (`Decoder.bad_append`,
`Decoder.done_append`). `Decoder.scan` reads events until the decoder asks for more, passing
each to a handler with a state, and `Decoder.feed` does so chunk by chunk with a carried
buffer.

* `Decoder.scan_append`: scanning a buffer and then what arrives is scanning it all at once, so
  that it does not matter how a stream is cut into chunks.
* `Decoder.frame`: the payload of a frame with a four-byte big-endian length, within a limit.

The laws `bad_append` and `done_append` are fields of a decoder, and `bind` and `map` keep them, so
a decoder of a protocol is built from small ones and is final by construction. `shrinks` is what
makes `scan` terminate: an event takes at least one byte.

A handler may refuse an event, and then the scan has failed with the state from before it. The
result keeps that state in any case, because what was done for the earlier events cannot be taken
back: a run that fails on a stream has still handed over what stood before the failure, and the
statements about streams speak of both.
-/

namespace Codec

universe u v

variable {α : Type u} {β : Type v} {σ : Type*}

/-- What a decoder makes of the bytes that have arrived. -/
inductive Parse (α : Type u)
  | more
  | bad
  | done (value : α) (rest : List UInt8)

/-- An incremental decoder: its verdicts are final, and an event takes at least one byte. -/
structure Decoder (α : Type u) where
  next : List UInt8 → Parse α
  bad_append : ∀ {bytes} (later), next bytes = .bad → next (bytes ++ later) = .bad
  done_append : ∀ {bytes value rest} (later), next bytes = .done value rest →
    next (bytes ++ later) = .done value (rest ++ later)
  shrinks : ∀ {bytes value rest}, next bytes = .done value rest → rest.length < bytes.length

namespace Decoder

/-- The decoder that rejects everything. -/
def fail : Decoder α where
  next _ := .bad
  bad_append _ _ := rfl
  done_append _ h := by cases h
  shrinks h := by cases h

/-- One decoder after another, which may depend on what the first one read. -/
def bind (D : Decoder α) (E : α → Decoder β) : Decoder β where
  next bytes :=
    match D.next bytes with
    | .more => .more
    | .bad => .bad
    | .done value rest => (E value).next rest
  bad_append {bytes} later h := by
    cases hd : D.next bytes with
    | more => simp [hd] at h
    | bad => simp [D.bad_append later hd]
    | done value rest =>
      simp only [hd] at h
      simp [D.done_append later hd, (E value).bad_append later h]
  done_append {bytes value rest} later h := by
    cases hd : D.next bytes with
    | more => simp [hd] at h
    | bad => simp [hd] at h
    | done first tail =>
      simp only [hd] at h
      simp [D.done_append later hd, (E first).done_append later h]
  shrinks {bytes value rest} h := by
    cases hd : D.next bytes with
    | more => simp [hd] at h
    | bad => simp [hd] at h
    | done first tail =>
      simp only [hd] at h
      exact Nat.lt_trans ((E first).shrinks h) (D.shrinks hd)

/-- A decoder whose value is computed from what another one read. -/
def map (f : α → β) (D : Decoder α) : Decoder β where
  next bytes :=
    match D.next bytes with
    | .more => .more
    | .bad => .bad
    | .done value rest => .done (f value) rest
  bad_append {bytes} later h := by
    cases hd : D.next bytes <;> simp [hd] at h
    simp [D.bad_append later hd]
  done_append {bytes value rest} later h := by
    cases hd : D.next bytes <;> simp only [hd] at h <;> cases h
    simp [D.done_append later hd]
  shrinks {bytes value rest} h := by
    cases hd : D.next bytes <;> simp only [hd] at h <;> cases h
    exact D.shrinks hd

/-! ### Scanning -/

/-- Where a scan stands: waiting with a buffer, or stopped by a rejection. -/
inductive Scan (σ : Type*)
  | pending (state : σ) (buffer : List UInt8)
  | failed (state : σ)

/-- The state a scan has got to. -/
def Scan.state {σ : Type*} : Scan σ → σ
  | .pending state _ => state
  | .failed state => state

variable (D : Decoder α) (handle : σ → α → Option σ)

/-- Reads events until the decoder asks for more; the handler may reject an event. -/
def scan (state : σ) (bytes : List UInt8) : Scan σ :=
  match _h : D.next bytes with
  | .more => .pending state bytes
  | .bad => .failed state
  | .done value rest =>
    match handle state value with
    | some state' => scan state' rest
    | none => .failed state
termination_by bytes.length
decreasing_by exact D.shrinks _h

/-- Takes one more chunk. -/
def feed : Scan σ → List UInt8 → Scan σ
  | .pending state buffer, chunk => scan D handle state (buffer ++ chunk)
  | .failed state, _ => .failed state

variable {D handle}

theorem scan_more {state : σ} {bytes : List UInt8} (h : D.next bytes = .more) :
    scan D handle state bytes = .pending state bytes := by
  rw [scan]
  split <;> simp_all

theorem scan_bad {state : σ} {bytes : List UInt8} (h : D.next bytes = .bad) :
    scan D handle state bytes = .failed state := by
  rw [scan]
  split <;> simp_all

theorem scan_done {state : σ} {bytes rest : List UInt8} {value : α}
    (h : D.next bytes = .done value rest) :
    scan D handle state bytes =
      match handle state value with
      | some state' => scan D handle state' rest
      | none => .failed state := by
  rw [scan]
  split <;> simp_all

/-- A scan that waits has a buffer the decoder asks more for. -/
theorem next_of_scan_pending {state state' : σ} {bytes buffer : List UInt8}
    (h : scan D handle state bytes = .pending state' buffer) : D.next buffer = .more := by
  induction hn : bytes.length using Nat.strongRecOn generalizing state bytes with
  | _ n ih =>
    cases hnext : D.next bytes with
    | more =>
      rw [scan_more hnext] at h
      cases h
      exact hnext
    | bad =>
      rw [scan_bad hnext] at h
      cases h
    | done value rest =>
      rw [scan_done hnext] at h
      cases hhandle : handle state value with
      | none =>
        rw [hhandle] at h
        cases h
      | some state₁ =>
        rw [hhandle] at h
        exact ih rest.length (hn ▸ D.shrinks hnext) h rfl

/-- **Chunks do not matter.** Scanning some bytes and then, with the buffer left over, the
bytes that arrive later is scanning them all at once. -/
theorem scan_append (state : σ) (bytes later : List UInt8) :
    scan D handle state (bytes ++ later) = feed D handle (scan D handle state bytes) later := by
  induction hn : bytes.length using Nat.strongRecOn generalizing state bytes with
  | _ n ih =>
    cases hnext : D.next bytes with
    | more => rw [scan_more hnext, feed]
    | bad => rw [scan_bad hnext, scan_bad (D.bad_append later hnext), feed]
    | done value rest =>
      rw [scan_done hnext, scan_done (D.done_append later hnext)]
      cases handle state value with
      | none => rfl
      | some state' => exact ih rest.length (hn ▸ D.shrinks hnext) state' rest rfl

/-! ### Frames -/

/-- The number four big-endian bytes denote. -/
def word (a b c d : UInt8) : ℕ :=
  ((a.toNat * 256 + b.toNat) * 256 + c.toNat) * 256 + d.toNat

/-- The four big-endian bytes of a number below `2 ^ 32`. -/
def wordBytes (n : ℕ) : List UInt8 :=
  [UInt8.ofNat (n / 16777216), UInt8.ofNat (n / 65536), UInt8.ofNat (n / 256), UInt8.ofNat n]

theorem word_lt (a b c d : UInt8) : word a b c d < 4294967296 := by
  have := a.toNat_lt
  have := b.toNat_lt
  have := c.toNat_lt
  have := d.toNat_lt
  unfold word
  omega

theorem word_wordBytes {n : ℕ} (h : n < 4294967296) :
    word (UInt8.ofNat (n / 16777216)) (UInt8.ofNat (n / 65536)) (UInt8.ofNat (n / 256))
      (UInt8.ofNat n) = n := by
  simp only [word, UInt8.toNat_ofNat']
  omega

theorem wordBytes_word (a b c d : UInt8) : wordBytes (word a b c d) = [a, b, c, d] := by
  have ha := a.toNat_lt
  have hb := b.toNat_lt
  have hc := c.toNat_lt
  have hd := d.toNat_lt
  simp only [wordBytes, word, List.cons.injEq, and_true]
  refine ⟨?_, ?_, ?_, ?_⟩ <;> apply UInt8.toNat_inj.mp <;> rw [UInt8.toNat_ofNat'] <;> omega

/-- A payload after its length. -/
def frameBytes (payload : List UInt8) : List UInt8 := wordBytes payload.length ++ payload

@[simp]
theorem length_frameBytes (payload : List UInt8) :
    (frameBytes payload).length = payload.length + 4 := by
  simp [frameBytes, wordBytes]

/-- The verdict on bytes that should start with a frame of at most `limit` bytes. The length
is judged as soon as it has arrived. -/
def frameNext (limit : ℕ) : List UInt8 → Parse (List UInt8)
  | a :: b :: c :: d :: rest =>
    if limit < word a b c d then .bad
    else if rest.length < word a b c d then .more
    else .done (rest.take (word a b c d)) (rest.drop (word a b c d))
  | _ => .more

/-- The payload of a frame of at most `limit` bytes. -/
def frame (limit : ℕ) : Decoder (List UInt8) where
  next := frameNext limit
  bad_append {bytes} later h := by
    match bytes with
    | a :: b :: c :: d :: rest =>
      simp only [frameNext, List.cons_append] at h ⊢
      split_ifs at h with hlimit
      rw [if_pos hlimit]
    | [] | [_] | [_, _] | [_, _, _] => cases h
  done_append {bytes value rest} later h := by
    match bytes with
    | a :: b :: c :: d :: tail =>
      simp only [frameNext, List.cons_append] at h ⊢
      split_ifs at h with hlimit hlen
      cases h
      rw [if_neg hlimit, if_neg (by rw [List.length_append]; omega),
        List.take_append_of_le_length (by omega), List.drop_append_of_le_length (by omega)]
    | [] | [_] | [_, _] | [_, _, _] => cases h
  shrinks {bytes value rest} h := by
    match bytes with
    | a :: b :: c :: d :: tail =>
      simp only [frameNext] at h
      split_ifs at h
      cases h
      simp only [List.length_drop, List.length_cons]
      omega
    | [] | [_] | [_, _] | [_, _, _] => cases h

theorem frame_next_of_length {limit : ℕ} {bytes : List UInt8} (h : bytes.length < 4) :
    (frame limit).next bytes = .more := by
  match bytes with
  | a :: b :: c :: d :: rest =>
    simp only [List.length_cons] at h
    omega
  | [] | [_] | [_, _] | [_, _, _] => rfl

theorem frame_next_cons (limit : ℕ) (a b c d : UInt8) (rest : List UInt8) :
    (frame limit).next (a :: b :: c :: d :: rest) =
      if limit < word a b c d then .bad
      else if rest.length < word a b c d then .more
      else .done (rest.take (word a b c d)) (rest.drop (word a b c d)) := rfl

/-- **Round trip.** A frame within the limit is read back, whatever follows it. -/
theorem frame_next {limit : ℕ} {payload : List UInt8} (hlimit : payload.length ≤ limit)
    (hword : payload.length < 4294967296) (rest : List UInt8) :
    (frame limit).next (frameBytes payload ++ rest) = .done payload rest := by
  simp only [frame, frameBytes, wordBytes, List.cons_append, List.nil_append, frameNext,
    word_wordBytes hword]
  rw [if_neg (by omega), if_neg (by rw [List.length_append]; omega)]
  simp

/-- A frame that was read stood there, within the limit. -/
theorem of_frame_next {limit : ℕ} {bytes payload rest : List UInt8}
    (h : (frame limit).next bytes = .done payload rest) :
    bytes = frameBytes payload ++ rest ∧ payload.length ≤ limit ∧
      payload.length < 4294967296 := by
  match bytes with
  | a :: b :: c :: d :: tail =>
    simp only [frame, frameNext] at h
    split_ifs at h with hlimit hlen
    cases h
    have hword := word_lt a b c d
    have htake : (tail.take (word a b c d)).length = word a b c d := by
      rw [List.length_take]
      omega
    refine ⟨?_, by omega, by omega⟩
    rw [frameBytes, htake, wordBytes_word, List.append_assoc, List.take_append_drop]
    rfl
  | [] | [_] | [_, _] | [_, _, _] => cases h

/-- **Frames in a pipe.** Of a sequence of frames that is split anywhere, the front either has
not got as far as a whole frame or holds the first one, if that is within the limit. -/
theorem frame_next_of_flatMap {limit : ℕ} {payloads : List (List UInt8)}
    {bytes later : List UInt8} (h : payloads.flatMap frameBytes = bytes ++ later)
    (hfirst : ∀ c ∈ payloads.head?, c.length ≤ limit ∧ c.length < 4294967296) :
    (frame limit).next bytes = .more ∨ ∃ c rest others, payloads = c :: others ∧
      (frame limit).next bytes = .done c rest ∧ others.flatMap frameBytes = rest ++ later := by
  cases payloads with
  | nil =>
    obtain ⟨rfl, -⟩ := List.append_eq_nil_iff.mp h.symm
    exact .inl rfl
  | cons c others =>
    obtain ⟨hlimit, hword⟩ := hfirst c rfl
    have hnext := frame_next hlimit hword (others.flatMap frameBytes)
    rw [List.flatMap_cons] at h
    rw [h] at hnext
    cases hbytes : (frame limit).next bytes with
    | more => exact .inl rfl
    | bad =>
      rw [(frame limit).bad_append later hbytes] at hnext
      cases hnext
    | done value rest =>
      rw [(frame limit).done_append later hbytes] at hnext
      obtain ⟨hvalue, hrest⟩ := Parse.done.inj hnext
      exact .inr ⟨c, rest, others, rfl, by rw [hvalue], hrest.symm⟩

end Decoder

end Codec
