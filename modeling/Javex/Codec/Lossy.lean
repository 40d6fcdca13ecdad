import Javex.Codec.Utf8
import Mathlib.Algebra.Ring.Nat

/-!
# Lossy decoding

`String::from_utf8_lossy`: bytes that are UTF-8 stay, and each maximal sequence that begins a
character and does not go on as one is replaced by U+FFFD. The text is longer than the bytes by
what the replacements add, three bytes less the length of the sequence each: `length_lossy`.

The decoder is written as a function of the front of the bytes: how many of them make a character,
or, if they make none, how many make the maximal sequence that is replaced as one. The second case
is where implementations differ; the table of second bytes (`isSecond`) is the one of the standard,
by which a sequence is broken off at the first byte that cannot go on.

A replacement takes the place of one, two or three bytes. So a text that is cut to a number of bytes
before it is decoded may come out longer than that number, by up to two bytes for each byte that
begins nothing, and never shorter: `growth` is that difference, and it is zero exactly for bytes
that are UTF-8 up to sequences of three.
-/

namespace Codec

/-! ### One character -/

/-- A continuation byte. -/
def isContinuation (c : Option UInt8) : Bool := c.any fun c => c &&& 0xc0 == 0x80

/-- The number of bytes of a character that begins with this one, if any does. -/
def charWidth (b : UInt8) : ℕ :=
  if b < 0x80 then 1
  else if 0xc2 ≤ b ∧ b ≤ 0xdf then 2
  else if 0xe0 ≤ b ∧ b ≤ 0xef then 3
  else if 0xf0 ≤ b ∧ b ≤ 0xf4 then 4
  else 0

/-- The second byte may follow the first one in a character of three or four bytes. -/
def isSecond (b : UInt8) (c : Option UInt8) : Bool :=
  c.any fun c =>
    if b = 0xe0 then 0xa0 ≤ c && c ≤ 0xbf
    else if b = 0xed then 0x80 ≤ c && c ≤ 0x9f
    else if b = 0xf0 then 0x90 ≤ c && c ≤ 0xbf
    else if b = 0xf4 then 0x80 ≤ c && c ≤ 0x8f
    else 0x80 ≤ c && c ≤ 0xbf

/-- Whether a character stands at the front, and how many bytes it or the invalid sequence has. -/
def readChar (b : UInt8) (rest : List UInt8) : Bool × ℕ :=
  match charWidth b with
  | 1 => (true, 1)
  | 2 => if isContinuation rest[0]? then (true, 2) else (false, 1)
  | 3 =>
    if isSecond b rest[0]? then
      if isContinuation rest[1]? then (true, 3) else (false, 2)
    else (false, 1)
  | 4 =>
    if isSecond b rest[0]? then
      if isContinuation rest[1]? then
        if isContinuation rest[2]? then (true, 4) else (false, 3)
      else (false, 2)
    else (false, 1)
  | _ => (false, 1)

theorem readChar_bounds (b : UInt8) (rest : List UInt8) :
    1 ≤ (readChar b rest).2 ∧ (readChar b rest).2 ≤ rest.length + 1 ∧
      ((readChar b rest).1 = false → (readChar b rest).2 ≤ 3) := by
  have hnone : ∀ n, isContinuation rest[n]? = true → n < rest.length := by
    intro n h
    by_contra hn
    rw [List.getElem?_eq_none (by omega)] at h
    cases h
  have hsecond : isSecond b rest[0]? = true → 0 < rest.length := by
    intro h
    by_contra hn
    rw [List.getElem?_eq_none (by omega)] at h
    cases h
  unfold readChar
  split
  case h_1 => simp
  case h_2 =>
    split_ifs with h0
    · have := hnone 0 h0
      exact ⟨by simp, by simp; omega, by simp⟩
    · simp
  case h_3 =>
    split_ifs with h0 h1
    · have := hnone 1 h1
      exact ⟨by simp, by simp; omega, by simp⟩
    · have := hsecond h0
      exact ⟨by simp, by simp; omega, by simp⟩
    · simp
  case h_4 =>
    split_ifs with h0 h1 h2
    · have := hnone 2 h2
      exact ⟨by simp, by simp; omega, by simp⟩
    · have := hnone 1 h1
      exact ⟨by simp, by simp; omega, by simp⟩
    · have := hsecond h0
      exact ⟨by simp, by simp; omega, by simp⟩
    · simp
  case h_5 => simp

/-! ### A whole text -/

/-- U+FFFD. -/
def replacementCharacter : List UInt8 := [0xef, 0xbf, 0xbd]

/-- Lossy decoding, with so many bytes still to be passed over. -/
def lossyFrom : ℕ → List UInt8 → List UInt8
  | _, [] => []
  | skip + 1, _ :: rest => lossyFrom skip rest
  | 0, b :: rest =>
    let (valid, n) := readChar b rest
    (if valid then (b :: rest).take n else replacementCharacter) ++ lossyFrom (n - 1) rest

/-- `String::from_utf8_lossy`. -/
def lossy (bytes : List UInt8) : List UInt8 := lossyFrom 0 bytes

/-- The lengths of the sequences that are replaced. -/
def invalidFrom : ℕ → List UInt8 → List ℕ
  | _, [] => []
  | skip + 1, _ :: rest => invalidFrom skip rest
  | 0, b :: rest =>
    let (valid, n) := readChar b rest
    (if valid then [] else [n]) ++ invalidFrom (n - 1) rest

/-- The lengths of the maximal invalid sequences of some bytes. -/
def invalidSequences (bytes : List UInt8) : List ℕ := invalidFrom 0 bytes

/-- What the replacement of some sequences adds. -/
def growth (lengths : List ℕ) : ℕ := (lengths.map (3 - ·)).sum

theorem length_lossyFrom (bytes : List UInt8) : ∀ skip ≤ bytes.length,
    (lossyFrom skip bytes).length = bytes.length - skip + growth (invalidFrom skip bytes) := by
  induction bytes with
  | nil =>
    intro skip hskip
    rw [Nat.le_zero.mp hskip]
    rfl
  | cons b rest ih =>
    intro skip hskip
    cases skip with
    | succ skip =>
      rw [lossyFrom, invalidFrom, ih skip (by simpa using hskip), List.length_cons]
      omega
    | zero =>
      obtain ⟨hpos, hle, hinvalid⟩ := readChar_bounds b rest
      rw [lossyFrom, invalidFrom]
      cases hread : readChar b rest with
      | mk valid n =>
        rw [hread] at hpos hle hinvalid
        have hrest := ih (n - 1) (by simp at hle; omega)
        cases valid with
        | true =>
          simp only [if_true, List.nil_append, List.length_append, hrest, List.length_take,
            List.length_cons]
          simp only at hpos hle
          omega
        | false =>
          have hthree : n ≤ 3 := hinvalid rfl
          simp only at hpos hle
          simp only [Bool.false_eq_true, if_false, List.length_append, hrest, growth,
            List.singleton_append, List.map_cons, List.sum_cons, replacementCharacter,
            List.length_cons, List.length_nil]
          omega

/-- **The length of a lossy text.** -/
theorem length_lossy (bytes : List UInt8) :
    (lossy bytes).length = bytes.length + growth (invalidSequences bytes) := by
  have h := length_lossyFrom bytes 0 (Nat.zero_le _)
  rwa [Nat.sub_zero] at h

/-! ### UTF-8 stays as it is -/

theorem isContinuation_ofNat {e : ℕ} (h : e < 64) :
    isContinuation (some (UInt8.ofNat (e + 0x80))) = true := by
  have hall : ∀ e < 64, isContinuation (some (UInt8.ofNat (e + 0x80))) = true := by decide
  exact hall e h

/-- The bytes of a character read as one character, whatever follows them. -/
theorem readChar_utf8EncodeChar (c : Char) (rest : List UInt8) :
    ∃ b tail, String.utf8EncodeChar c = b :: tail ∧
      readChar b (tail ++ rest) = (true, tail.length + 1) := by
  have hvalid : c.val.toNat < 0xd800 ∨ 0xdfff < c.val.toNat ∧ c.val.toNat < 0x110000 := c.valid
  unfold String.utf8EncodeChar
  by_cases hone : c.val.toNat ≤ 0x7f
  · have hwidth : ∀ d ≤ 0x7f, charWidth (UInt8.ofNat d) = 1 := by decide
    refine ⟨_, _, if_pos hone, ?_⟩
    rw [readChar, hwidth _ hone]
    rfl
  · by_cases htwo : c.val.toNat ≤ 0x7ff
    · have hwidth : ∀ d < 0x20, 2 ≤ d → charWidth (UInt8.ofNat (d + 0xc0)) = 2 := by decide
      refine ⟨_, _, by rw [if_neg hone, if_pos htwo], ?_⟩
      rw [readChar, hwidth _ (by omega) (by omega)]
      simp only [List.cons_append, List.getElem?_cons_zero,
        isContinuation_ofNat (Nat.mod_lt _ (by decide : 0 < 0x40)), if_true]
      rfl
    · by_cases hthree : c.val.toNat ≤ 0xffff
      · -- an overlong form or a surrogate would show in the second byte
        have hlead : ∀ d < 0x10, ∀ e < 0x40, ((d = 0 → 32 ≤ e) ∧ (d = 13 → e < 32)) →
            charWidth (UInt8.ofNat (d + 0xe0)) = 3 ∧
              isSecond (UInt8.ofNat (d + 0xe0)) (some (UInt8.ofNat (e + 0x80))) = true := by
          decide +kernel
        obtain ⟨hwidth, hsecond⟩ := hlead (c.val.toNat / 0x1000 % 0x10) (by omega)
          (c.val.toNat / 0x40 % 0x40) (by omega) (by omega)
        refine ⟨_, _, by rw [if_neg hone, if_neg htwo, if_pos hthree], ?_⟩
        rw [readChar, hwidth]
        simp only [List.cons_append, List.getElem?_cons_zero, List.getElem?_cons_succ, hsecond,
          isContinuation_ofNat (Nat.mod_lt _ (by decide : 0 < 0x40)), if_true]
        rfl
      · have hlead : ∀ d < 0x8, ∀ e < 0x40, (d ≤ 4 ∧ (d = 0 → 16 ≤ e) ∧ (d = 4 → e < 16)) →
            charWidth (UInt8.ofNat (d + 0xf0)) = 4 ∧
              isSecond (UInt8.ofNat (d + 0xf0)) (some (UInt8.ofNat (e + 0x80))) = true := by
          decide +kernel
        obtain ⟨hwidth, hsecond⟩ := hlead (c.val.toNat / 0x40000 % 0x8) (by omega)
          (c.val.toNat / 0x1000 % 0x40) (by omega) (by omega)
        refine ⟨_, _, by rw [if_neg hone, if_neg htwo, if_neg hthree], ?_⟩
        rw [readChar, hwidth]
        simp only [List.cons_append, List.getElem?_cons_zero, List.getElem?_cons_succ, hsecond,
          isContinuation_ofNat (Nat.mod_lt _ (by decide : 0 < 0x40)), if_true]
        rfl

theorem invalidFrom_append (skipped rest : List UInt8) :
    invalidFrom skipped.length (skipped ++ rest) = invalidFrom 0 rest := by
  induction skipped with
  | nil => rfl
  | cons b skipped ih =>
    rw [List.length_cons, List.cons_append, invalidFrom, ih]

/-- Nothing is replaced in UTF-8. -/
theorem invalidSequences_eq_nil {bytes : List UInt8} (h : IsUtf8 bytes) :
    invalidSequences bytes = [] := by
  obtain ⟨chars, rfl⟩ := h
  induction chars with
  | nil => rfl
  | cons c chars ih =>
    obtain ⟨b, tail, hc, hread⟩ := readChar_utf8EncodeChar c
      (chars.flatMap String.utf8EncodeChar)
    rw [List.flatMap_cons, hc, List.cons_append, invalidSequences, invalidFrom, hread]
    simp only [if_true, List.nil_append, Nat.add_sub_cancel, invalidFrom_append]
    exact ih

end Codec
