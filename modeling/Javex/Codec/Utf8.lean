import Javex.Codec.Json

/-!
# Printed values are UTF-8

The texts of `Json.print` are UTF-8 if the strings in the value are: `Json.isUtf8_print`. A
printer may therefore promise UTF-8 for whatever it accepts, and its texts can be strings of a
further value. A parser that insists on Unicode is `Json.Strict`.

`IsUtf8` is defined by the characters that the bytes spell, which is the form in which it is kept by
putting texts together, and `isUtf8_iff_validateUTF8` is the link to the check that the language
runs on a byte array. A printed string is taken byte by byte: a byte that is printed as it is
continues a character of the string, and an escape is a few ASCII characters in place of one.

A strict parser is given by what it does on texts that some writer may have written (`written`) and
on values of some kind (`readable`), because a library can be relied on for the texts that the
program writes and for little else.
-/

namespace Codec

/-- The bytes of some characters. -/
def IsUtf8 (bytes : List UInt8) : Prop :=
  ∃ chars : List Char, bytes = chars.flatMap String.utf8EncodeChar

/-- The bytes of some characters are what the validation of a byte array accepts. -/
theorem isUtf8_iff_validateUTF8 {bytes : List UInt8} :
    IsUtf8 bytes ↔ (ByteArray.mk bytes.toArray).validateUTF8 = true := by
  rw [ByteArray.validateUTF8_eq_true_iff]
  constructor
  · rintro ⟨chars, rfl⟩
    refine .intro chars ?_
    rw [List.utf8Encode]
    ext1
    simp
  · rintro ⟨chars, h⟩
    refine ⟨chars, ?_⟩
    have := congrArg (fun b => b.data.toList) h
    simpa [List.utf8Encode] using this

namespace IsUtf8

variable {bytes more : List UInt8}

theorem nil : IsUtf8 [] := ⟨[], rfl⟩

/-- Two texts in UTF-8 make one. -/
theorem append (h : IsUtf8 bytes) (hmore : IsUtf8 more) : IsUtf8 (bytes ++ more) := by
  obtain ⟨chars, rfl⟩ := h
  obtain ⟨others, rfl⟩ := hmore
  exact ⟨chars ++ others, by rw [List.flatMap_append]⟩

theorem singleton {c : UInt8} (h : c < 0x80) : IsUtf8 [c] := by
  have hlt : c.toNat < 0x80 := h
  refine ⟨[Char.ofNat c.toNat], ?_⟩
  have hvalid : c.toNat.isValidChar := .inl (by omega)
  have hval : (Char.ofNat c.toNat).val.toNat = c.toNat := by
    rw [Char.ofNat, dif_pos hvalid]
    rfl
  rw [List.flatMap_singleton, String.utf8EncodeChar, hval, if_pos (by omega)]
  simp

theorem cons {c : UInt8} (h : c < 0x80) (hmore : IsUtf8 more) : IsUtf8 (c :: more) :=
  (singleton h).append hmore

/-- ASCII is UTF-8. -/
theorem of_ascii (h : ∀ c ∈ bytes, c < 0x80) : IsUtf8 bytes := by
  induction bytes with
  | nil => exact nil
  | cons c bytes ih =>
    exact cons (h c List.mem_cons_self) (ih fun d hd => h d (List.mem_cons_of_mem _ hd))

/-- ASCII text, to be checked by evaluation. -/
theorem of_all (h : bytes.all (decide <| · < 0x80) = true) : IsUtf8 bytes :=
  of_ascii fun c hc => of_decide_eq_true (List.all_eq_true.mp h c hc)

end IsUtf8

namespace Json

/-- A byte of a longer character is printed as it is. -/
theorem quoteByte_of_le {c : UInt8} (h : 0x80 ≤ c) : quoteByte c = [c] := by
  have hne : ∀ d : UInt8, d < 0x80 → c ≠ d := fun d hd hc =>
    absurd (hc ▸ h) (UInt8.not_le.mpr hd)
  have hshort : shortEscape? c = none := by
    unfold shortEscape?
    simp only [hne _ (show (0x22 : UInt8) < 0x80 by decide),
      hne _ (show (0x5c : UInt8) < 0x80 by decide), hne _ (show (0x08 : UInt8) < 0x80 by decide),
      hne _ (show (0x0c : UInt8) < 0x80 by decide), hne _ (show (0x0a : UInt8) < 0x80 by decide),
      hne _ (show (0x0d : UInt8) < 0x80 by decide), hne _ (show (0x09 : UInt8) < 0x80 by decide),
      if_false]
  have hcontrol : ¬ c < 0x20 := fun hc => hne c (UInt8.lt_trans hc (by decide)) rfl
  simp only [quoteByte, hshort, hcontrol, if_false]

theorem hexDigit_lt (d : ℕ) : hexDigit (d % 16) < 0x80 := by
  have hall : ∀ d < 16, hexDigit d < 0x80 := by decide
  exact hall _ (Nat.mod_lt _ (by decide))

/-- An escape by number is ASCII. -/
theorem lt_of_mem_unicodeEscape {u : ℕ} {b : UInt8} (h : b ∈ unicodeEscape u) : b < 0x80 := by
  simp only [unicodeEscape, List.mem_cons, List.not_mem_nil, or_false] at h
  rcases h with rfl | rfl | rfl | rfl | rfl | rfl
  · decide
  · decide
  all_goals exact hexDigit_lt _

/-- An ASCII byte is quoted with ASCII bytes. -/
theorem lt_of_mem_quoteByte {c d : UInt8} (h : c < 0x80) (hd : d ∈ quoteByte c) : d < 0x80 := by
  unfold quoteByte at hd
  cases hshort : shortEscape? c with
  | some e =>
    have he : e < 0x80 := by
      unfold shortEscape? at hshort
      split_ifs at hshort <;> cases hshort <;> decide
    simp only [hshort, List.mem_cons, List.not_mem_nil, or_false] at hd
    rcases hd with rfl | rfl
    · decide
    · exact he
  | none =>
    simp only [hshort] at hd
    split_ifs at hd with hcontrol
    · exact lt_of_mem_unicodeEscape hd
    · exact List.mem_singleton.mp hd ▸ h

theorem lt_of_isNumberByte {c : UInt8} (h : isNumberByte c = true) : c < 0x80 := by
  simp only [isNumberByte, isDigit, Bool.or_eq_true, Bool.and_eq_true, decide_eq_true_eq,
    beq_iff_eq] at h
  rcases h with ((((hdigit | rfl) | rfl) | rfl) | rfl) | rfl
  · exact UInt8.lt_of_le_of_lt hdigit.2 (by decide)
  all_goals decide

/-- The bytes of a character are one ASCII byte, or none of them is ASCII. -/
theorem utf8EncodeChar_cases (c : Char) :
    (∃ b < 0x80, String.utf8EncodeChar c = [b]) ∨ ∀ b ∈ String.utf8EncodeChar c, 0x80 ≤ b := by
  have hmask : ∀ n m : ℕ, 0x80 ≤ m → n + m < 0x100 → 0x80 ≤ UInt8.ofNat (n + m) := by
    intro n m hm hlt
    rw [UInt8.le_iff_toNat_le, UInt8.toNat_ofNat', Nat.mod_eq_of_lt (by omega)]
    exact Nat.le_trans hm (Nat.le_add_left m n)
  unfold String.utf8EncodeChar
  by_cases hone : c.val.toNat ≤ 0x7f
  · rw [if_pos hone]
    refine .inl ⟨_, ?_, rfl⟩
    rw [UInt8.lt_iff_toNat_lt, UInt8.toNat_ofNat', Nat.mod_eq_of_lt (by omega)]
    exact Nat.lt_succ_of_le hone
  · rw [if_neg hone]
    refine .inr fun b hb => ?_
    split_ifs at hb <;> simp only [List.mem_cons, List.not_mem_nil, or_false] at hb <;>
      rcases hb with rfl | rfl | rfl | rfl <;> exact hmask _ _ (by omega) (by omega)

/-- **A printed string is UTF-8** if the string is. -/
theorem isUtf8_quote {s : List UInt8} (h : IsUtf8 s) : IsUtf8 (quote s) := by
  obtain ⟨chars, rfl⟩ := h
  refine .cons (by decide) (.append ?_ (.singleton (by decide)))
  induction chars with
  | nil => exact .nil
  | cons c chars ih =>
    rw [List.flatMap_cons, List.flatMap_append]
    refine .append ?_ ih
    rcases utf8EncodeChar_cases c with ⟨b, hb, hc⟩ | hhigh
    · rw [hc, List.flatMap_singleton]
      exact .of_ascii fun d hd => lt_of_mem_quoteByte hb hd
    · have hsame : (String.utf8EncodeChar c).flatMap quoteByte = String.utf8EncodeChar c := by
        rw [List.flatMap_congr fun b hb => quoteByte_of_le (hhigh b hb), List.flatMap_singleton']
      exact ⟨[c], by rw [hsame, List.flatMap_singleton]⟩

theorem lt_of_mem_intText {n : ℤ} {b : UInt8} (h : b ∈ intText n) : b < 0x80 :=
  lt_of_isNumberByte (List.all_eq_true.mp (all_isNumberByte_intText n) b h)

theorem lt_of_mem_float {literal : FloatLiteral} {b : UInt8} (h : b ∈ literal.bytes) :
    b < 0x80 := by
  have hvalid := literal.valid
  simp only [isFloatLiteral, Bool.and_eq_true] at hvalid
  exact lt_of_isNumberByte (List.all_eq_true.mp hvalid.1.1.1 b h)

mutual

/-- Every string of a value is UTF-8. -/
def Utf8 : Json → Prop
  | str s => IsUtf8 s
  | arr js => Utf8Elements js
  | obj ms => Utf8Members ms
  | null | bool _ | int _ | float _ => True

def Utf8Elements : List Json → Prop
  | [] => True
  | j :: js => Utf8 j ∧ Utf8Elements js

def Utf8Members : List (List UInt8 × Json) → Prop
  | [] => True
  | (key, j) :: ms => IsUtf8 key ∧ Utf8 j ∧ Utf8Members ms

end

mutual

/-- The numbers of a value that are no integers. -/
def literals : Json → List FloatLiteral
  | float literal => [literal]
  | arr js => literalsElements js
  | obj ms => literalsMembers ms
  | null | bool _ | int _ | str _ => []

def literalsElements : List Json → List FloatLiteral
  | [] => []
  | j :: js => literals j ++ literalsElements js

def literalsMembers : List (List UInt8 × Json) → List FloatLiteral
  | [] => []
  | (_, j) :: ms => literals j ++ literalsMembers ms

end

mutual

/-- **A printed value is UTF-8** if its strings are. -/
theorem isUtf8_print : ∀ j : Json, Utf8 j → IsUtf8 (print j)
  | null, _ => .of_all (by decide)
  | bool true, _ => .of_all (by decide)
  | bool false, _ => .of_all (by decide)
  | int n, _ => by rw [print]; exact .of_ascii fun b => lt_of_mem_intText
  | float literal, _ => by rw [print]; exact .of_ascii fun b => lt_of_mem_float
  | str s, h => by rw [print]; exact isUtf8_quote h
  | arr js, h => by rw [print]; exact .cons (by decide) (isUtf8_printElements js h)
  | obj ms, h => by rw [print]; exact .cons (by decide) (isUtf8_printMembers ms h)

/-- The same for the elements of an array. -/
theorem isUtf8_printElements : ∀ js : List Json, Utf8Elements js → IsUtf8 (printElements js)
  | [], _ => .of_all (by decide)
  | [j], h => by
    rw [printElements]
    exact .append (isUtf8_print j h.1) (.singleton (by decide))
  | j :: k :: js, h => by
    rw [printElements]
    · exact .append (isUtf8_print j h.1) (.cons (by decide) (isUtf8_printElements (k :: js) h.2))
    · exact List.cons_ne_nil _ _

/-- The same for the members of an object. -/
theorem isUtf8_printMembers :
    ∀ ms : List (List UInt8 × Json), Utf8Members ms → IsUtf8 (printMembers ms)
  | [], _ => .of_all (by decide)
  | [(key, j)], h => by
    rw [printMembers]
    exact .append (isUtf8_quote h.1)
      (.cons (by decide) (.append (isUtf8_print j h.2.1) (.singleton (by decide))))
  | (key, j) :: m :: ms, h => by
    rw [printMembers]
    · exact .append (isUtf8_quote h.1) (.cons (by decide)
        (.append (isUtf8_print j h.2.1) (.cons (by decide) (isUtf8_printMembers (m :: ms) h.2.2))))
    · exact List.cons_ne_nil _ _

end

/-! ### Parsers that insist on Unicode -/

instance (bytes : List UInt8) : Decidable (IsUtf8 bytes) :=
  decidable_of_iff _ isUtf8_iff_validateUTF8.symm

mutual

def decidableUtf8 : (j : Json) → Decidable j.Utf8
  | null | bool _ | int _ | float _ => .isTrue trivial
  | str s => inferInstanceAs (Decidable (IsUtf8 s))
  | arr js => decidableUtf8Elements js
  | obj ms => decidableUtf8Members ms

def decidableUtf8Elements : (js : List Json) → Decidable (Utf8Elements js)
  | [] => .isTrue trivial
  | j :: js => @instDecidableAnd _ _ (decidableUtf8 j) (decidableUtf8Elements js)

def decidableUtf8Members : (ms : List (List UInt8 × Json)) → Decidable (Utf8Members ms)
  | [] => .isTrue trivial
  | (_, j) :: ms => @instDecidableAnd _ _ _
    (@instDecidableAnd _ _ (decidableUtf8 j) (decidableUtf8Members ms))

end

instance (j : Json) : Decidable j.Utf8 := decidableUtf8 j

/-- A parser that is strict on some texts: of these it reads the `readable` values as `parse` does,
and refuses those with an unpaired surrogate. -/
structure Strict (written : List UInt8 → Prop) (readable : Json → Prop)
    (decode : List UInt8 → Option Json) : Prop where
  reads : ∀ {text j}, written text → parse text = some j → readable j → decode text = some j
  refuses : ∀ {text j}, written text → parse text = some j → ¬ j.Utf8 → decode text = none

/-- The strictest parser that reads everything else. -/
def parseStrict (text : List UInt8) : Option Json := (parse text).filter fun j => j.Utf8

/-- The parser that checks the strings of what it has read is strict. -/
theorem strict_parseStrict {written : List UInt8 → Prop} {readable : Json → Prop}
    (h : ∀ j, readable j → j.Utf8) : Strict written readable parseStrict where
  reads _ hparse hreadable := by
    rw [parseStrict, hparse]
    exact Option.filter_eq_some_iff.mpr ⟨rfl, decide_eq_true (h _ hreadable)⟩
  refuses _ hparse hnot := by
    rw [parseStrict, hparse, Option.filter_some, if_neg (by rw [decide_eq_true_eq]; exact hnot)]

end Json

end Codec
