import Mathlib.Data.List.Basic
import Mathlib.Data.Int.Notation
import Mathlib.Data.Nat.Notation
import Mathlib.Tactic.Common

/-!
# JSON texts over bytes

The data model of JSON, the compact printer of the usual libraries and a strict parser of the
whole grammar: white space, escapes with surrogate pairs, integers apart from numbers with a
fraction or an exponent. Strings are byte strings. The parser reads raw bytes as they are and
an escaped unpaired surrogate as its three generalized UTF-8 bytes, so a parser that insists on
Unicode accepts a part of what this one accepts and reads it the same way.

* `Json.parse_print`: parsing inverts printing.
* `Json.length_le_of_parse_str`: a text of a string is two bytes longer than the string.

Objects are lists of members, in the order of the text and with every repetition; what a reader
takes of a key that comes twice is the reader's decision (`Json.get` takes the last, as a map does).
A number with a fraction or an exponent is kept as its literal: nothing here computes with it, and
the text is what has to survive.

The parser runs on fuel, one for each level and each element, and `parse` gives it one more than the
length of the input, which no text uses up. That it inverts the printer is by induction on the
value, for any fuel from the length of the text on and for any bytes that follow it and do not go on
with a number (`Delimited`); `Writes` is this statement for one text and one value.
-/

namespace Codec

/-! ### Numbers -/

/-- `0`..`9`. -/
def isDigit (c : UInt8) : Bool := 0x30 ≤ c && c ≤ 0x39

/-- A byte that can stand in a number: a digit or one of `+-.Ee`. -/
def isNumberByte (c : UInt8) : Bool :=
  isDigit c || c == 0x2b || c == 0x2d || c == 0x2e || c == 0x45 || c == 0x65

/-- The value of a numeral without leading zeros. -/
def natLiteral? (digits : List UInt8) : Option ℕ :=
  if digits.all isDigit && digits != [] && (digits.length == 1 || digits.head? != some 0x30) then
    some (Nat.ofDigitChars 10 (digits.map fun c => Char.ofNat c.toNat) 0)
  else none

/-- The value of an integer literal. -/
def intLiteral? : List UInt8 → Option ℤ
  | [] => none
  | c :: digits =>
    if c = 0x2d then (natLiteral? digits).map fun n : ℕ => -(n : ℤ)
    else (natLiteral? (c :: digits)).map fun n : ℕ => (n : ℤ)

/-- An exponent, or nothing. -/
def isExponent : List UInt8 → Bool
  | [] => true
  | c :: rest => (c == 0x65 || c == 0x45) && isDigits (dropSign rest)
where
  dropSign : List UInt8 → List UInt8
    | [] => []
    | c :: rest => if c == 0x2b || c == 0x2d then rest else c :: rest
  isDigits (digits : List UInt8) : Bool := digits.all isDigit && digits != []

/-- A fraction, an exponent or both. -/
def isFractionExponent : List UInt8 → Bool
  | [] => false
  | c :: rest =>
    if c == 0x2e then
      (rest.takeWhile isDigit) != [] && isExponent (rest.dropWhile isDigit)
    else isExponent (c :: rest)

/-- A number literal that is no integer literal. -/
def isFloatLiteral (literal : List UInt8) : Bool :=
  literal.all isNumberByte && (intLiteral? literal).isNone &&
    (natLiteral? (unsigned.takeWhile isDigit)).isSome &&
      isFractionExponent (unsigned.dropWhile isDigit)
where
  unsigned := match literal with
    | [] => []
    | c :: rest => if c = 0x2d then rest else c :: rest

/-- A number with a fraction or an exponent, kept as it was written. -/
structure FloatLiteral where
  bytes : List UInt8
  valid : isFloatLiteral bytes = true
  deriving DecidableEq

/-- A JSON value. An object keeps its members in order, and keys may repeat. -/
inductive Json
  | null
  | bool (b : Bool)
  | int (n : ℤ)
  | float (literal : FloatLiteral)
  | str (s : List UInt8)
  | arr (elements : List Json)
  | obj (members : List (List UInt8 × Json))

namespace Json

/-- The member of an object under a key; the last one counts. -/
def get (key : List UInt8) : Json → Option Json
  | obj members => members.reverse.lookup key
  | _ => none

/-! ### Printing -/

/-- The hexadecimal digit of `d < 16`. -/
def hexDigit (d : ℕ) : UInt8 := UInt8.ofNat (if d < 10 then 0x30 + d else 0x57 + d)

/-- `\uXXXX`. -/
def unicodeEscape (u : ℕ) : List UInt8 :=
  [0x5c, 0x75, hexDigit (u / 4096 % 16), hexDigit (u / 256 % 16), hexDigit (u / 16 % 16),
    hexDigit (u % 16)]

/-- The letter of a short escape. -/
def shortEscape? (c : UInt8) : Option UInt8 :=
  if c = 0x22 then some 0x22
  else if c = 0x5c then some 0x5c
  else if c = 0x08 then some 0x62
  else if c = 0x0c then some 0x66
  else if c = 0x0a then some 0x6e
  else if c = 0x0d then some 0x72
  else if c = 0x09 then some 0x74
  else none

/-- A byte of a string as it is printed. -/
def quoteByte (c : UInt8) : List UInt8 :=
  match shortEscape? c with
  | some e => [0x5c, e]
  | none => if c < 0x20 then unicodeEscape c.toNat else [c]

/-- A string literal. -/
def quote (s : List UInt8) : List UInt8 := 0x22 :: (s.flatMap quoteByte ++ [0x22])

/-- A numeral. -/
def natText (n : ℕ) : List UInt8 := (Nat.toDigits 10 n).map fun c => UInt8.ofNat c.toNat

/-- An integer literal. -/
def intText (n : ℤ) : List UInt8 :=
  if n < 0 then 0x2d :: natText n.natAbs else natText n.natAbs

mutual

/-- The compact text of a value. -/
def print : Json → List UInt8
  | null => [0x6e, 0x75, 0x6c, 0x6c]
  | bool true => [0x74, 0x72, 0x75, 0x65]
  | bool false => [0x66, 0x61, 0x6c, 0x73, 0x65]
  | int n => intText n
  | float literal => literal.bytes
  | str s => quote s
  | arr js => 0x5b :: printElements js
  | obj ms => 0x7b :: printMembers ms

/-- The elements of an array and its closing bracket. -/
def printElements : List Json → List UInt8
  | [] => [0x5d]
  | [j] => print j ++ [0x5d]
  | j :: js => print j ++ 0x2c :: printElements js

/-- The members of an object and its closing brace. -/
def printMembers : List (List UInt8 × Json) → List UInt8
  | [] => [0x7d]
  | [(key, j)] => quote key ++ 0x3a :: (print j ++ [0x7d])
  | (key, j) :: ms => quote key ++ 0x3a :: (print j ++ 0x2c :: printMembers ms)

end

/-! ### Parsing -/

/-- White space. -/
def isSpace (c : UInt8) : Bool := c == 0x20 || c == 0x09 || c == 0x0a || c == 0x0d

def skipSpace (input : List UInt8) : List UInt8 := input.dropWhile isSpace

/-- The value of a hexadecimal digit. -/
def hexValue (c : UInt8) : Option ℕ :=
  if 0x30 ≤ c ∧ c ≤ 0x39 then some (c.toNat - 0x30)
  else if 0x61 ≤ c ∧ c ≤ 0x66 then some (c.toNat - 0x57)
  else if 0x41 ≤ c ∧ c ≤ 0x46 then some (c.toNat - 0x37)
  else none

/-- Four hexadecimal digits. -/
def hex4 : List UInt8 → Option (ℕ × List UInt8)
  | a :: b :: c :: d :: rest => do
    let a ← hexValue a
    let b ← hexValue b
    let c ← hexValue c
    let d ← hexValue d
    return (((a * 16 + b) * 16 + c) * 16 + d, rest)
  | _ => none

/-- The generalized UTF-8 bytes of a code point. -/
def encodePoint (n : ℕ) : List UInt8 :=
  if n < 0x80 then [UInt8.ofNat n]
  else if n < 0x800 then [UInt8.ofNat (0xc0 + n / 64), UInt8.ofNat (0x80 + n % 64)]
  else if n < 0x10000 then
    [UInt8.ofNat (0xe0 + n / 4096), UInt8.ofNat (0x80 + n / 64 % 64), UInt8.ofNat (0x80 + n % 64)]
  else
    [UInt8.ofNat (0xf0 + n / 262144), UInt8.ofNat (0x80 + n / 4096 % 64),
      UInt8.ofNat (0x80 + n / 64 % 64), UInt8.ofNat (0x80 + n % 64)]

def isHighSurrogate (u : ℕ) : Bool := 0xd800 ≤ u && u < 0xdc00

def isLowSurrogate (u : ℕ) : Bool := 0xdc00 ≤ u && u < 0xe000

/-- The low surrogate of a pair, if an escape of one comes next. -/
def lowSurrogate? : List UInt8 → Option (ℕ × List UInt8)
  | a :: b :: rest =>
    if a = 0x5c ∧ b = 0x75 then (hex4 rest).filter fun p => isLowSurrogate p.1 else none
  | _ => none

/-- What follows `\u`. -/
def unicode (input : List UInt8) : Option (List UInt8 × List UInt8) :=
  match hex4 input with
  | none => none
  | some (u, rest) =>
    if isHighSurrogate u then
      match lowSurrogate? rest with
      | some (v, rest') =>
        some (encodePoint (0x10000 + (u - 0xd800) * 1024 + (v - 0xdc00)), rest')
      | none => some (encodePoint u, rest)
    else some (encodePoint u, rest)

/-- What follows a backslash: the bytes it stands for. -/
def escape : List UInt8 → Option (List UInt8 × List UInt8)
  | [] => none
  | c :: rest =>
    if c = 0x75 then unicode rest
    else if c = 0x22 ∨ c = 0x5c ∨ c = 0x2f then some ([c], rest)
    else if c = 0x62 then some ([0x08], rest)
    else if c = 0x66 then some ([0x0c], rest)
    else if c = 0x6e then some ([0x0a], rest)
    else if c = 0x72 then some ([0x0d], rest)
    else if c = 0x74 then some ([0x09], rest)
    else none

/-- A string after its opening quote. -/
def stringBody : ℕ → List UInt8 → Option (List UInt8 × List UInt8)
  | 0, _ => none
  | _ + 1, [] => none
  | fuel + 1, c :: rest =>
    if c = 0x22 then some ([], rest)
    else if c = 0x5c then do
      let (bytes, rest) ← escape rest
      let (s, rest) ← stringBody fuel rest
      return (bytes ++ s, rest)
    else if c < 0x20 then none
    else do
      let (s, rest) ← stringBody fuel rest
      return (c :: s, rest)

def string (input : List UInt8) : Option (List UInt8 × List UInt8) :=
  stringBody (input.length + 1) input

/-- A number: the longest run of number bytes, if that is a literal. -/
def number (input : List UInt8) : Option (Json × List UInt8) :=
  let literal := input.takeWhile isNumberByte
  match intLiteral? literal with
  | some n => some (int n, input.dropWhile isNumberByte)
  | none =>
    if h : isFloatLiteral literal = true then
      some (float ⟨literal, h⟩, input.dropWhile isNumberByte)
    else none

/-- A word such as `null`. -/
def word (text : List UInt8) (j : Json) (input : List UInt8) : Option (Json × List UInt8) :=
  if text.isPrefixOf input then some (j, input.drop text.length) else none

/-- The key of a member and its colon. -/
def memberKey : List UInt8 → Option (List UInt8 × List UInt8)
  | [] => none
  | c :: rest =>
    if c = 0x22 then
      match string rest with
      | none => none
      | some (key, rest) =>
        match skipSpace rest with
        | [] => none
        | c :: rest => if c = 0x3a then some (key, rest) else none
    else none

mutual

/-- A value, white space before it included. -/
def value : ℕ → List UInt8 → Option (Json × List UInt8)
  | 0, _ => none
  | fuel + 1, input =>
    match skipSpace input with
    | [] => none
    | c :: rest =>
      if c = 0x22 then (string rest).map fun p => (str p.1, p.2)
      else if c = 0x5b then
        match skipSpace rest with
        | [] => none
        | c :: rest =>
          if c = 0x5d then some (arr [], rest)
          else (elements fuel (c :: rest)).map fun p => (arr p.1, p.2)
      else if c = 0x7b then
        match skipSpace rest with
        | [] => none
        | c :: rest =>
          if c = 0x7d then some (obj [], rest)
          else (members fuel (c :: rest)).map fun p => (obj p.1, p.2)
      else if c = 0x6e then word [0x6e, 0x75, 0x6c, 0x6c] null (c :: rest)
      else if c = 0x74 then word [0x74, 0x72, 0x75, 0x65] (bool true) (c :: rest)
      else if c = 0x66 then word [0x66, 0x61, 0x6c, 0x73, 0x65] (bool false) (c :: rest)
      else number (c :: rest)

/-- The elements of an array and its closing bracket. -/
def elements : ℕ → List UInt8 → Option (List Json × List UInt8)
  | 0, _ => none
  | fuel + 1, input =>
    match value fuel input with
    | none => none
    | some (j, rest) =>
      match skipSpace rest with
      | [] => none
      | c :: rest =>
        if c = 0x5d then some ([j], rest)
        else if c = 0x2c then (elements fuel rest).map fun p => (j :: p.1, p.2)
        else none

/-- The members of an object and its closing brace. -/
def members : ℕ → List UInt8 → Option (List (List UInt8 × Json) × List UInt8)
  | 0, _ => none
  | fuel + 1, input =>
    match memberKey (skipSpace input) with
    | none => none
    | some (key, rest) =>
      match value fuel rest with
      | none => none
      | some (j, rest) =>
        match skipSpace rest with
        | [] => none
        | c :: rest =>
          if c = 0x7d then some ([(key, j)], rest)
          else if c = 0x2c then (members fuel rest).map fun p => ((key, j) :: p.1, p.2)
          else none

end

/-- A whole text: one value with nothing but white space around it. -/
def parse (text : List UInt8) : Option Json :=
  match value (text.length + 1) text with
  | some (j, rest) => if skipSpace rest = [] then some j else none
  | none => none

/-! ### Strings -/

/-- A hexadecimal digit is read as its value. -/
theorem hexValue_hexDigit {d : ℕ} (h : d < 16) : hexValue (hexDigit d) = some d := by
  have hall : ∀ d < 16, hexValue (hexDigit d) = some d := by decide
  exact hall d h

/-- Four hexadecimal digits read as they were written. -/
theorem hex4_hexDigits {u : ℕ} (h : u < 65536) (rest : List UInt8) :
    hex4 (hexDigit (u / 4096 % 16) :: hexDigit (u / 256 % 16) :: hexDigit (u / 16 % 16) ::
      hexDigit (u % 16) :: rest) = some (u, rest) := by
  have hvalue : ((u / 4096 % 16 * 16 + u / 256 % 16) * 16 + u / 16 % 16) * 16 + u % 16 = u := by
    omega
  simp only [hex4, hexValue_hexDigit (Nat.mod_lt _ (by decide : 0 < 16)), Option.bind_eq_bind,
    Option.bind_some, pure, hvalue]

/-- An escape of a unit that is no surrogate stands for that unit. -/
theorem unicode_hexDigits {u : ℕ} (h : u < 65536) (hs : isHighSurrogate u = false)
    (rest : List UInt8) :
    unicode (hexDigit (u / 4096 % 16) :: hexDigit (u / 256 % 16) :: hexDigit (u / 16 % 16) ::
      hexDigit (u % 16) :: rest) = some (encodePoint u, rest) := by
  simp [unicode, hex4_hexDigits h, hs]

theorem escape_unicode (rest : List UInt8) : escape (0x75 :: rest) = unicode rest := rfl

/-- A short escape is read as the byte that it stands for. -/
theorem escape_shortEscape {c e : UInt8} (h : shortEscape? c = some e) (rest : List UInt8) :
    escape (e :: rest) = some ([c], rest) := by
  unfold shortEscape? at h
  split_ifs at h <;> cases h <;> subst_vars <;> rfl

/-- An escape in a string adds its bytes. -/
theorem stringBody_escape (fuel : ℕ) {rest rest' bytes : List UInt8}
    (h : escape rest = some (bytes, rest')) :
    stringBody (fuel + 1) (0x5c :: rest) =
      (stringBody fuel rest').map fun p => (bytes ++ p.1, p.2) := by
  have hstep : stringBody (fuel + 1) (0x5c :: rest) = (escape rest).bind fun p =>
      (stringBody fuel p.2).bind fun q => some (p.1 ++ q.1, q.2) := rfl
  rw [hstep, h, Option.bind_some]
  cases stringBody fuel rest' <;> rfl

/-- A printed byte is read as itself. -/
theorem stringBody_quoteByte (fuel : ℕ) (c : UInt8) (rest : List UInt8) :
    stringBody (fuel + 1) (quoteByte c ++ rest) =
      (stringBody fuel rest).map fun p => (c :: p.1, p.2) := by
  unfold quoteByte
  cases hshort : shortEscape? c with
  | some e => exact stringBody_escape fuel (escape_shortEscape hshort rest)
  | none =>
    have hne : c ≠ 0x22 ∧ c ≠ 0x5c := by
      unfold shortEscape? at hshort
      split_ifs at hshort
      exact ⟨by assumption, by assumption⟩
    by_cases hc : c < 0x20
    · have hlt : c.toNat < 0x20 := hc
      have hpoint : encodePoint c.toNat = [c] := by
        simp [encodePoint, show c.toNat < 0x80 by omega]
      have hhigh : isHighSurrogate c.toNat = false := by
        simp [isHighSurrogate]
        omega
      have hescape := unicode_hexDigits (by omega : c.toNat < 65536) hhigh rest
      rw [hpoint, ← escape_unicode] at hescape
      simp only [hc, if_true]
      exact stringBody_escape fuel hescape
    · simp only [hc, if_false, List.cons_append, List.nil_append, stringBody, hne.1, hne.2]
      cases stringBody fuel rest <;> rfl

theorem quoteByte_ne_nil (c : UInt8) : quoteByte c ≠ [] := by
  unfold quoteByte
  split
  · simp
  · split <;> simp [unicodeEscape]

/-- A byte takes at most six in a quoted string. -/
theorem length_quoteByte_le (c : UInt8) : (quoteByte c).length ≤ 6 := by
  unfold quoteByte
  split
  · simp
  · split <;> simp [unicodeEscape]

/-- A string literal is at least two bytes longer than the string. -/
theorem length_quote (s : List UInt8) : s.length + 2 ≤ (quote s).length := by
  have hbody : s.length ≤ (s.flatMap quoteByte).length := by
    induction s with
    | nil => simp
    | cons c s ih =>
      have hpos : 0 < (quoteByte c).length := List.length_pos_iff.mpr (quoteByte_ne_nil c)
      simp only [List.flatMap_cons, List.length_append, List.length_cons]
      omega
  simp only [quote, List.length_cons, List.length_append, List.length_nil]
  omega

/-- **String literals.** Reading the body of a printed string gives the string. -/
theorem stringBody_quote (s rest : List UInt8) {fuel : ℕ} (h : s.length < fuel) :
    stringBody fuel (s.flatMap quoteByte ++ 0x22 :: rest) = some (s, rest) := by
  induction s generalizing fuel with
  | nil =>
    obtain ⟨n, rfl⟩ := Nat.exists_eq_add_one.mpr (Nat.zero_lt_of_lt h)
    rfl
  | cons c s ih =>
    obtain ⟨n, rfl⟩ := Nat.exists_eq_add_one.mpr (Nat.zero_lt_of_lt h)
    have hn : s.length < n := by simpa using h
    rw [List.flatMap_cons, List.append_assoc, stringBody_quoteByte, ih hn]
    rfl

/-- A quoted string is read back, whatever follows it. -/
theorem string_quote (s rest : List UInt8) :
    string (s.flatMap quoteByte ++ 0x22 :: rest) = some (s, rest) := by
  refine stringBody_quote s rest ?_
  have hlen := length_quote s
  simp only [quote, List.length_cons, List.length_append, List.length_nil] at hlen ⊢
  omega

/-! ### Numbers -/

/-- The text after a value does not continue a number. -/
def Delimited (rest : List UInt8) : Prop := ∀ c ∈ rest.head?, isNumberByte c = false

/-- The bytes of a number end where something follows that is no byte of a number. -/
theorem takeWhile_number {literal rest : List UInt8} (h : literal.all isNumberByte = true)
    (hrest : Delimited rest) :
    (literal ++ rest).takeWhile isNumberByte = literal ∧
      (literal ++ rest).dropWhile isNumberByte = rest := by
  have hall : ∀ c ∈ literal, isNumberByte c = true := List.all_eq_true.mp h
  rw [List.takeWhile_append_of_pos hall, List.dropWhile_append_of_pos hall]
  cases rest with
  | nil => simp
  | cons c rest =>
    have hc : isNumberByte c = false := hrest c (by simp)
    simp [hc]

/-- A decimal digit is a byte of its own. -/
theorem isDigit_toDigits {n : ℕ} {c : Char} (h : c ∈ Nat.toDigits 10 n) :
    isDigit (UInt8.ofNat c.toNat) = true ∧ Char.ofNat (UInt8.ofNat c.toNat).toNat = c := by
  have hdigit : c.isDigit = true := Nat.isDigit_of_mem_toDigits (by decide) (by decide) h
  simp only [Char.isDigit, Bool.and_eq_true, decide_eq_true_eq] at hdigit
  have hlow : 48 ≤ c.toNat := hdigit.1
  have hhigh : c.toNat ≤ 57 := hdigit.2
  have hnat : (UInt8.ofNat c.toNat).toNat = c.toNat := by
    simp
    omega
  refine ⟨?_, ?_⟩
  · simp only [isDigit, Bool.and_eq_true, decide_eq_true_eq, UInt8.le_iff_toNat_le, hnat]
    exact ⟨hlow, hhigh⟩
  · rw [hnat]
    exact Char.ofNat_toNat c

/-- The text of a natural number has only digits. -/
theorem all_isDigit_natText (n : ℕ) : (natText n).all isDigit = true := by
  simp only [natText, List.all_map, List.all_eq_true]
  exact fun c hc => (isDigit_toDigits hc).1

/-- A numeral has no leading zero. -/
theorem head_toDigits {n : ℕ} (h : 0 < n) : (Nat.toDigits 10 n).head? ≠ some '0' := by
  induction n using Nat.strongRecOn with
  | _ n ih =>
    by_cases hn : n < 10
    · rw [Nat.toDigits_of_lt_base hn]
      have hall : ∀ n < 10, 0 < n → [n.digitChar].head? ≠ some '0' := by decide
      exact hall n hn h
    · rw [Nat.toDigits_of_base_le (by decide) (by omega)]
      have hne : Nat.toDigits 10 (n / 10) ≠ [] := Nat.toDigits_ne_nil
      rw [List.head?_append_of_ne_nil _ hne]
      exact ih (n / 10) (by omega) (by omega)

/-- The text of a natural number is read back. -/
theorem natLiteral_natText (n : ℕ) : natLiteral? (natText n) = some n := by
  have hvalue : Nat.ofDigitChars 10 ((natText n).map fun c => Char.ofNat c.toNat) 0 = n := by
    have hmap : (natText n).map (fun c => Char.ofNat c.toNat) = Nat.toDigits 10 n := by
      rw [natText, List.map_map]
      exact (List.map_congr_left fun c hc => (isDigit_toDigits hc).2).trans (List.map_id _)
    rw [hmap, Nat.ofDigitChars_ten_toDigits]
  have hne : natText n ≠ [] := by simp [natText, Nat.toDigits_ne_nil]
  have hlead : (natText n).length == 1 || (natText n).head? != some 0x30 := by
    rcases Nat.eq_zero_or_pos n with rfl | hpos
    · decide
    · simp only [Bool.or_eq_true, bne_iff_ne]
      refine .inr fun hhead => head_toDigits hpos ?_
      rw [natText, List.head?_map, Option.map_eq_some_iff] at hhead
      obtain ⟨c, hc, hzero⟩ := hhead
      have hchar := (isDigit_toDigits (List.mem_of_head? hc)).2
      rw [hzero] at hchar
      rw [hc, ← hchar]
      rfl
  simp only [natLiteral?, all_isDigit_natText, hlead, hvalue, Bool.true_and, Bool.and_true]
  simp [hne]

/-- The text of an integer is read back. -/
theorem intLiteral_intText (n : ℤ) : intLiteral? (intText n) = some n := by
  unfold intText
  split
  · simp only [intLiteral?, if_true, natLiteral_natText, Option.map_some, Option.some.injEq]
    omega
  · have hdigits := all_isDigit_natText n.natAbs
    have hvalue := natLiteral_natText n.natAbs
    cases htext : natText n.natAbs with
    | nil => exact absurd htext (by simp [natText, Nat.toDigits_ne_nil])
    | cons c digits =>
      rw [htext] at hdigits hvalue
      have hc : c ≠ 0x2d := by
        rintro rfl
        simp [isDigit] at hdigits
      simp only [intLiteral?, hc, if_false, hvalue, Option.map_some, Option.some.injEq]
      omega

theorem isNumberByte_of_isDigit {c : UInt8} (h : isDigit c = true) : isNumberByte c = true := by
  simp [isNumberByte, h]

/-- The text of an integer has only bytes of a number. -/
theorem all_isNumberByte_intText (n : ℤ) : (intText n).all isNumberByte = true := by
  have hnat : (natText n.natAbs).all isNumberByte = true := List.all_eq_true.mpr fun c hc =>
    isNumberByte_of_isDigit (List.all_eq_true.mp (all_isDigit_natText _) c hc)
  unfold intText
  split
  · rw [List.all_cons, hnat]
    decide
  · exact hnat

/-- An integer is read back from a longer text. -/
theorem number_intText (n : ℤ) {rest : List UInt8} (h : Delimited rest) :
    number (intText n ++ rest) = some (int n, rest) := by
  obtain ⟨htake, hdrop⟩ := takeWhile_number (all_isNumberByte_intText n) h
  simp only [number, htake, hdrop, intLiteral_intText]

/-- So is the literal of a number with a fraction or an exponent. -/
theorem number_float (literal : FloatLiteral) {rest : List UInt8} (h : Delimited rest) :
    number (literal.bytes ++ rest) = some (float literal, rest) := by
  have hvalid := literal.valid
  simp only [isFloatLiteral, Bool.and_eq_true] at hvalid
  obtain ⟨htake, hdrop⟩ := takeWhile_number hvalid.1.1.1 h
  have hint : intLiteral? literal.bytes = none := Option.isNone_iff_eq_none.mp hvalid.1.1.2
  simp only [number, htake, hdrop, hint, literal.valid, dif_pos]

/-! ### Values -/

theorem delimited_nil : Delimited [] := fun c hc => by cases hc

theorem delimited_cons {c : UInt8} (h : isNumberByte c = false) (rest : List UInt8) :
    Delimited (c :: rest) := fun d hd => by
  simp only [List.head?_cons, Option.mem_some_iff] at hd
  exact hd ▸ h

theorem skipSpace_cons {c : UInt8} (h : isSpace c = false) (rest : List UInt8) :
    skipSpace (c :: rest) = c :: rest := by
  simp [skipSpace, h]

/-- A byte that starts a value: neither white space nor a closing bracket. -/
def isStart (c : UInt8) : Bool := !isSpace c && c != 0x5d

theorem isStart_of_isNumberByte {c : UInt8} (h : isNumberByte c = true) : isStart c = true := by
  simp only [isNumberByte, isDigit, Bool.or_eq_true, Bool.and_eq_true, decide_eq_true_eq,
    beq_iff_eq] at h
  rcases h with ((((hd | rfl) | rfl) | rfl) | rfl) | rfl
  · have hlow : (0x30 : UInt8).toNat ≤ c.toNat := hd.1
    have hhigh : c.toNat ≤ (0x39 : UInt8).toNat := hd.2
    have hne : ∀ d : UInt8, d.toNat < 0x30 ∨ 0x39 < d.toNat → c ≠ d := by
      rintro d hd rfl
      rcases hd with hlt | hgt
      · exact absurd hlow (by simpa using hlt)
      · exact absurd hhigh (by simpa using hgt)
    simp [isStart, isSpace, hne 0x20 (by decide), hne 0x09 (by decide), hne 0x0a (by decide),
      hne 0x0d (by decide), hne 0x5d (by decide)]
  all_goals rfl

theorem print_float_ne_nil (literal : FloatLiteral) : literal.bytes ≠ [] := by
  intro h
  have hvalid := literal.valid
  rw [h] at hvalid
  exact absurd hvalid (by decide)

theorem intText_ne_nil (n : ℤ) : intText n ≠ [] := by
  unfold intText
  split <;> simp [natText, Nat.toDigits_ne_nil]

/-- A text that starts with a number byte is read as a number. -/
theorem value_number (fuel : ℕ) {c : UInt8} (h : isNumberByte c = true) (rest : List UInt8) :
    value (fuel + 1) (c :: rest) = number (c :: rest) := by
  have hstart := isStart_of_isNumberByte h
  simp only [isStart, Bool.and_eq_true, Bool.not_eq_true'] at hstart
  have hne : ∀ d : UInt8, isNumberByte d = false → c ≠ d := by
    rintro d hd rfl
    rw [h] at hd
    cases hd
  simp only [value, skipSpace_cons hstart.1, hne 0x22 (by decide), hne 0x5b (by decide),
    hne 0x7b (by decide), hne 0x6e (by decide), hne 0x74 (by decide), hne 0x66 (by decide),
    if_false]

/-! ### Texts of values

What a text is read as, whatever follows it: the rules by which texts are put together. -/

/-- A string literal of `s`. -/
def WritesString (text s : List UInt8) : Prop :=
  ∃ body, text = 0x22 :: body ∧ ∀ rest, string (body ++ rest) = some (s, rest)

/-- A text of the value `j`: it is read as `j`, given fuel for its length. -/
structure Writes (text : List UInt8) (j : Json) : Prop where
  start : ∃ c tail, text = c :: tail ∧ isStart c = true
  value : ∀ fuel rest, text.length ≤ fuel → Delimited rest →
    value fuel (text ++ rest) = some (j, rest)

/-- A text of the elements of an array, with its closing bracket. -/
structure WritesElements (text : List UInt8) (js : List Json) : Prop where
  start : ∃ c tail, text = c :: tail ∧ isStart c = true
  elements : ∀ fuel rest, text.length ≤ fuel → elements fuel (text ++ rest) = some (js, rest)

/-- A text of the members of an object, with its closing brace. -/
structure WritesMembers (text : List UInt8) (ms : List (List UInt8 × Json)) : Prop where
  start : ∃ tail, text = 0x22 :: tail
  members : ∀ fuel rest, text.length ≤ fuel → members fuel (text ++ rest) = some (ms, rest)

/-- **A text is parsed** as what it was written for. -/
theorem Writes.parse {text : List UInt8} {j : Json} (h : Writes text j) : parse text = some j := by
  have hread := h.value (text.length + 1) [] (Nat.le_succ _) delimited_nil
  rw [List.append_nil] at hread
  simp [Json.parse, hread, skipSpace]

theorem writes_null : Writes [0x6e, 0x75, 0x6c, 0x6c] null := by
  refine ⟨⟨_, _, rfl, rfl⟩, fun fuel rest hlen _ => ?_⟩
  obtain ⟨n, rfl⟩ := Nat.exists_eq_add_one.mpr (Nat.zero_lt_of_lt hlen)
  rfl

theorem writes_true : Writes [0x74, 0x72, 0x75, 0x65] (bool true) := by
  refine ⟨⟨_, _, rfl, rfl⟩, fun fuel rest hlen _ => ?_⟩
  obtain ⟨n, rfl⟩ := Nat.exists_eq_add_one.mpr (Nat.zero_lt_of_lt hlen)
  rfl

theorem writes_false : Writes [0x66, 0x61, 0x6c, 0x73, 0x65] (bool false) := by
  refine ⟨⟨_, _, rfl, rfl⟩, fun fuel rest hlen _ => ?_⟩
  obtain ⟨n, rfl⟩ := Nat.exists_eq_add_one.mpr (Nat.zero_lt_of_lt hlen)
  rfl

/-- A literal of a number. -/
theorem writes_literal {literal : List UInt8} {j : Json} (hne : literal ≠ [])
    (hall : literal.all isNumberByte = true)
    (hnumber : ∀ rest, Delimited rest → number (literal ++ rest) = some (j, rest)) :
    Writes literal j := by
  obtain ⟨c, tail, rfl⟩ := List.exists_cons_of_ne_nil hne
  have hc : isNumberByte c = true := by
    rw [List.all_cons, Bool.and_eq_true] at hall
    exact hall.1
  refine ⟨⟨c, tail, rfl, isStart_of_isNumberByte hc⟩, fun fuel rest hlen hrest => ?_⟩
  obtain ⟨n, rfl⟩ := Nat.exists_eq_add_one.mpr (Nat.zero_lt_of_lt hlen)
  rw [List.cons_append, value_number n hc]
  exact hnumber rest hrest

/-- An integer is written as its decimal text. -/
theorem writes_int (n : ℤ) : Writes (intText n) (int n) :=
  writes_literal (intText_ne_nil n) (all_isNumberByte_intText n) fun _ hrest =>
    number_intText n hrest

/-- A number that is kept as its literal is written as this literal. -/
theorem writes_float (literal : FloatLiteral) : Writes literal.bytes (float literal) := by
  have hvalid := literal.valid
  simp only [isFloatLiteral, Bool.and_eq_true] at hvalid
  exact writes_literal (print_float_ne_nil literal) hvalid.1.1.1 fun _ hrest =>
    number_float literal hrest

/-- A string is written with its quotation marks. -/
theorem writesString_quote (s : List UInt8) : WritesString (quote s) s := by
  refine ⟨_, rfl, fun rest => ?_⟩
  rw [List.append_assoc]
  exact string_quote s rest

/-- The literal of a string is a text of its value. -/
theorem WritesString.str {text s : List UInt8} (h : WritesString text s) :
    Writes text (str s) := by
  obtain ⟨body, rfl, hstring⟩ := h
  refine ⟨⟨0x22, body, rfl, rfl⟩, fun fuel rest hlen _ => ?_⟩
  obtain ⟨n, rfl⟩ := Nat.exists_eq_add_one.mpr (Nat.zero_lt_of_lt hlen)
  have hskip : skipSpace (0x22 :: (body ++ rest)) = 0x22 :: (body ++ rest) := skipSpace_cons rfl _
  simp only [List.cons_append, Json.value, hskip, if_true, hstring]
  rfl

/-- A key is read as a string, with the colon after it. -/
theorem WritesString.memberKey {text key : List UInt8} (h : WritesString text key)
    (rest : List UInt8) : memberKey (skipSpace (text ++ 0x3a :: rest)) = some (key, rest) := by
  obtain ⟨body, rfl, hstring⟩ := h
  have hskip : skipSpace (0x3a :: rest) = 0x3a :: rest := skipSpace_cons rfl rest
  rw [List.cons_append, skipSpace_cons rfl]
  simp only [Json.memberKey, if_true, hstring, hskip]

/-- The last element, with the closing bracket. -/
theorem WritesElements.single {text : List UInt8} {j : Json} (h : Writes text j) :
    WritesElements (text ++ [0x5d]) [j] := by
  obtain ⟨c, tail, htext, hstart⟩ := h.start
  refine ⟨⟨c, _, by rw [htext]; rfl, hstart⟩, fun fuel rest hlen => ?_⟩
  rw [List.length_append, List.length_singleton] at hlen
  obtain ⟨n, rfl⟩ := Nat.exists_eq_add_one.mpr (by omega : 0 < fuel)
  have hread := h.value n (0x5d :: rest) (by omega) (delimited_cons (by decide) rest)
  have hskip : skipSpace (0x5d :: rest) = 0x5d :: rest := skipSpace_cons rfl rest
  rw [List.append_assoc, List.singleton_append]
  simp only [Json.elements, hread, hskip, if_true]

/-- An element, a comma and the further elements. -/
theorem WritesElements.cons {text texts : List UInt8} {j : Json} {js : List Json}
    (h : Writes text j) (hrest : WritesElements texts js) :
    WritesElements (text ++ 0x2c :: texts) (j :: js) := by
  obtain ⟨c, tail, htext, hstart⟩ := h.start
  refine ⟨⟨c, _, by rw [htext]; rfl, hstart⟩, fun fuel rest hlen => ?_⟩
  rw [List.length_append, List.length_cons] at hlen
  obtain ⟨n, rfl⟩ := Nat.exists_eq_add_one.mpr (by omega : 0 < fuel)
  have hread := h.value n (0x2c :: (texts ++ rest)) (by omega) (delimited_cons (by decide) _)
  have hskip : skipSpace (0x2c :: (texts ++ rest)) = 0x2c :: (texts ++ rest) := skipSpace_cons rfl _
  have htail := hrest.elements n rest (by omega)
  rw [List.append_assoc, List.cons_append]
  simp only [Json.elements, hread, hskip, htail]
  rfl

theorem writes_array_nil : Writes [0x5b, 0x5d] (arr []) := by
  refine ⟨⟨_, _, rfl, rfl⟩, fun fuel rest hlen _ => ?_⟩
  obtain ⟨n, rfl⟩ := Nat.exists_eq_add_one.mpr (Nat.zero_lt_of_lt hlen)
  rfl

/-- An array with its opening bracket. -/
theorem WritesElements.array {text : List UInt8} {js : List Json} (h : WritesElements text js) :
    Writes (0x5b :: text) (arr js) := by
  refine ⟨⟨_, _, rfl, rfl⟩, fun fuel rest hlen _ => ?_⟩
  obtain ⟨n, rfl⟩ := Nat.exists_eq_add_one.mpr (Nat.zero_lt_of_lt hlen)
  have hread := h.elements n rest (by simpa using hlen)
  obtain ⟨c, tail, rfl, hstart⟩ := h.start
  simp only [isStart, Bool.and_eq_true, Bool.not_eq_true', bne_iff_ne] at hstart
  rw [List.cons_append] at hread
  have hskip : skipSpace (0x5b :: c :: (tail ++ rest)) = 0x5b :: c :: (tail ++ rest) :=
    skipSpace_cons rfl _
  simp only [List.cons_append, Json.value, hskip, skipSpace_cons hstart.1, hstart.2, if_false,
    hread]
  rfl

/-- The last member, with the closing brace. -/
theorem WritesMembers.single {name text key : List UInt8} {j : Json}
    (hkey : WritesString name key) (h : Writes text j) :
    WritesMembers (name ++ 0x3a :: (text ++ [0x7d])) [(key, j)] := by
  obtain ⟨body, hname, -⟩ := id hkey
  refine ⟨⟨_, by rw [hname]; rfl⟩, fun fuel rest hlen => ?_⟩
  simp only [List.length_append, List.length_cons, List.length_nil] at hlen
  obtain ⟨n, rfl⟩ := Nat.exists_eq_add_one.mpr (by omega : 0 < fuel)
  have hread := h.value n (0x7d :: rest) (by omega) (delimited_cons (by decide) rest)
  have hskip : skipSpace (0x7d :: rest) = 0x7d :: rest := skipSpace_cons rfl rest
  rw [List.append_assoc, List.cons_append, List.append_assoc, List.singleton_append]
  simp only [Json.members, hkey.memberKey, hread, hskip, if_true]

/-- A member, a comma and the further members. -/
theorem WritesMembers.cons {name text texts key : List UInt8} {j : Json}
    {ms : List (List UInt8 × Json)} (hkey : WritesString name key) (h : Writes text j)
    (hrest : WritesMembers texts ms) :
    WritesMembers (name ++ 0x3a :: (text ++ 0x2c :: texts)) ((key, j) :: ms) := by
  obtain ⟨body, hname, -⟩ := id hkey
  refine ⟨⟨_, by rw [hname]; rfl⟩, fun fuel rest hlen => ?_⟩
  simp only [List.length_append, List.length_cons] at hlen
  obtain ⟨n, rfl⟩ := Nat.exists_eq_add_one.mpr (by omega : 0 < fuel)
  have hread := h.value n (0x2c :: (texts ++ rest)) (by omega) (delimited_cons (by decide) _)
  have hskip : skipSpace (0x2c :: (texts ++ rest)) = 0x2c :: (texts ++ rest) := skipSpace_cons rfl _
  have htail := hrest.members n rest (by omega)
  rw [List.append_assoc, List.cons_append, List.append_assoc, List.cons_append]
  simp only [Json.members, hkey.memberKey, hread, hskip, htail]
  rfl

theorem writes_object_nil : Writes [0x7b, 0x7d] (obj []) := by
  refine ⟨⟨_, _, rfl, rfl⟩, fun fuel rest hlen _ => ?_⟩
  obtain ⟨n, rfl⟩ := Nat.exists_eq_add_one.mpr (Nat.zero_lt_of_lt hlen)
  rfl

/-- An object with its opening brace. -/
theorem WritesMembers.object {text : List UInt8} {ms : List (List UInt8 × Json)}
    (h : WritesMembers text ms) : Writes (0x7b :: text) (obj ms) := by
  refine ⟨⟨_, _, rfl, rfl⟩, fun fuel rest hlen _ => ?_⟩
  obtain ⟨n, rfl⟩ := Nat.exists_eq_add_one.mpr (Nat.zero_lt_of_lt hlen)
  have hread := h.members n rest (by simpa using hlen)
  obtain ⟨tail, rfl⟩ := h.start
  rw [List.cons_append] at hread
  have hskip : skipSpace (0x7b :: 0x22 :: (tail ++ rest)) = 0x7b :: 0x22 :: (tail ++ rest) :=
    skipSpace_cons rfl _
  have hskip' : skipSpace (0x22 :: (tail ++ rest)) = 0x22 :: (tail ++ rest) := skipSpace_cons rfl _
  simp only [List.cons_append, Json.value, hskip, hskip', hread]
  rfl

/-! ### The printer -/

mutual

/-- **The parser reads what the printer wrote.** -/
theorem writes_print : ∀ j : Json, Writes (print j) j
  | null => by rw [print]; exact writes_null
  | bool true => by rw [print]; exact writes_true
  | bool false => by rw [print]; exact writes_false
  | int n => by rw [print]; exact writes_int n
  | float literal => by rw [print]; exact writes_float literal
  | str s => by rw [print]; exact (writesString_quote s).str
  | arr [] => by rw [print, printElements]; exact writes_array_nil
  | arr (j :: js) => by
    rw [print]
    exact (writes_printElements (j :: js) (List.cons_ne_nil _ _)).array
  | obj [] => by rw [print, printMembers]; exact writes_object_nil
  | obj (m :: ms) => by
    rw [print]
    exact (writes_printMembers (m :: ms) (List.cons_ne_nil _ _)).object

/-- The elements of an array are printed as a text of them. -/
theorem writes_printElements : ∀ js : List Json, js ≠ [] → WritesElements (printElements js) js
  | [], h => absurd rfl h
  | [j], _ => by rw [printElements]; exact .single (writes_print j)
  | j :: k :: js, _ => by
    rw [printElements]
    · exact .cons (writes_print j) (writes_printElements (k :: js) (List.cons_ne_nil _ _))
    · exact List.cons_ne_nil _ _

/-- The members of an object are printed as a text of them. -/
theorem writes_printMembers : ∀ ms : List (List UInt8 × Json), ms ≠ [] →
    WritesMembers (printMembers ms) ms
  | [], h => absurd rfl h
  | [(key, j)], _ => by rw [printMembers]; exact .single (writesString_quote key) (writes_print j)
  | (key, j) :: m :: ms, _ => by
    rw [printMembers]
    · exact .cons (writesString_quote key) (writes_print j)
        (writes_printMembers (m :: ms) (List.cons_ne_nil _ _))
    · exact List.cons_ne_nil _ _

end

/-- **Round trip.** Parsing the printed text of a value gives the value. -/
theorem parse_print (j : Json) : parse (print j) = some j := (writes_print j).parse

/-! ### Lengths -/

theorem length_encodePoint_le (n : ℕ) : (encodePoint n).length ≤ 4 := by
  unfold encodePoint
  split_ifs <;> simp

theorem length_encodePoint_le_three {n : ℕ} (h : n < 0x10000) : (encodePoint n).length ≤ 3 := by
  unfold encodePoint
  split_ifs <;> simp

/-- Four hexadecimal digits are read as a number of 16 bits. -/
theorem length_of_hex4 {input rest : List UInt8} {u : ℕ} (h : hex4 input = some (u, rest)) :
    rest.length + 4 = input.length ∧ u < 0x10000 := by
  match input with
  | a :: b :: c :: d :: tail =>
    have hlt : ∀ {x v}, hexValue x = some v → v < 16 := by
      intro x v hv
      unfold hexValue at hv
      split_ifs at hv with h1 h2 h3 <;> cases hv
      · have := UInt8.le_iff_toNat_le.mp h1.2
        simp at this
        omega
      · have := UInt8.le_iff_toNat_le.mp h2.2
        simp at this
        omega
      · have := UInt8.le_iff_toNat_le.mp h3.2
        simp at this
        omega
    simp only [hex4, Option.bind_eq_bind, Option.bind_eq_some_iff, pure, Option.some.injEq,
      Prod.mk.injEq] at h
    obtain ⟨a', ha, b', hb, c', hc, d', hd, rfl, rfl⟩ := h
    have := hlt ha
    have := hlt hb
    have := hlt hc
    have := hlt hd
    exact ⟨by simp, by omega⟩
  | [] | [_] | [_, _] | [_, _, _] => cases h

/-- An escape by number is longer than the bytes that it stands for. -/
theorem length_of_unicode {input rest bytes : List UInt8}
    (h : unicode input = some (bytes, rest)) : bytes.length + rest.length < input.length := by
  unfold unicode at h
  cases hhex : hex4 input with
  | none => simp [hhex] at h
  | some p =>
    obtain ⟨u, tail⟩ := p
    obtain ⟨hlen, hu⟩ := length_of_hex4 hhex
    have hunit := length_encodePoint_le_three hu
    simp only [hhex] at h
    split_ifs at h
    · cases hlow : lowSurrogate? tail with
      | none =>
        rw [hlow] at h
        cases h
        omega
      | some q =>
        obtain ⟨v, rest'⟩ := q
        rw [hlow] at h
        simp only [Option.some.injEq, Prod.mk.injEq] at h
        obtain ⟨rfl, rfl⟩ := h
        have hpair := length_encodePoint_le (0x10000 + (u - 0xd800) * 1024 + (v - 0xdc00))
        match tail with
        | a :: b :: more =>
          simp only [lowSurrogate?] at hlow
          split_ifs at hlow
          have hfour := (length_of_hex4 (Option.filter_eq_some_iff.mp hlow).1).1
          simp only [List.length_cons] at hlen
          generalize (encodePoint _).length = k at hpair ⊢
          omega
        | [] | [_] => cases hlow
    · cases h
      omega

/-- No escape is shorter than the bytes that it stands for. -/
theorem length_of_escape {input rest bytes : List UInt8}
    (h : escape input = some (bytes, rest)) : bytes.length + rest.length ≤ input.length := by
  cases input with
  | nil => cases h
  | cons c tail =>
    simp only [escape] at h
    split_ifs at h
    · have hlen := length_of_unicode h
      simp only [List.length_cons]
      omega
    all_goals
      cases h
      simp only [List.length_cons, List.length_nil]
      omega

/-- No string is longer than its literal. -/
theorem length_of_stringBody {fuel : ℕ} {input rest s : List UInt8}
    (h : stringBody fuel input = some (s, rest)) : s.length + rest.length + 1 ≤ input.length := by
  induction fuel generalizing input s with
  | zero => cases h
  | succ fuel ih =>
    cases input with
    | nil => cases h
    | cons c tail =>
      unfold stringBody at h
      split_ifs at h
      · cases h
        simp
      · simp only [Option.bind_eq_bind, Option.bind_eq_some_iff, pure, Option.some.injEq,
          Prod.mk.injEq] at h
        obtain ⟨⟨bytes, rest₁⟩, hescape, ⟨s', rest₂⟩, hbody, rfl, rfl⟩ := h
        have hlen := length_of_escape hescape
        have hrest := ih hbody
        simp only [List.length_append, List.length_cons] at hlen hrest ⊢
        omega
      · simp only [Option.bind_eq_bind, Option.bind_eq_some_iff, pure, Option.some.injEq,
          Prod.mk.injEq] at h
        obtain ⟨⟨s', rest₁⟩, hbody, rfl, rfl⟩ := h
        have hrest := ih hbody
        simp only [List.length_cons] at hrest ⊢
        omega

/-- A value that is a string was written as a string literal. -/
theorem string_of_value {fuel : ℕ} {input rest s : List UInt8}
    (h : value fuel input = some (str s, rest)) :
    ∃ tail, skipSpace input = 0x22 :: tail ∧ string tail = some (s, rest) := by
  cases fuel with
  | zero => cases h
  | succ fuel =>
    unfold value at h
    cases hskip : skipSpace input with
    | nil => simp [hskip] at h
    | cons c tail =>
      have hword : ∀ text j, (∀ s, j ≠ str s) → word text j (c :: tail) ≠ some (str s, rest) := by
        intro text j hj hw
        unfold word at hw
        split_ifs at hw
        cases hw
        exact hj s rfl
      simp only [hskip] at h
      split_ifs at h with h1 h2 h3 h4 h5 h6
      · rw [Option.map_eq_some_iff] at h
        obtain ⟨⟨s', rest'⟩, hstring, heq⟩ := h
        cases heq
        exact ⟨tail, by rw [h1], hstring⟩
      · exfalso
        split at h
        · cases h
        · split_ifs at h <;> simp at h
      · exfalso
        split at h
        · cases h
        · split_ifs at h <;> simp at h
      · exact absurd h (hword _ _ fun s hs => by cases hs)
      · exact absurd h (hword _ _ fun s hs => by cases hs)
      · exact absurd h (hword _ _ fun s hs => by cases hs)
      · exfalso
        simp only [number] at h
        split at h
        · simp at h
        · split_ifs at h
          simp at h

/-- **A text of a string is two bytes longer than the string.** -/
theorem length_le_of_parse_str {text s : List UInt8} (h : parse text = some (str s)) :
    s.length + 2 ≤ text.length := by
  unfold parse at h
  cases hvalue : value (text.length + 1) text with
  | none => simp [hvalue] at h
  | some p =>
    obtain ⟨j, rest⟩ := p
    simp only [hvalue] at h
    split_ifs at h
    cases h
    obtain ⟨tail, hskip, hstring⟩ := string_of_value hvalue
    have hbody := length_of_stringBody hstring
    have hle : (skipSpace text).length ≤ text.length := (List.dropWhile_suffix _).length_le
    rw [hskip, List.length_cons] at hle
    omega

end Json

end Codec
