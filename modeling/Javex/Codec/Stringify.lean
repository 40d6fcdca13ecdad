import Javex.Codec.Utf16

/-!
# The texts of JSON.stringify

`JSON.stringify` writes a string of code units so that its text has no unpaired surrogate: those
become escapes. The text can therefore be encoded as UTF-8 whatever the string is, and a parser that
takes escapes for surrogates reads the string back.

* `JsValue.writes_stringify`: the encoded text of a value reads as the value, surrogates included.
* `JsValue.utf8_toJson_iff`: what it reads as is Unicode exactly if the strings are well formed.
* `JsValue.encode_stringify`: for these it is the text of `Json.print`.
* `JsValue.decode_stringify`: a strict parser reads these, and no others.

A string is a list of code units, and a value with strings of this kind is a `JsValue`; the values
that parsers return are those of `Codec.Json`, whose strings are bytes. Between the two stands
`generalized`, by which a surrogate without a partner has three bytes of its own. With it the
statement that a text reads back as its value needs no condition on the strings, and the condition
comes in only where a parser insists on Unicode.

Reading a string back goes through the code points of the string one after the other. The one case
that is not local is an escaped high surrogate before an escaped low one, which the parser would
read as a pair; it does not occur, because two such code units in a row are one code point
(`codePoints_isChain`).
-/

namespace Codec

namespace Utf16

open Json

/-! ### Strings -/

/-- A code point in `QuoteJSONString`. -/
def quotePoint (c : ℕ) : List UInt16 :=
  if isSurrogate c then widen (unicodeEscape c)
  else if c < 0x80 then widen (quoteByte (UInt8.ofNat c))
  else encodeUnits c

/-- `QuoteJSONString`. -/
def quoteString (units : List UInt16) : List UInt16 :=
  0x22 :: ((codePoints units).flatMap quotePoint ++ [0x22])

/-- The bytes of `quotePoint`. -/
def quotePointBytes (c : ℕ) : List UInt8 :=
  if isSurrogate c then unicodeEscape c
  else if c < 0x80 then quoteByte (UInt8.ofNat c)
  else encodePoint c

theorem ofNat_lt {c : ℕ} (h : c < 0x80) : UInt8.ofNat c < 0x80 := by
  rw [UInt8.lt_iff_toNat_lt, UInt8.toNat_ofNat', Nat.mod_eq_of_lt (by omega)]
  exact h

/-- A code point is quoted without surrogates of its own. -/
theorem wellFormed_quotePoint {c : ℕ} (h : c < 0x110000) : WellFormed (quotePoint c) := by
  unfold quotePoint
  split_ifs with hsurrogate hascii
  · exact wellFormed_widen fun b => lt_of_mem_unicodeEscape
  · exact wellFormed_widen fun b => lt_of_mem_quoteByte (ofNat_lt hascii)
  · rw [WellFormed, codePoints_encodeUnits h]
    exact List.forall_mem_singleton.mpr (Bool.not_eq_true _ ▸ hsurrogate)

/-- The bytes of a quoted code point. -/
theorem encode_quotePoint {c : ℕ} (h : c < 0x110000) :
    encode (quotePoint c) = quotePointBytes c := by
  unfold quotePoint quotePointBytes
  split_ifs with hsurrogate hascii
  · exact encode_widen fun b => lt_of_mem_unicodeEscape
  · exact encode_widen fun b => lt_of_mem_quoteByte (ofNat_lt hascii)
  · rw [encode, codePoints_encodeUnits h, List.flatMap_singleton, if_neg hsurrogate]

/-- Quoted code points have no unpaired surrogate among them. -/
theorem wellFormed_flatMap_quotePoint {cs : List ℕ} (h : ∀ c ∈ cs, c < 0x110000) :
    WellFormed (cs.flatMap quotePoint) := by
  induction cs with
  | nil => nofun
  | cons c cs ih =>
    obtain ⟨hc, hrest⟩ := List.forall_mem_cons.mp h
    exact (wellFormed_append (wellFormed_quotePoint hc)).mpr (ih hrest)

/-- Quoted code points are encoded one after the other. -/
theorem encode_flatMap_quotePoint {cs : List ℕ} (h : ∀ c ∈ cs, c < 0x110000) :
    encode (cs.flatMap quotePoint) = cs.flatMap quotePointBytes := by
  induction cs with
  | nil => rfl
  | cons c cs ih =>
    obtain ⟨hc, hrest⟩ := List.forall_mem_cons.mp h
    rw [List.flatMap_cons, encode_append (wellFormed_quotePoint hc), encode_quotePoint hc, ih hrest,
      List.flatMap_cons]

/-- **A quoted string has no unpaired surrogates**, whatever the string. -/
theorem wellFormed_quoteString (units : List UInt16) : WellFormed (quoteString units) := by
  rw [quoteString, wellFormed_cons (by decide),
    wellFormed_append (wellFormed_flatMap_quotePoint (codePoints_lt units))]
  decide

/-- The bytes of a quoted string are those of its code points, between quotation marks. -/
theorem encode_quoteString (units : List UInt16) : encode (quoteString units) =
    0x22 :: ((codePoints units).flatMap quotePointBytes ++ [0x22]) := by
  rw [quoteString, encode_cons (by decide),
    encode_append (wellFormed_flatMap_quotePoint (codePoints_lt units)),
    encode_flatMap_quotePoint (codePoints_lt units)]
  rfl

/-- A quoted code point is at most six times as long. -/
theorem length_quotePointBytes_le (c : ℕ) :
    (quotePointBytes c).length ≤ 6 * (encodePoint c).length := by
  have hpos := List.length_pos_iff.mpr (encodePoint_ne_nil c)
  unfold quotePointBytes
  split_ifs
  · simp only [unicodeEscape, List.length_cons, List.length_nil]
    omega
  · have hbyte := Json.length_quoteByte_le (UInt8.ofNat c)
    omega
  · omega

/-- **A quoted string** is at most six times as long as the string, and its quotes. A surrogate
that is in no pair counts with its replacement character. -/
theorem length_encode_quoteString_le (units : List UInt16) :
    (encode (quoteString units)).length ≤ 6 * (encode units).length + 2 := by
  have hbody : ∀ cs : List ℕ,
      (cs.flatMap quotePointBytes).length ≤ 6 * (cs.flatMap encodePoint).length := by
    intro cs
    induction cs with
    | nil => exact Nat.zero_le _
    | cons c cs ih =>
      have hpoint := length_quotePointBytes_le c
      simp only [List.flatMap_cons, List.length_append]
      omega
  have hunits := hbody (codePoints units)
  rw [encode_quoteString, length_encode, generalized]
  simp only [List.length_cons, List.length_append, List.length_nil]
  omega

/-! ### Reading a string back -/

/-- The bytes of a code point that is no ASCII. -/
theorem le_of_mem_encodePoint {c : ℕ} (hc : 0x80 ≤ c) (h : c < 0x110000) {b : UInt8}
    (hb : b ∈ encodePoint c) : 0x80 ≤ b := by
  have hbyte : ∀ m n : ℕ, 0x80 ≤ m → m + n < 0x100 → 0x80 ≤ UInt8.ofNat (m + n) := by
    intro m n hm hlt
    rw [UInt8.le_iff_toNat_le, UInt8.toNat_ofNat', Nat.mod_eq_of_lt (by omega)]
    exact Nat.le_trans hm (Nat.le_add_right m n)
  unfold encodePoint at hb
  rw [if_neg (by omega)] at hb
  split_ifs at hb <;> simp only [List.mem_cons, List.not_mem_nil, or_false] at hb <;>
    rcases hb with rfl | rfl | rfl | rfl <;> exact hbyte _ _ (by omega) (by omega)

/-- Bytes of longer characters stand for themselves. -/
theorem stringBody_raw {bytes : List UInt8} (h : ∀ b ∈ bytes, 0x80 ≤ b) (fuel : ℕ)
    (rest : List UInt8) : stringBody (fuel + bytes.length) (bytes ++ rest) =
      (stringBody fuel rest).map fun p => (bytes ++ p.1, p.2) := by
  induction bytes with
  | nil => cases hbody : stringBody fuel rest <;> simp [hbody]
  | cons b bytes ih =>
    obtain ⟨hb, hbytes⟩ := List.forall_mem_cons.mp h
    have hstep := stringBody_quoteByte (fuel + bytes.length) b (bytes ++ rest)
    rw [quoteByte_of_le hb, List.singleton_append, ih hbytes, Option.map_map] at hstep
    exact hstep

/-- Only an escape can be read as a low surrogate. -/
theorem lowSurrogate?_of_ne {b : UInt8} (h : b ≠ 0x5c) (rest : List UInt8) :
    lowSurrogate? (b :: rest) = none := by
  cases rest with
  | nil => rfl
  | cons c rest => exact if_neg fun hboth => h hboth.1

/-- The escape of anything else is not read as one. -/
theorem lowSurrogate?_unicodeEscape {c : ℕ} (h : c < 0x10000) (hlow : isLowSurrogate c = false)
    (rest : List UInt8) : lowSurrogate? (unicodeEscape c ++ rest) = none := by
  have hhex := hex4_hexDigits h rest
  simp only [unicodeEscape, List.cons_append, List.nil_append, lowSurrogate?, and_self, if_true,
    hhex, Option.filter_some, hlow]
  rfl

/-- No escape of a low surrogate comes where there is none. -/
theorem lowSurrogate?_quotePointBytes {c : ℕ} (h : c < 0x110000) (hlow : isLowSurrogate c = false)
    (rest : List UInt8) : lowSurrogate? (quotePointBytes c ++ rest) = none := by
  unfold quotePointBytes
  split_ifs with hsurrogate hascii
  · have hlt := (isSurrogate_iff.mp hsurrogate).2
    exact lowSurrogate?_unicodeEscape (by omega) hlow rest
  · unfold quoteByte
    cases hshort : shortEscape? (UInt8.ofNat c) with
    | some e =>
      have he : e ≠ 0x75 := by
        unfold shortEscape? at hshort
        split_ifs at hshort <;> cases hshort <;> decide
      exact if_neg fun hboth => he hboth.2
    | none =>
      have hval : (UInt8.ofNat c).toNat = c := by
        rw [UInt8.toNat_ofNat', Nat.mod_eq_of_lt (by omega)]
      by_cases hcontrol : UInt8.ofNat c < 0x20
      · simp only [hcontrol, if_true, hval]
        exact lowSurrogate?_unicodeEscape (by omega) hlow rest
      · have hne : UInt8.ofNat c ≠ 0x5c := by
          intro heq
          rw [heq] at hshort
          cases hshort
        simp only [hcontrol, if_false]
        exact lowSurrogate?_of_ne hne rest
  · cases hbytes : encodePoint c with
    | nil => exact absurd hbytes (encodePoint_ne_nil c)
    | cons b bytes =>
      have hb : 0x80 ≤ b := le_of_mem_encodePoint (by omega) h (hbytes ▸ List.mem_cons_self)
      exact lowSurrogate?_of_ne (by rintro rfl; exact absurd hb (by decide)) _

/-- A code point is read as its bytes, unless it is the first one of a pair. -/
theorem stringBody_quotePointBytes {c : ℕ} (h : c < 0x110000) {rest : List UInt8}
    (hrest : isHighSurrogate c = true → lowSurrogate? rest = none) :
    ∃ steps, steps ≤ (quotePointBytes c).length ∧ ∀ fuel,
      stringBody (fuel + steps) (quotePointBytes c ++ rest) =
        (stringBody fuel rest).map fun p => (encodePoint c ++ p.1, p.2) := by
  unfold quotePointBytes
  split_ifs with hsurrogate hascii
  · have hlt := (isSurrogate_iff.mp hsurrogate).2
    have hescape : escape (0x75 :: hexDigit (c / 4096 % 16) :: hexDigit (c / 256 % 16) ::
        hexDigit (c / 16 % 16) :: hexDigit (c % 16) :: rest) = some (encodePoint c, rest) := by
      rw [escape_unicode, unicode, hex4_hexDigits (by omega)]
      by_cases hhigh : isHighSurrogate c = true
      · simp only [hhigh, if_true, hrest hhigh]
      · simp only [hhigh]
        rfl
    exact ⟨1, by simp [unicodeEscape], fun fuel => stringBody_escape fuel hescape⟩
  · have hbyte : encodePoint c = [UInt8.ofNat c] := if_pos hascii
    have hpos := List.length_pos_iff.mpr (quoteByte_ne_nil (UInt8.ofNat c))
    refine ⟨1, hpos, fun fuel => ?_⟩
    rw [hbyte, stringBody_quoteByte]
    rfl
  · exact ⟨_, Nat.le_refl _, fun fuel =>
      stringBody_raw (fun b => le_of_mem_encodePoint (by omega) h) fuel rest⟩

/-- Quoted code points are read back one after the other, if no two of them look like a pair. -/
theorem stringBody_flatMap {cs : List ℕ} (h : ∀ c ∈ cs, c < 0x110000)
    (hchain : cs.IsChain fun c d => ¬ (isHighSurrogate c = true ∧ isLowSurrogate d = true))
    (rest : List UInt8) {fuel : ℕ} (hfuel : (cs.flatMap quotePointBytes).length < fuel) :
    stringBody fuel (cs.flatMap quotePointBytes ++ 0x22 :: rest) =
      some (cs.flatMap encodePoint, rest) := by
  induction cs generalizing fuel with
  | nil =>
    obtain ⟨n, rfl⟩ := Nat.exists_eq_add_of_lt hfuel
    rfl
  | cons c cs ih =>
    obtain ⟨hc, hcs⟩ := List.forall_mem_cons.mp h
    have hnext : isHighSurrogate c = true →
        lowSurrogate? (cs.flatMap quotePointBytes ++ 0x22 :: rest) = none := by
      intro hhigh
      cases cs with
      | nil => exact lowSurrogate?_of_ne (by decide) rest
      | cons d cs =>
        have hlow : isLowSurrogate d = false :=
          Bool.not_eq_true _ ▸ fun hlow => (List.isChain_cons_cons.mp hchain).1 ⟨hhigh, hlow⟩
        rw [List.flatMap_cons, List.append_assoc]
        exact lowSurrogate?_quotePointBytes (hcs d List.mem_cons_self) hlow _
    obtain ⟨steps, hsteps, hread⟩ := stringBody_quotePointBytes hc hnext
    rw [List.flatMap_cons, List.length_append] at hfuel
    obtain ⟨n, rfl⟩ : ∃ n, fuel = n + steps := ⟨fuel - steps, by omega⟩
    rw [List.flatMap_cons, List.append_assoc, hread, ih hcs hchain.tail (by omega)]
    rfl

/-- **A quoted string reads back**, with its surrogates. -/
theorem writesString_quoteString (units : List UInt16) :
    WritesString (encode (quoteString units)) (generalized units) := by
  refine ⟨_, encode_quoteString units, fun rest => ?_⟩
  rw [List.append_assoc]
  refine stringBody_flatMap (codePoints_lt units) (codePoints_isChain units) rest ?_
  simp only [List.length_append]
  omega

/-- Without unpaired surrogates, quoting commutes with the encoding. -/
theorem encode_quoteString_of_wellFormed {units : List UInt16} (h : WellFormed units) :
    encode (quoteString units) = quote (generalized units) := by
  have hpoint : ∀ c ∈ codePoints units,
      quotePointBytes c = (encodePoint c).flatMap quoteByte := by
    intro c hc
    have hlt := codePoints_lt units c hc
    rw [quotePointBytes, h c hc, if_neg (by nofun)]
    split_ifs with hascii
    · rw [encodePoint, if_pos hascii, List.flatMap_singleton]
    · rw [List.flatMap_congr fun b hb =>
        quoteByte_of_le (le_of_mem_encodePoint (by omega) hlt hb), List.flatMap_singleton']
  rw [encode_quoteString, quote, generalized, List.flatMap_assoc, List.flatMap_congr hpoint]

end Utf16

/-! ### Values -/

/-- What `JSON.stringify` writes: a value of ECMAScript when the hooks of its objects have run. A
number is an integer, or a fraction that a double is written as. -/
inductive JsValue (double : FloatLiteral → Prop)
  | null
  | bool (b : Bool)
  | int (n : ℤ)
  | float (literal : FloatLiteral) (isDouble : double literal)
  | string (units : List UInt16)
  | array (elements : List (JsValue double))
  | object (members : List (List UInt16 × JsValue double))

namespace JsValue

open Utf16 Json

variable {double : FloatLiteral → Prop}

mutual

/-- `JSON.stringify`. -/
def stringify : JsValue double → List UInt16
  | null => widen [0x6e, 0x75, 0x6c, 0x6c]
  | bool true => widen [0x74, 0x72, 0x75, 0x65]
  | bool false => widen [0x66, 0x61, 0x6c, 0x73, 0x65]
  | int n => widen (intText n)
  | float literal _ => widen literal.bytes
  | string units => quoteString units
  | array vs => 0x5b :: stringifyElements vs
  | object ms => 0x7b :: stringifyMembers ms

/-- The elements of an array and its closing bracket. -/
def stringifyElements : List (JsValue double) → List UInt16
  | [] => [0x5d]
  | [v] => stringify v ++ [0x5d]
  | v :: vs => stringify v ++ 0x2c :: stringifyElements vs

/-- The members of an object and its closing brace. -/
def stringifyMembers : List (List UInt16 × JsValue double) → List UInt16
  | [] => [0x7d]
  | [(key, v)] => quoteString key ++ 0x3a :: (stringify v ++ [0x7d])
  | (key, v) :: ms => quoteString key ++ 0x3a :: (stringify v ++ 0x2c :: stringifyMembers ms)

end

mutual

/-- The value of JSON, with the surrogates in its strings. -/
def toJson : JsValue double → Json
  | null => .null
  | bool b => .bool b
  | int n => .int n
  | float literal _ => .float literal
  | string units => .str (generalized units)
  | array vs => .arr (toJsonElements vs)
  | object ms => .obj (toJsonMembers ms)

def toJsonElements : List (JsValue double) → List Json
  | [] => []
  | v :: vs => toJson v :: toJsonElements vs

def toJsonMembers : List (List UInt16 × JsValue double) → List (List UInt8 × Json)
  | [] => []
  | (key, v) :: ms => (generalized key, toJson v) :: toJsonMembers ms

end

mutual

/-- No string and no key has an unpaired surrogate. -/
def WellFormed : JsValue double → Prop
  | string units => Utf16.WellFormed units
  | array vs => WellFormedElements vs
  | object ms => WellFormedMembers ms
  | null | bool _ | int _ | float _ _ => True

def WellFormedElements : List (JsValue double) → Prop
  | [] => True
  | v :: vs => WellFormed v ∧ WellFormedElements vs

def WellFormedMembers : List (List UInt16 × JsValue double) → Prop
  | [] => True
  | (key, v) :: ms => Utf16.WellFormed key ∧ WellFormed v ∧ WellFormedMembers ms

end

mutual

/-- **A text has no unpaired surrogates**, whatever the strings of the value. -/
theorem wellFormed_stringify : ∀ v : JsValue double, Utf16.WellFormed (stringify v)
  | null => by rw [stringify]; decide
  | bool true => by rw [stringify]; decide
  | bool false => by rw [stringify]; decide
  | int n => by rw [stringify]; exact wellFormed_widen fun b => lt_of_mem_intText
  | float literal _ => by rw [stringify]; exact wellFormed_widen fun b => lt_of_mem_float
  | string units => by rw [stringify]; exact wellFormed_quoteString units
  | array vs => by
    rw [stringify, wellFormed_cons (by decide)]
    exact wellFormed_stringifyElements vs
  | object ms => by
    rw [stringify, wellFormed_cons (by decide)]
    exact wellFormed_stringifyMembers ms

/-- The same for the elements of an array. -/
theorem wellFormed_stringifyElements :
    ∀ vs : List (JsValue double), Utf16.WellFormed (stringifyElements vs)
  | [] => by rw [stringifyElements]; decide
  | [v] => by
    rw [stringifyElements, wellFormed_append (wellFormed_stringify v)]
    decide
  | v :: w :: vs => by
    rw [stringifyElements, wellFormed_append (wellFormed_stringify v), wellFormed_cons (by decide)]
    · exact wellFormed_stringifyElements (w :: vs)
    · exact List.cons_ne_nil _ _

/-- The same for the members of an object. -/
theorem wellFormed_stringifyMembers :
    ∀ ms : List (List UInt16 × JsValue double), Utf16.WellFormed (stringifyMembers ms)
  | [] => by rw [stringifyMembers]; decide
  | [(key, v)] => by
    rw [stringifyMembers, wellFormed_append (wellFormed_quoteString key),
      wellFormed_cons (by decide), wellFormed_append (wellFormed_stringify v)]
    decide
  | (key, v) :: m :: ms => by
    rw [stringifyMembers, wellFormed_append (wellFormed_quoteString key),
      wellFormed_cons (by decide), wellFormed_append (wellFormed_stringify v),
      wellFormed_cons (by decide)]
    · exact wellFormed_stringifyMembers (m :: ms)
    · exact List.cons_ne_nil _ _

end

/-! ### The bytes of a text -/

/-- The bytes of an array. -/
theorem encode_array (vs : List (JsValue double)) :
    encode (stringify (array vs)) = 0x5b :: encode (stringifyElements vs) := by
  rw [stringify, encode_cons (by decide)]
  rfl

/-- The bytes of an object. -/
theorem encode_object (ms : List (List UInt16 × JsValue double)) :
    encode (stringify (object ms)) = 0x7b :: encode (stringifyMembers ms) := by
  rw [stringify, encode_cons (by decide)]
  rfl

/-- The bytes of the last element. -/
theorem encode_element (v : JsValue double) :
    encode (stringifyElements [v]) = encode (stringify v) ++ [0x5d] := by
  rw [stringifyElements, encode_append (wellFormed_stringify v)]
  rfl

/-- The bytes of an element and those of the further ones. -/
theorem encode_elements (v w : JsValue double) (vs : List (JsValue double)) :
    encode (stringifyElements (v :: w :: vs)) =
      encode (stringify v) ++ 0x2c :: encode (stringifyElements (w :: vs)) := by
  rw [stringifyElements, encode_append (wellFormed_stringify v), encode_cons (by decide)]
  · rfl
  · exact List.cons_ne_nil _ _

/-- The bytes of the last member. -/
theorem encode_member (key : List UInt16) (v : JsValue double) :
    encode (stringifyMembers [(key, v)]) =
      encode (quoteString key) ++ 0x3a :: (encode (stringify v) ++ [0x7d]) := by
  rw [stringifyMembers, encode_append (wellFormed_quoteString key), encode_cons (by decide),
    encode_append (wellFormed_stringify v)]
  rfl

/-- The bytes of a member and those of the further ones. -/
theorem encode_members (key : List UInt16) (v : JsValue double) (m : List UInt16 × JsValue double)
    (ms : List (List UInt16 × JsValue double)) :
    encode (stringifyMembers ((key, v) :: m :: ms)) = encode (quoteString key) ++
      0x3a :: (encode (stringify v) ++ 0x2c :: encode (stringifyMembers (m :: ms))) := by
  rw [stringifyMembers, encode_append (wellFormed_quoteString key), encode_cons (by decide),
    encode_append (wellFormed_stringify v), encode_cons (by decide)]
  · rfl
  · exact List.cons_ne_nil _ _

mutual

/-- **The parser reads what was stringified**, surrogates included. -/
theorem writes_stringify : ∀ v : JsValue double, Writes (encode (stringify v)) v.toJson
  | null => by rw [stringify, encode_widen_of_all (by decide), toJson]; exact writes_null
  | bool true => by rw [stringify, encode_widen_of_all (by decide), toJson]; exact writes_true
  | bool false => by rw [stringify, encode_widen_of_all (by decide), toJson]; exact writes_false
  | int n => by
    rw [stringify, encode_widen fun b => lt_of_mem_intText, toJson]
    exact writes_int n
  | float literal _ => by
    rw [stringify, encode_widen fun b => lt_of_mem_float, toJson]
    exact writes_float literal
  | string units => by rw [stringify, toJson]; exact (writesString_quoteString units).str
  | array [] => by rw [encode_array, stringifyElements, toJson]; exact writes_array_nil
  | array (v :: vs) => by
    rw [encode_array, toJson]
    exact (writes_stringifyElements (v :: vs) (List.cons_ne_nil _ _)).array
  | object [] => by rw [encode_object, stringifyMembers, toJson]; exact writes_object_nil
  | object (m :: ms) => by
    rw [encode_object, toJson]
    exact (writes_stringifyMembers (m :: ms) (List.cons_ne_nil _ _)).object

/-- The same for the elements of an array. -/
theorem writes_stringifyElements : ∀ vs : List (JsValue double), vs ≠ [] →
    WritesElements (encode (stringifyElements vs)) (toJsonElements vs)
  | [], h => absurd rfl h
  | [v], _ => by rw [encode_element]; exact .single (writes_stringify v)
  | v :: w :: vs, _ => by
    rw [encode_elements]
    exact .cons (writes_stringify v) (writes_stringifyElements (w :: vs) (List.cons_ne_nil _ _))

/-- The same for the members of an object. -/
theorem writes_stringifyMembers : ∀ ms : List (List UInt16 × JsValue double), ms ≠ [] →
    WritesMembers (encode (stringifyMembers ms)) (toJsonMembers ms)
  | [], h => absurd rfl h
  | [(key, v)], _ => by
    rw [encode_member]
    exact .single (writesString_quoteString key) (writes_stringify v)
  | (key, v) :: m :: ms, _ => by
    rw [encode_members]
    exact .cons (writesString_quoteString key) (writes_stringify v)
      (writes_stringifyMembers (m :: ms) (List.cons_ne_nil _ _))

end

/-- The encoded text of a value is parsed as the value. -/
theorem parse_stringify (v : JsValue double) : parse (encode (stringify v)) = some v.toJson :=
  (writes_stringify v).parse

mutual

/-- **What is read is Unicode** exactly if every surrogate is in a pair. -/
theorem utf8_toJson_iff : ∀ v : JsValue double, v.toJson.Utf8 ↔ v.WellFormed
  | null | bool _ | int _ | float _ _ => Iff.rfl
  | string _ => isUtf8_generalized_iff
  | array vs => utf8_toJsonElements_iff vs
  | object ms => utf8_toJsonMembers_iff ms

/-- The same for the elements of an array. -/
theorem utf8_toJsonElements_iff :
    ∀ vs : List (JsValue double), Utf8Elements (toJsonElements vs) ↔ WellFormedElements vs
  | [] => Iff.rfl
  | v :: vs => and_congr (utf8_toJson_iff v) (utf8_toJsonElements_iff vs)

/-- The same for the members of an object. -/
theorem utf8_toJsonMembers_iff : ∀ ms : List (List UInt16 × JsValue double),
    Utf8Members (toJsonMembers ms) ↔ WellFormedMembers ms
  | [] => Iff.rfl
  | (_, v) :: ms => and_congr isUtf8_generalized_iff
    (and_congr (utf8_toJson_iff v) (utf8_toJsonMembers_iff ms))

end

mutual

/-- The numbers of a value are those of doubles. -/
theorem double_of_mem_literals :
    ∀ v : JsValue double, ∀ literal ∈ v.toJson.literals, double literal
  | null, _, h | bool _, _, h | int _, _, h | string _, _, h => by cases h
  | float _ isDouble, _, h => List.mem_singleton.mp h ▸ isDouble
  | array vs, literal, h => double_of_mem_literalsElements vs literal h
  | object ms, literal, h => double_of_mem_literalsMembers ms literal h

theorem double_of_mem_literalsElements : ∀ vs : List (JsValue double),
    ∀ literal ∈ literalsElements (toJsonElements vs), double literal
  | [], _, h => by cases h
  | v :: vs, literal, h => (List.mem_append.mp h).elim (double_of_mem_literals v literal)
    (double_of_mem_literalsElements vs literal)

theorem double_of_mem_literalsMembers : ∀ ms : List (List UInt16 × JsValue double),
    ∀ literal ∈ literalsMembers (toJsonMembers ms), double literal
  | [], _, h => by cases h
  | (_, v) :: ms, literal, h => (List.mem_append.mp h).elim (double_of_mem_literals v literal)
    (double_of_mem_literalsMembers ms literal)

end

mutual

/-- **Without unpaired surrogates, the text is that of `Json.print`.** -/
theorem encode_stringify : ∀ v : JsValue double, v.WellFormed →
    encode (stringify v) = v.toJson.print
  | null, _ | bool true, _ | bool false, _ => by
    rw [stringify, encode_widen_of_all (by decide), toJson, print]
  | int n, _ => by rw [stringify, encode_widen fun b => lt_of_mem_intText, toJson, print]
  | float literal _, _ => by
    rw [stringify, encode_widen fun b => lt_of_mem_float, toJson, print]
  | string units, h => by
    rw [stringify, toJson, print]
    exact encode_quoteString_of_wellFormed h
  | array vs, h => by rw [encode_array, toJson, print, encode_stringifyElements vs h]
  | object ms, h => by rw [encode_object, toJson, print, encode_stringifyMembers ms h]

/-- The same for the elements of an array. -/
theorem encode_stringifyElements : ∀ vs : List (JsValue double), WellFormedElements vs →
    encode (stringifyElements vs) = printElements (toJsonElements vs)
  | [], _ => rfl
  | [v], h => by
    rw [encode_element, encode_stringify v h.1, toJsonElements, toJsonElements, printElements]
  | v :: w :: vs, h => by
    rw [encode_elements, encode_stringify v h.1, encode_stringifyElements (w :: vs) h.2]
    rfl

/-- The same for the members of an object. -/
theorem encode_stringifyMembers :
    ∀ ms : List (List UInt16 × JsValue double), WellFormedMembers ms →
      encode (stringifyMembers ms) = printMembers (toJsonMembers ms)
  | [], _ => rfl
  | [(key, v)], h => by
    rw [encode_member, encode_quoteString_of_wellFormed h.1, encode_stringify v h.2.1,
      toJsonMembers, toJsonMembers, printMembers]
  | (key, v) :: (other, w) :: ms, h => by
    rw [encode_members, encode_quoteString_of_wellFormed h.1, encode_stringify v h.2.1,
      encode_stringifyMembers ((other, w) :: ms) h.2.2]
    rfl

end

/-! ### Strict parsers -/

variable {readable : Json → Prop} {decode : List UInt8 → Option Json}

variable (double) in
/-- The texts that `JSON.stringify` writes, in UTF-8. It writes no `-0`, which some parsers read as
a number with a fraction. -/
def Written (text : List UInt8) : Prop := ∃ v : JsValue double, text = encode (stringify v)

/-- A strict parser refuses a value in which a surrogate is unpaired. -/
theorem decode_stringify_eq_none (h : Strict (Written double) readable decode)
    {v : JsValue double} (hv : ¬ v.WellFormed) : decode (encode (stringify v)) = none :=
  h.refuses ⟨v, rfl⟩ (parse_stringify v) (mt (utf8_toJson_iff v).mp hv)

/-- **A strict parser** reads what was stringified, but for unpaired surrogates. -/
theorem decode_stringify (h : Strict (Written double) readable decode) {v : JsValue double}
    (hreadable : v.WellFormed → readable v.toJson) {j : Json} :
    decode (encode (stringify v)) = some j ↔ v.WellFormed ∧ v.toJson = j := by
  by_cases hv : v.WellFormed
  · rw [h.reads ⟨v, rfl⟩ (parse_stringify v) (hreadable hv), Option.some.injEq, and_iff_right hv]
  · rw [decode_stringify_eq_none h hv]
    exact iff_of_false nofun fun hboth => hv hboth.1

/-! ### Elements one after the other -/

/-- Every element but the first one has a comma before it. -/
theorem stringifyElements_eq : ∀ vs : List (JsValue double),
    stringifyElements vs = [0x2c].intercalate (vs.map stringify) ++ [0x5d]
  | [] => rfl
  | [v] => by rw [stringifyElements, List.map_singleton, List.intercalate_singleton]
  | v :: w :: vs => by
    have ih := stringifyElements_eq (w :: vs)
    rw [List.map_cons] at ih
    rw [stringifyElements, ih, List.map_cons, List.map_cons, List.intercalate_cons_cons,
      List.append_assoc, List.append_assoc, List.singleton_append]
    exact List.cons_ne_nil _ _

end JsValue

/-- A text is added at the end, with a separator unless it is the first one. -/
theorem intercalate_concat (sep : List UInt16) (texts : List (List UInt16)) (text : List UInt16) :
    sep.intercalate (texts ++ [text]) =
      sep.intercalate texts ++ ((if texts = [] then [] else sep) ++ text) := by
  induction texts with
  | nil => exact List.intercalate_singleton
  | cons t texts ih =>
    rw [List.cons_append, List.intercalate_cons_of_ne_nil (by simp), ih]
    cases texts with
    | nil => simp
    | cons u texts =>
      rw [List.intercalate_cons_cons, if_neg (List.cons_ne_nil _ _),
        if_neg (List.cons_ne_nil _ _), List.append_assoc (t ++ sep)]

theorem intercalate_eq_nil_iff {sep : List UInt16} {texts : List (List UInt16)}
    (h : ∀ text ∈ texts, text ≠ []) : sep.intercalate texts = [] ↔ texts = [] := by
  match texts with
  | [] => exact iff_of_true rfl rfl
  | [text] =>
    rw [List.intercalate_singleton]
    exact iff_of_false (h text List.mem_cons_self) (List.cons_ne_nil _ _)
  | text :: other :: texts =>
    rw [List.intercalate_cons_cons, List.append_assoc]
    exact iff_of_false (List.append_ne_nil_of_left_ne_nil (h text List.mem_cons_self) _)
      (List.cons_ne_nil _ _)

end Codec
