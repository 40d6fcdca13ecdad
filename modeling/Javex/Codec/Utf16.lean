import Javex.Codec.Utf8
import Mathlib.Algebra.Ring.Nat
import Mathlib.Data.List.Chain

/-!
# Strings of code units

The strings of ECMAScript: sequences of UTF-16 code units, any of them. A pair of surrogates is one
code point, and a surrogate that is in no pair is one by itself. Such a string has no UTF-8 text;
`encode` writes a replacement character there, and `generalized` the three bytes that the scheme of
UTF-8 would give the surrogate.

* `isUtf8_generalized_iff`: the generalized bytes are UTF-8 exactly if every surrogate is paired.

`codePoints` takes the pairs together from the left, and everything else is stated for its result: a
string is well formed if no code point is a surrogate, and its bytes are those of the code points.
The lemma that the proofs lean on is that no high surrogate stands before a low one in the list of
code points; for strings that are put together it has to be known that the cut goes through no pair,
which it never does next to a quotation mark, a bracket or a comma.

The lengths are compared in both directions. A code unit has at most three bytes, whichever way it
is written, and at least one, so that a limit on bytes is a limit on code units.
-/

namespace Codec

namespace Utf16

open Json (isHighSurrogate isLowSurrogate encodePoint)

/-- A surrogate, of a pair or not. -/
def isSurrogate (c : ℕ) : Bool := isHighSurrogate c || isLowSurrogate c

/-- `StringToCodePoints`. -/
def codePoints : List UInt16 → List ℕ
  | [] => []
  | [u] => [u.toNat]
  | u :: v :: rest =>
    if isHighSurrogate u.toNat ∧ isLowSurrogate v.toNat then
      (0x10000 + (u.toNat - 0xd800) * 1024 + (v.toNat - 0xdc00)) :: codePoints rest
    else u.toNat :: codePoints (v :: rest)

/-- `UTF16EncodeCodePoint`. -/
def encodeUnits (c : ℕ) : List UInt16 :=
  if c < 0x10000 then [UInt16.ofNat c]
  else [UInt16.ofNat (0xd800 + (c - 0x10000) / 1024), UInt16.ofNat (0xdc00 + (c - 0x10000) % 1024)]

/-- Every surrogate is in a pair. -/
def WellFormed (units : List UInt16) : Prop := ∀ c ∈ codePoints units, isSurrogate c = false

instance (units : List UInt16) : Decidable (WellFormed units) := by
  unfold WellFormed
  infer_instance

/-- `TextEncoder.encode`. -/
def encode (units : List UInt16) : List UInt8 :=
  (codePoints units).flatMap fun c => encodePoint (if isSurrogate c then 0xfffd else c)

/-- The bytes of a string with its surrogates. -/
def generalized (units : List UInt16) : List UInt8 := (codePoints units).flatMap encodePoint

/-- ASCII text as code units. -/
def widen (text : List UInt8) : List UInt16 := text.map UInt8.toUInt16

/-! ### Code points -/

theorem isHighSurrogate_iff {c : ℕ} : isHighSurrogate c = true ↔ 0xd800 ≤ c ∧ c < 0xdc00 := by
  simp [isHighSurrogate]

theorem isLowSurrogate_iff {c : ℕ} : isLowSurrogate c = true ↔ 0xdc00 ≤ c ∧ c < 0xe000 := by
  simp [isLowSurrogate]

theorem isSurrogate_iff {c : ℕ} : isSurrogate c = true ↔ 0xd800 ≤ c ∧ c < 0xe000 := by
  rw [isSurrogate, Bool.or_eq_true, isHighSurrogate_iff, isLowSurrogate_iff]
  omega

theorem isSurrogate_eq_false {c : ℕ} : isSurrogate c = false ↔ c < 0xd800 ∨ 0xe000 ≤ c := by
  rw [← Bool.not_eq_true, isSurrogate_iff]
  omega

/-- A code unit that is no high surrogate is a code point by itself. -/
theorem codePoints_cons {u : UInt16} (h : isHighSurrogate u.toNat = false) (rest : List UInt16) :
    codePoints (u :: rest) = u.toNat :: codePoints rest := by
  cases rest with
  | nil => rfl
  | cons v rest => rw [codePoints, if_neg (by rw [h]; nofun)]

/-- The code point of a pair. -/
theorem pair_bounds {u v : UInt16}
    (h : isHighSurrogate u.toNat = true ∧ isLowSurrogate v.toNat = true) :
    0x10000 ≤ 0x10000 + (u.toNat - 0xd800) * 1024 + (v.toNat - 0xdc00) ∧
      0x10000 + (u.toNat - 0xd800) * 1024 + (v.toNat - 0xdc00) < 0x110000 := by
  rw [isHighSurrogate_iff, isLowSurrogate_iff] at h
  omega

/-- A code point is below `0x110000`. -/
theorem codePoints_lt (units : List UInt16) : ∀ c ∈ codePoints units, c < 0x110000 := by
  have hunit : ∀ u : UInt16, u.toNat < 0x110000 := fun u => by
    have := u.toNat_lt
    omega
  induction units using codePoints.induct with
  | case1 => nofun
  | case2 u =>
    intro c hc
    rw [List.mem_singleton.mp hc]
    exact hunit u
  | case3 u v rest hpair ih =>
    rw [codePoints, if_pos hpair]
    exact List.forall_mem_cons.mpr ⟨(pair_bounds hpair).2, ih⟩
  | case4 u v rest hpair ih =>
    rw [codePoints, if_neg hpair]
    exact List.forall_mem_cons.mpr ⟨hunit u, ih⟩

/-- A low surrogate in front is a code unit of its own. -/
theorem head_codePoints (v : UInt16) (rest : List UInt16) :
    ∀ d ∈ (codePoints (v :: rest)).head?, isLowSurrogate d = true →
      isLowSurrogate v.toNat = true := by
  intro d hd hlow
  cases rest with
  | nil =>
    cases hd
    exact hlow
  | cons w rest =>
    rw [codePoints] at hd
    split_ifs at hd with hpair
    · obtain rfl := Option.some.inj hd
      have hle := (pair_bounds hpair).1
      rw [isLowSurrogate_iff] at hlow
      omega
    · obtain rfl := Option.some.inj hd
      exact hlow

/-- Two code points next to each other are no pair. -/
theorem codePoints_isChain (units : List UInt16) : (codePoints units).IsChain
    fun c d => ¬ (isHighSurrogate c = true ∧ isLowSurrogate d = true) := by
  induction units using codePoints.induct with
  | case1 => exact .nil
  | case2 u => exact .singleton _
  | case3 u v rest hpair ih =>
    rw [codePoints, if_pos hpair]
    refine ih.cons fun d _ hhigh => ?_
    have hle := (pair_bounds hpair).1
    have hlt := (isHighSurrogate_iff.mp hhigh.1).2
    omega
  | case4 u v rest hpair ih =>
    rw [codePoints, if_neg hpair]
    exact ih.cons fun d hd hboth => hpair ⟨hboth.1, head_codePoints v rest d hd hboth.2⟩

/-- A well-formed string in front of another one. -/
theorem codePoints_append {units : List UInt16} (h : WellFormed units) (more : List UInt16) :
    codePoints (units ++ more) = codePoints units ++ codePoints more := by
  induction units using codePoints.induct with
  | case1 => rfl
  | case2 u =>
    have hu := h u.toNat List.mem_cons_self
    rw [isSurrogate, Bool.or_eq_false_iff] at hu
    exact codePoints_cons hu.1 more
  | case3 u v rest hpair ih =>
    rw [WellFormed, codePoints, if_pos hpair] at h
    rw [List.cons_append, List.cons_append, codePoints, if_pos hpair, codePoints, if_pos hpair,
      ih fun c hc => h c (List.mem_cons_of_mem _ hc)]
    rfl
  | case4 u v rest hpair ih =>
    rw [WellFormed, codePoints, if_neg hpair] at h
    have hrest := ih fun c hc => h c (List.mem_cons_of_mem _ hc)
    rw [List.cons_append] at hrest
    rw [List.cons_append, List.cons_append, codePoints, if_neg hpair, codePoints, if_neg hpair,
      hrest]
    rfl

/-- Behind a well-formed string, another is well formed as it is by itself. -/
theorem wellFormed_append {units more : List UInt16} (h : WellFormed units) :
    WellFormed (units ++ more) ↔ WellFormed more := by
  unfold WellFormed
  rw [codePoints_append h, List.forall_mem_append]
  exact and_iff_right h

/-- Behind a well-formed string, another has the bytes that it has by itself. -/
theorem encode_append {units : List UInt16} (h : WellFormed units) (more : List UInt16) :
    encode (units ++ more) = encode units ++ encode more := by
  simp only [encode, codePoints_append h, List.flatMap_append]

/-- The code units of a code point are read as this code point. -/
theorem codePoints_encodeUnits {c : ℕ} (hlt : c < 0x110000) :
    codePoints (encodeUnits c) = [c] := by
  unfold encodeUnits
  split_ifs with hone
  · rw [codePoints, UInt16.toNat_ofNat', Nat.mod_eq_of_lt hone]
  · have hhigh : (UInt16.ofNat (0xd800 + (c - 0x10000) / 1024)).toNat =
        0xd800 + (c - 0x10000) / 1024 := by
      rw [UInt16.toNat_ofNat', Nat.mod_eq_of_lt (by omega)]
    have hlow : (UInt16.ofNat (0xdc00 + (c - 0x10000) % 1024)).toNat =
        0xdc00 + (c - 0x10000) % 1024 := by
      rw [UInt16.toNat_ofNat', Nat.mod_eq_of_lt (by omega)]
    rw [codePoints, hhigh, hlow, if_pos ⟨isHighSurrogate_iff.mpr (by omega),
      isLowSurrogate_iff.mpr (by omega)⟩, codePoints]
    exact congrArg (· :: []) (by omega)

/-- The code points of an ASCII text are its bytes. -/
theorem codePoints_widen {text : List UInt8} (h : ∀ b ∈ text, b < 0x80) :
    codePoints (widen text) = text.map UInt8.toNat := by
  induction text with
  | nil => rfl
  | cons b text ih =>
    obtain ⟨hb, hrest⟩ := List.forall_mem_cons.mp h
    have hlt : b.toNat < 0x80 := hb
    have hhigh : isHighSurrogate b.toUInt16.toNat = false := by
      rw [← Bool.not_eq_true, isHighSurrogate_iff, UInt8.toNat_toUInt16]
      omega
    have hcons := codePoints_cons hhigh (widen text)
    rw [ih hrest, UInt8.toNat_toUInt16] at hcons
    exact hcons

/-- An ASCII text is well formed. -/
theorem wellFormed_widen {text : List UInt8} (h : ∀ b ∈ text, b < 0x80) :
    WellFormed (widen text) := by
  intro c hc
  rw [codePoints_widen h] at hc
  obtain ⟨b, hb, rfl⟩ := List.mem_map.mp hc
  have hlt : b.toNat < 0x80 := h b hb
  rw [isSurrogate_eq_false]
  omega

theorem wellFormed_cons {u : UInt16} (h : u < 0x80) (rest : List UInt16) :
    WellFormed (u :: rest) ↔ WellFormed rest := by
  have hlt : u.toNat < 0x80 := h
  have hone : WellFormed [u] :=
    List.forall_mem_singleton.mpr (isSurrogate_eq_false.mpr (by omega))
  exact wellFormed_append hone

/-! ### UTF-8 -/

theorem encodePoint_ne_nil (c : ℕ) : encodePoint c ≠ [] := by
  unfold encodePoint
  split_ifs <;> exact List.cons_ne_nil _ _

theorem encodePoint_toNat {b : UInt8} (h : b < 0x80) : encodePoint b.toNat = [b] := by
  rw [encodePoint, if_pos (show b.toNat < 0x80 from h), UInt8.ofNat_toNat]

/-- The bytes of an ASCII text are its own. -/
theorem generalized_widen {text : List UInt8} (h : ∀ b ∈ text, b < 0x80) :
    generalized (widen text) = text := by
  rw [generalized, codePoints_widen h, List.flatMap_map,
    List.flatMap_congr fun b hb => encodePoint_toNat (h b hb), List.flatMap_singleton']

/-- For a well-formed string the two encodings agree. -/
theorem encode_eq_generalized {units : List UInt16} (h : WellFormed units) :
    encode units = generalized units :=
  List.flatMap_congr fun c hc => by rw [h c hc]; rfl

/-- An ASCII text is encoded as itself. -/
theorem encode_widen {text : List UInt8} (h : ∀ b ∈ text, b < 0x80) :
    encode (widen text) = text :=
  (encode_eq_generalized (wellFormed_widen h)).trans (generalized_widen h)

/-- ASCII text, to be checked by evaluation. -/
theorem encode_widen_of_all {text : List UInt8} (h : text.all (decide <| · < 0x80) = true) :
    encode (widen text) = text :=
  encode_widen fun b hb => of_decide_eq_true (List.all_eq_true.mp h b hb)

/-- An ASCII code unit in front is one byte in front. -/
theorem encode_cons {u : UInt16} (h : u < 0x80) (rest : List UInt16) :
    encode (u :: rest) = u.toUInt8 :: encode rest := by
  have hlt : u.toNat < 0x80 := h
  have hone := (wellFormed_cons h []).mpr nofun
  have hpoint : encode [u] = [u.toUInt8] := by
    rw [encode_eq_generalized hone, generalized, codePoints, List.flatMap_singleton, encodePoint,
      if_pos hlt]
    rfl
  exact (encode_append hone rest).trans (by rw [hpoint]; rfl)

/-- A replacement character is as long as the surrogate that it stands for. -/
theorem length_encode (units : List UInt16) :
    (encode units).length = (generalized units).length := by
  rw [encode, generalized, List.length_flatMap, List.length_flatMap]
  refine congrArg List.sum (List.map_congr_left fun c _ => ?_)
  by_cases hc : isSurrogate c = true
  · have hbounds := isSurrogate_iff.mp hc
    rw [if_pos hc, encodePoint, encodePoint, if_neg (by omega), if_neg (by omega),
      if_pos (by omega), if_neg (by omega), if_neg (by omega), if_pos (by omega)]
    rfl
  · rw [if_neg hc]

/-! ### Lengths -/

/-- A code point has at most four bytes. -/
theorem length_encodePoint_le (c : ℕ) : (encodePoint c).length ≤ 4 := by
  unfold encodePoint
  split_ifs <;> simp

/-- A code unit has at most three bytes. -/
theorem length_encodePoint_toNat_le (u : UInt16) : (encodePoint u.toNat).length ≤ 3 := by
  have hlt : u.toNat < 0x10000 := u.toNat_lt
  unfold encodePoint
  split_ifs <;> simp

/-- A string has at most three bytes for each code unit. -/
theorem length_encode_le (units : List UInt16) : (encode units).length ≤ 3 * units.length := by
  rw [length_encode, generalized]
  induction units using codePoints.induct with
  | case1 => exact Nat.zero_le _
  | case2 u => simpa [codePoints] using length_encodePoint_toNat_le u
  | case3 u v rest hpair ih =>
    have hpoint := length_encodePoint_le (0x10000 + (u.toNat - 0xd800) * 1024 + (v.toNat - 0xdc00))
    rw [codePoints, if_pos hpair, List.flatMap_cons, List.length_append, List.length_cons,
      List.length_cons]
    omega
  | case4 u v rest hpair ih =>
    have hpoint := length_encodePoint_toNat_le u
    rw [codePoints, if_neg hpair, List.flatMap_cons, List.length_append, List.length_cons]
    omega

/-- Strings put together may make a pair of two surrogates, and nothing longer. -/
theorem length_encode_append_le (units more : List UInt16) :
    (encode (units ++ more)).length ≤ (encode units).length + (encode more).length := by
  rw [length_encode, length_encode, length_encode]
  unfold generalized
  induction units using codePoints.induct with
  | case1 => simp [codePoints]
  | case2 u =>
    have hone : codePoints [u] = [u.toNat] := rfl
    cases more with
    | nil => simp [codePoints]
    | cons v rest =>
      by_cases hpair : isHighSurrogate u.toNat ∧ isLowSurrogate v.toNat
      · have hlow := isLowSurrogate_iff.mp hpair.2
        have hhigh := isHighSurrogate_iff.mp hpair.1
        have hrest : codePoints (v :: rest) = v.toNat :: codePoints rest := by
          refine codePoints_cons ?_ rest
          rw [← Bool.not_eq_true, isHighSurrogate_iff]
          omega
        have hpoint :=
          length_encodePoint_le (0x10000 + (u.toNat - 0xd800) * 1024 + (v.toNat - 0xdc00))
        have hlength : ∀ c, 0x800 ≤ c → c < 0x10000 → (encodePoint c).length = 3 := by
          intro c hle hlt
          rw [encodePoint, if_neg (by omega), if_neg (by omega), if_pos hlt]
          rfl
        have hu := hlength u.toNat (by omega) (by omega)
        have hv := hlength v.toNat (by omega) (by omega)
        rw [hone, List.singleton_append, codePoints, if_pos hpair, hrest]
        simp only [List.flatMap_cons, List.flatMap_nil, List.length_append, List.length_nil, hu, hv]
        omega
      · rw [hone, List.singleton_append, codePoints, if_neg hpair]
        simp
  | case3 u v rest hpair ih =>
    rw [List.cons_append, List.cons_append, codePoints, if_pos hpair, codePoints, if_pos hpair]
    simp only [List.flatMap_cons, List.length_append]
    omega
  | case4 u v rest hpair ih =>
    rw [List.cons_append] at ih
    rw [List.cons_append, List.cons_append, codePoints, if_neg hpair, codePoints, if_neg hpair]
    simp only [List.flatMap_cons, List.length_append]
    omega

/-- And so may several. -/
theorem length_encode_flatten_le (parts : List (List UInt16)) :
    (encode parts.flatten).length ≤ (parts.map fun part => (encode part).length).sum := by
  induction parts with
  | nil => exact Nat.zero_le _
  | cons part parts ih =>
    rw [List.flatten_cons, List.map_cons, List.sum_cons]
    exact (length_encode_append_le _ _).trans (Nat.add_le_add_left ih _)

theorem generalized_eq_nil_iff {units : List UInt16} : generalized units = [] ↔ units = [] := by
  constructor
  · intro h
    rw [generalized, List.flatMap_eq_nil_iff] at h
    match units with
    | [] => rfl
    | [u] => exact absurd (h _ List.mem_cons_self) (encodePoint_ne_nil _)
    | u :: v :: rest =>
      rw [codePoints] at h
      split_ifs at h <;> exact absurd (h _ List.mem_cons_self) (encodePoint_ne_nil _)
  · rintro rfl
    rfl

/-- The bytes of a character are those of its code point. -/
theorem utf8EncodeChar_eq (c : Char) : String.utf8EncodeChar c = encodePoint c.toNat := by
  have hvalid : c.toNat < 0xd800 ∨ 0xdfff < c.toNat ∧ c.toNat < 0x110000 := c.valid
  have hval : c.val.toNat = c.toNat := rfl
  unfold String.utf8EncodeChar encodePoint
  simp only [hval]
  generalize c.toNat = n at hvalid ⊢
  by_cases hone : n < 0x80
  · rw [if_pos (by omega), if_pos hone]
  · by_cases htwo : n < 0x800
    · rw [if_neg (by omega), if_pos (by omega), if_neg hone, if_pos htwo, Nat.add_comm 0xc0,
        Nat.add_comm 0x80, Nat.mod_eq_of_lt (by omega : n / 64 < 0x20)]
    · by_cases hthree : n < 0x10000
      · rw [if_neg (by omega), if_neg (by omega), if_pos (by omega), if_neg hone, if_neg htwo,
          if_pos hthree, Nat.add_comm 0xe0, Nat.add_comm 0x80 (n / 64 % 64),
          Nat.add_comm 0x80 (n % 64), Nat.mod_eq_of_lt (by omega : n / 4096 < 0x10)]
      · rw [if_neg (by omega), if_neg (by omega), if_neg (by omega), if_neg hone, if_neg htwo,
          if_neg hthree, Nat.add_comm 0xf0, Nat.add_comm 0x80 (n / 4096 % 64),
          Nat.add_comm 0x80 (n / 64 % 64), Nat.add_comm 0x80 (n % 64),
          Nat.mod_eq_of_lt (by omega : n / 262144 < 0x08)]

/-- The first code point can be told from the bytes. -/
theorem encodePoint_append_inj {c d : ℕ} (hc : c < 0x110000) (hd : d < 0x110000)
    {xs ys : List UInt8} (h : encodePoint c ++ xs = encodePoint d ++ ys) : c = d ∧ xs = ys := by
  have hbyte : ∀ {m n : ℕ}, UInt8.ofNat m = UInt8.ofNat n → m % 256 = n % 256 := by
    intro m n heq
    have := congrArg UInt8.toNat heq
    rwa [UInt8.toNat_ofNat', UInt8.toNat_ofNat'] at this
  unfold encodePoint at h
  split_ifs at h
  all_goals
    simp only [List.cons_append, List.nil_append, List.cons.injEq] at h
    -- the first byte says how many there are
    have hlead := hbyte h.1
    try (exfalso; clear h hbyte; omega)
  · exact ⟨by omega, h.2⟩
  · obtain ⟨-, hsecond, htail⟩ := h
    have hsecond := hbyte hsecond
    exact ⟨by omega, htail⟩
  · obtain ⟨-, hsecond, hthird, htail⟩ := h
    have hsecond := hbyte hsecond
    have hthird := hbyte hthird
    exact ⟨by omega, htail⟩
  · obtain ⟨-, hsecond, hthird, hfourth, htail⟩ := h
    have hsecond := hbyte hsecond
    have hthird := hbyte hthird
    have hfourth := hbyte hfourth
    exact ⟨by omega, htail⟩

/-- Code points can be told from their bytes. -/
theorem flatMap_encodePoint_inj {cs ds : List ℕ} (hcs : ∀ c ∈ cs, c < 0x110000)
    (hds : ∀ d ∈ ds, d < 0x110000) (h : cs.flatMap encodePoint = ds.flatMap encodePoint) :
    cs = ds := by
  have hne : ∀ (c : ℕ) (more : List UInt8), encodePoint c ++ more ≠ [] := fun c _ =>
    List.append_ne_nil_of_left_ne_nil (encodePoint_ne_nil c) _
  induction cs generalizing ds with
  | nil =>
    cases ds with
    | nil => rfl
    | cons d ds => exact absurd h.symm (hne d _)
  | cons c cs ih =>
    cases ds with
    | nil => exact absurd h (hne c _)
    | cons d ds =>
      obtain ⟨hc, hcsRest⟩ := List.forall_mem_cons.mp hcs
      obtain ⟨hd, hdsRest⟩ := List.forall_mem_cons.mp hds
      rw [List.flatMap_cons, List.flatMap_cons] at h
      obtain ⟨rfl, hrest⟩ := encodePoint_append_inj hc hd h
      rw [ih hcsRest hdsRest hrest]

/-- A code point that is a character. -/
theorem isSurrogate_char (c : Char) : isSurrogate c.toNat = false := by
  have hvalid : c.toNat < 0xd800 ∨ 0xdfff < c.toNat ∧ c.toNat < 0x110000 := c.valid
  rw [isSurrogate_eq_false]
  omega

/-- A character for each code point that is no surrogate. -/
theorem toNat_ofNat {c : ℕ} (hlt : c < 0x110000) (h : isSurrogate c = false) :
    (Char.ofNat c).toNat = c := by
  rw [isSurrogate_eq_false] at h
  have hvalid : c.isValidChar := by
    rcases h with h | h
    · exact .inl h
    · exact .inr ⟨h, hlt⟩
  rw [Char.ofNat, dif_pos hvalid]
  rfl

/-- **The surrogates of UTF-8.** The generalized bytes are UTF-8 exactly if every surrogate is in
a pair. -/
theorem isUtf8_generalized_iff {units : List UInt16} :
    IsUtf8 (generalized units) ↔ WellFormed units := by
  constructor
  · rintro ⟨chars, h⟩
    have hchars : chars.flatMap String.utf8EncodeChar =
        (chars.map Char.toNat).flatMap encodePoint := by
      rw [List.flatMap_map]
      exact List.flatMap_congr fun c _ => utf8EncodeChar_eq c
    rw [hchars] at h
    have hpoints := flatMap_encodePoint_inj (codePoints_lt units) (by
      intro d hd
      obtain ⟨c, -, rfl⟩ := List.mem_map.mp hd
      have hvalid : c.toNat < 0xd800 ∨ 0xdfff < c.toNat ∧ c.toNat < 0x110000 := c.valid
      omega) h
    intro c hc
    rw [hpoints] at hc
    obtain ⟨d, -, rfl⟩ := List.mem_map.mp hc
    exact isSurrogate_char d
  · intro h
    refine ⟨(codePoints units).map Char.ofNat, ?_⟩
    rw [generalized, List.flatMap_map]
    refine List.flatMap_congr fun c hc => ?_
    rw [utf8EncodeChar_eq, toNat_ofNat (codePoints_lt units c hc) (h c hc)]

end Utf16

end Codec
