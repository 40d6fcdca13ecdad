import Javex.Codec.Utf8
import Mathlib.Algebra.Order.BigOperators.Group.List
import Mathlib.Algebra.Order.Ring.Nat

/-!
# The extent of JSON texts

How long the compact text of a value can be: a printer may write a byte of a string with up to six
bytes, and writes everything else in one way. `Json.extent` bounds the text of whichever printer.
It does not depend on the order of the members of an object, which for a map is arbitrary.

* `Json.length_print_le`: the printer keeps to the extent.
* `Json.length_intText_le`: a number of 64 bits has a text of at most twenty bytes.

`Json.Plain` are the values that every parser reads alike: no fractions, numbers of 64 bits,
strings in UTF-8, nested to a bounded depth.

The extent is defined on values and not on texts, so that a bound on the texts of a printer that is
not known is a bound on the value: what a header or a completion may take on the wire is bounded
before anything is said about who writes it. The factor six is that of an escape of a control
character, which takes the place of one byte; everything else is counted as the compact form has it,
with the commas, the colons and the brackets.

`Plain` is a predicate of the depth that is left, because the parsers that read these texts refuse
to go deeper than a bound of their own. A value that is sent is built by the code from a few fields
and is plain by inspection; the predicate is there so that nothing has to be assumed of a library
about values that are never sent.
-/

namespace Codec

namespace Json

/-! ### Values that every parser reads alike -/

/-- A plain value, nested at most `depth` deep. -/
def Plain : (depth : ℕ) → Json → Prop
  | _, null => True
  | _, bool _ => True
  | _, int n => 0 ≤ n ∧ n < 18446744073709551616
  | _, float _ => False
  | _, str s => IsUtf8 s
  | 0, arr _ => False
  | depth + 1, arr js => ∀ j ∈ js, Plain depth j
  | 0, obj _ => False
  | depth + 1, obj ms => ∀ m ∈ ms, IsUtf8 m.1 ∧ Plain depth m.2

/-- The strings of a plain value are UTF-8. -/
theorem Plain.utf8 : ∀ {depth : ℕ} {j : Json}, Plain depth j → j.Utf8
  | _, null, _ | _, bool _, _ | _, int _, _ | _, float _, _ => trivial
  | 0, str _, h | _ + 1, str _, h => h
  | 0, arr _, h | 0, obj _, h => by cases h
  | depth + 1, arr js, h => by
    induction js with
    | nil => trivial
    | cons j js ih =>
      obtain ⟨hj, hjs⟩ := List.forall_mem_cons.mp h
      exact ⟨hj.utf8, ih hjs⟩
  | depth + 1, obj ms, h => by
    induction ms with
    | nil => trivial
    | cons m ms ih =>
      obtain ⟨⟨hkey, hj⟩, hms⟩ := List.forall_mem_cons.mp h
      exact ⟨hkey, hj.utf8, ih hms⟩

/-! ### The extent -/

/-- The extent of a string literal. -/
def quoteExtent (s : List UInt8) : ℕ := 6 * s.length + 2

mutual

/-- A bound on the length of the compact text of a value. -/
def extent : Json → ℕ
  | null => 4
  | bool _ => 5
  | int n => (intText n).length
  | float literal => literal.bytes.length
  | str s => quoteExtent s
  | arr js => 2 + extentElements js
  | obj ms => 2 + extentMembers ms

/-- The elements of an array with their commas. -/
def extentElements : List Json → ℕ
  | [] => 0
  | j :: js => extent j + 1 + extentElements js

/-- The members of an object with their colons and commas. -/
def extentMembers : List (List UInt8 × Json) → ℕ
  | [] => 0
  | (key, j) :: ms => quoteExtent key + 1 + extent j + 1 + extentMembers ms

end

theorem extentMembers_eq_sum (ms : List (List UInt8 × Json)) :
    extentMembers ms = (ms.map fun m => quoteExtent m.1 + 1 + extent m.2 + 1).sum := by
  induction ms with
  | nil => rfl
  | cons m ms ih => rw [extentMembers, ih, List.map_cons, List.sum_cons]

theorem extentMembers_append (ms ms' : List (List UInt8 × Json)) :
    extentMembers (ms ++ ms') = extentMembers ms + extentMembers ms' := by
  simp only [extentMembers_eq_sum, List.map_append, List.sum_append]

theorem extentMembers_le {ms : List (List UInt8 × Json)} {n : ℕ}
    (h : ∀ m ∈ ms, quoteExtent m.1 + 1 + extent m.2 + 1 ≤ n) :
    extentMembers ms ≤ ms.length * n := by
  have hsum := List.sum_le_card_nsmul _ n (List.forall_mem_map.mpr h)
  rwa [List.length_map, Nat.nsmul_eq_mul, ← extentMembers_eq_sum] at hsum

/-- The order of the members does not matter. -/
theorem extent_obj_perm {ms ms' : List (List UInt8 × Json)} (h : ms.Perm ms') :
    extent (obj ms) = extent (obj ms') := by
  rw [extent, extent, extentMembers_eq_sum, extentMembers_eq_sum, (h.map _).sum_eq]

/-! ### The printer -/

/-- **Escapes.** A string literal is at most six times as long as the string, and its quotes. -/
theorem length_quote_le (s : List UInt8) : (quote s).length ≤ quoteExtent s := by
  have hbody : (s.flatMap quoteByte).length ≤ 6 * s.length := by
    induction s with
    | nil => simp
    | cons c s ih =>
      have hc := length_quoteByte_le c
      simp only [List.flatMap_cons, List.length_append, List.length_cons]
      omega
  simp only [quote, quoteExtent, List.length_cons, List.length_append, List.length_nil]
  omega

mutual

/-- **The printer keeps to the extent.** -/
theorem length_print_le : ∀ j : Json, (print j).length ≤ extent j
  | null => by simp [print, extent]
  | bool true => by simp [print, extent]
  | bool false => by simp [print, extent]
  | int n => by simp [print, extent]
  | float literal => by simp [print, extent]
  | str s => by rw [print, extent]; exact length_quote_le s
  | arr js => by
    have h := length_printElements_le js
    simp only [print, extent, List.length_cons]
    omega
  | obj ms => by
    have h := length_printMembers_le ms
    simp only [print, extent, List.length_cons]
    omega

theorem length_printElements_le : ∀ js : List Json,
    (printElements js).length ≤ extentElements js + 1
  | [] => by simp [printElements]
  | [j] => by
    have h := length_print_le j
    simp only [printElements, extentElements, List.length_append, List.length_cons,
      List.length_nil]
    omega
  | j :: k :: js => by
    have h := length_print_le j
    have hrest := length_printElements_le (k :: js)
    rw [printElements, extentElements, List.length_append, List.length_cons]
    · omega
    · exact List.cons_ne_nil _ _

theorem length_printMembers_le : ∀ ms : List (List UInt8 × Json),
    (printMembers ms).length ≤ extentMembers ms + 1
  | [] => by simp [printMembers]
  | [(key, j)] => by
    have hkey := length_quote_le key
    have h := length_print_le j
    simp only [printMembers, extentMembers, List.length_append, List.length_cons,
      List.length_nil]
    omega
  | (key, j) :: m :: ms => by
    have hkey := length_quote_le key
    have h := length_print_le j
    have hrest := length_printMembers_le (m :: ms)
    rw [printMembers, extentMembers, List.length_append, List.length_cons, List.length_append,
      List.length_cons]
    · omega
    · exact List.cons_ne_nil _ _

end

/-! ### Numbers -/

/-- A number of 64 bits has at most twenty digits. -/
theorem length_intText_le {n : ℕ} (h : n < 18446744073709551616) :
    (intText (n : ℤ)).length ≤ 20 := by
  have hnot : ¬ (n : ℤ) < 0 := by omega
  have hpower : 18446744073709551616 < 10 ^ 20 := by decide
  have hdigits : n < 10 ^ 20 := Nat.lt_trans h hpower
  rw [intText, if_neg hnot, Int.natAbs_natCast, natText, List.length_map]
  exact (Nat.length_toDigits_le_iff (by omega) (by omega)).mpr hdigits

end Json

end Codec
