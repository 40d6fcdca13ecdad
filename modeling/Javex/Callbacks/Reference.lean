import Javex.Callbacks.Results

/-!
# An instance of the laws of `Jason`

The encoder that prints the JSON value of a term, and the parser of `Codec.Json`. It encodes what
`Jason` does without protocols of the caller's own, but for floats, and meets `Jason.Lawful`: so
the laws can be met, and the results about the broker hold of something.

The three functions of the encoder recurse on the term together, since a list is a chain of pairs
and an object a list of entries. A term that has no JSON has no text: a tuple, a function, a list
that is not proper, a key that is neither a string nor an atom. `members?_record` is what the broker
uses of it, the text of a record, and the only place where the order of the members is a choice.
-/

namespace Javex.Callbacks

open Codec

/-- The JSON value of an atom. -/
def atomJson : String → Json
  | "nil" => .null
  | "true" => .bool true
  | "false" => .bool false
  | name => .str (utf8 name)

mutual

/-- The JSON value of a term. -/
def toJson? : Term → Option Json
  | .atom name => some (atomJson name)
  | .int n => some (.int n)
  | .binary bytes => if validString bytes then some (.str bytes) else none
  | .nil => some (.arr [])
  | .cons head tail =>
    match toJson? head, elements? tail with
    | some j, some js => some (.arr (j :: js))
    | _, _ => none
  | .map entries => (members? entries).map .obj
  | .float _ | .bitstring _ | .tuple _ | .function _ _ | .other _ => none

/-- The elements of a proper list. -/
def elements? : Term → Option (List Json)
  | .nil => some []
  | .cons head tail =>
    match toJson? head, elements? tail with
    | some j, some js => some (j :: js)
    | _, _ => none
  | _ => none

/-- The members of an object: keys are strings or atoms. -/
def members? : List (Term × Term) → Option (List (Bytes × Json))
  | [] => some []
  | (.binary key, value) :: entries =>
    match toJson? value, members? entries with
    | some j, some ms => if validString key then some ((key, j) :: ms) else none
    | _, _ => none
  | (.atom key, value) :: entries =>
    match toJson? value, members? entries with
    | some j, some ms => some ((utf8 key, j) :: ms)
    | _, _ => none
  | _ :: _ => none

end

/-- The printer and the parser of JSON. -/
def Jason.reference : Jason := ⟨Json.parse, fun term => (toJson? term).map Json.print⟩

/-! ### Its texts are UTF-8 -/

theorem isUtf8_utf8 (s : String) : IsUtf8 (utf8 s) := validString_iff.mp (validString_utf8 s)

theorem utf8_atomJson (name : String) : (atomJson name).Utf8 := by
  unfold atomJson
  split
  · trivial
  · trivial
  · trivial
  · exact isUtf8_utf8 _

mutual

/-- **The value of a term has strings in UTF-8.** -/
theorem utf8_of_toJson? : ∀ (term : Term) {j : Json}, toJson? term = some j → j.Utf8
  | .atom name, j, h => by
    rw [toJson?] at h
    cases h
    exact utf8_atomJson name
  | .int n, j, h => by
    rw [toJson?] at h
    cases h
    trivial
  | .binary bytes, j, h => by
    rw [toJson?] at h
    split_ifs at h with hvalid
    cases h
    exact validString_iff.mp hvalid
  | .nil, j, h => by
    rw [toJson?] at h
    cases h
    trivial
  | .cons head tail, j, h => by
    rw [toJson?] at h
    split at h <;> cases h
    rename_i j js hj hjs
    exact ⟨utf8_of_toJson? head hj, utf8_of_elements? tail hjs⟩
  | .map entries, j, h => by
    rw [toJson?] at h
    obtain ⟨ms, hms, rfl⟩ := Option.map_eq_some_iff.mp h
    exact utf8_of_members? entries hms
  | .float _, j, h | .bitstring _, j, h | .tuple _, j, h | .function _ _, j, h
  | .other _, j, h => by
    rw [toJson?] at h
    cases h

theorem utf8_of_elements? : ∀ (term : Term) {js : List Json}, elements? term = some js →
    Json.Utf8Elements js
  | .nil, js, h => by
    rw [elements?] at h
    cases h
    trivial
  | .cons head tail, js, h => by
    rw [elements?] at h
    split at h <;> cases h
    rename_i j js hj hjs
    exact ⟨utf8_of_toJson? head hj, utf8_of_elements? tail hjs⟩
  | .atom _, js, h | .int _, js, h | .binary _, js, h | .map _, js, h | .float _, js, h
  | .bitstring _, js, h | .tuple _, js, h | .function _ _, js, h | .other _, js, h => by
    rw [elements?] at h
    · cases h
    · nofun
    · nofun

theorem utf8_of_members? : ∀ (entries : List (Term × Term)) {ms : List (Bytes × Json)},
    members? entries = some ms → Json.Utf8Members ms
  | [], ms, h => by
    rw [members?] at h
    cases h
    trivial
  | (key, value) :: entries, ms, h => by
    unfold members? at h
    split at h
    · cases h
      trivial
    · rename_i hentries
      cases hentries
      split at h <;> [split_ifs at h with hvalid; skip] <;> cases h
      rename_i j ms hj hms
      exact ⟨validString_iff.mp hvalid, utf8_of_toJson? value hj, utf8_of_members? entries hms⟩
    · rename_i hentries
      cases hentries
      split at h <;> cases h
      rename_i j ms hj hms
      exact ⟨isUtf8_utf8 _, utf8_of_toJson? value hj, utf8_of_members? entries hms⟩
    · cases h

end

/-! ### Records -/

theorem utf8_injective : Function.Injective utf8 := by
  intro s t h
  have hbytes : s.toUTF8 = t.toUTF8 := by
    cases hs : s.toUTF8
    cases ht : t.toUTF8
    simp only [utf8, hs, ht] at h
    rw [Array.toList_inj.mp h]
  exact String.toByteArray_inj.mp hbytes

/-- A scalar has a value exactly if it is valid. -/
theorem toJson?_scalar (scalar : Scalar) :
    scalar.Valid ∧ toJson? scalar.toTerm = some scalar.toJson ∨
      ¬ scalar.Valid ∧ toJson? scalar.toTerm = none := by
  cases scalar with
  | int n => exact .inl ⟨trivial, by rw [Scalar.toTerm, toJson?]; rfl⟩
  | bool b => cases b <;> exact .inl ⟨trivial, by rw [Scalar.toTerm, toJson?]; rfl⟩
  | binary bytes =>
    rw [Scalar.toTerm, toJson?]
    by_cases hvalid : validString bytes = true
    · exact .inl ⟨hvalid, if_pos hvalid⟩
    · exact .inr ⟨hvalid, if_neg hvalid⟩

/-- The members of a record. -/
def Scalar.members (fields : List (String × Scalar)) : List (Bytes × Json) :=
  fields.map fun field => (utf8 field.1, field.2.toJson)

/-- A record has a value exactly if its scalars are valid. -/
theorem members?_record (fields : List (String × Scalar)) :
    (∀ field ∈ fields, field.2.Valid) ∧
        toJson? (record fields) = some (.obj (Scalar.members fields)) ∨
      (¬ ∀ field ∈ fields, field.2.Valid) ∧ toJson? (record fields) = none := by
  rw [record, toJson?]
  induction fields with
  | nil => exact .inl ⟨nofun, by rw [List.map_nil, members?]; rfl⟩
  | cons field fields ih =>
    rw [List.forall_mem_cons, List.map_cons, members?]
    rcases toJson?_scalar field.2 with ⟨hvalid, hjson⟩ | ⟨hvalid, hjson⟩
    · rcases ih with ⟨hall, hms⟩ | ⟨hall, hms⟩
      · obtain ⟨ms, hsome, hobj⟩ := Option.map_eq_some_iff.mp hms
        cases hobj
        rw [hjson, hsome]
        exact .inl ⟨⟨hvalid, hall⟩, rfl⟩
      · rw [hjson, Option.map_eq_none_iff.mp hms]
        exact .inr ⟨fun h => hall h.2, rfl⟩
    · rw [hjson]
      exact .inr ⟨fun h => hvalid h.1, rfl⟩

/-- A reader finds the fields of a record under their names. -/
theorem get_members {fields : List (String × Scalar)} (h : (fields.map Prod.fst).Nodup)
    (key : String) : (Json.obj (Scalar.members fields)).get (utf8 key) =
      (fields.lookup key).map Scalar.toJson := by
  rw [Json.get]
  induction fields with
  | nil => rfl
  | cons field fields ih =>
    obtain ⟨name, scalar⟩ := field
    obtain ⟨hnot, hrest⟩ := List.nodup_cons.mp h
    have htail := ih hrest
    rw [Scalar.members, List.map_cons, List.reverse_cons, List.lookup_append]
    rw [Scalar.members] at htail
    rw [htail]
    by_cases hkey : key = name
    · subst hkey
      have hnone : fields.lookup key = none := by
        rw [List.lookup_eq_none_iff]
        intro other hother
        refine bne_iff_ne.mpr fun heq => hnot ?_
        rw [show (key, scalar).1 = other.1 from heq]
        exact List.mem_map_of_mem hother
      simp [hnone]
    · have hutf8 : (utf8 key == utf8 name) = false :=
        beq_eq_false_iff_ne.mpr fun heq => hkey (utf8_injective heq)
      have hname : (key == name) = false := beq_eq_false_iff_ne.mpr hkey
      simp [List.lookup_cons, hutf8, hname]

/-- **The laws are met.** -/
theorem Jason.reference_lawful : Jason.reference.Lawful where
  decoded h := h
  encoded _ h := by
    obtain ⟨j, -, rfl⟩ := Option.map_eq_some_iff.mp h
    rw [Json.parse_print]
    rfl
  valid _ h := by
    obtain ⟨j, hj, rfl⟩ := Option.map_eq_some_iff.mp h
    exact validString_iff.mpr (Json.isUtf8_print j (utf8_of_toJson? _ hj))
  encode_record fields hnodup := by
    rw [Jason.reference, Option.isSome_map]
    rcases members?_record fields with ⟨hvalid, hjson⟩ | ⟨hvalid, hjson⟩
    · simpa [hjson] using hvalid
    · simpa [hjson] using hvalid
  encode_list fields hnodup hvalid := by
    rcases members?_record fields with ⟨-, hjson⟩ | ⟨hinvalid, -⟩
    · refine ⟨_, Scalar.members fields, ?_, Json.parse_print _, get_members hnodup⟩
      change (toJson? _).map Json.print = _
      rw [toJson?, hjson, elements?]
      rfl
    · exact absurd hvalid hinvalid

/-! ### A configuration -/

/-- The built-in budgets and one host function. -/
def echoConfig : Config where
  jason := .reference
  limits := ⟨.builtin, .json, [], (∅ : Grants).insert (utf8 "echo") 0⟩
  deadline := 30000

/-- A request. -/
def requestOf (id : ℕ) (name argument : String) : Json :=
  .obj [(utf8 "id", .int id), (utf8 "name", .str (utf8 name)),
    (utf8 "argument", .str (utf8 argument))]

/-- A frame of requests. -/
def frameOf (requests : List Json) : Bytes := Json.print (.obj [(utf8 "requests", .arr requests)])

end Javex.Callbacks
