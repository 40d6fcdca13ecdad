import Javex.Options
import Javex.ForMathlib.Except

/-!
# What the option checks accept

The checks of `lib/javex/options.ex` as rules on the pairs of a keyword list. A rule asks
something of the options that are given and nothing of the others, since every default obeys it.

* `run_accepts_iff`, `runtime_accepts_iff`, `compile_accepts_iff`: a check accepts exactly the
  lists that obey its rules.
* `run_value`, `runtime_value`, `compile_value`: the budgets of an accepted list are the given
  ones, and the defaults elsewhere.
* `run_raised_iff`: the one way for `run/2` to raise.

The checks of the three entry points are `with` chains, and each of them is taken apart once, by
`Except.bind_eq_ok`, into what its links ask. The lemmas on single links (`integer_eq_ok`,
`member_eq_ok`, `environment_eq_ok`, `callbacks_eq_ok`) say when the link succeeds and what it
returns, and nothing about the other links; the rules of an entry point are the conjunction of what
they say. That a default obeys its own rule (`whenGiven_iff`) is what lets a rule speak of the given
options only.

The rules of an environment and of a set of grants are stated backwards, as what a list of pairs or
of grants denotes as a term. So the value that a check returns is determined by the term, and an
accepted term denotes one value only.
-/

namespace Javex.Options

variable {inspect : Term → String} {pairs : List (String × Term)} {value : Term}

/-! ### The rules -/

/-- Only known keys, and each of them once. -/
structure KnownKeys (allowed : List String) (pairs : List (String × Term)) : Prop where
  known : ∀ pair ∈ pairs, pair.1 ∈ allowed
  unique : (pairs.map Prod.fst).Nodup

/-- An integer in a range. -/
def InRange (minimum maximum : ℕ) (value : Term) : Prop :=
  ∃ n : ℕ, value = .int n ∧ minimum ≤ n ∧ n ≤ maximum

/-- One of some atoms. -/
def OneOf (values : List String) (value : Term) : Prop :=
  ∃ name ∈ values, value = .atom name

/-- What `Options.environment_pair?/1` asks of a pair. -/
structure ValidPair (pair : Bytes × Bytes) : Prop where
  key : validString pair.1 = true
  value : validString pair.2 = true
  nonempty : pair.1 ≠ []
  separable : (0x3d : UInt8) ∉ pair.1 ∧ (0 : UInt8) ∉ pair.1
  terminable : (0 : UInt8) ∉ pair.2

/-- The term of an environment. -/
def pairTerm (pair : Bytes × Bytes) : Term := .tuple [.binary pair.1, .binary pair.2]

/-- The rule of `:env`, for the environment that a list of pairs denotes. -/
structure DenotesEnv (value : Term) (env : List (Bytes × Bytes)) : Prop where
  pairs : value.toList? = some (env.map pairTerm)
  valid : ∀ pair ∈ env, ValidPair pair
  count : env.length ≤ 128
  total : (env.map fun pair => pair.1.length + pair.2.length).sum ≤ 65536

/-- The term of an entry of `:callbacks`. -/
def grantTerm (grant : Sigma fun _ : Bytes => ℕ) : Term × Term :=
  (.binary grant.1, .function 2 grant.2)

/-- The name of a callback: one to 128 bytes of UTF-8. -/
def ValidName (name : Bytes) : Prop :=
  1 ≤ name.length ∧ name.length ≤ 128 ∧ validString name = true

/-- The rule of `:callbacks`, for the grants that a map denotes. -/
def DenotesGrants (value : Term) (grants : Grants) : Prop :=
  ∃ entries : List (Sigma fun _ : Bytes => ℕ), value = .map (entries.map grantTerm) ∧
    value.isStruct = false ∧ entries.length ≤ 128 ∧
    (∀ grant ∈ entries, ValidName grant.1) ∧ grants = entries.toAList

/-- A rule of an option that may be given. -/
def WhenGiven (pairs : List (String × Term)) (key : String) (rule : Term → Prop) : Prop :=
  ∀ value, pairs.lookup key = some value → rule value

/-- The keys of `run/2`. -/
def runKeys : List String :=
  BudgetKey.all.map BudgetKey.name ++ ["runtime", "encoding", "env", "callbacks"]

/-- The keys of `runtime/1`. -/
def runtimeKeys : List String :=
  BudgetKey.all.map BudgetKey.runtimeName ++
    ["plugin_path", "max_concurrency", "max_cache_bytes", "max_cached_modules", "backend",
      "max_process_memory"]

/-- The keys of `compile/1`. -/
def compileKeys : List String :=
  ["mode", "plugin", "runtime", "timeout", "fuel", "max_memory", "max_source", "max_module",
    "max_stderr"]

/-- The rules of `run/2`. -/
structure RunRules (pairs : List (String × Term)) : Prop where
  keys : KnownKeys runKeys pairs
  budgets : ∀ key : BudgetKey, WhenGiven pairs key.name (InRange key.minimum key.maximum)
  encoding : WhenGiven pairs "encoding" (OneOf ["json", "raw"])
  env : WhenGiven pairs "env" fun value => ∃ env, DenotesEnv value env
  callbacks : WhenGiven pairs "callbacks" fun value => ∃ grants, DenotesGrants value grants

/-- The rules of `runtime/1`. -/
structure RuntimeRules (pairs : List (String × Term)) : Prop where
  keys : KnownKeys runtimeKeys pairs
  budgets : ∀ key : BudgetKey,
    WhenGiven pairs key.runtimeName (InRange key.minimum key.maximum)
  backend : WhenGiven pairs "backend" (OneOf ["in_process", "isolated"])
  maxProcessMemory : WhenGiven pairs "max_process_memory" (InRange 1 9223372036854775807)
  maxConcurrency : WhenGiven pairs "max_concurrency" (InRange 1 18446744073709551615)
  maxCacheBytes : WhenGiven pairs "max_cache_bytes" (InRange 0 18446744073709551615)
  maxCachedModules : WhenGiven pairs "max_cached_modules" (InRange 0 18446744073709551615)

/-- The rules of `compile/1`. -/
structure CompileRules (pairs : List (String × Term)) : Prop where
  keys : KnownKeys compileKeys pairs
  mode : WhenGiven pairs "mode" (OneOf ["dynamic", "static"])
  budgets : ∀ key : BudgetKey, WhenGiven pairs key.name (InRange key.minimum key.maximum)
  maxSource : WhenGiven pairs "max_source" (InRange 1 18446744073709551615)

/-! ### One check at a time -/

theorem keywordGet_eq (pairs : List (String × Term)) (key : String) (default : Term) :
    keywordGet pairs key default = (pairs.lookup key).getD default := rfl

/-- A rule holds of a value with a default if the default obeys it. -/
theorem whenGiven_iff {key : String} {rule : Term → Prop} {default : Term} (h : rule default) :
    rule (keywordGet pairs key default) ↔ WhenGiven pairs key rule := by
  unfold WhenGiven
  rw [keywordGet_eq]
  cases pairs.lookup key with
  | none => simpa using h
  | some value => simp

theorem invalid_ne_ok {α : Type} {message : String} {a : α} : invalid message ≠ .ok a := nofun

theorem invalid_ne_raised {α : Type} {message : String} {exception : Raise} :
    (invalid message : Except Failure α) ≠ .error (.raised exception) := nofun

/-- The check of the keys returns the pairs of a keyword list with known keys, each given once. -/
theorem keywords_eq_ok {opts : Term} {allowed : List String} :
    keywords inspect opts allowed = .ok pairs ↔
      keywordPairs? opts = some pairs ∧ KnownKeys allowed pairs := by
  unfold keywords
  cases keywordPairs? opts with
  | none => simp [invalid_ne_ok]
  | some given =>
    have hknown : (given.map Prod.fst).all (allowed.contains ·) = true ↔
        ∀ pair ∈ given, pair.1 ∈ allowed := by
      simp
    simp only [hknown, Option.some.injEq]
    split_ifs with h
    · constructor
      · rintro ⟨⟩
        exact ⟨rfl, h.1, h.2⟩
      · rintro ⟨rfl, -⟩
        rfl
    · refine iff_of_false invalid_ne_ok ?_
      rintro ⟨rfl, hkeys⟩
      exact h ⟨hkeys.known, hkeys.unique⟩

/-- The test of a range decides it. -/
theorem inRange_iff {minimum maximum : ℕ} :
    inRange value minimum maximum = true ↔ InRange minimum maximum value := by
  constructor
  · intro h
    cases value with
    | int n =>
      simp only [inRange, Bool.and_eq_true, decide_eq_true_eq] at h
      refine ⟨n.toNat, ?_, by omega, by omega⟩
      rw [Int.toNat_of_nonneg (by omega)]
    | _ => simp [inRange] at h
  · rintro ⟨n, rfl, hmin, hmax⟩
    simp only [inRange, Bool.and_eq_true, decide_eq_true_eq]
    omega

/-- An integer of a range is the number that it is read as. -/
theorem toNat_eq_iff {minimum maximum n : ℕ} (h : InRange minimum maximum value) :
    toNat value = n ↔ value = .int n := by
  obtain ⟨m, rfl, -⟩ := h
  rw [toNat, Int.toNat_natCast, Term.int.injEq]
  omega

/-- An integer is accepted in its range, and is returned as it is. -/
theorem integer_eq_ok {key : IntegerKey} {minimum n : ℕ} :
    integer key value minimum = .ok n ↔
      InRange minimum key.maximum value ∧ value = .int n := by
  unfold integer
  split_ifs with h
  · rw [inRange_iff] at h
    simp [h, toNat_eq_iff h]
  · rw [inRange_iff] at h
    simp [h, invalid_ne_ok]

/-- Budgets are accepted if they are those of a `Budgets`. -/
theorem budgets_eq_ok {values : BudgetKey → Term} {b : Budgets} :
    budgets values = .ok b ↔ ∀ key, values key = .int (b.value key) := by
  have hrange : (∀ key, values key = .int (b.value key)) →
      ∀ key, inRange (values key) key.minimum key.maximum = true := fun h key =>
    inRange_iff.mpr ⟨b.value key, h key, b.minimum_le key, b.le_maximum key⟩
  unfold budgets
  split_ifs with h
  · constructor
    · rintro ⟨⟩ key
      exact (toNat_eq_iff (inRange_iff.mp (h key))).mp rfl
    · intro hvalues
      obtain ⟨value, hmin, hmax⟩ := b
      simp only [Except.ok.injEq, Budgets.mk.injEq]
      funext key
      exact (toNat_eq_iff (inRange_iff.mp (h key))).mpr (hvalues key)
  · exact iff_of_false invalid_ne_ok fun hvalues => h (hrange hvalues)

/-- Budgets are accepted if each of them is in its range. -/
theorem exists_budgets_eq_ok {values : BudgetKey → Term} :
    (∃ b, budgets values = .ok b) ↔ ∀ key, InRange key.minimum key.maximum (values key) := by
  constructor
  · rintro ⟨b, hb⟩ key
    exact ⟨b.value key, budgets_eq_ok.mp hb key, b.minimum_le key, b.le_maximum key⟩
  · intro h
    unfold budgets
    rw [dif_pos fun key => inRange_iff.mpr (h key)]
    exact ⟨_, rfl⟩

/-- An atom is accepted if it is one of the values. -/
theorem member_eq_ok {key name : String} {values : List String} :
    member inspect key value values = .ok name ↔ name ∈ values ∧ value = .atom name := by
  unfold member
  split
  · split_ifs with h
    · simp only [List.contains_iff_mem] at h
      simp only [Except.ok.injEq, Term.atom.injEq]
      constructor
      · rintro rfl
        exact ⟨h, rfl⟩
      · exact fun h => h.2
    · simp only [List.contains_iff_mem] at h
      refine iff_of_false invalid_ne_ok ?_
      rintro ⟨hname, heq⟩
      cases heq
      exact h hname
  · rename_i hatom
    exact iff_of_false invalid_ne_ok fun h => hatom name h.2

theorem exists_member_eq_ok {key : String} {values : List String} :
    (∃ name, member inspect key value values = .ok name) ↔ OneOf values value := by
  simp only [member_eq_ok, OneOf]

/-- A pair of an environment is accepted if it is a pair of valid strings. -/
theorem environmentPair?_eq_some {pair : Bytes × Bytes} :
    environmentPair? value = some pair ↔ value = pairTerm pair ∧ ValidPair pair := by
  obtain ⟨key, text⟩ := pair
  have hvalid : ValidPair (key, text) ↔ (validString key && validString text && key != [] &&
      !(key.contains 0x3d || key.contains 0) && !text.contains 0) = true := by
    simp only [Bool.and_eq_true, bne_iff_ne, ne_eq, Bool.not_eq_true', Bool.or_eq_false_iff,
      List.contains_eq_mem, decide_eq_false_iff_not]
    constructor
    · rintro ⟨h1, h2, h3, h4, h5⟩
      exact ⟨⟨⟨⟨h1, h2⟩, h3⟩, h4⟩, h5⟩
    · rintro ⟨⟨⟨⟨h1, h2⟩, h3⟩, h4⟩, h5⟩
      exact ⟨h1, h2, h3, h4, h5⟩
  unfold environmentPair?
  split
  · rename_i key' text'
    simp only [pairTerm, Term.tuple.injEq, List.cons.injEq, Term.binary.injEq, and_true]
    constructor
    · intro h
      split_ifs at h with hpair
      cases h
      exact ⟨⟨rfl, rfl⟩, hvalid.mpr hpair⟩
    · rintro ⟨⟨rfl, rfl⟩, hpair⟩
      rw [if_pos (hvalid.mp hpair)]
  · rename_i hpair
    exact iff_of_false nofun fun h => hpair key text h.1

/-- `length/1` counts the elements of a proper list and raises on anything else. -/
theorem length_eq (term : Term) : builtinCall term.length =
    match term.toList? with
    | some elements => .ok elements.length
    | none => .error (.raised .argumentError) := by
  unfold builtinCall Term.length
  cases term.toList? <;> rfl

/-- A proper list is a list. -/
theorem isList_of_toList? {elements : List Term} (h : value.toList? = some elements) :
    value.isList = true := by
  cases value <;> first | rfl | cases h

/-- An environment is accepted exactly for the pairs that it denotes. -/
theorem environment_eq_ok {env : List (Bytes × Bytes)} :
    environment value = .ok env ↔ DenotesEnv value env := by
  have hpairs : ∀ elements : List Term, elements.mapM environmentPair? = some env ↔
      elements = env.map pairTerm ∧ ∀ pair ∈ env, ValidPair pair := fun elements =>
    List.mapM_eq_some_map fun _ _ => environmentPair?_eq_some
  unfold environment
  simp only [length_eq]
  cases helements : value.toList? with
  | none =>
    refine iff_of_false ?_ fun h => ?_
    · split_ifs <;> rintro ⟨⟩
    · rw [h.pairs] at helements
      cases helements
  | some elements =>
    rw [isList_of_toList? helements]
    simp only [Option.getD_some, Bool.not_true, Bool.false_eq_true, if_false, Bind.bind,
      Except.bind]
    split_ifs with hcount
    · refine iff_of_false invalid_ne_ok fun h => ?_
      cases helements.symm.trans h.pairs
      rw [List.length_map] at hcount
      exact Nat.not_le.mpr hcount h.count
    · cases hmapped : elements.mapM environmentPair? with
      | none =>
        refine iff_of_false invalid_ne_ok fun h => ?_
        cases helements.symm.trans h.pairs
        rw [(hpairs _).mpr ⟨rfl, h.valid⟩] at hmapped
        cases hmapped
      | some given =>
        simp only
        constructor
        · intro h
          split_ifs at h with htotal
          · cases h
            obtain ⟨rfl, hvalid⟩ := (hpairs _).mp hmapped
            rw [List.length_map] at hcount
            exact ⟨helements, hvalid, Nat.not_lt.mp hcount, htotal⟩
          · cases h
        · intro h
          cases helements.symm.trans h.pairs
          rw [(hpairs _).mpr ⟨rfl, h.valid⟩] at hmapped
          cases hmapped
          exact if_pos h.total

/-- An improper list is no list to `length/1`. -/
theorem environment_raised {exception : Raise} :
    environment value = .error (.raised exception) ↔
      value.isList = true ∧ value.toList? = none ∧ exception = .argumentError := by
  unfold environment
  simp only [length_eq]
  cases value.isList with
  | false => exact iff_of_false invalid_ne_raised fun h => nomatch h.1
  | true =>
    cases value.toList? with
    | none => simp [Bind.bind, Except.bind, eq_comm]
    | some elements =>
      refine iff_of_false ?_ nofun
      simp only [Option.getD_some, Bool.not_true, Bool.false_eq_true, if_false, Bind.bind,
        Except.bind]
      split_ifs
      · exact invalid_ne_raised
      · cases elements.mapM environmentPair? with
        | none => exact invalid_ne_raised
        | some env =>
          simp only
          split_ifs <;> nofun

/-- An entry of `:callbacks` is accepted if it is a valid name with a function of two arguments. -/
theorem grant?_eq_some {entry : Term × Term} {grant : Sigma fun _ : Bytes => ℕ} :
    grant? entry = some grant ↔ entry = grantTerm grant ∧ ValidName grant.1 := by
  obtain ⟨name, id⟩ := grant
  unfold grant?
  split
  · rename_i name' id'
    simp only [grantTerm, Prod.mk.injEq, Term.binary.injEq, Term.function.injEq, true_and]
    constructor
    · intro h
      split_ifs at h with hname
      cases h
      exact ⟨⟨rfl, rfl⟩, hname⟩
    · rintro ⟨⟨rfl, rfl⟩, hname⟩
      exact if_pos hname
  · rename_i hentry
    exact iff_of_false nofun fun h => hentry name id h.1

/-- Grants are accepted exactly for those that the map denotes. -/
theorem callbacks_eq_ok {grants : Grants} :
    callbacks value = .ok grants ↔ DenotesGrants value grants := by
  have hgrants : ∀ (entries : List (Term × Term)) given, entries.mapM grant? = some given ↔
      entries = given.map grantTerm ∧ ∀ grant ∈ given, ValidName grant.1 := fun entries given =>
    List.mapM_eq_some_map fun _ _ => grant?_eq_some
  unfold callbacks
  split
  · rename_i entries
    split_ifs with hshape
    · simp only [Bool.and_eq_true, Bool.not_eq_true', decide_eq_true_eq] at hshape
      cases hmapped : entries.mapM grant? with
      | none =>
        refine iff_of_false invalid_ne_ok ?_
        rintro ⟨given, heq, -, -, hnames, -⟩
        cases heq
        rw [(hgrants _ _).mpr ⟨rfl, hnames⟩] at hmapped
        cases hmapped
      | some given =>
        obtain ⟨rfl, hnames⟩ := (hgrants _ _).mp hmapped
        constructor
        · rintro ⟨⟩
          exact ⟨given, rfl, hshape.1, by simpa using hshape.2, hnames, rfl⟩
        · rintro ⟨given', heq, -, -, hnames', rfl⟩
          rw [Term.map.inj heq, (hgrants _ _).mpr ⟨rfl, hnames'⟩] at hmapped
          cases hmapped
          rfl
    · refine iff_of_false invalid_ne_ok ?_
      rintro ⟨given, heq, hstruct, hcount, -⟩
      cases heq
      simp [hstruct, hcount] at hshape
  · rename_i hmap
    exact iff_of_false invalid_ne_ok fun ⟨_, heq, _⟩ => hmap _ heq

/-- The check of the keys never raises. -/
theorem keywords_ne_raised {opts : Term} {allowed : List String} {exception : Raise} :
    keywords inspect opts allowed ≠ .error (.raised exception) := by
  unfold keywords
  split
  · split_ifs <;> nofun
  · nofun

/-- Nor does that of the budgets. -/
theorem budgets_ne_raised {values : BudgetKey → Term} {exception : Raise} :
    budgets values ≠ .error (.raised exception) := by
  unfold budgets
  split_ifs <;> nofun

/-- Nor does that of an atom. -/
theorem member_ne_raised {key : String} {values : List String} {exception : Raise} :
    member inspect key value values ≠ .error (.raised exception) := by
  unfold member
  split
  · split_ifs <;> nofun
  · nofun

/-- Nor does that of the grants. -/
theorem callbacks_ne_raised {exception : Raise} :
    callbacks value ≠ .error (.raised exception) := by
  unfold callbacks
  split
  · split_ifs
    · split <;> nofun
    · nofun
  · nofun

/-! ### `run/2` -/

section Run

variable {opts : Term} {defaults : Budgets}

/-- The merged budgets of a call are in range if the given ones are. -/
theorem inRange_mergeBudgets (pairs : List (String × Term)) (defaults : Budgets)
    (key : BudgetKey) : InRange key.minimum key.maximum (mergeBudgets pairs defaults key) ↔
      WhenGiven pairs key.name (InRange key.minimum key.maximum) :=
  whenGiven_iff ⟨_, rfl, defaults.minimum_le key, defaults.le_maximum key⟩

/-- The steps of `run/2`. -/
theorem run_eq_ok {limits : Limits} : run inspect opts defaults = .ok limits ↔
    ∃ pairs encoding, keywordPairs? opts = some pairs ∧ KnownKeys runKeys pairs ∧
      (∀ key, mergeBudgets pairs defaults key = .int (limits.budgets.value key)) ∧
      (encoding ∈ ["json", "raw"] ∧ keywordGet pairs "encoding" (.atom "json") = .atom encoding) ∧
      DenotesEnv (keywordGet pairs "env" .nil) limits.env ∧
      DenotesGrants (keywordGet pairs "callbacks" (.map [])) limits.callbacks ∧
      limits.encoding = if encoding = "raw" then .raw else .json := by
  unfold run
  simp only [Except.bind_eq_ok, keywords_eq_ok, budgets_eq_ok, member_eq_ok, environment_eq_ok,
    callbacks_eq_ok]
  constructor
  · rintro ⟨pairs, ⟨hpairs, hkeys⟩, b, hb, encoding, hencoding, env, henv, grants, hgrants, heq⟩
    cases heq
    exact ⟨pairs, encoding, hpairs, hkeys, hb, hencoding, henv, hgrants, rfl⟩
  · rintro ⟨pairs, encoding, hpairs, hkeys, hb, hencoding, henv, hgrants, heq⟩
    refine ⟨pairs, ⟨hpairs, hkeys⟩, _, hb, encoding, hencoding, _, henv, _, hgrants, ?_⟩
    rw [← heq]
    rfl

/-- The default of `:env` is the empty environment. -/
theorem denotesEnv_nil : DenotesEnv .nil [] :=
  ⟨rfl, nofun, Nat.zero_le _, Nat.zero_le _⟩

/-- The default of `:callbacks` grants nothing. -/
theorem denotesGrants_empty : DenotesGrants (.map []) ∅ :=
  ⟨[], rfl, rfl, Nat.zero_le _, nofun, rfl⟩

theorem oneOf_encoding (pairs : List (String × Term)) :
    OneOf ["json", "raw"] (keywordGet pairs "encoding" (.atom "json")) ↔
      WhenGiven pairs "encoding" (OneOf ["json", "raw"]) :=
  whenGiven_iff ⟨"json", List.mem_cons_self, rfl⟩

theorem denotesEnv_env (pairs : List (String × Term)) :
    (∃ env, DenotesEnv (keywordGet pairs "env" .nil) env) ↔
      WhenGiven pairs "env" fun value => ∃ env, DenotesEnv value env :=
  @whenGiven_iff pairs "env" (fun value => ∃ env, DenotesEnv value env) .nil
    ⟨[], denotesEnv_nil⟩

theorem denotesGrants_callbacks (pairs : List (String × Term)) :
    (∃ grants, DenotesGrants (keywordGet pairs "callbacks" (.map [])) grants) ↔
      WhenGiven pairs "callbacks" fun value => ∃ grants, DenotesGrants value grants :=
  @whenGiven_iff pairs "callbacks" (fun value => ∃ grants, DenotesGrants value grants) (.map [])
    ⟨∅, denotesGrants_empty⟩

/-- **`run/2` accepts** exactly the keyword lists that obey its rules. -/
theorem run_accepts_iff : (∃ limits, run inspect opts defaults = .ok limits) ↔
    ∃ pairs, keywordPairs? opts = some pairs ∧ RunRules pairs := by
  simp only [run_eq_ok]
  constructor
  · rintro ⟨limits, pairs, encoding, hpairs, hkeys, hb, hname, he, hg, -⟩
    refine ⟨pairs, hpairs, hkeys, fun key => ?_, (oneOf_encoding pairs).mp ⟨encoding, hname⟩,
      (denotesEnv_env pairs).mp ⟨_, he⟩, (denotesGrants_callbacks pairs).mp ⟨_, hg⟩⟩
    rw [← inRange_mergeBudgets pairs defaults key]
    exact ⟨_, hb key, limits.budgets.minimum_le key, limits.budgets.le_maximum key⟩
  · rintro ⟨pairs, hpairs, hrules⟩
    obtain ⟨b, hb⟩ := exists_budgets_eq_ok.mpr fun key =>
      (inRange_mergeBudgets pairs defaults key).mpr (hrules.budgets key)
    obtain ⟨encoding, hname⟩ := (oneOf_encoding pairs).mpr hrules.encoding
    obtain ⟨env, he⟩ := (denotesEnv_env pairs).mpr hrules.env
    obtain ⟨grants, hg⟩ := (denotesGrants_callbacks pairs).mpr hrules.callbacks
    exact ⟨⟨b, if encoding = "raw" then .raw else .json, env, grants⟩, pairs, encoding, hpairs,
      hrules.keys, budgets_eq_ok.mp hb, hname, he, hg, rfl⟩

/-- The budgets of an accepted call. -/
theorem run_value {limits : Limits} (h : run inspect opts defaults = .ok limits)
    (hpairs : keywordPairs? opts = some pairs) (key : BudgetKey) :
    .int (limits.budgets.value key) =
      (pairs.lookup key.name).getD (.int (defaults.value key)) := by
  obtain ⟨pairs', encoding, hpairs', -, hb, -⟩ := run_eq_ok.mp h
  obtain rfl : pairs' = pairs := Option.some.inj (hpairs'.symm.trans hpairs)
  exact (hb key).symm

/-- What makes `run/2` raise: everything that is checked before the environment obeys its rule,
and the environment is an improper list. -/
structure Derails (pairs : List (String × Term)) : Prop where
  keys : KnownKeys runKeys pairs
  budgets : ∀ key : BudgetKey, WhenGiven pairs key.name (InRange key.minimum key.maximum)
  encoding : WhenGiven pairs "encoding" (OneOf ["json", "raw"])
  env : ∃ value, pairs.lookup "env" = some value ∧ value.isList = true ∧ value.toList? = none

/-- **`run/2` raises** on such lists and on no others. -/
theorem run_raised_iff {exception : Raise} :
    run inspect opts defaults = .error (.raised exception) ↔
      exception = .argumentError ∧ ∃ pairs, keywordPairs? opts = some pairs ∧ Derails pairs := by
  have henv : ∀ pairs : List (String × Term),
      ((keywordGet pairs "env" .nil).isList = true ∧
        (keywordGet pairs "env" .nil).toList? = none) ↔
      ∃ value, pairs.lookup "env" = some value ∧ value.isList = true ∧ value.toList? = none := by
    intro pairs
    rw [keywordGet_eq]
    cases pairs.lookup "env" with
    | none => simp [Term.toList?]
    | some value => simp
  unfold run
  simp only [Except.bind_eq_error, keywords_ne_raised, budgets_ne_raised, member_ne_raised,
    callbacks_ne_raised, environment_raised, keywords_eq_ok, false_or]
  constructor
  · rintro ⟨pairs, ⟨hpairs, hkeys⟩, b, hb, encoding, hname, ⟨hlist, himproper, rfl⟩ | h⟩
    · refine ⟨rfl, pairs, hpairs, hkeys, fun key => ?_,
        (oneOf_encoding pairs).mp (exists_member_eq_ok.mp ⟨encoding, hname⟩),
        (henv pairs).mp ⟨hlist, himproper⟩⟩
      exact (inRange_mergeBudgets pairs defaults key).mp (exists_budgets_eq_ok.mp ⟨b, hb⟩ key)
    · -- after the environment nothing raises
      obtain ⟨env, -, grants, -, hpure⟩ := h
      cases hpure
  · rintro ⟨rfl, pairs, hpairs, h⟩
    obtain ⟨b, hb⟩ := exists_budgets_eq_ok.mpr fun key =>
      (inRange_mergeBudgets pairs defaults key).mpr (h.budgets key)
    obtain ⟨encoding, hname⟩ :=
      (@exists_member_eq_ok inspect _ "encoding" _).mpr
        ((oneOf_encoding pairs).mpr h.encoding)
    obtain ⟨hlist, himproper⟩ := (henv pairs).mpr h.env
    exact ⟨pairs, ⟨hpairs, h.keys⟩, b, hb, encoding, hname, .inl ⟨hlist, himproper, rfl⟩⟩

end Run

/-! ### `runtime/1` -/

theorem exists_integer_eq_ok {key : IntegerKey} {minimum : ℕ} :
    (∃ n, integer key value minimum = .ok n) ↔ InRange minimum key.maximum value := by
  simp only [integer_eq_ok, exists_and_left, and_iff_left_iff_imp]
  rintro ⟨n, rfl, -⟩
  exact ⟨n, rfl⟩

/-- The defaults of a runtime are in range if the given ones are. -/
theorem inRange_runtimeBudgets (pairs : List (String × Term)) (key : BudgetKey) :
    InRange key.minimum key.maximum (runtimeBudgets pairs key) ↔
      WhenGiven pairs key.runtimeName (InRange key.minimum key.maximum) :=
  whenGiven_iff ⟨_, rfl, Budgets.builtin.minimum_le key, Budgets.builtin.le_maximum key⟩

/-- The steps of `runtime/1`. -/
theorem runtime_eq_ok {opts : Term} {r : RuntimeOptions} : runtime inspect opts = .ok r ↔
    ∃ pairs backend, keywordPairs? opts = some pairs ∧ KnownKeys runtimeKeys pairs ∧
      (∀ key, runtimeBudgets pairs key = .int (r.defaults.value key)) ∧
      (backend ∈ ["in_process", "isolated"] ∧
        keywordGet pairs "backend" (.atom "in_process") = .atom backend) ∧
      integer .maxProcessMemory
        (keywordGet pairs "max_process_memory" (.int (512 * 1024 * 1024))) 1 =
          .ok r.maxProcessMemory ∧
      integer .maxConcurrency (keywordGet pairs "max_concurrency" (.int 4)) 1 =
        .ok r.maxConcurrency ∧
      integer .maxCacheBytes (keywordGet pairs "max_cache_bytes" (.int (64 * 1024 * 1024))) 0 =
        .ok r.maxCacheBytes ∧
      integer .maxCachedModules (keywordGet pairs "max_cached_modules" (.int 64)) 0 =
        .ok r.maxCachedModules ∧
      r.backend = if backend = "isolated" then .isolated else .inProcess := by
  unfold runtime
  simp only [Except.bind_eq_ok, keywords_eq_ok, budgets_eq_ok, member_eq_ok]
  constructor
  · rintro ⟨pairs, ⟨hpairs, hkeys⟩, b, hb, backend, hbackend, memory, hmemory, concurrency,
      hconcurrency, bytes, hbytes, modules, hmodules, heq⟩
    cases heq
    exact ⟨pairs, backend, hpairs, hkeys, hb, hbackend, hmemory, hconcurrency, hbytes, hmodules,
      rfl⟩
  · rintro ⟨pairs, backend, hpairs, hkeys, hb, hbackend, hmemory, hconcurrency, hbytes, hmodules,
      heq⟩
    refine ⟨pairs, ⟨hpairs, hkeys⟩, _, hb, backend, hbackend, _, hmemory, _, hconcurrency, _,
      hbytes, _, hmodules, ?_⟩
    rw [← heq]
    rfl

/-- **`runtime/1` accepts** exactly the keyword lists that obey its rules. -/
theorem runtime_accepts_iff {opts : Term} : (∃ r, runtime inspect opts = .ok r) ↔
    ∃ pairs, keywordPairs? opts = some pairs ∧ RuntimeRules pairs := by
  have hbackend : ∀ pairs,
      OneOf ["in_process", "isolated"] (keywordGet pairs "backend" (.atom "in_process")) ↔
        WhenGiven pairs "backend" (OneOf ["in_process", "isolated"]) := fun pairs =>
    whenGiven_iff ⟨"in_process", List.mem_cons_self, rfl⟩
  have hmemory : ∀ pairs, InRange 1 (IntegerKey.maximum .maxProcessMemory)
      (keywordGet pairs "max_process_memory" (.int (512 * 1024 * 1024))) ↔ _ := fun pairs =>
    whenGiven_iff ⟨512 * 1024 * 1024, rfl, by decide, by decide⟩
  have hconcurrency : ∀ pairs, InRange 1 (IntegerKey.maximum .maxConcurrency)
      (keywordGet pairs "max_concurrency" (.int 4)) ↔ _ := fun pairs =>
    whenGiven_iff ⟨4, rfl, by decide, by decide⟩
  have hbytes : ∀ pairs, InRange 0 (IntegerKey.maximum .maxCacheBytes)
      (keywordGet pairs "max_cache_bytes" (.int (64 * 1024 * 1024))) ↔ _ := fun pairs =>
    whenGiven_iff ⟨64 * 1024 * 1024, rfl, by decide, by decide⟩
  have hmodules : ∀ pairs, InRange 0 (IntegerKey.maximum .maxCachedModules)
      (keywordGet pairs "max_cached_modules" (.int 64)) ↔ _ := fun pairs =>
    whenGiven_iff ⟨64, rfl, by decide, by decide⟩
  simp only [runtime_eq_ok]
  constructor
  · rintro ⟨r, pairs, backend, hpairs, hkeys, hb, hname, h1, h2, h3, h4, -⟩
    refine ⟨pairs, hpairs, hkeys, fun key => ?_, (hbackend pairs).mp ⟨backend, hname⟩,
      (hmemory pairs).mp (exists_integer_eq_ok.mp ⟨_, h1⟩),
      (hconcurrency pairs).mp (exists_integer_eq_ok.mp ⟨_, h2⟩),
      (hbytes pairs).mp (exists_integer_eq_ok.mp ⟨_, h3⟩),
      (hmodules pairs).mp (exists_integer_eq_ok.mp ⟨_, h4⟩)⟩
    rw [← inRange_runtimeBudgets]
    exact ⟨_, hb key, r.defaults.minimum_le key, r.defaults.le_maximum key⟩
  · rintro ⟨pairs, hpairs, hrules⟩
    obtain ⟨b, hb⟩ := exists_budgets_eq_ok.mpr fun key =>
      (inRange_runtimeBudgets pairs key).mpr (hrules.budgets key)
    obtain ⟨backend, hname⟩ := (hbackend pairs).mpr hrules.backend
    obtain ⟨memory, h1⟩ := exists_integer_eq_ok.mpr ((hmemory pairs).mpr hrules.maxProcessMemory)
    obtain ⟨concurrency, h2⟩ :=
      exists_integer_eq_ok.mpr ((hconcurrency pairs).mpr hrules.maxConcurrency)
    obtain ⟨bytes, h3⟩ := exists_integer_eq_ok.mpr ((hbytes pairs).mpr hrules.maxCacheBytes)
    obtain ⟨modules, h4⟩ := exists_integer_eq_ok.mpr ((hmodules pairs).mpr hrules.maxCachedModules)
    exact ⟨⟨b, if backend = "isolated" then .isolated else .inProcess, memory, concurrency, bytes,
      modules⟩, pairs, backend, hpairs, hrules.keys, budgets_eq_ok.mp hb, hname, h1, h2, h3, h4,
      rfl⟩

/-- The defaults of an accepted runtime. -/
theorem runtime_value {opts : Term} {r : RuntimeOptions} (h : runtime inspect opts = .ok r)
    (hpairs : keywordPairs? opts = some pairs) (key : BudgetKey) :
    .int (r.defaults.value key) =
      (pairs.lookup key.runtimeName).getD (.int key.builtinDefault) := by
  obtain ⟨pairs', backend, hpairs', -, hb, -⟩ := runtime_eq_ok.mp h
  obtain rfl : pairs' = pairs := Option.some.inj (hpairs'.symm.trans hpairs)
  exact (hb key).symm

/-! ### `compile/1` -/

section Compile

variable {opts : Term}

/-- A keyword list is read back as its pairs. -/
theorem keywordPairs?_foldr (pairs : List (String × Term)) :
    keywordPairs? (pairs.foldr (fun pair rest => .cons (.tuple [.atom pair.1, pair.2]) rest)
      .nil) = some pairs := by
  have hlist : (pairs.foldr (fun pair rest => .cons (.tuple [.atom pair.1, pair.2]) rest)
      Term.nil).toList? = some (pairs.map fun pair => .tuple [.atom pair.1, pair.2]) := by
    induction pairs with
    | nil => rfl
    | cons pair pairs ih => rw [List.foldr_cons, Term.toList?, ih, Option.map_some, List.map_cons]
  rw [keywordPairs?, hlist, Option.bind_some, List.mapM_eq_some]
  exact List.forall₂_map_left_iff.mpr (List.forall₂_same.mpr fun pair _ => rfl)

/-- The pairs whose keys are budgets. -/
def budgetPairs (pairs : List (String × Term)) : List (String × Term) :=
  pairs.filter fun pair => (BudgetKey.all.map BudgetKey.name).contains pair.1

/-- What `compile/1` hands to `run/2` are the budgets that it was given. -/
theorem keywordPairs?_takeBudgets (pairs : List (String × Term)) :
    keywordPairs? (takeBudgets pairs) = some (budgetPairs pairs) :=
  keywordPairs?_foldr _

/-- Leaving out other keys does not change what is given under a key. -/
theorem lookup_filter (p : String → Bool) {key : String} (h : p key = true)
    (pairs : List (String × Term)) :
    (pairs.filter fun pair => p pair.1).lookup key = pairs.lookup key := by
  induction pairs with
  | nil => rfl
  | cons pair pairs ih =>
    obtain ⟨key', value⟩ := pair
    rw [List.filter_cons]
    by_cases hkey : key = key'
    · subst hkey
      rw [if_pos h, List.lookup_cons_self, List.lookup_cons_self]
    · have hne : (key == key') = false := beq_false_of_ne hkey
      split_ifs
      · rw [List.lookup_cons, List.lookup_cons, hne, ih]
      · rw [List.lookup_cons, hne, ih]

/-- Under the name of a budget they have what was given. -/
theorem lookup_budgetPairs (pairs : List (String × Term)) (key : BudgetKey) :
    (budgetPairs pairs).lookup key.name = pairs.lookup key.name :=
  lookup_filter _ (by
    rw [List.contains_iff_mem]
    exact List.mem_map_of_mem (BudgetKey.mem_all key)) pairs

/-- Under any other key they have nothing. -/
theorem lookup_budgetPairs_eq_none (pairs : List (String × Term)) {key : String}
    (h : key ∉ BudgetKey.all.map BudgetKey.name) : (budgetPairs pairs).lookup key = none := by
  rw [List.lookup_eq_none_iff]
  intro pair hpair
  have hmem := (List.mem_filter.mp hpair).2
  rw [List.contains_iff_mem] at hmem
  exact bne_iff_ne.mpr fun heq => h (heq ▸ hmem)

/-- The budgets of a compilation obey the rules of `run/2` as soon as they are in range. -/
theorem runRules_budgetPairs (hkeys : (pairs.map Prod.fst).Nodup) :
    RunRules (budgetPairs pairs) ↔
      ∀ key : BudgetKey, WhenGiven pairs key.name (InRange key.minimum key.maximum) := by
  have hother : ∀ key ∈ ["encoding", "env", "callbacks"],
      key ∉ BudgetKey.all.map BudgetKey.name := by
    decide
  have hnone : ∀ key ∈ ["encoding", "env", "callbacks"], ∀ rule,
      WhenGiven (budgetPairs pairs) key rule := by
    intro key hkey rule value hvalue
    rw [lookup_budgetPairs_eq_none pairs (hother key hkey)] at hvalue
    cases hvalue
  constructor
  · intro h key value hvalue
    exact h.budgets key value (lookup_budgetPairs pairs key ▸ hvalue)
  · intro h
    refine ⟨⟨fun pair hpair => ?_, ?_⟩, fun key value hvalue => ?_, hnone _ (by decide) _,
      hnone _ (by decide) _, hnone _ (by decide) _⟩
    · have hmem := (List.mem_filter.mp hpair).2
      rw [List.contains_iff_mem] at hmem
      exact List.mem_append_left _ hmem
    · exact hkeys.sublist (List.filter_sublist.map Prod.fst)
    · exact h key value (lookup_budgetPairs pairs key ▸ hvalue)

/-- The steps of `compile/1`. -/
theorem compile_eq_ok {limits : CompileLimits} : compile inspect opts = .ok limits ↔
    ∃ pairs, keywordPairs? opts = some pairs ∧ KnownKeys compileKeys pairs ∧
      OneOf ["dynamic", "static"] (keywordGet pairs "mode" (.atom "dynamic")) ∧
      (∃ run, Options.run inspect (takeBudgets pairs) .builtin = .ok run ∧
        limits.budgets = run.budgets) ∧
      integer .maxSource (keywordGet pairs "max_source" (.int (Budgets.builtin.maxInput))) 1 =
        .ok limits.maxInput := by
  unfold compile
  simp only [Except.bind_eq_ok, keywords_eq_ok]
  constructor
  · rintro ⟨pairs, ⟨hpairs, hkeys⟩, mode, hmode, run, hrun, source, hsource, heq⟩
    cases heq
    exact ⟨pairs, hpairs, hkeys, exists_member_eq_ok.mp ⟨mode, hmode⟩, ⟨run, hrun, rfl⟩, hsource⟩
  · rintro ⟨pairs, hpairs, hkeys, hmode, ⟨run, hrun, heq⟩, hsource⟩
    obtain ⟨mode, hmode⟩ := exists_member_eq_ok.mpr hmode
    refine ⟨pairs, ⟨hpairs, hkeys⟩, mode, hmode, run, hrun, _, hsource, ?_⟩
    rw [← heq]
    rfl

/-- **`compile/1` accepts** exactly the keyword lists that obey its rules. -/
theorem compile_accepts_iff : (∃ limits, compile inspect opts = .ok limits) ↔
    ∃ pairs, keywordPairs? opts = some pairs ∧ CompileRules pairs := by
  have hmode : ∀ pairs, OneOf ["dynamic", "static"] (keywordGet pairs "mode" (.atom "dynamic")) ↔
      WhenGiven pairs "mode" (OneOf ["dynamic", "static"]) := fun pairs =>
    whenGiven_iff ⟨"dynamic", List.mem_cons_self, rfl⟩
  have hsource : ∀ pairs, InRange 1 (IntegerKey.maximum .maxSource)
      (keywordGet pairs "max_source" (.int (Budgets.builtin.maxInput))) ↔ _ := fun pairs =>
    whenGiven_iff ⟨_, rfl, by decide, by decide⟩
  have hrun : ∀ pairs, (∃ run, Options.run inspect (takeBudgets pairs) .builtin = .ok run) ↔
      RunRules (budgetPairs pairs) := by
    intro pairs
    rw [run_accepts_iff, keywordPairs?_takeBudgets]
    simp
  simp only [compile_eq_ok]
  constructor
  · rintro ⟨limits, pairs, hpairs, hkeys, hm, ⟨run, hr, -⟩, hs⟩
    exact ⟨pairs, hpairs, hkeys, (hmode pairs).mp hm,
      (runRules_budgetPairs hkeys.unique).mp ((hrun pairs).mp ⟨run, hr⟩),
      (hsource pairs).mp (exists_integer_eq_ok.mp ⟨_, hs⟩)⟩
  · rintro ⟨pairs, hpairs, hrules⟩
    obtain ⟨run, hr⟩ :=
      (hrun pairs).mpr ((runRules_budgetPairs hrules.keys.unique).mpr hrules.budgets)
    obtain ⟨source, hs⟩ := exists_integer_eq_ok.mpr ((hsource pairs).mpr hrules.maxSource)
    exact ⟨⟨run.budgets, source⟩, pairs, hpairs, hrules.keys, (hmode pairs).mpr hrules.mode,
      ⟨run, hr, rfl⟩, hs⟩

/-- The budgets of an accepted compilation. -/
theorem compile_value {limits : CompileLimits} (h : compile inspect opts = .ok limits)
    (hpairs : keywordPairs? opts = some pairs) :
    (∀ key : BudgetKey, .int (limits.budgets.value key) =
      (pairs.lookup key.name).getD (.int key.builtinDefault)) ∧
    .int limits.maxInput =
      (pairs.lookup "max_source").getD (.int (BudgetKey.maxInput.builtinDefault)) ∧
    1 ≤ limits.maxInput ∧ limits.maxInput ≤ 18446744073709551615 := by
  obtain ⟨pairs', hpairs', -, -, ⟨run, hrun, heq⟩, hsource⟩ := compile_eq_ok.mp h
  obtain rfl : pairs' = pairs := Option.some.inj (hpairs'.symm.trans hpairs)
  obtain ⟨⟨n, hn, hmin, hmax⟩, hvalue⟩ := integer_eq_ok.mp hsource
  obtain rfl : limits.maxInput = n := by
    have := hvalue.symm.trans hn
    simp only [Term.int.injEq] at this
    omega
  refine ⟨fun key => ?_, hvalue.symm, hmin, hmax⟩
  rw [heq, run_value hrun (keywordPairs?_takeBudgets pairs') key, lookup_budgetPairs]
  rfl

end Compile

end Javex.Options
