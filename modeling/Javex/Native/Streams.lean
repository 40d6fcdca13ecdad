import Javex.ForMathlib.Checked
import Javex.Native.Store

/-!
# Output is an exact bounded prefix

`Output` of `native/javex_nif/src/output.rs` with its clones, which carry the capacity and share one
`State`, and with its subtractions checked. `write` and `poll_write` are both `append`.

* `output_exact`: what any calls through any clones leave.
* `split_exceeds_iff`: a writer that asks `check_write` how much it may write.

`Store.lean` has one copy of each stream; in the source a stream has a handle on the side of the
host and one in the engine's table of descriptors, and every clone has the same capacity and the
same shared state. The order of the calls through all handles is the order in which the lock is
taken, so that a run is a list of calls with the number of the handle in each.

A guest's write goes through `check_write` first, which says how much may be written, and a writer
may split what it has and ask again. `Split` is a way to split that stops at a refusal, and
`split_exceeds_iff` says that the flag does not depend on the way: it goes up exactly if the whole
does not fit.
-/

namespace Javex.Native

open Unsigned

namespace Output

variable (o : Output)

/-- `Output::append`, and whether it succeeds. -/
def appendChecked (bytes : Bytes) : Option (Output × Bool) := do
  let available ← sub? o.capacity o.bytes.length
  let count := min available bytes.length
  let o := { o with bytes := o.bytes ++ bytes.take count }
  if count < bytes.length then return ({ o with exceeded := true }, false)
  else return (o, true)

/-- `check_write`: one byte is offered when none is left. -/
def checkWrite : Option ℕ := do
  let available ← sub? o.capacity o.bytes.length
  return max available 1

/-- The output after writes with these bytes in all. -/
structure Exact (o : Output) (capacity : ℕ) (all : Bytes) : Prop where
  capacity_eq : o.capacity = capacity
  bytes_eq : o.bytes = all.take capacity
  exceeded_iff : o.exceeded = true ↔ capacity < all.length

variable {o} {capacity : ℕ} {all : Bytes}

theorem exact_new (capacity : ℕ) : (new capacity).Exact capacity [] :=
  ⟨rfl, List.take_nil.symm, iff_of_false nofun (Nat.not_lt_zero _)⟩

theorem Exact.length_le (h : o.Exact capacity all) : o.bytes.length ≤ o.capacity := by
  rw [h.bytes_eq, h.capacity_eq]
  exact List.length_take_le _ _

theorem Exact.appendChecked_eq (h : o.Exact capacity all) (bytes : Bytes) :
    o.appendChecked bytes = some (o.append bytes) := by
  unfold appendChecked append
  rw [sub?_of_le h.length_le]
  simp only [Option.bind_eq_bind, Option.bind_some]
  split_ifs <;> rfl

theorem Exact.checkWrite_eq (h : o.Exact capacity all) :
    o.checkWrite = some (max (capacity - all.length) 1) := by
  unfold checkWrite
  rw [sub?_of_le h.length_le, h.capacity_eq, h.bytes_eq, List.length_take]
  have hroom : capacity - min capacity all.length = capacity - all.length := by omega
  simp [hroom]

/-- **A write** keeps what fits, and fails if some of it does not. -/
theorem Exact.append (h : o.Exact capacity all) (bytes : Bytes) :
    (o.append bytes).1.Exact capacity (all ++ bytes) ∧
      ((o.append bytes).2 = false ↔ capacity < (all ++ bytes).length ∧ bytes ≠ []) := by
  have hlength : o.bytes.length = min capacity all.length := by
    rw [h.bytes_eq, List.length_take]
  have hcapacity := h.capacity_eq
  have hkept : o.bytes ++ bytes.take (min (o.capacity - o.bytes.length) bytes.length) =
      (all ++ bytes).take capacity := by
    rw [List.take_append, h.bytes_eq]
    congr 1
    rw [List.take_eq_take_iff]
    rw [← h.bytes_eq]
    omega
  have hnonempty : bytes ≠ [] ↔ 0 < bytes.length := List.length_pos_iff.symm
  rw [hnonempty, List.length_append]
  by_cases hover : min (o.capacity - o.bytes.length) bytes.length < bytes.length
  · have happend : o.append bytes = ({ o with
        bytes := o.bytes ++ bytes.take (min (o.capacity - o.bytes.length) bytes.length)
        exceeded := true }, false) := by
      simp only [Output.append, hover, if_true]
    rw [happend]
    refine ⟨⟨hcapacity, hkept, iff_of_true rfl ?_⟩, iff_of_true rfl ?_⟩
    · rw [List.length_append]
      omega
    · omega
  · have happend : o.append bytes = ({ o with
        bytes := o.bytes ++ bytes.take (min (o.capacity - o.bytes.length) bytes.length) },
        true) := by
      simp only [Output.append, hover, if_false]
    rw [happend]
    refine ⟨⟨hcapacity, hkept, h.exceeded_iff.trans ?_⟩, iff_of_false (by rintro ⟨⟩) ?_⟩
    · rw [List.length_append]
      omega
    · omega

end Output

/-! ### Clones -/

/-- The clones of an `Output`: the capacity each carries, the `State` that they share, and the
writes so far with their answers. -/
structure Clones where
  capacities : List ℕ
  bytes : Bytes
  exceeded : Bool
  log : List (Bytes × Bool)

/-- A call through a clone. -/
inductive StreamCall
  | clone (i : ℕ)
  | drop (i : ℕ)
  | write (i : ℕ) (bytes : Bytes)
  | checkWrite (i : ℕ)
  | flush (i : ℕ)

namespace Clones

/-- `Output::new`. -/
def new (capacity : ℕ) : Clones :=
  { capacities := [capacity], bytes := [], exceeded := false, log := [] }

variable (s : Clones)

/-- The output as a clone sees it. -/
def view (i : ℕ) : Option Output :=
  s.capacities[i]?.map fun capacity => { capacity, bytes := s.bytes, exceeded := s.exceeded }

/-- The bytes of all writes so far. -/
def all : Bytes := s.log.flatMap Prod.fst

/-- The clones after a write, given the output that it leaves and its answer. -/
def wrote (bytes : Bytes) (left : Output × Bool) : Clones :=
  { s with
    bytes := left.1.bytes
    exceeded := left.1.exceeded
    log := s.log ++ [(bytes, left.2)] }

/-- One call, unless it panics. A clone that there is not makes no call. -/
def call : StreamCall → Option Clones
  | .clone i => some { s with capacities := s.capacities ++ s.capacities[i]?.toList }
  | .drop i => some { s with capacities := s.capacities.eraseIdx i }
  | .write i bytes =>
    match s.view i with
    | none => some s
    | some o => (o.appendChecked bytes).map (s.wrote bytes)
  | .checkWrite i =>
    match s.view i with
    | none => some s
    | some o => o.checkWrite.map fun _ => s
  | .flush _ => some s

/-- Some calls, unless one of them panics. -/
def calls (s : Clones) (cs : List StreamCall) : Option Clones := cs.foldlM call s

/-- The invariant of the clones of an output. -/
structure Sound (capacity : ℕ) (s : Clones) : Prop where
  capacities : ∀ c ∈ s.capacities, c = capacity
  exact : Output.Exact ⟨capacity, s.bytes, s.exceeded⟩ capacity s.all
  answers : ∀ before bytes ok after, s.log = before ++ (bytes, ok) :: after →
    (ok = false ↔ capacity < (before.flatMap Prod.fst ++ bytes).length ∧ bytes ≠ [])

variable {s} {capacity : ℕ}

theorem all_wrote (bytes : Bytes) (left : Output × Bool) :
    (s.wrote bytes left).all = s.all ++ bytes := by
  simp [all, wrote]

theorem Sound.new (capacity : ℕ) : (Clones.new capacity).Sound capacity :=
  ⟨fun _ hc => List.mem_singleton.mp hc, Output.exact_new capacity, fun before _ _ _ h => by
    cases before <;> cases h⟩

theorem Sound.view (h : s.Sound capacity) {i : ℕ} {o : Output} (hview : s.view i = some o) :
    o = ⟨capacity, s.bytes, s.exceeded⟩ := by
  obtain ⟨c, hc, rfl⟩ := Option.map_eq_some_iff.mp hview
  rw [h.capacities c (List.mem_of_getElem? hc)]

/-- One call. -/
theorem Sound.call (h : s.Sound capacity) (l : StreamCall) :
    ∃ s', s.call l = some s' ∧ s'.Sound capacity := by
  cases l with
  | clone i =>
    refine ⟨_, rfl, { h with capacities := fun c hc => ?_ }⟩
    rcases List.mem_append.mp hc with hold | hnew
    · exact h.capacities c hold
    · exact h.capacities c (List.mem_of_getElem? (Option.mem_toList.mp hnew))
  | drop i =>
    exact ⟨_, rfl,
      { h with capacities := fun c hc => h.capacities c (List.mem_of_mem_eraseIdx hc) }⟩
  | write i bytes =>
    cases hview : s.view i with
    | none => exact ⟨s, by rw [Clones.call, hview], h⟩
    | some o =>
      obtain rfl := h.view hview
      obtain ⟨hexact, hanswer⟩ := h.exact.append bytes
      have hcall : s.call (.write i bytes) = some (s.wrote bytes
          (Output.append ⟨capacity, s.bytes, s.exceeded⟩ bytes)) := by
        simp [Clones.call, hview, h.exact.appendChecked_eq, wrote]
      refine ⟨_, hcall, h.capacities, ?_, fun before bytes' ok after hlog => ?_⟩
      · rw [all_wrote]
        exact ⟨rfl, hexact.bytes_eq, hexact.exceeded_iff⟩
      · -- the last write, or one before it
        rcases after.eq_nil_or_concat with rfl | ⟨rest, last, rfl⟩
        · obtain ⟨rfl, heq⟩ := List.append_inj' hlog rfl
          cases heq
          exact hanswer
        · rw [List.concat_eq_append, ← List.cons_append, ← List.append_assoc] at hlog
          exact h.answers before bytes' ok rest (List.append_inj' hlog rfl).1
  | checkWrite i =>
    cases hview : s.view i with
    | none => exact ⟨s, by rw [Clones.call, hview], h⟩
    | some o =>
      obtain rfl := h.view hview
      exact ⟨s, by simp [Clones.call, hview, h.exact.checkWrite_eq], h⟩
  | flush i => exact ⟨s, rfl, h⟩

/-- Any calls. -/
theorem Sound.calls (h : s.Sound capacity) (cs : List StreamCall) :
    ∃ s', s.calls cs = some s' ∧ s'.Sound capacity := by
  induction cs generalizing s with
  | nil => exact ⟨s, rfl, h⟩
  | cons l cs ih =>
    obtain ⟨s₁, hcall, h₁⟩ := h.call l
    obtain ⟨s₂, hcalls, h₂⟩ := ih h₁
    refine ⟨s₂, ?_, h₂⟩
    rw [Clones.calls, List.foldlM_cons, hcall]
    exact hcalls

end Clones

/-! ### A writer that asks -/

/-- A writer has written its data in pieces of at most the size that it was offered, or stopped at
the first that failed. -/
inductive Split : Output → Bytes → Output → Prop
  | done (o : Output) : Split o [] o
  | piece {o o' left : Output} {offer : ℕ} {bytes rest : Bytes} :
      o.checkWrite = some offer → bytes.length ≤ offer →
      o.appendChecked bytes = some (o', true) → Split o' rest left → Split o (bytes ++ rest) left
  | failed {o left : Output} {offer : ℕ} {bytes rest : Bytes} :
      o.checkWrite = some offer → bytes.length ≤ offer →
      o.appendChecked bytes = some (left, false) → Split o (bytes ++ rest) left

/-- However a writer splits its data, the quota is exceeded exactly if the total is. -/
theorem split_exceeds_iff {o left : Output} {capacity : ℕ} {all data : Bytes}
    (h : o.Exact capacity all) (hsplit : Split o data left) :
    left.exceeded = true ↔ capacity < (all ++ data).length := by
  induction hsplit generalizing all with
  | done o => simpa using h.exceeded_iff
  | @piece o o' left offer bytes rest _ _ happend _ ih =>
    obtain ⟨hexact, -⟩ := h.append bytes
    rw [h.appendChecked_eq, Option.some.injEq] at happend
    rw [happend] at hexact
    rw [ih hexact, List.append_assoc]
  | @failed o left offer bytes rest _ _ happend =>
    obtain ⟨hexact, hanswer⟩ := h.append bytes
    rw [h.appendChecked_eq, Option.some.injEq] at happend
    rw [happend] at hexact hanswer
    have hover := (hanswer.mp rfl).1
    refine iff_of_true (hexact.exceeded_iff.mpr hover) ?_
    rw [← List.append_assoc, List.length_append]
    omega

/-- At least one byte is offered, so a writer comes to an end whatever it has to write. -/
theorem exists_split {o : Output} {capacity : ℕ} {all : Bytes} (h : o.Exact capacity all)
    (data : Bytes) : ∃ left, Split o data left := by
  induction hn : data.length using Nat.strong_induction_on generalizing o all data with
  | _ n ih =>
    by_cases hdata : data = []
    · exact ⟨o, hdata ▸ .done o⟩
    · have hoffer := h.checkWrite_eq
      have hpos : 0 < data.length := List.length_pos_iff.mpr hdata
      obtain ⟨hexact, -⟩ := h.append (data.take (max (capacity - all.length) 1))
      have hchecked := h.appendChecked_eq (data.take (max (capacity - all.length) 1))
      have hlength := List.length_take_le (max (capacity - all.length) 1) data
      cases hleft : o.append (data.take (max (capacity - all.length) 1)) with
      | mk o' ok =>
        rw [hleft] at hexact hchecked
        rw [← List.take_append_drop (max (capacity - all.length) 1) data]
        cases ok with
        | false => exact ⟨o', .failed hoffer hlength hchecked⟩
        | true =>
          have hshorter : (data.drop (max (capacity - all.length) 1)).length < n := by
            rw [List.length_drop]
            omega
          obtain ⟨left, hsplit⟩ := ih _ hshorter hexact _ rfl
          exact ⟨left, .piece hoffer hlength hchecked hsplit⟩

/-- **Output is an exact bounded prefix.** After any calls through any clones, none of which
underflows, every clone holds the first `capacity` bytes of all that was written, its flag is up
exactly if more was written, and a write has failed exactly if it was not empty and more was written
with it. At least one byte is always offered, and a writer that splits its data by the offers comes
to an end, with the flag up exactly if its total is too much. -/
theorem output_exact (capacity : ℕ) (cs : List StreamCall) :
    ∃ s, (Clones.new capacity).calls cs = some s ∧
      (∀ before bytes ok after, s.log = before ++ (bytes, ok) :: after →
        (ok = false ↔ capacity < (before.flatMap Prod.fst ++ bytes).length ∧ bytes ≠ [])) ∧
      ∀ i o, s.view i = some o →
        o.bytes = s.all.take capacity ∧ (o.exceeded = true ↔ capacity < s.all.length) ∧
        (∃ offer, o.checkWrite = some offer ∧ 1 ≤ offer) ∧
        ∀ data, (∃ left, Split o data left) ∧
          ∀ left, Split o data left →
            (left.exceeded = true ↔ capacity < (s.all ++ data).length) := by
  obtain ⟨s, hcalls, h⟩ := (Clones.Sound.new capacity).calls cs
  refine ⟨s, hcalls, h.answers, fun i o hview => ?_⟩
  obtain rfl := h.view hview
  exact ⟨h.exact.bytes_eq, h.exact.exceeded_iff, ⟨_, h.exact.checkWrite_eq, le_max_right _ _⟩,
    fun data => ⟨exists_split h.exact data, fun left hsplit => split_exceeds_iff h.exact hsplit⟩⟩

end Javex.Native
