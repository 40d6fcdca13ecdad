import Javex.Native.Store
import Javex.Wasm.Heap
import Mathlib.Data.Nat.Log
import Mathlib.Tactic.Abel

/-!
# The binary interface of the plugin

`realloc`, `output` and the two functions that leave a record, `compile` and `step`, of
`native/javex_plugin/src/lib.rs`, in the linear memory of the plugin. The allocator of the Rust
standard library and the closures that call the JavaScript engine are parameters (`Platform`): they
trade the blocks they own and touch nothing else.

* `realloc_spec`: `cabi_realloc` moves a block with as much of its contents as fits, and leaves the
  other blocks alone; it fails only by aborting.
* `Instance.exported_spec`: a function that returns leaves the address of a record that encodes
  what its closure returned, in a heap that holds nothing but what the plugin owns.

Blocks have an owner, which is not in the memory but in the accounting: the plugin owns what its
engine has allocated, the vector of the last result and the record, and the host what it has asked
for and not given back. `Instance.Sound` says that these together are the blocks in use, and a
function of the interface is specified by the trade that it makes, in the presence of whatever else
is in use.

The vector of the last result is replaced by the next one, so a host that keeps the address of a
result too long reads another one; the functions that follow always read at once.
-/

namespace Javex.Plugin

open Native Wasm

/-! ### What the plugin is made of -/

/-- A `Vec<u8>`. -/
structure Vec where
  ptr : ℕ
  len : ℕ
  capacity : ℕ
  len_le : len ≤ capacity
  capacity_lt : capacity < 2 ^ 31
  dangling : capacity = 0 → ptr = 1

/-- A range, if it is one. -/
def range (ptr size : ℕ) : Multiset Block := if size = 0 then 0 else {⟨ptr, size⟩}

/-- The block of a vector. -/
def Vec.blocks (v : Vec) : Multiset Block := range v.ptr v.capacity

/-- What is in a vector. -/
def Vec.contents (v : Vec) (m : Wasm.Memory) : Option Bytes := m.read v.ptr v.len

/-- The vector that is made of the result of a closure: its value, or the text of its error. -/
def vector : Except Vec Vec → Vec
  | .ok bytes | .error bytes => bytes

/-- The tag for `output`. -/
def tag : Except Vec Vec → ℕ
  | .ok _ => 0
  | .error _ => 1

/-- The exported functions that return a record. -/
inductive Entry
  | compile | step

/-- What the closures of the other exported functions do. -/
inductive Task
  | create
  | load (bytecode : Bytes)
  | configure (calls concurrent input : UInt32)

/-- What the plugin is linked with: the allocator of `std::alloc`, the JavaScript engine with the
closures that run it, and what `abort` and an access out of bounds are to the host. The engine may
trap, and an error of a closure in `checked` aborts; either is an error here. The blocks of the
engine and the vector of a result are the only ones that it trades. -/
structure Platform (Γ : Type) where
  allocator : Allocator
  aborted : Failure
  outOfBounds : Failure
  owned : Γ → Multiset Block
  run : Entry → Bytes → Γ → Heap → Except Failure (Except Vec Vec × Γ × Heap)
  run_spec : ∀ {entry : Entry} {input : Bytes} {g g' : Γ} {h h' : Heap} {result : Except Vec Vec},
    run entry input g h = .ok (result, g', h') →
      h.Trades h' (owned g) (owned g' + (vector result).blocks)
  perform : Task → Γ → Heap → Except Failure (Γ × Heap)
  perform_spec : ∀ {task : Task} {g g' : Γ} {h h' : Heap},
    perform task g h = .ok (g', h') → h.Trades h' (owned g) (owned g')

/-- The plugin in memory: its heap, the engine, the vector of `OUTPUT`, and the address of
`RECORD`. -/
structure Instance (Γ : Type) where
  heap : Heap
  engine : Γ
  output : Vec
  record : ℕ

section Source

variable {Γ : Type} (p : Platform Γ)

/-- `Layout::from_size_align` with a size and an alignment of 32 bits. -/
def ValidLayout (size align : ℕ) : Prop := align = 2 ^ align.log2 ∧ size + align ≤ 2 ^ 31

instance (size align : ℕ) : Decidable (ValidLayout size align) :=
  inferInstanceAs (Decidable (_ ∧ _))

/-- `dealloc` with the layout that it is given. -/
def free (h : Heap) (ptr old align : ℕ) : Except Failure Heap :=
  if ValidLayout old align then .ok (p.allocator.dealloc h ⟨ptr, old⟩ align)
  else .error p.aborted

/-- `realloc`, exported as `cabi_realloc`. -/
def realloc (h : Heap) (ptr old align size : ℕ) : Except Failure (ℕ × Heap) :=
  if size = 0 then
    if old ≠ 0 then (free p h ptr old align).map fun h => (align, h) else .ok (align, h)
  else if ¬ ValidLayout size align then .error p.aborted
  else
    match p.allocator.alloc h size align with
    | none => .error p.aborted
    | some (new, h) =>
      if old ≠ 0 then
        -- `ptr::copy_nonoverlapping`
        match (h.memory.read ptr (min old size)).bind fun bytes => h.memory.write new bytes with
        | none => .error p.outOfBounds
        | some memory => (free p (h.withMemory memory) ptr old align).map fun h => (new, h)
      else .ok (new, h)

/-- `u32::to_le_bytes`, as the linear memory stores a word. -/
def leBytes (n : ℕ) : Bytes :=
  [UInt8.ofNat n, UInt8.ofNat (n / 256), UInt8.ofNat (n / 65536), UInt8.ofNat (n / 16777216)]

/-- The drop of a vector. -/
def Vec.drop (v : Vec) (h : Heap) : Heap :=
  if v.capacity = 0 then h else p.allocator.dealloc h ⟨v.ptr, v.capacity⟩ 1

namespace Instance

variable (i : Instance Γ)

/-- `output`. -/
def setOutput (tag : ℕ) (bytes : Vec) : Except Failure (ℕ × Instance Γ) :=
  let heap := i.output.drop p i.heap
  match heap.memory.write i.record (leBytes tag ++ leBytes bytes.ptr ++ leBytes bytes.len) with
  | none => .error p.outOfBounds
  | some memory => .ok (i.record, { i with heap := heap.withMemory memory, output := bytes })

/-- `compile` and `step`. -/
def exported (entry : Entry) (ptr len : ℕ) : Except Failure (ℕ × Instance Γ) :=
  match i.heap.memory.read ptr len with
  | none => .error p.outOfBounds
  | some input =>
    match p.run entry input i.engine i.heap with
    | .error failure => .error failure
    | .ok (result, engine, heap) =>
      { i with engine, heap }.setOutput p (tag result) (vector result)

/-- A function whose closure returns nothing. -/
def performed (task : Task) : Except Failure (Instance Γ) :=
  (p.perform task i.engine i.heap).map fun (engine, heap) => { i with engine, heap }

/-- `initialize`, exported as `initialize-runtime`. -/
def initializeRuntime : Except Failure (Instance Γ) := i.performed p .create

/-- `configure`. -/
def configure (calls concurrent input : UInt32) : Except Failure (Instance Γ) :=
  i.performed p (.configure calls concurrent input)

/-- `invoke`. -/
def invoke (ptr len : ℕ) (named : UInt32) : Except Failure (Instance Γ) :=
  -- `assert_eq!`
  if named ≠ 0 then .error p.aborted
  else
    match i.heap.memory.read ptr len with
    | none => .error p.outOfBounds
    | some bytecode => i.performed p (.load bytecode)

end Instance

end Source

/-! ### Blocks of the interface -/

theorem range_zero (ptr : ℕ) : range ptr 0 = 0 := if_pos rfl

theorem range_of_ne {ptr size : ℕ} (h : size ≠ 0) : range ptr size = {⟨ptr, size⟩} := if_neg h

theorem mem_range {ptr size : ℕ} (h : size ≠ 0) : ⟨ptr, size⟩ ∈ range ptr size := by
  rw [range_of_ne h]
  exact Multiset.mem_singleton_self _

variable {Γ : Type} {p : Platform Γ}

/-- A vector gives its block back. -/
theorem Vec.trades_drop (v : Vec) (h : Heap) : h.Trades (v.drop p h) v.blocks 0 := by
  unfold Vec.drop Vec.blocks range
  split_ifs
  · exact .refl h 0
  · exact p.allocator.dealloc_spec h _ 1

/-- A vector in use has contents, as many bytes as its length says. -/
theorem Vec.exists_contents {v : Vec} {h : Heap} (hsound : h.Sound) (hlive : v.blocks ≤ h.live)
    (hpos : 0 < h.memory.size) : ∃ bytes, v.contents h.memory = some bytes := by
  by_cases hcapacity : v.capacity = 0
  · have hlen := v.len_le
    refine Wasm.Memory.exists_read ?_
    rw [v.dangling hcapacity]
    omega
  · have hmem := Multiset.mem_of_le hlive (mem_range hcapacity)
    exact hsound.exists_read hmem v.len_le

/-- What is in a vector of the frame is there afterwards. -/
theorem Vec.contents_of_frame {v : Vec} {h h' : Heap} {rest : Multiset Block} (hsound : h.Sound)
    (hlive : v.blocks ≤ h.live) (hrest : v.blocks ≤ rest) (hframe : h.Frame h' rest)
    {bytes : Bytes} (hcontents : v.contents h.memory = some bytes) (hpos : 0 < h'.memory.size) :
    v.contents h'.memory = some bytes := by
  by_cases hcapacity : v.capacity = 0
  · have hlen : v.len = 0 := Nat.eq_zero_of_le_zero (hcapacity ▸ v.len_le)
    obtain ⟨-, rfl⟩ := Wasm.Memory.read_eq_some.mp hcontents
    refine Wasm.Memory.read_eq_some.mpr ⟨?_, ?_⟩
    · rw [v.dangling hcapacity, hlen]
      omega
    · rw [hlen, List.take_zero, List.take_zero]
  · have hmem := @mem_range v.ptr _ hcapacity
    exact (hframe.read hsound (Multiset.mem_of_le hlive hmem) (Multiset.mem_of_le hrest hmem)
      v.len_le).trans hcontents

/-! ### `cabi_realloc` -/

/-- What `alloc` has found has room for the copy. -/
theorem exists_copy {h h' : Heap} (hsound : h.Sound) {ptr old align size new : ℕ} (hold : old ≠ 0)
    (hlive : range ptr old ≤ h.live) (hsize : size ≠ 0)
    (halloc : p.allocator.alloc h size align = some (new, h')) :
    ∃ bytes memory, h.memory.read ptr (min old size) = some bytes ∧
      (h'.memory.read ptr (min old size)).bind (fun bytes => h'.memory.write new bytes) =
        some memory ∧
      memory.read new (min old size) = some bytes ∧
      h.Trades (h'.withMemory memory) 0 {⟨new, size⟩} := by
  obtain ⟨htrades, -⟩ := p.allocator.alloc_spec (Nat.pos_of_ne_zero hsize) halloc
  obtain ⟨hsound', hlive', hframe⟩ := htrades h.live (Multiset.zero_add _).symm hsound
  have hmem := Multiset.mem_of_le hlive (@mem_range ptr _ hold)
  obtain ⟨bytes, hread⟩ := hsound.exists_read hmem (Nat.min_le_left old size)
  have hread' := (hframe.read hsound hmem hmem (Nat.min_le_left old size)).trans hread
  have hlength : bytes.length = min old size := Wasm.Memory.length_of_read hread
  have hle : bytes.length ≤ size := hlength ▸ Nat.min_le_right old size
  have hnew : (⟨new, size⟩ : Block) ∈ h'.live := by
    rw [hlive']
    exact Multiset.mem_add.mpr (.inl (Multiset.mem_singleton_self _))
  obtain ⟨memory, hwrite⟩ := hsound'.exists_write hnew hle
  refine ⟨bytes, memory, hread, ?_, ?_, htrades.trans (Heap.trades_write hle hwrite)⟩
  · rw [hread', Option.bind_some, hwrite]
  · rw [← hlength]
    exact Wasm.Memory.read_write hwrite

/-- **`cabi_realloc` moves a block.** For a block that is in use, or none (`old = 0`), it fails only
by aborting, and exactly where room is wanted and the layout is invalid or the allocator has none.
Otherwise the old block is traded for an aligned one of the new size (none for the size zero), with
as much of the contents as fits. -/
theorem realloc_spec {h : Heap} (hsound : h.Sound) {ptr old align : ℕ}
    (hlive : range ptr old ≤ h.live) (hold : old ≠ 0 → ValidLayout old align) (size : ℕ) :
    (∀ failure, realloc p h ptr old align size = .error failure ↔ failure = p.aborted ∧
      size ≠ 0 ∧ (ValidLayout size align → p.allocator.alloc h size align = none)) ∧
    ∀ new h', realloc p h ptr old align size = .ok (new, h') →
      h.Trades h' (range ptr old) (range new size) ∧ align ∣ new ∧
      (old ≠ 0 → size ≠ 0 →
        h'.memory.read new (min old size) = h.memory.read ptr (min old size)) := by
  unfold realloc
  by_cases hsize : size = 0
  · rw [if_pos hsize]
    by_cases hzero : old = 0
    · subst hsize hzero
      rw [if_neg (not_not.mpr rfl)]
      refine ⟨fun failure => ⟨by rintro ⟨⟩, fun h => absurd rfl h.2.1⟩, ?_⟩
      rintro new h' ⟨⟩
      exact ⟨by rw [range_zero, range_zero]; exact .refl _ _, Nat.dvd_refl _, fun h => absurd rfl h⟩
    · rw [if_pos hzero, free, if_pos (hold hzero)]
      refine ⟨fun failure => ⟨by rintro ⟨⟩, fun h => absurd hsize h.2.1⟩, ?_⟩
      rintro new h' ⟨⟩
      refine ⟨?_, Nat.dvd_refl _, fun _ h => absurd hsize h⟩
      rw [range_of_ne hzero, hsize, range_zero]
      exact p.allocator.dealloc_spec h _ _
  · rw [if_neg hsize]
    by_cases hlayout : ValidLayout size align
    case neg =>
      rw [if_pos hlayout]
      refine ⟨fun failure => ?_, by rintro new h' ⟨⟩⟩
      simp [hsize, hlayout, eq_comm]
    rw [if_neg (not_not.mpr hlayout)]
    cases halloc : p.allocator.alloc h size align with
    | none =>
      refine ⟨fun failure => ?_, by rintro new h' ⟨⟩⟩
      simp [hsize, eq_comm]
    | some found =>
      obtain ⟨new, h₁⟩ := found
      obtain ⟨htrades, hdvd⟩ := p.allocator.alloc_spec (Nat.pos_of_ne_zero hsize) halloc
      by_cases hzero : old = 0
      · simp only [if_neg (not_not.mpr hzero)]
        refine ⟨fun failure => ⟨by rintro ⟨⟩, fun h => by cases h.2.2 hlayout⟩, ?_⟩
        rintro _ _ ⟨⟩
        rw [hzero, range_zero, range_of_ne hsize]
        exact ⟨htrades, hdvd, fun h => absurd rfl h⟩
      · obtain ⟨bytes, memory, hread, hcopy, hnew, hmoved⟩ :=
          exists_copy hsound hzero hlive hsize halloc
        simp only [if_pos hzero, hcopy, free, if_pos (hold hzero)]
        refine ⟨fun failure => ⟨by rintro ⟨⟩, fun h => by cases h.2.2 hlayout⟩, ?_⟩
        rintro _ _ ⟨⟩
        rw [range_of_ne hzero, range_of_ne hsize]
        -- the new block beside the old one, which is then given back
        have hbeside := hmoved.frame {⟨ptr, old⟩}
        have hfree := p.allocator.dealloc_spec (h₁.withMemory memory) ⟨ptr, old⟩ align
        rw [Multiset.zero_add, Multiset.add_comm] at hbeside
        have hback := hfree.frame {⟨new, size⟩}
        rw [Multiset.zero_add] at hback
        refine ⟨hbeside.trans hback, hdvd, fun _ _ => ?_⟩
        rw [range_of_ne hzero] at hlive
        obtain ⟨rest, hrest⟩ := Multiset.le_iff_exists_add.mp hlive
        obtain ⟨hsound', hlive', -⟩ := hbeside rest hrest hsound
        rw [Multiset.add_assoc] at hlive'
        obtain ⟨-, -, hframe⟩ := hfree _ hlive' hsound'
        have hmem : (⟨new, size⟩ : Block) ∈ {⟨new, size⟩} + rest :=
          Multiset.mem_add.mpr (.inl (Multiset.mem_singleton_self _))
        rw [hread, ← hnew]
        exact hframe.read hsound' (hlive' ▸ Multiset.mem_add.mpr (.inr hmem)) hmem
          (Nat.min_le_right old size)

/-- An engine that owns nothing and answers `{}` to everything, on the allocator that stacks its
blocks; it counts its answers. -/
def replier : Platform ℕ where
  allocator := stacking
  aborted := .unreachable []
  outOfBounds := .other (utf8 "out of bounds memory access")
  owned _ := 0
  run _ _ g h :=
    match stacking.alloc h 2 1 with
    | none => .error (.unreachable [])
    | some (ptr, h) =>
      match h.memory.write ptr [0x7b, 0x7d] with
      | none => .error (.unreachable [])
      | some memory =>
        .ok (.ok ⟨ptr, 2, 2, Nat.le_refl 2, by decide, fun h => by cases h⟩, g + 1,
          h.withMemory memory)
  run_spec := by
    intro entry input g g' h h' result hrun
    split at hrun
    · cases hrun
    case h_2 ptr h₁ halloc =>
      split at hrun
      · cases hrun
      case h_2 memory hwrite =>
        cases hrun
        obtain ⟨htrades, -⟩ := stacking.alloc_spec Nat.two_pos halloc
        rw [Multiset.zero_add]
        have hle : [(0x7b : UInt8), 0x7d].length ≤ 2 := Nat.le_refl 2
        exact htrades.trans (Heap.trades_write (b := ⟨ptr, 2⟩) hle hwrite)
  perform _ g h := .ok (g, h)
  perform_spec := by
    rintro task g g' h h' ⟨⟩
    exact .refl _ 0

/-- The plugin when it has been instantiated, in a memory of 64 bytes. -/
def fresh : Instance ℕ where
  heap := ⟨⟨List.replicate 64 0⟩, {⟨0, 12⟩}⟩
  engine := 0
  output := ⟨1, 0, 0, Nat.le_refl 0, by decide, fun _ => rfl⟩
  record := 0

theorem sound_fresh : fresh.heap.Sound where
  size_le := by decide
  bounds := by decide
  pos := by decide
  nodup := Multiset.nodup_singleton _
  apart := by
    intro b hb c hc hne
    exact absurd ((Multiset.mem_singleton.mp hb).trans (Multiset.mem_singleton.mp hc).symm) hne

/-! ### A record in memory -/

@[simp]
theorem length_leBytes (n : ℕ) : (leBytes n).length = 4 := rfl

/-- The memory holds at `record` the tag, the address and the length of some bytes, and these
bytes at that address. -/
def Encodes (m : Wasm.Memory) (record tag : ℕ) (bytes : Bytes) : Prop :=
  ∃ ptr < 2 ^ 32, bytes.length < 2 ^ 32 ∧
    m.read record 12 = some (leBytes tag ++ leBytes ptr ++ leBytes bytes.length) ∧
    m.read ptr bytes.length = some bytes

namespace Instance

/-- The blocks of the plugin itself. -/
def own (p : Platform Γ) (i : Instance Γ) : Multiset Block :=
  p.owned i.engine + i.output.blocks + {⟨i.record, 12⟩}

/-- The heap is sound, and its blocks are those of the plugin and some more. -/
structure Sound (p : Platform Γ) (i : Instance Γ) (held : Multiset Block) : Prop where
  heap : i.heap.Sound
  live : i.heap.live = i.own p + held

variable {i j : Instance Γ} {held : Multiset Block}

/-- The record is in use. -/
theorem Sound.record_mem (hsound : i.Sound p held) : ⟨i.record, 12⟩ ∈ i.heap.live := by
  rw [hsound.live, own]
  simp

/-- A vector has 32 bits for its address. -/
theorem ptr_lt {v : Vec} {h : Heap} (hsound : h.Sound) (hlive : v.blocks ≤ h.live) :
    v.ptr < 2 ^ 32 := by
  by_cases hcapacity : v.capacity = 0
  · rw [v.dangling hcapacity]
    decide
  · exact hsound.ptr_lt (Multiset.mem_of_le hlive (mem_range hcapacity))

/-- `output` gives the old vector back and leaves the record of the new one. -/
theorem setOutput_spec (hsound : i.heap.Sound) {bytes : Vec}
    (hlive : i.heap.live = i.own p + bytes.blocks + held) (tag : ℕ) :
    ∃ j contents, i.setOutput p tag bytes = .ok (i.record, j) ∧ j.record = i.record ∧
      j.engine = i.engine ∧ j.Sound p held ∧ i.heap.Frame j.heap held ∧
      bytes.contents i.heap.memory = some contents ∧
      Encodes j.heap.memory i.record tag contents := by
  rw [Multiset.add_assoc] at hlive
  have hvector : bytes.blocks ≤ i.heap.live := by
    rw [hlive, add_left_comm]
    exact Multiset.le_add_right _ _
  have hpos : 0 < i.heap.memory.size := by
    refine hsound.size_pos (b := ⟨i.record, 12⟩) ?_
    rw [hlive, own]
    simp
  obtain ⟨contents, hcontents⟩ := bytes.exists_contents hsound hvector hpos
  -- the old vector goes
  have hdrop : i.heap.Trades (i.output.drop p i.heap) (i.own p)
      (p.owned i.engine + {⟨i.record, 12⟩}) :=
    (i.output.trades_drop i.heap).beside (p.owned i.engine + {⟨i.record, 12⟩})
      (by rw [own]; abel) (Multiset.zero_add _).symm
  obtain ⟨hsound₁, hlive₁, -⟩ := hdrop _ hlive hsound
  have hrecord : (⟨i.record, 12⟩ : Block) ∈ (i.output.drop p i.heap).live := by
    rw [hlive₁]
    simp
  -- the record is overwritten
  have hlength : (leBytes tag ++ leBytes bytes.ptr ++ leBytes bytes.len).length = 12 := rfl
  obtain ⟨memory, hwrite⟩ := hsound₁.exists_write hrecord (Nat.le_of_eq hlength)
  have hrewrite : (i.output.drop p i.heap).Trades ((i.output.drop p i.heap).withMemory memory)
      (p.owned i.engine + {⟨i.record, 12⟩}) (p.owned i.engine + {⟨i.record, 12⟩}) :=
    (Heap.trades_write (Nat.le_of_eq hlength) hwrite).beside (p.owned i.engine)
      (Multiset.add_comm _ _) (Multiset.add_comm _ _)
  obtain ⟨hsound₂, hlive₂, hframe⟩ := (hdrop.trans hrewrite) _ hlive hsound
  have hpos₂ : 0 < memory.size := by
    rw [Wasm.Memory.size_write hwrite]
    exact hsound₁.size_pos hrecord
  have hkept := bytes.contents_of_frame hsound hvector (Multiset.le_add_right _ held) hframe
    hcontents hpos₂
  have hlen : contents.length = bytes.len := Wasm.Memory.length_of_read hcontents
  refine ⟨{ i with heap := (i.output.drop p i.heap).withMemory memory, output := bytes }, contents,
    ?_, rfl, rfl, ⟨hsound₂, ?_⟩, fun b hb => hframe b (Multiset.mem_add.mpr (.inr hb)), hcontents,
    bytes.ptr, ptr_lt hsound hvector, ?_, ?_, ?_⟩
  · simp only [setOutput, hwrite]
  · rw [hlive₂, own]
    abel
  · have hle := bytes.len_le
    have hlt := bytes.capacity_lt
    omega
  · rw [hlen]
    exact Wasm.Memory.read_write hwrite
  · rw [hlen]
    exact hkept

/-- A function without a result keeps the plugin sound. -/
theorem performed_spec (hsound : i.Sound p held) {task : Task}
    (h : i.performed p task = .ok j) :
    j.Sound p held ∧ j.record = i.record ∧
      p.perform task i.engine i.heap = .ok (j.engine, j.heap) := by
  unfold performed at h
  cases hperform : p.perform task i.engine i.heap with
  | error failure =>
    rw [hperform] at h
    cases h
  | ok result =>
    rw [hperform] at h
    cases h
    have htrade := (p.perform_spec hperform).beside (i.output.blocks + {⟨i.record, 12⟩})
      (add_assoc _ _ _) rfl
    obtain ⟨hheap, hlive, -⟩ := htrade held hsound.live hsound.heap
    refine ⟨⟨hheap, ?_⟩, rfl, rfl⟩
    rw [hlive, own]
    abel

theorem performed_eq_error {task : Task} {failure : Failure}
    (h : i.performed p task = .error failure) :
    p.perform task i.engine i.heap = .error failure := by
  unfold performed at h
  cases hperform : p.perform task i.engine i.heap with
  | error failure' =>
    rw [hperform] at h
    cases h
    rfl
  | ok result =>
    rw [hperform] at h
    cases h

/-- What a call may return to the host: the tag and the bytes of a result of the closure, and the
engine after it. -/
def Returns (p : Platform Γ) (entry : Entry) (input : Bytes) (g : Γ) (answer : ℕ × Bytes) (g' : Γ) :
    Prop :=
  ∃ h h' result, p.run entry input g h = .ok (result, g', h') ∧ answer.1 = tag result ∧
    (vector result).contents h'.memory = some answer.2

/-- **An exported function leaves a record of what its closure returns.** If the host has put
`input` into memory of its own, the call fails as the closure fails, and in no other way. Otherwise
it returns the address of a record that encodes the tag and the bytes of the result; the plugin owns
what it did before, up to the vector of the result, and the host's memory is untouched. -/
theorem exported_spec (hsound : i.Sound p held) (entry : Entry) {ptr : ℕ} {input : Bytes}
    (hinput : i.heap.memory.read ptr input.length = some input) :
    (∀ failure, i.exported p entry ptr input.length = .error failure ↔
      p.run entry input i.engine i.heap = .error failure) ∧
    ∀ address j, i.exported p entry ptr input.length = .ok (address, j) →
      address = i.record ∧ j.record = i.record ∧ j.Sound p held ∧ i.heap.Frame j.heap held ∧
      ∃ answer, Returns p entry input i.engine answer j.engine ∧
        Encodes j.heap.memory i.record answer.1 answer.2 := by
  simp only [exported, hinput]
  cases hrun : p.run entry input i.engine i.heap with
  | error failure =>
    refine ⟨fun failure' => ?_, by rintro address j ⟨⟩⟩
    simp
  | ok ran =>
    obtain ⟨result, engine, heap⟩ := ran
    -- the closure trades the blocks of the engine
    have htrade := (p.run_spec hrun).beside (i.output.blocks + {⟨i.record, 12⟩})
      (add_assoc _ _ _) rfl
    obtain ⟨hsound', hlive', hframe'⟩ := htrade held hsound.live hsound.heap
    have hlive : heap.live = ({ i with engine, heap } : Instance Γ).own p + (vector result).blocks +
        held := by
      rw [hlive', own]
      abel
    obtain ⟨j, contents, hset, hrecord, hengine, hj, hframe, hcontents, hencodes⟩ :=
      setOutput_spec (i := { i with engine, heap }) hsound' hlive (tag result)
    simp only [hset]
    refine ⟨fun failure => ⟨by rintro ⟨⟩, by rintro ⟨⟩⟩, ?_⟩
    rintro _ _ ⟨⟩
    refine ⟨rfl, hrecord, hj, fun b hb => (hframe b hb).trans (hframe' b hb),
      (tag result, contents), ⟨i.heap, heap, result, hengine ▸ hrun, rfl, hcontents⟩, hencodes⟩

end Instance

end Javex.Plugin
