import Javex.Wasm.Memory
import Mathlib.Data.Multiset.Lattice
import Mathlib.Algebra.Order.Group.Multiset
import Mathlib.Order.Lattice.Nat

/-!
# Heaps in a linear memory

A linear memory with the blocks that an allocator has handed out. What an operation on a heap does
is said as a trade (`Heap.Trades`): some blocks in use are given for others, and whatever else is in
use stays where it is with the bytes it holds. Trades compose, and they leave alone whatever is put
beside them, so that whoever owns a block finds in it what it put there.

* `Heap.Trades.trans`, `Heap.Trades.frame`: trades one after the other, and beside other blocks.
* `Heap.trades_write`: a write within a block.
* `Allocator`: an allocator, with its laws as fields; `stacking` is one.

A block is an address and a size and carries no bytes: the bytes are those of the memory, and what a
trade promises about other blocks is that the memory reads there as it did (`Heap.Frame`). Blocks in
use form a multiset, so that "given for" is an equation, `used + rest` before and `made + rest`
after, for whatever `rest` there is. That the equation is asked for every `rest` is what makes a
trade local, and what `Trades.frame` uses.

An allocator is a structure whose laws are trades: allocation makes a block out of nothing, and
deallocation a nothing out of a block. Its layout requests may fail at any time, which is all that
is assumed about how much room there is; `stacking` puts each block above all others, and shows that
the laws can be met.
-/

namespace Wasm

/-- A range of the memory. -/
structure Block where
  ptr : ℕ
  size : ℕ
  deriving DecidableEq, Repr

/-- Two ranges do not overlap. -/
def Block.Apart (b c : Block) : Prop := b.ptr + b.size ≤ c.ptr ∨ c.ptr + c.size ≤ b.ptr

namespace Memory

variable {m m' : Memory} {ptr len : ℕ} {bytes : List UInt8}

/-- A range has the same bytes in both memories. -/
def Agree (m m' : Memory) (b : Block) : Prop := m'.read b.ptr b.size = m.read b.ptr b.size

/-- The start of what is read. -/
theorem read_take (h : m.read ptr len = some bytes) {n : ℕ} (hle : n ≤ len) :
    m.read ptr n = some (bytes.take n) := by
  obtain ⟨hbounds, rfl⟩ := read_eq_some.mp h
  refine read_eq_some.mpr ⟨by omega, ?_⟩
  rw [List.take_take, Nat.min_eq_left hle]

/-- What is in bounds is read. -/
theorem exists_read (h : ptr + len ≤ m.size) : ∃ bytes, m.read ptr len = some bytes :=
  ⟨_, read_eq_some.mpr ⟨h, rfl⟩⟩

/-- Memories that agree on a range agree on a part of it at its start. -/
theorem Agree.within {b : Block} (h : m.Agree m' b) (hbounds : b.ptr + b.size ≤ m.size) {n : ℕ}
    (hle : n ≤ b.size) : m'.read b.ptr n = m.read b.ptr n := by
  obtain ⟨bytes, hread⟩ := exists_read hbounds
  rw [read_take hread hle, read_take (h.trans hread) hle]

end Memory

/-- A memory with the blocks that are in use. -/
structure Heap where
  memory : Memory
  live : Multiset Block

namespace Heap

/-- The blocks are in bounds and apart, in a memory of at most 4 GiB. -/
structure Sound (h : Heap) : Prop where
  size_le : h.memory.size ≤ 2 ^ 32
  bounds : ∀ b ∈ h.live, b.ptr + b.size ≤ h.memory.size
  pos : ∀ b ∈ h.live, 0 < b.size
  nodup : h.live.Nodup
  apart : ∀ b ∈ h.live, ∀ c ∈ h.live, b ≠ c → b.Apart c

/-- Some blocks have the same contents in both heaps. -/
def Frame (h h' : Heap) (blocks : Multiset Block) : Prop :=
  ∀ b ∈ blocks, h.memory.Agree h'.memory b

/-- The heap with another memory. -/
def withMemory (h : Heap) (memory : Memory) : Heap := { h with memory }

/-- Some blocks in use are given for others, and the rest stays as it is. -/
def Trades (h h' : Heap) (used made : Multiset Block) : Prop :=
  ∀ rest, h.live = used + rest → h.Sound →
    h'.Sound ∧ h'.live = made + rest ∧ h.Frame h' rest

variable {h h' h'' : Heap} {b c : Block} {used made mid rest : Multiset Block}

/-- A pointer has 32 bits. -/
theorem Sound.ptr_lt (hsound : h.Sound) (hb : b ∈ h.live) : b.ptr < 2 ^ 32 := by
  have hbounds := hsound.bounds b hb
  have hpos := hsound.pos b hb
  have hsize := hsound.size_le
  omega

/-- There is no block in an empty memory. -/
theorem Sound.size_pos (hsound : h.Sound) (hb : b ∈ h.live) : 0 < h.memory.size := by
  have hbounds := hsound.bounds b hb
  have hpos := hsound.pos b hb
  omega

/-- A block can be read, up to its size. -/
theorem Sound.exists_read (hsound : h.Sound) (hb : b ∈ h.live) {n : ℕ} (hle : n ≤ b.size) :
    ∃ bytes, h.memory.read b.ptr n = some bytes := by
  have hbounds := hsound.bounds b hb
  exact Memory.exists_read (by omega)

/-- A block has room for as many bytes as its size says. -/
theorem Sound.exists_write (hsound : h.Sound) (hb : b ∈ h.live) {bytes : List UInt8}
    (hle : bytes.length ≤ b.size) : ∃ memory, h.memory.write b.ptr bytes = some memory := by
  have hbounds := hsound.bounds b hb
  exact Memory.exists_write (by omega)

/-- What is in a block of the frame is there afterwards. -/
theorem Frame.read (hframe : h.Frame h' rest) (hsound : h.Sound) (hb : b ∈ h.live)
    (hrest : b ∈ rest) {n : ℕ} (hle : n ≤ b.size) :
    h'.memory.read b.ptr n = h.memory.read b.ptr n :=
  (hframe b hrest).within (hsound.bounds b hb) hle

theorem Trades.refl (h : Heap) (blocks : Multiset Block) : h.Trades h blocks blocks :=
  fun _ hlive hsound => ⟨hsound, hlive, fun _ _ => rfl⟩

/-- One trade after the other. -/
theorem Trades.trans (hfirst : h.Trades h' used mid) (hsecond : h'.Trades h'' mid made) :
    h.Trades h'' used made := by
  intro rest hlive hsound
  obtain ⟨hsound', hlive', hframe⟩ := hfirst rest hlive hsound
  obtain ⟨hsound'', hlive'', hframe'⟩ := hsecond rest hlive' hsound'
  exact ⟨hsound'', hlive'', fun b hb => (hframe' b hb).trans (hframe b hb)⟩

/-- A trade beside other blocks. -/
theorem Trades.frame (htrades : h.Trades h' used made) (others : Multiset Block) :
    h.Trades h' (used + others) (made + others) := by
  intro rest hlive hsound
  rw [Multiset.add_assoc] at hlive
  obtain ⟨hsound', hlive', hframe⟩ := htrades (others + rest) hlive hsound
  exact ⟨hsound', hlive'.trans (Multiset.add_assoc _ _ _).symm,
    fun b hb => hframe b (Multiset.mem_add.mpr (.inr hb))⟩

/-- What the trade takes and gives, as it is grouped. -/
theorem Trades.beside {used' made' : Multiset Block} (htrades : h.Trades h' used made)
    (others : Multiset Block) (hused : used' = used + others) (hmade : made' = made + others) :
    h.Trades h' used' made' := by
  rw [hused, hmade]
  exact htrades.frame others

/-- A write keeps the blocks in use. -/
theorem Sound.write (hsound : h.Sound) {ptr : ℕ} {bytes : List UInt8} {memory : Memory}
    (hwrite : h.memory.write ptr bytes = some memory) : (h.withMemory memory).Sound where
  size_le := Memory.size_write hwrite ▸ hsound.size_le
  bounds b hb := (Memory.size_write hwrite).symm ▸ hsound.bounds b hb
  pos := hsound.pos
  nodup := hsound.nodup
  apart := hsound.apart

/-- A write within a block in use. -/
theorem trades_write {bytes : List UInt8} {memory : Memory} (hle : bytes.length ≤ b.size)
    (hwrite : h.memory.write b.ptr bytes = some memory) :
    h.Trades (h.withMemory memory) {b} {b} := by
  intro rest hlive hsound
  refine ⟨hsound.write hwrite, hlive, ?_⟩
  intro c hc
  -- the other block is apart from the one that is written to
  have hnodup := hlive ▸ hsound.nodup
  have hne : c ≠ b := by
    rintro rfl
    exact absurd hc (Multiset.nodup_cons.mp hnodup).1
  have hmem : ∀ d, d ∈ ({b} : Multiset Block) + rest → d ∈ h.live := fun d hd => hlive ▸ hd
  have hapart := hsound.apart c (hmem c (Multiset.mem_add.mpr (.inr hc))) b
    (hmem b (Multiset.mem_add.mpr (.inl (Multiset.mem_singleton_self b)))) hne
  refine Memory.read_write_of_disjoint hwrite ?_
  rcases hapart with hbefore | hafter
  · exact .inl hbefore
  · exact .inr (by omega)

end Heap

/-- An allocator: it may find no room. -/
structure Allocator where
  alloc : Heap → ℕ → ℕ → Option (ℕ × Heap)
  dealloc : Heap → Block → ℕ → Heap
  alloc_spec : ∀ {h h' : Heap} {size align ptr : ℕ}, 0 < size →
    alloc h size align = some (ptr, h') → h.Trades h' 0 {⟨ptr, size⟩} ∧ align ∣ ptr
  dealloc_spec : ∀ (h : Heap) (b : Block) (align : ℕ), h.Trades (dealloc h b align) {b} 0

/-- The end of the blocks in use. -/
def Heap.top (h : Heap) : ℕ := (h.live.map fun b => b.ptr + b.size).sup

theorem Heap.le_top {h : Heap} {b : Block} (hb : b ∈ h.live) : b.ptr + b.size ≤ h.top :=
  Multiset.le_sup (Multiset.mem_map_of_mem (fun b : Block => b.ptr + b.size) hb)

/-- The aligned place above all blocks in use. -/
def Heap.above (h : Heap) (align : ℕ) : ℕ := (h.top + (align - 1)) / align * align

/-- A block on top of the others. -/
theorem Heap.trades_push {h : Heap} {ptr size : ℕ} (hpos : 0 < size) (htop : h.top ≤ ptr)
    (hfits : ptr + size ≤ h.memory.size) :
    h.Trades { h with live := ⟨ptr, size⟩ ::ₘ h.live } 0 {⟨ptr, size⟩} := by
  intro rest hlive hsound
  have hapart : ∀ b ∈ h.live, b.Apart ⟨ptr, size⟩ := fun b hb => .inl ((h.le_top hb).trans htop)
  refine ⟨⟨hsound.size_le, ?_, ?_, ?_, ?_⟩, ?_, fun _ _ => rfl⟩
  · simp only [Multiset.mem_cons, forall_eq_or_imp]
    exact ⟨hfits, hsound.bounds⟩
  · simp only [Multiset.mem_cons, forall_eq_or_imp]
    exact ⟨hpos, hsound.pos⟩
  · refine Multiset.nodup_cons.mpr ⟨fun hmem => ?_, hsound.nodup⟩
    have hle := h.le_top hmem
    simp only at hle
    omega
  · simp only [Multiset.mem_cons, forall_eq_or_imp]
    exact ⟨⟨fun hne => absurd rfl hne, fun c hc _ => Or.symm (hapart c hc)⟩,
      fun b hb => ⟨fun _ => hapart b hb, fun c hc => hsound.apart b hb c hc⟩⟩
  · rw [hlive, Multiset.zero_add]
    rfl

/-- A block less. -/
theorem Heap.trades_erase (h : Heap) (b : Block) :
    h.Trades { h with live := h.live.erase b } {b} 0 := by
  intro rest hlive hsound
  have herase : h.live.erase b = rest := by
    rw [hlive, Multiset.singleton_add, Multiset.erase_cons_head]
  have hsub : ∀ c ∈ h.live.erase b, c ∈ h.live := fun c hc => Multiset.mem_of_mem_erase hc
  exact ⟨⟨hsound.size_le, fun c hc => hsound.bounds c (hsub c hc),
    fun c hc => hsound.pos c (hsub c hc), hsound.nodup.erase b,
    fun c hc d hd => hsound.apart c (hsub c hc) d (hsub d hd)⟩,
    herase.trans (Multiset.zero_add rest).symm, fun _ _ => rfl⟩

/-- The allocator that stacks its blocks. -/
def stacking : Allocator where
  alloc h size align :=
    if h.top ≤ h.above align ∧ h.above align + size ≤ h.memory.size then
      some (h.above align, { h with live := ⟨h.above align, size⟩ ::ₘ h.live })
    else none
  dealloc h b _ := { h with live := h.live.erase b }
  alloc_spec := by
    intro h h' size align ptr hpos halloc
    split_ifs at halloc with hroom
    cases halloc
    exact ⟨Heap.trades_push hpos hroom.1 hroom.2, Nat.dvd_mul_left align _⟩
  dealloc_spec h b _ := h.trades_erase b

end Wasm
