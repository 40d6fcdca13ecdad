import Mathlib.Data.List.Basic
import Mathlib.Tactic.SplitIfs

/-!
# Linear memory

The linear memory of a Wasm instance: its bytes, with the bounds checks of a read and of a write.
A write is read back, and it leaves alone whatever it does not overlap.

A read and a write of the host are checked against the size of the memory at the time of the call
and have no result out of bounds, as the accessors of the engine return an error there. The bytes
are a list and their number may change from one state to another: a memory that has grown is another
memory with the old bytes in front.
-/

namespace Wasm

/-- A linear memory. -/
structure Memory where
  bytes : List UInt8
  deriving DecidableEq

namespace Memory

variable {m m' : Memory} {ptr len : ℕ} {bytes : List UInt8}

/-- The size in bytes. -/
def size (m : Memory) : ℕ := m.bytes.length

/-- Some bytes, if they are in bounds. -/
def read (m : Memory) (ptr len : ℕ) : Option (List UInt8) :=
  if ptr + len ≤ m.size then some ((m.bytes.drop ptr).take len) else none

/-- The memory with some bytes replaced, if they are in bounds. -/
def write (m : Memory) (ptr : ℕ) (bytes : List UInt8) : Option Memory :=
  if ptr + bytes.length ≤ m.size then
    some ⟨m.bytes.take ptr ++ (bytes ++ m.bytes.drop (ptr + bytes.length))⟩
  else none

theorem read_eq_some : m.read ptr len = some bytes ↔
    ptr + len ≤ m.size ∧ (m.bytes.drop ptr).take len = bytes := by
  unfold read
  split_ifs with hbounds
  · simp [hbounds]
  · simp [hbounds]

theorem write_eq_some : m.write ptr bytes = some m' ↔
    ptr + bytes.length ≤ m.size ∧
      m' = ⟨m.bytes.take ptr ++ (bytes ++ m.bytes.drop (ptr + bytes.length))⟩ := by
  unfold write
  split_ifs with hbounds
  · simp [hbounds, eq_comm]
  · simp [hbounds]

theorem length_of_read (h : m.read ptr len = some bytes) : bytes.length = len := by
  obtain ⟨hbounds, rfl⟩ := read_eq_some.mp h
  rw [List.length_take, List.length_drop]
  rw [size] at hbounds
  omega

theorem size_write (h : m.write ptr bytes = some m') : m'.size = m.size := by
  obtain ⟨hbounds, rfl⟩ := write_eq_some.mp h
  rw [size] at hbounds
  simp only [size, List.length_append, List.length_take, List.length_drop]
  omega

/-- What was written is read. -/
theorem read_write (h : m.write ptr bytes = some m') : m'.read ptr bytes.length = some bytes := by
  have hsize := size_write h
  obtain ⟨hbounds, rfl⟩ := write_eq_some.mp h
  refine read_eq_some.mpr ⟨hsize ▸ hbounds, ?_⟩
  have hlength : (m.bytes.take ptr).length = ptr := by
    rw [List.length_take]
    rw [size] at hbounds
    omega
  rw [List.drop_left' hlength, List.take_left']
  rfl

/-- A write leaves alone what it does not overlap. -/
theorem read_write_of_disjoint (h : m.write ptr bytes = some m') {p n : ℕ}
    (hdisjoint : p + n ≤ ptr ∨ ptr + bytes.length ≤ p) : m'.read p n = m.read p n := by
  have hsize := size_write h
  obtain ⟨hbounds, rfl⟩ := write_eq_some.mp h
  unfold read
  rw [hsize]
  congr 2
  rw [size] at hbounds
  apply List.ext_getElem?
  intro i
  by_cases hi : i < n
  · simp only [List.getElem?_take_of_lt hi, List.getElem?_drop, List.getElem?_append,
      List.length_take, List.getElem?_take]
    grind
  · simp only [List.getElem?_take, if_neg hi]

/-- A write that is in bounds succeeds. -/
theorem exists_write (h : ptr + bytes.length ≤ m.size) : ∃ m', m.write ptr bytes = some m' :=
  ⟨_, if_pos h⟩

end Memory

end Wasm
