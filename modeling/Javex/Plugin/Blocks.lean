import Javex.Plugin.Abi
import Javex.Transition.System
import Mathlib.Algebra.Order.BigOperators.Group.Multiset
import Mathlib.Algebra.BigOperators.Group.List.Basic

/-!
# Any use of `cabi_realloc`

`cabi_realloc` of `native/javex_plugin/src/lib.rs` is all that the host, a compiled module and any
other user of the plugin have of its allocator. A run of `Holding.system` is any sequence of its
uses by any number of holders, as its safety contract has them: a new block, a new size for a block
that an earlier call returned, and writes of a holder within its block. It starts from a heap with
whatever blocks others have in use.

One use trades the block of one holder (`Heap.Trades`), so it leaves the blocks of the other holders
and those that were there at the start as they are, and a run composes such trades.

* `holding_sound`: the blocks stay apart, nobody else's block is touched, and each holder finds in
  its block what it put there, as far as the sizes since have left room for it.

A holder is a block with the bytes that were last put there, kept beside the heap and known to
nobody else. The invariant says that the heap is sound, that the holders' blocks and those of the
start are in use, each by itself, and that each holder's bytes are found in its block; that the
blocks of the start read as they did is `untouched`, a frame from the first heap to the current one,
and is kept because every use is a trade in which they are among the others.
-/

namespace Javex.Plugin

open Native Wasm Transition

/-- A block in somebody's hands, and what its holder has last put there, as far as it still fits. -/
structure Held where
  ptr : ℕ
  size : ℕ
  align : ℕ
  kept : Bytes

/-- The block, if there is one. -/
def Held.blocks (b : Held) : Multiset Block := range b.ptr b.size

/-- A heap with the blocks in use by holders. -/
structure Holding where
  heap : Heap
  held : List Held

namespace Holding

variable {Γ : Type} (p : Platform Γ)

/-- A use of the interface; holders are named by position. -/
inductive Label
  | new (align size : ℕ)
  | resize (holder size : ℕ)
  | fill (holder : ℕ) (bytes : Bytes)

/-- One use; after an abort there is none. -/
def step (s : Holding) : Label → Option Holding
  | .new align size =>
    match realloc p s.heap 0 0 align size with
    | .error _ => none
    | .ok (ptr, heap) => some { heap, held := ⟨ptr, size, align, []⟩ :: s.held }
  | .resize holder size => do
    let b ← s.held[holder]?
    match realloc p s.heap b.ptr b.size b.align size with
    | .error _ => none
    | .ok (ptr, heap) =>
      some { heap, held := s.held.set holder ⟨ptr, size, b.align, b.kept.take size⟩ }
  | .fill holder bytes => do
    let b ← s.held[holder]?
    if bytes.length ≤ b.size ∧ b.size ≠ 0 then
      match s.heap.memory.write b.ptr bytes with
      | none => none
      | some memory =>
        some
          { heap := s.heap.withMemory memory
            held := s.held.set holder { b with kept := bytes } }
    else none

/-- The blocks of all holders. -/
def blocks (held : List Held) : Multiset Block := (held.map Held.blocks).sum

/-- A holder finds what it put into its block. -/
structure Finds (m : Wasm.Memory) (b : Held) : Prop where
  layout : b.size ≠ 0 → ValidLayout b.size b.align
  fits : b.kept.length ≤ b.size
  finds : b.size ≠ 0 → m.read b.ptr b.kept.length = some b.kept

/-- The heap is sound, its blocks are those of the holders and those of the initial heap, which hold
what they held there, and the holders find what they put in theirs. -/
structure Sound (initial : Heap) (s : Holding) : Prop where
  heap : s.heap.Sound
  live : s.heap.live = blocks s.held + initial.live
  untouched : initial.Frame s.heap initial.live
  finds : ∀ b ∈ s.held, Finds s.heap.memory b

/-- Any uses, from a heap whose blocks belong to others. -/
def system (initial : Heap) : System Holding Label :=
  .ofStep (fun s => initial.Sound ∧ s = ⟨initial, []⟩) (step p)

variable {p} {initial : Heap} {s t : Holding}

theorem blocks_cons (b : Held) (held : List Held) :
    blocks (b :: held) = b.blocks + blocks held := by
  rw [blocks, List.map_cons, List.sum_cons]
  rfl

theorem blocks_append (before after : List Held) :
    blocks (before ++ after) = blocks before + blocks after := by
  rw [blocks, List.map_append, List.sum_append]
  rfl

theorem blocks_le {held : List Held} {b : Held} (hb : b ∈ held) : b.blocks ≤ blocks held := by
  obtain ⟨before, after, rfl⟩ := List.append_of_mem hb
  rw [blocks_append, blocks_cons, add_left_comm]
  exact Multiset.le_add_right _ _

/-- What a holder finds is there after a trade of other blocks. -/
theorem Finds.frame {h h' : Heap} {others : Multiset Block} {b : Held} (hfinds : Finds h.memory b)
    (hsound : h.Sound) (hlive : b.blocks ≤ h.live) (hothers : b.blocks ≤ others)
    (hframe : h.Frame h' others) : Finds h'.memory b := by
  refine ⟨hfinds.layout, hfinds.fits, fun hsize => ?_⟩
  have hmem : (⟨b.ptr, b.size⟩ : Block) ∈ b.blocks := mem_range hsize
  rw [← hfinds.finds hsize]
  exact hframe.read hsound (Multiset.mem_of_le hlive hmem) (Multiset.mem_of_le hothers hmem)
    hfinds.fits

theorem exists_set {held : List Held} {holder : ℕ} {b : Held} (h : held[holder]? = some b) :
    ∃ before after, held = before ++ b :: after ∧
      ∀ b', held.set holder b' = before ++ b' :: after := by
  obtain ⟨hlt, rfl⟩ := List.getElem?_eq_some_iff.mp h
  refine ⟨held.take holder, held.drop (holder + 1), ?_, fun b' => ?_⟩
  · rw [← List.drop_eq_getElem_cons hlt, List.take_append_drop]
  · rw [List.set_eq_take_append_cons_drop, if_pos hlt]

/-- One holder's block is traded for another, in which that holder finds what it should. -/
theorem Sound.replace {before after : List Held} {b b' : Held} {heap : Heap}
    (hs : Sound initial ⟨s.heap, before ++ b :: after⟩)
    (htrades : s.heap.Trades heap b.blocks b'.blocks) (hfinds : Finds heap.memory b') :
    Sound initial ⟨heap, before ++ b' :: after⟩ := by
  have hlive : s.heap.live = b.blocks + (blocks before + blocks after + initial.live) := by
    rw [hs.live, blocks_append, blocks_cons]
    abel
  obtain ⟨hheap, hlive', hframe⟩ := htrades _ hlive hs.heap
  refine ⟨hheap, ?_, fun c hc => ?_, fun c hc => ?_⟩
  · rw [hlive', blocks_append, blocks_cons]
    abel
  · exact (hframe c (Multiset.mem_add.mpr (.inr hc))).trans (hs.untouched c hc)
  -- the holder itself, or another one
  have hother : c ∈ before ++ after → Finds heap.memory c := by
    intro hmem
    have hle : c.blocks ≤ blocks before + blocks after + initial.live := by
      rw [← blocks_append]
      exact (blocks_le hmem).trans (Multiset.le_add_right _ _)
    have hmem' : c ∈ before ++ b :: after := by
      rcases List.mem_append.mp hmem with h | h
      · exact List.mem_append.mpr (.inl h)
      · exact List.mem_append.mpr (.inr (List.mem_cons_of_mem _ h))
    refine (hs.finds c hmem').frame hs.heap ?_ hle hframe
    rw [hlive]
    exact hle.trans (Multiset.le_add_left _ _)
  rcases List.mem_append.mp hc with h | h
  · exact hother (List.mem_append.mpr (.inl h))
  · rcases List.mem_cons.mp h with rfl | h
    · exact hfinds
    · exact hother (List.mem_append.mpr (.inr h))

/-- A call of `cabi_realloc` on the block of a holder. -/
theorem Finds.resize {heap heap' : Heap} {b : Held} (hfinds : Finds heap.memory b)
    (hsound : heap.Sound) (hlive : b.blocks ≤ heap.live) {size ptr : ℕ}
    (h : realloc p heap b.ptr b.size b.align size = .ok (ptr, heap')) :
    heap.Trades heap' b.blocks (range ptr size) ∧
      Finds heap'.memory ⟨ptr, size, b.align, b.kept.take size⟩ := by
  obtain ⟨hfails, hok⟩ := realloc_spec (p := p) hsound hlive hfinds.layout size
  obtain ⟨htrades, -, hcontents⟩ := hok ptr heap' h
  refine ⟨htrades, fun hsize => ?_, ?_, fun hsize => ?_⟩
  · by_contra hlayout
    have herror := (hfails p.aborted).mpr ⟨rfl, hsize, fun h => absurd h hlayout⟩
    cases herror.symm.trans h
  · exact List.length_take_le size b.kept
  have hfits := hfinds.fits
  rw [List.length_take]
  by_cases hzero : b.size = 0
  · -- nothing was there
    have hmem : (⟨ptr, size⟩ : Block) ∈ heap'.live := by
      obtain ⟨others, hothers⟩ := Multiset.le_iff_exists_add.mp hlive
      obtain ⟨-, hlive', -⟩ := htrades others hothers hsound
      rw [hlive']
      exact Multiset.mem_add.mpr (.inl (mem_range hsize))
    obtain ⟨hsound', -, -⟩ := htrades _ (Multiset.le_iff_exists_add.mp hlive).choose_spec hsound
    obtain ⟨none, hread⟩ := hsound'.exists_read hmem (Nat.zero_le size)
    have hkept : b.kept = [] := List.eq_nil_of_length_eq_zero (by omega)
    rw [hkept, List.take_nil, List.length_nil, Nat.min_zero, hread,
      List.eq_nil_of_length_eq_zero (Wasm.Memory.length_of_read hread)]
  · -- as much of it as fits
    have hold := hfinds.finds hzero
    have hmin : min size b.kept.length ≤ min b.size size := by omega
    obtain ⟨bytes, hbytes⟩ := hsound.exists_read (Multiset.mem_of_le hlive (mem_range hzero))
      (Nat.min_le_left b.size size)
    have hmoved := (hcontents hzero hsize).trans hbytes
    have hfirst := Wasm.Memory.read_take hbytes hmin
    have hsecond := Wasm.Memory.read_take hold (Nat.min_le_right size b.kept.length)
    have hkept : b.kept.take (min size b.kept.length) = b.kept.take size :=
      List.take_eq_take_min.symm
    rw [Wasm.Memory.read_take hmoved hmin, ← hfirst, hsecond, hkept]

/-- A holder of nothing. -/
theorem Sound.cons (hs : Sound initial s) (align : ℕ) :
    Sound initial ⟨s.heap, [] ++ ⟨0, 0, align, []⟩ :: s.held⟩ := by
  refine ⟨hs.heap, ?_, hs.untouched, fun b hb => ?_⟩
  · rw [List.nil_append, blocks_cons, Held.blocks, range_zero, zero_add]
    exact hs.live
  · rcases List.mem_cons.mp hb with rfl | hb
    · exact ⟨fun h => absurd rfl h, Nat.le_refl 0, fun h => absurd rfl h⟩
    · exact hs.finds b hb

theorem Sound.blocks_le_live (hs : Sound initial s) {b : Held} (hb : b ∈ s.held) :
    b.blocks ≤ s.heap.live := by
  rw [hs.live]
  exact (blocks_le hb).trans (Multiset.le_add_right _ _)

/-- What one use does. -/
theorem Sound.step {l : Label} (hs : Sound initial s) (h : s.step p l = some t) :
    Sound initial t := by
  cases l with
  | new align size =>
    simp only [Holding.step] at h
    split at h
    · cases h
    case h_2 ptr heap hrealloc =>
      cases h
      have hcons := hs.cons align
      have hnothing := hcons.finds ⟨0, 0, align, []⟩ List.mem_cons_self
      obtain ⟨htrades, hfinds⟩ := hnothing.resize hs.heap (Multiset.zero_le _) hrealloc
      simp only [List.take_nil] at hfinds
      exact hcons.replace htrades hfinds
  | resize holder size =>
    obtain ⟨b, hb, h⟩ := Option.bind_eq_some_iff.mp h
    split at h
    · cases h
    case h_2 ptr heap hrealloc =>
      cases h
      have hmem := List.mem_of_getElem? hb
      obtain ⟨before, after, hheld, hset⟩ := exists_set hb
      obtain ⟨htrades, hfinds⟩ :=
        Finds.resize (hs.finds b hmem) hs.heap (hs.blocks_le_live hmem) hrealloc
      rw [hset]
      have hs' : Sound initial ⟨s.heap, before ++ b :: after⟩ := hheld ▸ hs
      exact hs'.replace htrades hfinds
  | fill holder bytes =>
    obtain ⟨b, hb, h⟩ := Option.bind_eq_some_iff.mp h
    split_ifs at h with hfits
    split at h
    · cases h
    case h_2 memory hwrite =>
      cases h
      have hmem := List.mem_of_getElem? hb
      obtain ⟨before, after, hheld, hset⟩ := exists_set hb
      have htrades : s.heap.Trades (s.heap.withMemory memory) b.blocks b.blocks := by
        rw [Held.blocks, range_of_ne hfits.2]
        exact Heap.trades_write hfits.1 hwrite
      rw [hset]
      have hs' : Sound initial ⟨s.heap, before ++ b :: after⟩ := hheld ▸ hs
      exact hs'.replace htrades
        ⟨(hs.finds b hmem).layout, hfits.1, fun _ => Wasm.Memory.read_write hwrite⟩

/-- **Nobody's block is touched.** After any uses of `cabi_realloc` by any holders, the heap is
sound, its blocks are those of the holders beside those that were there at the start, these read as
they did then, and every holder finds in its block what it last put there, cut to the smallest size
the block has had since. -/
theorem holding_sound {initial : Heap} {s : Holding} (h : (system p initial).Reachable s) :
    Sound initial s := by
  have hinductive : (system p initial).Inductive (Sound initial) := by
    refine ⟨?_, fun s l t hs hst => hs.step hst⟩
    rintro s ⟨hsound, rfl⟩
    exact ⟨hsound, (zero_add _).symm, fun _ _ => rfl, fun b hb => absurd hb List.not_mem_nil⟩
  exact hinductive.of_reachable h

/-- Four bytes in a block of eight, which is cut to two bytes and then moved to one of sixteen,
beside a block of twelve bytes that somebody else has. -/
theorem holding_sound_replier :
    ∃ t : Holding, Sound fresh.heap t ∧ fresh.heap.live = {⟨0, 12⟩} ∧
      t.heap.memory.read 24 2 = some [1, 2] := by
  obtain ⟨t, hsteps, hread⟩ : ∃ t, [.new 4 8, .fill 0 [1, 2, 3, 4], .resize 0 2,
      .resize 0 16].foldlM (step replier) ⟨fresh.heap, []⟩ = some t ∧
        t.heap.memory.read 24 2 = some [1, 2] := ⟨_, rfl, rfl⟩
  have hinit : (system replier fresh.heap).init ⟨fresh.heap, []⟩ := ⟨sound_fresh, rfl⟩
  exact ⟨t, holding_sound ((System.Run.of_foldlM hsteps).reachable (.init hinit)), rfl, hread⟩

end Holding

end Javex.Plugin
