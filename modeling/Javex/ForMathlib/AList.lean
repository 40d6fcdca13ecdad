import Mathlib.Data.List.AList
import Mathlib.Data.Finset.Card
import Mathlib.Data.Finset.Insert
import Mathlib.Data.Finset.Erase

/-!
# The key set of an association list

`AList.keyset` reads the keys of an association list as a finite set; its cardinality is the
number of entries. Insertion and erasure act on it as on any finite set, so counting
arguments about a map become arguments about its key set.

The broker and the runtime server both keep a map from processes to jobs and bound its size;
Elixir's `map_size/1` is `AList.length`, and the bound is proved for the key set, where an insertion
of a new key and an erasure of an old one are those of `Finset`.
-/

namespace AList

universe u v

variable {α : Type u} {β : α → Type v}

/-- The keys of `s` as a finite set. -/
def keyset (s : AList β) : Finset α := ⟨s.keys, s.keys_nodup⟩

@[simp]
theorem mem_keyset {a : α} {s : AList β} : a ∈ s.keyset ↔ a ∈ s := Iff.rfl

@[simp]
theorem keyset_empty : (∅ : AList β).keyset = ∅ := rfl

/-- `map_size/1`. -/
theorem card_keyset (s : AList β) : s.keyset.card = s.keys.length := rfl

variable [DecidableEq α]

@[simp]
theorem keyset_insert (a : α) (b : β a) (s : AList β) :
    (AList.insert a b s).keyset = Insert.insert a s.keyset := by
  ext k
  simp [AList.mem_insert]

@[simp]
theorem keyset_erase (a : α) (s : AList β) : (AList.erase a s).keyset = s.keyset.erase a := by
  ext k
  simp [AList.mem_erase]

/-- Overwriting the value of a key that is there keeps the keys. -/
theorem keyset_insert_of_mem {a : α} {b : β a} {s : AList β} (h : a ∈ s) :
    (AList.insert a b s).keyset = s.keyset := by
  rw [keyset_insert, Finset.insert_eq_of_mem (mem_keyset.mpr h)]

theorem mem_of_lookup {a : α} {b : β a} {s : AList β} (h : s.lookup a = some b) : a ∈ s :=
  lookup_isSome.mp (by rw [h]; rfl)

theorem exists_lookup_of_mem {a : α} {s : AList β} (h : a ∈ s) : ∃ b, s.lookup a = some b :=
  Option.isSome_iff_exists.mp (lookup_isSome.mpr h)

theorem length_keys_insert {a : α} {b : β a} {s : AList β} (h : a ∉ s) :
    (AList.insert a b s).keys.length = s.keys.length + 1 := by
  rw [← card_keyset, ← card_keyset, keyset_insert, Finset.card_insert_of_notMem (by simpa using h)]

theorem length_keys_erase_le (a : α) (s : AList β) :
    (AList.erase a s).keys.length ≤ s.keys.length := by
  rw [← card_keyset, ← card_keyset, keyset_erase]
  exact Finset.card_erase_le

/-- What a lookup after an insertion can find. -/
theorem lookup_insert_eq_some {γ : Type v} {s : AList fun _ : α => γ} {a k : α} {b c : γ}
    (h : (AList.insert a b s).lookup k = some c) :
    (k = a ∧ c = b) ∨ (k ≠ a ∧ s.lookup k = some c) := by
  by_cases hk : k = a
  · subst hk
    rw [lookup_insert] at h
    exact .inl ⟨rfl, (Option.some.inj h).symm⟩
  · rw [lookup_insert_ne hk] at h
    exact .inr ⟨hk, h⟩

/-- What a lookup after an erasure can find. -/
theorem lookup_erase_eq_some {s : AList β} {a k : α} {c : β k}
    (h : (AList.erase a s).lookup k = some c) : k ≠ a ∧ s.lookup k = some c := by
  have hne : k ≠ a := (mem_erase.mp (mem_of_lookup h)).1
  rw [lookup_erase_ne hne] at h
  exact ⟨hne, h⟩

end AList
