import EbpfMonitor.Lib.BoundedMap
import Mathlib.Data.Finset.Card

/-! # Maps with one value per processor

A map with a capacity, shared by several processors, in which every key has one value for each of
them.  A processor reads and writes its own value only.  Writing a new key creates it for all
processors, with zero for the others, and is ignored when the map is full.

`value_update` and `mem_keys_update` say what a write does to the values and to the keys. -/

/-- A map from `K` to a value of type `V` for each processor in `C`, with at most `cap` keys. -/
structure PerCpuMap (C K V : Type) (cap : ℕ) where
  entries : BoundedMap K (C → V) cap

namespace PerCpuMap

variable {C K V : Type} {cap : ℕ}

def empty : PerCpuMap C K V cap := ⟨BoundedMap.empty⟩

variable [DecidableEq K]

/-- What processor `c` finds under `k`. -/
def lookup (m : PerCpuMap C K V cap) (c : C) (k : K) : Option V :=
  (m.entries.lookup k).map (fun vs => vs c)

def keys (m : PerCpuMap C K V cap) : Finset K := m.entries.entries.keys.toFinset

/-- Writing `k` succeeds: the key is present or there is room for it. -/
def Accepts (m : PerCpuMap C K V cap) (k : K) : Prop := m.entries.Accepts k

instance (m : PerCpuMap C K V cap) (k : K) : Decidable (m.Accepts k) :=
  inferInstanceAs (Decidable (m.entries.Accepts k))

variable [Zero V]

/-- The value of processor `c` under `k`, zero when the key is absent. -/
def value (m : PerCpuMap C K V cap) (k : K) (c : C) : V :=
  (m.lookup c k).getD 0

variable [DecidableEq C]

/-- Processor `c` writes `v` under `k`; ignored when the map is full and `k` is new. -/
def update (m : PerCpuMap C K V cap) (c : C) (k : K) (v : V) : PerCpuMap C K V cap :=
  ⟨m.entries.update k (Function.update (m.value k) c v)⟩

/-- Processor `c` changes its value under `k` in place. -/
def modify (m : PerCpuMap C K V cap) (c : C) (k : K) (f : V → V) : PerCpuMap C K V cap :=
  match m.lookup c k with
  | none => m
  | some v => m.update c k (f v)

/-! ### Keys -/

omit [Zero V] [DecidableEq C]

theorem mem_keys_iff {m : PerCpuMap C K V cap} {k : K} :
    k ∈ m.keys ↔ (m.entries.lookup k).isSome := by
  rw [keys, List.mem_toFinset]
  exact AList.lookup_isSome.symm

theorem lookup_isSome_iff {m : PerCpuMap C K V cap} {c : C} {k : K} :
    (m.lookup c k).isSome ↔ k ∈ m.keys := by
  rw [mem_keys_iff, lookup, Option.isSome_map]

@[simp] theorem keys_empty : (empty : PerCpuMap C K V cap).keys = ∅ := rfl

theorem card_keys (m : PerCpuMap C K V cap) : m.keys.card = m.entries.entries.keys.length :=
  List.toFinset_card_of_nodup m.entries.entries.nodupKeys

theorem card_keys_le (m : PerCpuMap C K V cap) : m.keys.card ≤ cap :=
  m.card_keys ▸ m.entries.size_le

theorem accepts_iff {m : PerCpuMap C K V cap} {k : K} :
    m.Accepts k ↔ k ∈ m.keys ∨ m.keys.card < cap := by
  rw [card_keys, keys, List.mem_toFinset]
  exact Iff.rfl

variable [Zero V]

theorem lookup_eq_some_value {m : PerCpuMap C K V cap} {k : K} (h : k ∈ m.keys) (c : C) :
    m.lookup c k = some (m.value k c) := by
  obtain ⟨v, hv⟩ := Option.isSome_iff_exists.mp (lookup_isSome_iff.mpr h)
  rw [value, hv, Option.getD_some]

theorem value_of_notMem {m : PerCpuMap C K V cap} {k : K} (h : k ∉ m.keys) (c : C) :
    m.value k c = 0 := by
  have hnone : m.lookup c k = none := by
    rw [← Option.not_isSome_iff_eq_none, lookup_isSome_iff]
    exact h
  rw [value, hnone, Option.getD_none]

/-! ### Writes -/

variable [DecidableEq C]

theorem mem_keys_update {m : PerCpuMap C K V cap} {c : C} {k j : K} {v : V} :
    j ∈ (m.update c k v).keys ↔ j ∈ m.keys ∨ j = k ∧ m.Accepts k := by
  rw [mem_keys_iff, mem_keys_iff, update, BoundedMap.lookup_update]
  by_cases h : j = k ∧ m.entries.Accepts k
  · rw [if_pos h]
    exact ⟨fun _ => Or.inr h, fun _ => rfl⟩
  · rw [if_neg h]
    exact ⟨Or.inl, fun hor => hor.resolve_right h⟩

theorem keys_subset_update (m : PerCpuMap C K V cap) (c : C) (k : K) (v : V) :
    m.keys ⊆ (m.update c k v).keys := fun _ hj => mem_keys_update.mpr (Or.inl hj)

/-- A full map stays full. -/
theorem card_keys_update {m : PerCpuMap C K V cap} (h : m.keys.card = cap) (c : C) (k : K) (v : V) :
    (m.update c k v).keys.card = cap := by
  have hle := card_keys_le (m.update c k v)
  have hge := Finset.card_le_card (m.keys_subset_update c k v)
  omega

theorem value_update (m : PerCpuMap C K V cap) (c d : C) (k j : K) (v : V) :
    (m.update c k v).value j d =
      if (j = k ∧ m.Accepts k) ∧ d = c then v else m.value j d := by
  unfold value lookup update
  rw [BoundedMap.lookup_update]
  by_cases h : j = k ∧ m.entries.Accepts k
  · obtain ⟨rfl, hacc⟩ := h
    rw [if_pos ⟨rfl, hacc⟩, Option.map_some, Option.getD_some]
    by_cases hd : d = c
    · subst hd
      rw [Function.update_self, if_pos ⟨⟨rfl, hacc⟩, rfl⟩]
    · rw [Function.update_of_ne hd, if_neg (fun hc => hd hc.2)]
      rfl
  · rw [if_neg h, if_neg (fun hc => h hc.1)]

theorem modify_eq_update {m : PerCpuMap C K V cap} {k : K} (h : k ∈ m.keys) (c : C) (f : V → V) :
    m.modify c k f = m.update c k (f (m.value k c)) := by
  rw [modify, lookup_eq_some_value h c]

end PerCpuMap
