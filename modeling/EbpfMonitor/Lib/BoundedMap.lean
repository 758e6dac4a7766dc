import Mathlib.Data.List.AList

/-! # Finite maps with a capacity

A map that holds at most `cap` keys.  Writing a key that is present always succeeds;
writing a new one succeeds while there is room and is otherwise ignored, the map staying as
it was.  The bound is a field of the structure, so no map over its capacity can be built.

`lookup_update` and `lookup_delete` say what a later lookup finds; nothing else about the
representation is needed to reason about runs of such a map. -/

/-- A finite map from `K` to `V` with at most `cap` keys. -/
structure BoundedMap (K V : Type) (cap : ℕ) where
  entries : AList (fun _ : K => V)
  size_le : entries.keys.length ≤ cap

namespace BoundedMap

variable {K V : Type} {cap : ℕ}

def empty : BoundedMap K V cap := ⟨∅, Nat.zero_le _⟩

variable [DecidableEq K]

def lookup (m : BoundedMap K V cap) (k : K) : Option V := m.entries.lookup k

/-- Writing `k` succeeds: the key is present or there is room for it. -/
def Accepts (m : BoundedMap K V cap) (k : K) : Prop := k ∈ m.entries ∨ m.entries.keys.length < cap

instance (m : BoundedMap K V cap) (k : K) : Decidable (m.Accepts k) :=
  inferInstanceAs (Decidable (_ ∨ _))

theorem length_insert_le (m : BoundedMap K V cap) {k : K} (v : V) (h : m.Accepts k) :
    (m.entries.insert k v).keys.length ≤ cap := by
  rw [AList.keys_insert, List.length_cons, List.length_erase]
  have hle := m.size_le
  rcases h with hmem | hroom
  · rw [if_pos (AList.mem_keys.mp hmem)]
    have := List.length_pos_of_mem (AList.mem_keys.mp hmem)
    omega
  · split_ifs <;> omega

/-- Write `v` under `k`; ignored when the map is full and `k` is new. -/
def update (m : BoundedMap K V cap) (k : K) (v : V) : BoundedMap K V cap :=
  if h : m.Accepts k then ⟨m.entries.insert k v, m.length_insert_le v h⟩ else m

def delete (m : BoundedMap K V cap) (k : K) : BoundedMap K V cap where
  entries := m.entries.erase k
  size_le := by
    rw [AList.keys_erase]
    exact le_trans (List.length_erase_le) m.size_le

@[simp] theorem lookup_empty (k : K) : (empty : BoundedMap K V cap).lookup k = none :=
  AList.lookup_empty k

theorem accepts_of_lookup {m : BoundedMap K V cap} {k : K} {v : V} (h : m.lookup k = some v) :
    m.Accepts k :=
  Or.inl (AList.lookup_isSome.mp (Option.isSome_of_mem h))

/-- Maps with the same keys accept the same keys. -/
theorem accepts_congr {W : Type} {m : BoundedMap K V cap} {m' : BoundedMap K W cap}
    (h : ∀ k, (m.lookup k).isSome = (m'.lookup k).isSome) (k : K) : m.Accepts k ↔ m'.Accepts k := by
  have hmem : ∀ k, k ∈ m.entries ↔ k ∈ m'.entries := by
    intro k
    rw [← AList.lookup_isSome, ← AList.lookup_isSome]
    exact Bool.eq_iff_iff.mp (h k)
  have hperm : m.entries.keys.Perm m'.entries.keys :=
    (List.perm_ext_iff_of_nodup m.entries.keys_nodup m'.entries.keys_nodup).mpr hmem
  unfold Accepts
  rw [hmem, hperm.length_eq]

theorem lookup_update (m : BoundedMap K V cap) (k j : K) (v : V) :
    (m.update k v).lookup j = if j = k ∧ m.Accepts k then some v else m.lookup j := by
  unfold update
  by_cases h : m.Accepts k
  · rw [dif_pos h]
    by_cases hj : j = k
    · subst hj
      rw [if_pos ⟨rfl, h⟩]
      exact AList.lookup_insert m.entries
    · rw [if_neg (fun hc => hj hc.1)]
      exact AList.lookup_insert_ne hj
  · rw [dif_neg h, if_neg (fun hc => h hc.2)]

theorem lookup_delete (m : BoundedMap K V cap) (k j : K) :
    (m.delete k).lookup j = if j = k then none else m.lookup j := by
  by_cases hj : j = k
  · subst hj
    rw [if_pos rfl]
    exact AList.lookup_erase j m.entries
  · rw [if_neg hj]
    exact AList.lookup_erase_ne hj

end BoundedMap
