import Mathlib.Algebra.BigOperators.Group.List.Basic
import Mathlib.Data.List.AList
import Mathlib.Data.Nat.ModEq
import Mathlib.Order.Bounds.Basic

/-! # Events aggregated by key

A stream of events is aggregated in a table: `record` takes the value stored under the key of
the event, or `zero` if there is none, and stores what `add` makes of it.

* `lookup_foldl_record` says that the entry of a key is the fold of `add` over the events of
  that key alone, in their order: the events of other keys do not matter.
* `map_lookup_foldl_record_perm` carries a property of such folds that does not depend on the order
  over to the table.
* `foldl_modEq` reads a number off such a fold when every event adds a number of its own, so
  that the order of the events does not matter either; `foldl_counter` is the case of a counter
  of `w` bits.
* `foldl_isLeast` reads off the least of the numbers that the events bring.
* `foldl_last` reads off what every event overwrites. -/

namespace GroupFold

variable {E K V : Type} [DecidableEq K] (key : E → K) (zero : V) (add : V → E → V)

/-- Store what `add` makes of the value under the key of the event. -/
def record (t : AList (fun _ : K => V)) (e : E) : AList (fun _ : K => V) :=
  t.insert (key e) (add ((t.lookup (key e)).getD zero) e)

/-- The events with the key `k`. -/
def ofKey (k : K) (es : List E) : List E := es.filter (fun e => key e = k)

/-- What the events of one key make of its entry. -/
def entry : Option V → List E → Option V
  | v, [] => v
  | v, e :: es => entry (some (add (v.getD zero) e)) es

theorem ofKey_cons_self (e : E) (es : List E) : ofKey key (key e) (e :: es) = e :: ofKey key (key e) es :=
  List.filter_cons_of_pos (decide_eq_true rfl)

theorem ofKey_cons_ne {k : K} {e : E} (h : key e ≠ k) (es : List E) :
    ofKey key k (e :: es) = ofKey key k es :=
  List.filter_cons_of_neg (fun hk => h (of_decide_eq_true hk))

theorem ofKey_append (k : K) (es es' : List E) :
    ofKey key k (es ++ es') = ofKey key k es ++ ofKey key k es' :=
  List.filter_append ..

theorem mem_ofKey {k : K} {e : E} {es : List E} : e ∈ ofKey key k es ↔ e ∈ es ∧ key e = k := by
  simp [ofKey]

theorem ofKey_ne_nil {k : K} {es : List E} : ofKey key k es ≠ [] ↔ ∃ e ∈ es, key e = k := by
  constructor
  · intro h
    obtain ⟨e, he⟩ := List.exists_mem_of_ne_nil _ h
    exact ⟨e, (mem_ofKey key).mp he⟩
  · rintro ⟨e, he⟩
    exact List.ne_nil_of_mem ((mem_ofKey key).mpr he)

/-- Histories with the same events of each key, in order, are permutations of each other. -/
theorem perm_of_ofKey_eq {es es' : List E} (h : ∀ k, ofKey key k es = ofKey key k es') : es.Perm es' := by
  classical
  rw [List.perm_iff_count]
  intro e
  have hcount : ∀ l : List E, (ofKey key (key e) l).count e = l.count e :=
    fun l => List.count_filter (decide_eq_true rfl)
  rw [← hcount es, h, hcount]

/-- **The entry of a key depends on the events of that key alone.** -/
theorem lookup_foldl_record (es : List E) (t : AList (fun _ : K => V)) (k : K) :
    (es.foldl (record key zero add) t).lookup k = entry zero add (t.lookup k) (ofKey key k es) := by
  induction es generalizing t with
  | nil => rfl
  | cons e es ih =>
      rw [List.foldl_cons, ih]
      by_cases hk : key e = k
      · subst hk
        rw [ofKey_cons_self, record, AList.lookup_insert]
        rfl
      · rw [ofKey_cons_ne key hk, record, AList.lookup_insert_ne (Ne.symm hk)]

theorem entry_some (v : V) (es : List E) : entry zero add (some v) es = some (es.foldl add v) := by
  induction es generalizing v with
  | nil => rfl
  | cons e es ih => exact ih (add v e)

theorem entry_none {es : List E} (h : es ≠ []) : entry zero add none es = some (es.foldl add zero) := by
  cases es with
  | nil => exact absurd rfl h
  | cons e es => exact entry_some zero add (add zero e) es

/-- The entry of a key in a table that starts empty. -/
theorem lookup_foldl_record_empty (es : List E) (k : K) :
    (es.foldl (record key zero add) ∅).lookup k =
      if ofKey key k es = [] then none else some ((ofKey key k es).foldl add zero) := by
  rw [lookup_foldl_record, AList.lookup_empty]
  split_ifs with hnone
  · rw [hnone]
    rfl
  · exact entry_none zero add hnone

/-- What the fold over the events of a key does not owe to their order, the entry does not owe to the
order of all events. -/
theorem map_lookup_foldl_record_perm {W : Type} {f : V → W}
    (hfold : ∀ es es' : List E, es ≠ [] → es.Perm es' → f (es.foldl add zero) = f (es'.foldl add zero))
    {es es' : List E} (h : es.Perm es') (k : K) :
    ((es.foldl (record key zero add) ∅).lookup k).map f =
      ((es'.foldl (record key zero add) ∅).lookup k).map f := by
  have hkey : (ofKey key k es).Perm (ofKey key k es') := h.filter _
  rw [lookup_foldl_record_empty, lookup_foldl_record_empty]
  by_cases hnone : ofKey key k es = []
  · rw [hnone] at hkey ⊢
    rw [hkey.symm.eq_nil]
  · have hnone' : ofKey key k es' ≠ [] := by
      intro heq
      rw [heq] at hkey
      exact hnone hkey.eq_nil
    rw [if_neg hnone, if_neg hnone', Option.map_some, Option.map_some, hfold _ _ hnone hkey]

variable {zero add}

/-- A number to which every event adds a number of its own, modulo `n`. -/
theorem foldl_modEq {f : V → ℕ} {g : E → ℕ} {n : ℕ} (hadd : ∀ v e, f (add v e) ≡ f v + g e [MOD n])
    (es : List E) (v : V) : f (es.foldl add v) ≡ f v + (es.map g).sum [MOD n] := by
  induction es generalizing v with
  | nil => exact Nat.ModEq.refl _
  | cons e es ih =>
      rw [List.foldl_cons, List.map_cons, List.sum_cons, ← Nat.add_assoc]
      exact (ih (add v e)).trans ((hadd v e).add_right _)

/-- A counter of `w` bits that starts at zero and to which every event adds a number is the sum of
these numbers, as far as `w` bits go. -/
theorem foldl_counter {w : ℕ} {f : V → BitVec w} {g : E → ℕ} (h₀ : (f zero).toNat = 0)
    (hadd : ∀ v e, (f (add v e)).toNat ≡ (f v).toNat + g e [MOD 2 ^ w]) (es : List E) :
    (f (es.foldl add zero)).toNat = (es.map g).sum % 2 ^ w := by
  have hsum := foldl_modEq (f := fun v => (f v).toNat) hadd es zero
  rw [h₀, Nat.zero_add, Nat.ModEq, Nat.mod_eq_of_lt (f _).isLt] at hsum
  exact hsum

/-- What every event lowers to a number of its own ends at the least of these numbers and the
start. -/
theorem foldl_isLeast {M : Type} [LinearOrder M] {f : V → M} {g : E → M}
    (hadd : ∀ v e, f (add v e) = min (f v) (g e)) (es : List E) (v : V) :
    IsLeast (insert (f v) {x | ∃ e ∈ es, g e = x}) (f (es.foldl add v)) := by
  induction es generalizing v with
  | nil =>
      refine ⟨Set.mem_insert _ _, ?_⟩
      rintro x (rfl | ⟨e, he, _⟩)
      · exact le_refl _
      · cases he
  | cons e es ih =>
      obtain ⟨hmem, hle⟩ := ih (add v e)
      rw [List.foldl_cons]
      constructor
      · rcases hmem with heq | ⟨d, hd, heq⟩
        · rw [heq, hadd]
          rcases min_choice (f v) (g e) with hmin | hmin
          · rw [hmin]
            exact Set.mem_insert _ _
          · rw [hmin]
            exact Or.inr ⟨e, List.mem_cons_self, rfl⟩
        · exact Or.inr ⟨d, List.mem_cons_of_mem e hd, heq⟩
      · have hfirst := hle (Set.mem_insert _ _)
        rw [hadd] at hfirst
        rintro x (rfl | ⟨d, hd, rfl⟩)
        · exact le_trans hfirst (min_le_left _ _)
        · rcases List.mem_cons.mp hd with rfl | hd
          · exact le_trans hfirst (min_le_right _ _)
          · exact hle (Or.inr ⟨d, hd, rfl⟩)

/-- A start that is not below any of the numbers does not count. -/
theorem foldl_isLeast_of_le {M : Type} [LinearOrder M] {f : V → M} {g : E → M}
    (hadd : ∀ v e, f (add v e) = min (f v) (g e)) {es : List E} (hne : es ≠ []) {v : V}
    (hle : ∀ e ∈ es, g e ≤ f v) : IsLeast {x | ∃ e ∈ es, g e = x} (f (es.foldl add v)) := by
  obtain ⟨hmem, hlower⟩ := foldl_isLeast hadd es v
  refine ⟨?_, fun x hx => hlower (Or.inr hx)⟩
  rcases hmem with heq | hmem
  · obtain ⟨e, he⟩ := List.exists_mem_of_ne_nil es hne
    refine ⟨e, he, le_antisymm ?_ (hlower (Or.inr ⟨e, he, rfl⟩))⟩
    rw [heq]
    exact hle e he
  · exact hmem

/-- What every event overwrites is what the last one wrote. -/
theorem foldl_last {W : Type} {f : V → W} {g : E → W} (hadd : ∀ v e, f (add v e) = g e) {es : List E}
    {e : E} (h : es.getLast? = some e) (v : V) : f (es.foldl add v) = g e := by
  obtain ⟨es, rfl⟩ := List.getLast?_eq_some_iff.mp h
  rw [List.foldl_append]
  exact hadd _ e

end GroupFold
