import EbpfMonitor.Lib.GroupFold

/-! # Sums over the entries of a table

`total f t` is the sum of `f` over the values of the finite map `t`.  Setting the value of a
key replaces its old share of the sum by the new one (`total_insert`); the equation is stated
without subtraction, so that it holds in every commutative monoid.  `sum_share` adds up the shares
along a walk of the keys.

When events are aggregated by key and every event adds a number to its entry, the sum over the
table is the sum over the events (`total_foldl_modEq`, `total_foldl_le`). -/

namespace TableSum

variable {K V M : Type} [DecidableEq K] [AddCommMonoid M]

/-- The sum of `f` over the values of the table. -/
def total (f : V → M) (t : AList (fun _ : K => V)) : M := (t.entries.map (fun e => f e.2)).sum

/-- What the key contributes to the sum. -/
def share (f : V → M) (t : AList (fun _ : K => V)) (k : K) : M := (t.lookup k).elim 0 f

theorem total_erase (f : V → M) (t : AList (fun _ : K => V)) (k : K) :
    total f (t.erase k) + share f t k = total f t := by
  by_cases hk : k ∈ t
  · obtain ⟨v, l₁, l₂, hnot, hsplit, herase⟩ := List.exists_of_kerase hk
    have hlookup : t.lookup k = some v := by
      rw [← Option.mem_def, AList.mem_lookup_iff, hsplit]
      simp
    have hrest : (t.erase k).entries = l₁ ++ l₂ := herase
    unfold total share
    rw [hrest, hsplit, hlookup]
    simp only [List.map_append, List.map_cons, List.sum_append, List.sum_cons, Option.elim]
    rw [add_assoc, add_comm _ (f v)]
  · have hlookup : t.lookup k = none := AList.lookup_eq_none.mpr hk
    have herase : t.entries.kerase k = t.entries := List.kerase_of_notMem_keys hk
    have hentries : (t.erase k).entries = t.entries.kerase k := rfl
    simp [total, share, hentries, herase, hlookup]

theorem total_insert (f : V → M) (t : AList (fun _ : K => V)) (k : K) (v : V) :
    total f (t.insert k v) + share f t k = total f t + f v := by
  have hinsert : total f (t.insert k v) = f v + total f (t.erase k) := by
    have hentries : (t.erase k).entries = t.entries.kerase k := rfl
    simp [total, AList.entries_insert, hentries]
  rw [hinsert, add_assoc, total_erase, add_comm]

theorem share_of_mem (f : V → M) (t : AList (fun _ : K => V)) {e : Sigma fun _ : K => V}
    (he : e ∈ t.entries) : share f t e.1 = f e.2 := by
  have hlookup : t.lookup e.1 = some e.2 := AList.mem_lookup_iff.mpr he
  rw [share, hlookup]
  rfl

/-- A walk of the keys meets every share. -/
theorem sum_share (f : V → M) (t : AList (fun _ : K => V)) {ks : List K} (h : ks.Perm t.keys) :
    (ks.map (share f t)).sum = total f t := by
  have hkeys : t.keys.map (share f t) = t.entries.map (fun e => f e.2) := by
    rw [AList.keys, List.keys, List.map_map]
    exact List.map_congr_left (fun e he => share_of_mem f t he)
  rw [(h.map _).sum_eq, hkeys, total]

/-! ### Aggregated events -/

section aggregated

variable {E : Type} {key : E → K} {zero : V} {add : V → E → V} {f : V → ℕ} {g : E → ℕ} {n : ℕ}

theorem share_eq_getD (h₀ : f zero = 0) (t : AList (fun _ : K => V)) (k : K) :
    share f t k = f ((t.lookup k).getD zero) := by
  unfold share
  cases t.lookup k with
  | none => exact h₀.symm
  | some v => rfl

theorem total_record (h₀ : f zero = 0) (t : AList (fun _ : K => V)) (e : E) :
    total f (GroupFold.record key zero add t e) + f ((t.lookup (key e)).getD zero) =
      total f t + f (add ((t.lookup (key e)).getD zero) e) := by
  rw [← share_eq_getD h₀]
  exact total_insert f t (key e) _

/-- If an event adds `g e` to the number of its entry modulo `n`, it does so to the total. -/
theorem total_record_modEq (h₀ : f zero = 0) (hadd : ∀ v e, f (add v e) ≡ f v + g e [MOD n])
    (t : AList (fun _ : K => V)) (e : E) :
    total f (GroupFold.record key zero add t e) ≡ total f t + g e [MOD n] := by
  have hnew := hadd ((t.lookup (key e)).getD zero) e
  apply Nat.ModEq.add_right_cancel' (f ((t.lookup (key e)).getD zero))
  calc total f (GroupFold.record key zero add t e) + f ((t.lookup (key e)).getD zero)
      = total f t + f (add ((t.lookup (key e)).getD zero) e) := total_record h₀ t e
    _ ≡ total f t + (f ((t.lookup (key e)).getD zero) + g e) [MOD n] := hnew.add_left _
    _ = total f t + g e + f ((t.lookup (key e)).getD zero) := by omega

theorem total_record_le (h₀ : f zero = 0) (hadd : ∀ v e, f (add v e) ≤ f v + g e)
    (t : AList (fun _ : K => V)) (e : E) :
    total f (GroupFold.record key zero add t e) ≤ total f t + g e := by
  have hsum : total f (GroupFold.record key zero add t e) + f ((t.lookup (key e)).getD zero) =
      total f t + f (add ((t.lookup (key e)).getD zero) e) := total_record h₀ t e
  have hnew := hadd ((t.lookup (key e)).getD zero) e
  omega

theorem total_foldl_modEq (h₀ : f zero = 0) (hadd : ∀ v e, f (add v e) ≡ f v + g e [MOD n])
    (es : List E) (t : AList (fun _ : K => V)) :
    total f (es.foldl (GroupFold.record key zero add) t) ≡ total f t + (es.map g).sum [MOD n] :=
  GroupFold.foldl_modEq (total_record_modEq h₀ hadd) es t

theorem total_foldl_le (h₀ : f zero = 0) (hadd : ∀ v e, f (add v e) ≤ f v + g e) (es : List E)
    (t : AList (fun _ : K => V)) :
    total f (es.foldl (GroupFold.record key zero add) t) ≤ total f t + (es.map g).sum := by
  induction es generalizing t with
  | nil => exact le_rfl
  | cons e es ih =>
      have hrest := ih (GroupFold.record key zero add t e)
      have hone : total f (GroupFold.record key zero add t e) ≤ total f t + g e :=
        total_record_le h₀ hadd t e
      rw [List.foldl_cons, List.map_cons, List.sum_cons]
      omega

end aggregated

end TableSum
