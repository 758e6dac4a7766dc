import Mathlib.Algebra.Order.BigOperators.Group.Finset
import Mathlib.Data.Fintype.BigOperators
import Mathlib.Tactic.Abel

/-! # Counting the parties that are in a given state

A step of one party changes a family of numbers at one index, and `sum_add_of_eq_off` says what
that does to their sum.  `tally P f` is the number of parties `i` whose state `f i` satisfies the
test `P`; `tally_update` is the same for a count.  Both are stated without subtraction, so that
`omega` can use them. -/

variable {ι α : Type} [Fintype ι]

/-- Two families of numbers that differ at one index: what the sums differ by. -/
theorem sum_add_of_eq_off [DecidableEq ι] {M : Type} [AddCommMonoid M] {f g : ι → M} (i : ι)
    (h : ∀ j, j ≠ i → g j = f j) : ∑ j, g j + f i = ∑ j, f j + g i := by
  have hrest : ∑ j ∈ Finset.univ.erase i, g j = ∑ j ∈ Finset.univ.erase i, f j := by
    apply Finset.sum_congr rfl
    intro j hj
    exact h j (Finset.ne_of_mem_erase hj)
  rw [← Finset.add_sum_erase Finset.univ g (Finset.mem_univ i),
    ← Finset.add_sum_erase Finset.univ f (Finset.mem_univ i), hrest]
  abel

/-- The number of parties whose state passes the test `P`. -/
def tally (P : α → Bool) (f : ι → α) : ℕ := ∑ i, (P (f i)).toNat

theorem tally_update [DecidableEq ι] (P : α → Bool) (f : ι → α) (i : ι) (a : α) :
    tally P (Function.update f i a) + (P (f i)).toNat = tally P f + (P a).toNat := by
  have hsum := sum_add_of_eq_off (f := fun j => (P (f j)).toNat)
    (g := fun j => (P (Function.update f i a j)).toNat) i (fun j hj => by rw [Function.update_of_ne hj])
  rw [Function.update_self] at hsum
  exact hsum

theorem tally_mono {P Q : α → Bool} {f : ι → α} (h : ∀ i, (P (f i)).toNat ≤ (Q (f i)).toNat) :
    tally P f ≤ tally Q f :=
  Finset.sum_le_sum (fun i _ => h i)

theorem tally_eq_zero {P : α → Bool} {f : ι → α} (h : ∀ i, P (f i) = false) : tally P f = 0 := by
  apply Finset.sum_eq_zero
  intro i _
  rw [h i]
  rfl

theorem exists_of_tally_pos {P : α → Bool} {f : ι → α} (h : 0 < tally P f) : ∃ i, P (f i) = true := by
  by_contra hnone
  rw [tally_eq_zero (fun i => Bool.eq_false_iff.mpr (fun hi => hnone ⟨i, hi⟩))] at h
  exact absurd h (lt_irrefl 0)
