import Mathlib.Data.List.Basic
import Mathlib.Data.Nat.ModEq
import Mathlib.Data.Fin.Basic

/-! # Circular arrays and free-running counters

A queue stored in a cyclic array of `cap` cells: position `p` (any natural number) lives in
cell `p mod cap`, which is `Fin.ofNat cap p`.  `Holds data base xs` says that the cells of
the positions `base, base + 1, …` hold the elements of `xs` in order.  The lemmas of the
first part say how writing behind the last element, reading and dropping a prefix act on
such a window; all that is needed is that a window is never longer than the array
(`cell_ne`).

The second part is about the counters that name positions in machine code: a `w`-bit
counter `x` that is never reduced and only wraps at `2 ^ w`.  When `cap` is a power of two
not above `2 ^ w`, masking with `cap - 1` is reduction modulo `cap` (`toNat_and_mask`), and
reduction modulo `cap` does not see the wrap-around (`toNat_add_ofNat_modEq`). -/

namespace Circular

variable {α : Type} {cap : ℕ} [NeZero cap]

/-! ### Windows of a cyclic array -/

/-- The cells of the positions `base, base + 1, …` hold `xs`. -/
def Holds (data : Fin cap → α) (base : ℕ) (xs : List α) : Prop :=
  ∀ i (h : i < xs.length), data (Fin.ofNat cap (base + i)) = xs[i]

theorem cell_eq_iff (p q : ℕ) : Fin.ofNat cap p = Fin.ofNat cap q ↔ p ≡ q [MOD cap] := by
  rw [Fin.ext_iff]
  rfl

/-- Two positions less than `cap` apart live in different cells. -/
theorem cell_ne {p q : ℕ} (hlt : p < q) (hcap : q < p + cap) :
    Fin.ofNat cap p ≠ Fin.ofNat cap q := by
  intro h
  have hd := (Nat.modEq_iff_dvd' hlt.le).mp ((cell_eq_iff p q).mp h)
  exact absurd (Nat.le_of_dvd (by omega) hd) (by omega)

theorem Holds.nil (data : Fin cap → α) (base : ℕ) : Holds data base [] := by
  intro i h
  exact absurd h (by simp)

theorem Holds.left {data : Fin cap → α} {base : ℕ} {xs ys : List α}
    (h : Holds data base (xs ++ ys)) : Holds data base xs := by
  intro i hi
  rw [h i (by simp; omega), List.getElem_append_left hi]

/-- Dropping a prefix of the window moves its base. -/
theorem Holds.right {data : Fin cap → α} {base : ℕ} {xs ys : List α}
    (h : Holds data base (xs ++ ys)) : Holds data (base + xs.length) ys := by
  intro i hi
  have := h (xs.length + i) (by simp; omega)
  rw [Nat.add_assoc, this, List.getElem_append_right (by omega)]
  simp

/-- Only the residue of the base matters. -/
theorem Holds.of_modEq {data : Fin cap → α} {base base' : ℕ} {xs : List α}
    (h : Holds data base xs) (hb : base' ≡ base [MOD cap]) : Holds data base' xs := by
  intro i hi
  rw [← h i hi, (cell_eq_iff _ _).mpr (hb.add_right i)]

/-- Writing the cell behind a window that does not fill the array extends the window. -/
theorem Holds.push {data : Fin cap → α} {base : ℕ} {xs : List α} (h : Holds data base xs)
    (hlen : xs.length < cap) (x : α) :
    Holds (Function.update data (Fin.ofNat cap (base + xs.length)) x) base (xs ++ [x]) := by
  intro i hi
  rw [List.length_append, List.length_singleton] at hi
  rcases Nat.lt_or_ge i xs.length with hlt | hge
  · have hne : Fin.ofNat cap (base + i) ≠ Fin.ofNat cap (base + xs.length) :=
      cell_ne (by omega) (by omega)
    rw [Function.update_of_ne hne, h i hlt, List.getElem_append_left hlt]
  · obtain rfl : i = xs.length := by omega
    simp

/-- Reading the first `n` cells of a window returns the first `n` elements. -/
theorem Holds.read {data : Fin cap → α} {base : ℕ} {xs : List α} (h : Holds data base xs)
    {n : ℕ} (hn : n ≤ xs.length) :
    (List.range n).map (fun i => data (Fin.ofNat cap (base + i))) = xs.take n := by
  apply List.ext_getElem
  · simp [hn]
  · intro i h1 h2
    simp only [List.length_map, List.length_range] at h1
    simp only [List.getElem_map, List.getElem_range, List.getElem_take]
    exact h i (by omega)

end Circular

/-! ### Free-running counters -/

namespace Circular

variable {w : ℕ}

/-- Masking with `2 ^ k - 1` is reduction modulo `2 ^ k`. -/
theorem toNat_and_mask {k : ℕ} {m : BitVec w} (hm : m.toNat = 2 ^ k - 1) (x : BitVec w) :
    (x &&& m).toNat = x.toNat % 2 ^ k := by
  rw [BitVec.toNat_and, hm, Nat.and_two_pow_sub_one_eq_mod]

/-- Modulo a divisor of `2 ^ w` a `w`-bit counter advances as an unbounded one does. -/
theorem toNat_add_ofNat_modEq {cap : ℕ} (hcap : cap ∣ 2 ^ w) (x : BitVec w) (n : ℕ) :
    (x + BitVec.ofNat w n).toNat ≡ x.toNat + n [MOD cap] := by
  rw [BitVec.toNat_add, BitVec.toNat_ofNat]
  have h1 : (x.toNat + n % 2 ^ w) % 2 ^ w ≡ x.toNat + n % 2 ^ w [MOD cap] :=
    (Nat.mod_modEq _ (2 ^ w)).of_dvd hcap
  exact h1.trans (((Nat.mod_modEq n (2 ^ w)).of_dvd hcap).add_left _)

/-- The distance of two counters, when it is small, is exact. -/
theorem toNat_add_ofNat_sub {x : BitVec w} {n : ℕ} (hn : n < 2 ^ w) :
    (x + BitVec.ofNat w n - x).toNat = n := by
  rw [BitVec.add_comm, BitVec.add_sub_cancel, BitVec.toNat_ofNat, Nat.mod_eq_of_lt hn]

/-- A difference that goes below zero wraps around. -/
theorem toNat_sub_add_ofNat {w : ℕ} (x : BitVec w) {n : ℕ} (hpos : 0 < n) (hlt : n < 2 ^ w) :
    (x - (x + BitVec.ofNat w n)).toNat = 2 ^ w - n := by
  have hx := x.isLt
  rw [BitVec.toNat_sub, BitVec.toNat_add, BitVec.toNat_ofNat, Nat.mod_eq_of_lt hlt]
  by_cases hwrap : x.toNat + n < 2 ^ w
  · rw [Nat.mod_eq_of_lt hwrap, Nat.mod_eq_of_lt (by omega)]
    omega
  · have hmod : (x.toNat + n) % 2 ^ w = x.toNat + n - 2 ^ w := by
      rw [Nat.mod_eq_sub_mod (by omega), Nat.mod_eq_of_lt (by omega)]
    rw [hmod, show 2 ^ w - (x.toNat + n - 2 ^ w) + x.toNat = 2 ^ w + (2 ^ w - n) by omega,
      Nat.add_mod_left, Nat.mod_eq_of_lt (by omega)]

/-- The clamp `(n < m) ? n : m`. -/
theorem toNat_clamp (n m : BitVec w) : (if n < m then n else m).toNat = min n.toNat m.toNat := by
  split_ifs with h
  · exact (min_eq_left (BitVec.lt_def.mp h).le).symm
  · exact (min_eq_right (Nat.le_of_not_lt (fun h' => h (BitVec.lt_def.mpr h')))).symm

end Circular
