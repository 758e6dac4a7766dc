import Mathlib.Data.List.Pairwise
import Mathlib.Data.List.Sort

/-! # Sorting by a key

A list is sorted in descending order of a key.  `Sorts less items sorted` is the contract of a sorting
function that is given a comparator: where `less` is a strict weak order, the result is a sorted
permutation.  Nothing is said about the order of items with the same key.

The key may be something else than the score the items are meant to be ranked by.  `descending_iff`
says when every sort by the key ranks them by the score: when a smaller score always has a smaller
key. -/

namespace SortByKey

variable {α M N : Type} [LinearOrder M] [LinearOrder N]

def Sorts (less : α → α → Prop) (items sorted : List α) : Prop :=
  IsStrictWeakOrder α less → sorted.Perm items ∧ sorted.Pairwise (fun a b => ¬ less b a)

theorem isStrictWeakOrder_key (key : α → M) : IsStrictWeakOrder α (fun a b => key b < key a) where
  irrefl a := lt_irrefl (key a)
  trans _ _ _ hab hbc := lt_trans hbc hab
  incomp_trans a b c hab hbc := by
    have hab' : key a = key b := le_antisymm (not_lt.mp hab.1) (not_lt.mp hab.2)
    rw [hab']
    exact hbc

theorem sorts_iff {key : α → M} {items sorted : List α} :
    Sorts (fun a b => key b < key a) items sorted ↔
      sorted.Perm items ∧ sorted.Pairwise (fun a b => key b ≤ key a) := by
  have hpairs : sorted.Pairwise (fun a b => ¬ key a < key b) ↔
      sorted.Pairwise (fun a b => key b ≤ key a) := by
    simp only [not_lt]
  constructor
  · intro h
    obtain ⟨hperm, hsorted⟩ := h (isStrictWeakOrder_key key)
    exact ⟨hperm, hpairs.mp hsorted⟩
  · rintro ⟨hperm, hsorted⟩ _
    exact ⟨hperm, hpairs.mpr hsorted⟩

theorem rel_or_rel {R : α → α → Prop} {l : List α} (h : l.Pairwise R) {a b : α} (ha : a ∈ l) (hb : b ∈ l)
    (hne : a ≠ b) : R a b ∨ R b a := by
  have : Std.Symm (fun x y => R x y ∨ R y x) := ⟨fun _ _ hxy => hxy.symm⟩
  exact (h.imp (fun {x y} hxy => (Or.inl hxy : R x y ∨ R y x))).forall ha hb hne

section score

variable (key : α → M) (score : α → N)

/-- Descending keys; items with the same key in ascending order of the score. -/
def Worst (a b : α) : Prop := key b < key a ∨ key a = key b ∧ score a ≤ score b

theorem worst_total (a b : α) : Worst key score a b ∨ Worst key score b a := by
  rcases lt_trichotomy (key a) (key b) with hlt | heq | hgt
  · exact Or.inr (Or.inl hlt)
  · rcases le_total (score a) (score b) with hle | hle
    · exact Or.inl (Or.inr ⟨heq, hle⟩)
    · exact Or.inr (Or.inr ⟨heq.symm, hle⟩)
  · exact Or.inl (Or.inl hgt)

theorem worst_trans {a b c : α} (hab : Worst key score a b) (hbc : Worst key score b c) :
    Worst key score a c := by
  rcases hab with hab | ⟨hab, hab'⟩
  · rcases hbc with hbc | ⟨hbc, _⟩
    · exact Or.inl (lt_trans hbc hab)
    · exact Or.inl (hbc ▸ hab)
  · rcases hbc with hbc | ⟨hbc, hbc'⟩
    · exact Or.inl (hab.symm ▸ hbc)
    · exact Or.inr ⟨hab.trans hbc, le_trans hab' hbc'⟩

/-- Every list can be sorted so that ties go against the score. -/
theorem exists_worst (l : List α) : ∃ sorted : List α, sorted.Perm l ∧ sorted.Pairwise (Worst key score) := by
  classical
  have : Std.Total (Worst key score) := ⟨worst_total key score⟩
  have : IsTrans α (Worst key score) := ⟨fun _ _ _ => worst_trans key score⟩
  exact ⟨l.insertionSort (Worst key score), List.perm_insertionSort _ l, List.pairwise_insertionSort _ l⟩

variable {key score}

/-- **Every sort by the key ranks by the score exactly when the key respects the score.** -/
theorem descending_iff {l : List α} :
    (∀ sorted, Sorts (fun a b => key b < key a) l sorted →
      sorted.Pairwise (fun a b => score b ≤ score a)) ↔
    ∀ a ∈ l, ∀ b ∈ l, score a < score b → key a < key b := by
  constructor
  · intro h a ha b hb hscore
    by_contra hkey
    obtain ⟨sorted, hperm, hworst⟩ := exists_worst key score l
    have hsorts : Sorts (fun a b => key b < key a) l sorted := by
      refine sorts_iff.mpr ⟨hperm, hworst.imp ?_⟩
      rintro x y (hlt | ⟨heq, _⟩)
      · exact le_of_lt hlt
      · exact le_of_eq heq.symm
    have hne : a ≠ b := by
      rintro rfl
      exact lt_irrefl _ hscore
    -- in this sort `a` stands before `b`, against the score
    rcases rel_or_rel (hworst.and (h sorted hsorts)) (hperm.mem_iff.mpr ha) (hperm.mem_iff.mpr hb) hne
      with ⟨_, hle⟩ | ⟨hlt | ⟨_, hle⟩, _⟩
    · exact absurd hscore (not_lt.mpr hle)
    · exact hkey hlt
    · exact absurd hscore (not_lt.mpr hle)
  · intro h sorted hsorts
    obtain ⟨hperm, hsorted⟩ := sorts_iff.mp hsorts
    refine hsorted.imp_of_mem (fun {a b} ha hb hkey => ?_)
    by_contra hscore
    exact absurd (h a (hperm.mem_iff.mp ha) b (hperm.mem_iff.mp hb) (not_le.mp hscore)) (not_lt.mpr hkey)

end score

/-- What is taken against what is left out. -/
theorem rel_of_mem_take {R : α → α → Prop} {l : List α} (h : l.Pairwise R) {n : ℕ} {a b : α}
    (ha : a ∈ l.take n) (hb : b ∈ l) (hnot : b ∉ l.take n) : R a b := by
  rw [← List.take_append_drop n l] at h hb
  rcases List.mem_append.mp hb with hb | hb
  · exact absurd hb hnot
  · exact (List.pairwise_append.mp h).2.2 a ha b hb

end SortByKey
