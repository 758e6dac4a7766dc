import EbpfMonitor.Lib.Decimal

/-! # Reading a text line by line

A program follows a text that others write: it takes the text apart at the line feeds and reads each
line by itself, passing over those it finds nothing in.  What it has got of the text may end in the
middle of a line.

`Whole read l` says that a line is read as a whole or not at all.  If all lines are such, then what is
read from any beginning of the text is a beginning of what is read from all of it
(`readAll_start`). -/

namespace LineReader

open Text

variable {α : Type} (read : Text → Option α)

/-- The text of the lines. -/
def ofLines (ls : List Text) : Text := ls.flatMap (· ++ ['\n'])

/-- What is read from the lines of a text. -/
def readAll (t : Text) : List α := (t.splitOn '\n').filterMap read

/-- Nothing is read from a part of the line. -/
structure Whole (l : Text) : Prop where
  feed : '\n' ∉ l
  part : ∀ p, p <+: l → p ≠ l → read p = none

variable {read}

theorem ofLines_append (ls ls' : List Text) : ofLines (ls ++ ls') = ofLines ls ++ ofLines ls' :=
  List.flatMap_append

theorem filterMap_cons_toList (l : Text) (ls : List Text) :
    (l :: ls).filterMap read = (read l).toList ++ ls.filterMap read := by
  cases hl : read l with
  | none => rw [List.filterMap_cons_none hl]; rfl
  | some a => rw [List.filterMap_cons_some hl]; rfl

theorem ofLines_cons (l : Text) (ls : List Text) : ofLines (l :: ls) = l ++ '\n' :: ofLines ls := by
  rw [ofLines, List.flatMap_cons, List.append_assoc]
  rfl

theorem readAll_of_notMem {l : Text} (h : '\n' ∉ l) : readAll read l = (read l).toList := by
  rw [readAll, List.splitOn_eq_singleton h, filterMap_cons_toList]
  exact List.append_nil _

theorem readAll_line {l : Text} (h : '\n' ∉ l) (t : Text) :
    readAll read (l ++ '\n' :: t) = (read l).toList ++ readAll read t := by
  rw [← readAll_of_notMem h, readAll, readAll, readAll, List.splitOn_append_cons_self, List.filterMap_append]

theorem Whole.readAll_part {l t : Text} (h : Whole read l) (ht : t <+: l) :
    readAll read t <+: (read l).toList := by
  rw [readAll_of_notMem (fun hmem => h.feed (ht.subset hmem))]
  by_cases heq : t = l
  · subst heq
    exact List.prefix_refl _
  · rw [h.part t ht heq]
    exact List.nil_prefix

section text

variable {ls : List Text} (hnil : read [] = none) (hls : ∀ l ∈ ls, Whole read l)

include hnil hls

theorem readAll_ofLines : readAll read (ofLines ls) = ls.filterMap read := by
  induction ls with
  | nil =>
      rw [ofLines, List.flatMap_nil, readAll_of_notMem List.not_mem_nil, hnil]
      rfl
  | cons l ls ih =>
      obtain ⟨hl, hls⟩ := List.forall_mem_cons.mp hls
      rw [ofLines_cons, readAll_line hl.feed, ih hls, filterMap_cons_toList]

/-- **What is read from a beginning of the text is a beginning of what is read from all of it**, also
when the beginning ends in the middle of a line. -/
theorem readAll_start {t : Text} (ht : t <+: ofLines ls) : readAll read t <+: ls.filterMap read := by
  induction ls generalizing t with
  | nil =>
      rw [List.prefix_nil.mp ht, readAll_of_notMem List.not_mem_nil, hnil]
      exact List.nil_prefix
  | cons l ls ih =>
      obtain ⟨hl, hls⟩ := List.forall_mem_cons.mp hls
      rw [ofLines_cons] at ht
      rw [filterMap_cons_toList]
      -- the beginning ends in the first line or behind it
      have hpart : t <+: l → readAll read t <+: (read l).toList ++ ls.filterMap read :=
        fun h => (hl.readAll_part h).trans (List.prefix_append _ _)
      obtain ⟨more, hmore⟩ := ht
      rcases List.append_eq_append_iff.mp hmore with ⟨u, hu, -⟩ | ⟨u, rfl, hu⟩
      · exact hpart ⟨u, hu.symm⟩
      · cases u with
        | nil =>
            rw [List.append_nil] at hpart ⊢
            exact hpart (List.prefix_refl l)
        | cons c u =>
            obtain ⟨rfl, hrest⟩ := List.cons.inj hu
            rw [readAll_line hl.feed]
            exact (List.prefix_append_right_inj _).mpr (ih hls ⟨more, hrest.symm⟩)

end text

end LineReader
