import Mathlib.Data.List.Infix

/-! # Cutting a list at the first occurrence of a separator

`cut sep t` gives what stands before and after the first occurrence of `sep` in `t`.  That it is the
first one is `not_infix_of_cut`: no occurrence ends earlier.  `cut_append` is the converse. -/

namespace List

variable {α : Type}

/-- A separator that starts a text and is no longer than a beginning of it starts the beginning. -/
theorem prefix_concat_dropLast {sep a b : List α} {c : α} (hne : sep ≠ [])
    (h : sep <+: c :: (a ++ (sep ++ b))) : sep <+: c :: (a ++ sep.dropLast) := by
  have hlength := List.length_pos_iff.mpr hne
  refine List.prefix_of_prefix_length_le h ?_ ?_
  · refine (List.prefix_cons_inj c).mpr ((List.prefix_append_right_inj a).mpr ?_)
    exact (List.dropLast_prefix sep).trans (List.prefix_append sep b)
  · simp only [List.length_cons, List.length_append, List.length_dropLast]
    omega

variable [DecidableEq α]

/-- What stands before and after the first occurrence of `sep`. -/
def cut (sep : List α) : List α → Option (List α × List α)
  | [] => if sep = [] then some ([], []) else none
  | c :: t =>
      if sep <+: c :: t then some ([], (c :: t).drop sep.length)
      else (cut sep t).map (fun p => (c :: p.1, p.2))

variable {sep a b t : List α}

/-- The first occurrence found is one. -/
theorem eq_of_cut (h : cut sep t = some (a, b)) : t = a ++ (sep ++ b) := by
  induction t generalizing a with
  | nil =>
      simp only [cut] at h
      split_ifs at h with hsep
      obtain ⟨rfl, rfl⟩ := Prod.mk.inj (Option.some.inj h)
      rw [hsep]
      rfl
  | cons c t ih =>
      simp only [cut] at h
      split_ifs at h with hsep
      · obtain ⟨rfl, rfl⟩ := Prod.mk.inj (Option.some.inj h)
        obtain ⟨r, hr⟩ := hsep
        rw [← hr, List.drop_left]
        rfl
      · obtain ⟨⟨a', b'⟩, hcut, hpair⟩ := Option.map_eq_some_iff.mp h
        obtain ⟨rfl, rfl⟩ := Prod.mk.inj hpair
        rw [ih hcut]
        rfl

/-- No occurrence ends before the first one found. -/
theorem not_infix_of_cut (hne : sep ≠ []) (h : cut sep t = some (a, b)) :
    ¬ sep <:+: a ++ sep.dropLast := by
  induction t generalizing a with
  | nil =>
      rw [cut, if_neg hne] at h
      cases h
  | cons c t ih =>
      simp only [cut] at h
      split_ifs at h with hsep
      · obtain ⟨rfl, rfl⟩ := Prod.mk.inj (Option.some.inj h)
        intro hinfix
        have hle := hinfix.length_le
        have hlength := List.length_pos_iff.mpr hne
        rw [List.nil_append, List.length_dropLast] at hle
        omega
      · obtain ⟨⟨a', b'⟩, hcut, hpair⟩ := Option.map_eq_some_iff.mp h
        obtain ⟨rfl, rfl⟩ := Prod.mk.inj hpair
        rw [List.cons_append, List.infix_cons_iff]
        rintro (hstart | hlater)
        · refine hsep (hstart.trans ?_)
          rw [eq_of_cut hcut]
          refine (List.prefix_cons_inj c).mpr ((List.prefix_append_right_inj a').mpr ?_)
          exact (List.dropLast_prefix sep).trans (List.prefix_append sep b')
        · exact ih hcut hlater

/-- **Where a text is cut.** -/
theorem cut_append (hne : sep ≠ []) (h : ¬ sep <:+: a ++ sep.dropLast) :
    cut sep (a ++ (sep ++ b)) = some (a, b) := by
  induction a with
  | nil =>
      obtain ⟨c, sep', rfl⟩ := List.exists_cons_of_ne_nil hne
      have hstart : c :: sep' <+: c :: (sep' ++ b) := List.prefix_append (c :: sep') b
      rw [List.nil_append, List.cons_append, cut, if_pos hstart]
      exact congrArg (fun r => some ([], r)) (@List.drop_left _ (c :: sep') b)
  | cons c a ih =>
      rw [List.cons_append, List.infix_cons_iff, not_or] at h
      rw [List.cons_append, cut, if_neg (fun hp => h.1 (prefix_concat_dropLast hne hp)), ih h.2]
      rfl

/-- What comes later does not move the cut. -/
theorem cut_append_right (hne : sep ≠ []) (h : cut sep t = some (a, b)) (s : List α) :
    cut sep (t ++ s) = some (a, b ++ s) := by
  rw [eq_of_cut h, List.append_assoc, List.append_assoc]
  exact cut_append hne (not_infix_of_cut hne h)

/-- A separator of one character. -/
theorem cut_singleton {c : α} (h : c ∉ a) : cut [c] (a ++ c :: b) = some (a, b) := by
  refine cut_append (List.cons_ne_nil _ _) (fun hinfix => h ?_)
  rw [List.dropLast_singleton, List.append_nil] at hinfix
  exact hinfix.subset List.mem_cons_self

/-- A text with an occurrence is cut. -/
theorem cut_ne_none (h : t = a ++ (sep ++ b)) : cut sep t ≠ none := by
  induction a generalizing t with
  | nil =>
      subst h
      cases hsep : sep ++ b with
      | nil =>
          rw [List.nil_append, cut, if_pos (List.append_eq_nil_iff.mp hsep).1]
          exact Option.some_ne_none _
      | cons c r =>
          have hstart : sep <+: c :: r := ⟨b, hsep⟩
          rw [List.nil_append, cut, if_pos hstart]
          exact Option.some_ne_none _
  | cons c a ih =>
      subst h
      rw [List.cons_append, cut]
      split_ifs with hsep
      · exact Option.some_ne_none _
      · rw [Ne, Option.map_eq_none_iff]
        exact ih rfl

end List
