import EbpfMonitor.Lib.Decimal

/-! # Quoted strings with escapes

A quoted string is read character by character up to the closing quote.  A backslash starts an
escape, which a machine reads: after each character it goes on, or gives the text that the
escape stands for, or fails.

* `Escapes` is such a syntax: the characters that stand for themselves and the machine, with
  the laws that an escape is never shorter than its text and that a quote is only accepted right
  after the backslash, where it stands for itself.
* `read` reads from after the opening quote.
* `Plain x` says that all characters of `x` stand for themselves.

A text that is put between quotes as it is will be read back exactly when it is plain.
`read_plain` is one direction.  The other has to exclude that the string is closed early, that
an escape happens to stand for itself, and that the closing quote is taken for an escaped one
and the string goes on in what follows: `plain_of_read`. -/

namespace Quoted

structure Escapes (σ : Type) where
  plain : Char → Bool
  /-- the state after the backslash -/
  start : σ
  next : σ → Char → Option (σ ⊕ Text)
  /-- the number of characters read since the backslash -/
  spent : σ → ℕ
  plain_quote : plain '"' = false
  plain_backslash : plain '\\' = false
  next_quote : ∀ s r, next s '"' = some r → s = start ∧ r = .inr ['"']
  next_ne_start : ∀ s c s', next s c = some (.inl s') → s' ≠ start
  spent_start : spent start = 0
  spent_inl : ∀ s c s', next s c = some (.inl s') → spent s' ≤ spent s + 1
  length_le : ∀ s c d, next s c = some (.inr d) → d.length ≤ spent s + 1

namespace Escapes

variable {σ : Type} (E : Escapes σ)

/-- Read up to the closing quote, from inside an escape or not: the text that is meant and what
follows the quote. -/
def read : Option σ → Text → Option (Text × Text)
  | _, [] => none
  | none, c :: t =>
      if c = '"' then some ([], t)
      else if c = '\\' then read (some E.start) t
      else if E.plain c then (read none t).map (fun r => (c :: r.1, r.2))
      else none
  | some s, c :: t =>
      match E.next s c with
      | none => none
      | some (.inl s') => read (some s') t
      | some (.inr d) => (read none t).map (fun r => (d ++ r.1, r.2))

/-- All characters stand for themselves. -/
def Plain (x : Text) : Prop := ∀ c ∈ x, E.plain c = true

/-- The characters an escape has read so far. -/
def budget : Option σ → ℕ
  | none => 0
  | some s => E.spent s

variable {E}

theorem plain_cons {c : Char} {x : Text} : E.Plain (c :: x) ↔ E.plain c = true ∧ E.Plain x :=
  List.forall_mem_cons

theorem read_of_plain {c : Char} (hc : E.plain c = true) (t : Text) :
    E.read none (c :: t) = (E.read none t).map (fun r => (c :: r.1, r.2)) := by
  have hquote : c ≠ '"' := by
    rintro rfl
    rw [E.plain_quote] at hc
    cases hc
  have hbackslash : c ≠ '\\' := by
    rintro rfl
    rw [E.plain_backslash] at hc
    cases hc
  simp [read, hquote, hbackslash, hc]

/-- The three ways to read a character outside an escape. -/
theorem read_cons_cases {c : Char} {t v r : Text} (h : E.read none (c :: t) = some (v, r)) :
    (c = '"' ∧ v = [] ∧ r = t) ∨ (c = '\\' ∧ E.read (some E.start) t = some (v, r)) ∨
      (E.plain c = true ∧ ∃ v', E.read none t = some (v', r) ∧ v = c :: v') := by
  unfold read at h
  split_ifs at h with hquote hbackslash hplain
  · obtain ⟨rfl, rfl⟩ := Prod.mk.inj (Option.some.inj h)
    exact Or.inl ⟨hquote, rfl, rfl⟩
  · exact Or.inr (Or.inl ⟨hbackslash, h⟩)
  · obtain ⟨⟨v', r'⟩, hread, heq⟩ := Option.map_eq_some_iff.mp h
    obtain ⟨rfl, rfl⟩ := Prod.mk.inj heq
    exact Or.inr (Or.inr ⟨hplain, v', hread, rfl⟩)

/-- The two ways to read a character of an escape. -/
theorem read_escape_cases {s : σ} {c : Char} {t v r : Text}
    (h : E.read (some s) (c :: t) = some (v, r)) :
    (∃ s', E.next s c = some (.inl s') ∧ E.read (some s') t = some (v, r)) ∨
      ∃ d v', E.next s c = some (.inr d) ∧ E.read none t = some (v', r) ∧ v = d ++ v' := by
  unfold read at h
  split at h
  next => cases h
  next s' hnext => exact Or.inl ⟨s', hnext, h⟩
  next d hnext =>
    obtain ⟨⟨v', r'⟩, hread, heq⟩ := Option.map_eq_some_iff.mp h
    obtain ⟨rfl, rfl⟩ := Prod.mk.inj heq
    exact Or.inr ⟨d, v', hnext, hread, rfl⟩

/-- A plain text between quotes is read back. -/
theorem read_plain {x : Text} (hx : E.Plain x) (rest : Text) :
    E.read none (x ++ '"' :: rest) = some (x, rest) := by
  induction x with
  | nil => rfl
  | cons c x ih =>
      obtain ⟨hc, hx⟩ := plain_cons.mp hx
      rw [List.cons_append, read_of_plain hc, ih hx]
      rfl

/-- A string that is closed is read the same way whatever follows. -/
theorem read_append {m : Option σ} {t v r : Text} (h : E.read m t = some (v, r)) (more : Text) :
    E.read m (t ++ more) = some (v, r ++ more) := by
  induction t generalizing m v with
  | nil => cases m <;> cases h
  | cons c t ih =>
      cases m with
      | none =>
          rw [List.cons_append]
          unfold read at h ⊢
          split_ifs at h ⊢ with hquote hbackslash hplain
          · obtain ⟨rfl, rfl⟩ := Prod.mk.inj (Option.some.inj h)
            rfl
          · exact ih h
          · obtain ⟨⟨v', r'⟩, hread, heq⟩ := Option.map_eq_some_iff.mp h
            obtain ⟨rfl, rfl⟩ := Prod.mk.inj heq
            rw [ih hread]
            rfl
      | some s =>
          obtain ⟨s', hnext, ht⟩ | ⟨d, v', hnext, ht, rfl⟩ := read_escape_cases h
          · rw [List.cons_append, read, hnext]
            exact ih ht
          · rw [List.cons_append, read, hnext]
            show (E.read none (t ++ more)).map _ = _
            rw [ih ht]
            rfl

/-- What is read is not longer than what it is read from. -/
theorem length_read_le {m : Option σ} {t v r : Text} (h : E.read m t = some (v, r)) :
    v.length + r.length + 1 ≤ t.length + E.budget m := by
  induction t generalizing m v with
  | nil => cases m <;> cases h
  | cons c t ih =>
      rw [List.length_cons]
      cases m with
      | none =>
          obtain ⟨rfl, rfl, rfl⟩ | ⟨rfl, ht⟩ | ⟨hc, v', ht, rfl⟩ := read_cons_cases h
          · simp
          · have := ih ht
            rw [budget, E.spent_start] at this
            omega
          · have := ih ht
            simp only [budget, List.length_cons] at this ⊢
            omega
      | some s =>
          obtain ⟨s', hnext, ht⟩ | ⟨d, v', hnext, ht, rfl⟩ := read_escape_cases h
          · have := ih ht
            have := E.spent_inl s c s' hnext
            simp only [budget] at *
            omega
          · have := ih ht
            have := E.length_le s c d hnext
            simp only [budget, List.length_append] at *
            omega

/-- The three ways to read `x` and the quote after it: the string is closed inside `x`; it is
closed by that quote, and then what is read is shorter than `x` or `x` is plain; or `x` ends
with a backslash, and the string goes on behind the quote. -/
inductive Closes (E : Escapes σ) (rest r : Text) (m : Option σ) (x v : Text) : Prop
  | early (y : Text) : r = y ++ '"' :: rest → v.length + y.length + 1 ≤ x.length + E.budget m →
      Closes E rest r m x v
  | here : r = rest → v.length ≤ x.length + E.budget m →
      (m = none → x.length ≤ v.length → E.Plain x ∧ v = x) → Closes E rest r m x v
  | late (u w : Text) : v = u ++ '"' :: w → E.read none rest = some (w, r) →
      x.getLast? = some '\\' ∨ (x = [] ∧ m = some E.start) → Closes E rest r m x v

theorem getLast?_cons_backslash {c : Char} {x : Text} (h : x.getLast? = some '\\') :
    (c :: x).getLast? = some '\\' := by
  rw [List.getLast?_cons, h]
  rfl

section closes

variable {rest r x v : Text}

theorem Closes.plain {c : Char} (hc : E.plain c = true) (h : E.Closes rest r none x v) :
    E.Closes rest r none (c :: x) (c :: v) := by
  cases h with
  | early y hr hlen => exact .early y hr (by simp only [List.length_cons]; omega)
  | here hr hlen hplain =>
      refine .here hr (by simp only [List.length_cons]; omega) (fun _ hle => ?_)
      obtain ⟨hx, rfl⟩ := hplain rfl (by simpa using hle)
      exact ⟨plain_cons.mpr ⟨hc, hx⟩, rfl⟩
  | late u w hv hw hx =>
      obtain hx | ⟨_, hm⟩ := hx
      · exact .late (c :: u) w (congrArg (c :: ·) hv) hw (Or.inl (getLast?_cons_backslash hx))
      · cases hm

/-- The backslash itself is read but not meant. -/
theorem Closes.backslash (h : E.Closes rest r (some E.start) x v) : E.Closes rest r none ('\\' :: x) v := by
  cases h with
  | early y hr hlen =>
      rw [budget, E.spent_start] at hlen
      exact .early y hr (by simp only [List.length_cons]; omega)
  | here hr hlen _ =>
      rw [budget, E.spent_start] at hlen
      refine .here hr (by simp only [List.length_cons]; omega) (fun _ hle => ?_)
      rw [List.length_cons] at hle
      omega
  | late u w hv hw hx =>
      refine .late u w hv hw (Or.inl ?_)
      obtain hx | ⟨rfl, _⟩ := hx
      · exact getLast?_cons_backslash hx
      · rfl

theorem Closes.inl {s s' : σ} {c : Char} (hnext : E.next s c = some (.inl s'))
    (h : E.Closes rest r (some s') x v) : E.Closes rest r (some s) (c :: x) v := by
  have hspent := E.spent_inl s c s' hnext
  cases h with
  | early y hr hlen => exact .early y hr (by simp only [budget, List.length_cons] at *; omega)
  | here hr hlen _ => exact .here hr (by simp only [budget, List.length_cons] at *; omega) nofun
  | late u w hv hw hx =>
      obtain hx | ⟨_, hm⟩ := hx
      · exact .late u w hv hw (Or.inl (getLast?_cons_backslash hx))
      · exact absurd (Option.some.inj hm) (E.next_ne_start s c s' hnext)

theorem Closes.inr {s : σ} {c : Char} {d : Text} (hnext : E.next s c = some (.inr d))
    (h : E.Closes rest r none x v) : E.Closes rest r (some s) (c :: x) (d ++ v) := by
  have hd := E.length_le s c d hnext
  cases h with
  | early y hr hlen =>
      refine .early y hr ?_
      simp only [budget, List.length_cons, List.length_append] at *
      omega
  | here hr hlen _ =>
      refine .here hr ?_ nofun
      simp only [budget, List.length_cons, List.length_append] at *
      omega
  | late u w hv hw hx =>
      obtain hx | ⟨_, hm⟩ := hx
      · exact .late (d ++ u) w (by rw [hv, List.append_assoc]) hw (Or.inl (getLast?_cons_backslash hx))
      · cases hm

end closes

theorem closes_of_read {m : Option σ} {x rest v r : Text}
    (h : E.read m (x ++ '"' :: rest) = some (v, r)) : E.Closes rest r m x v := by
  induction x generalizing m v with
  | nil =>
      cases m with
      | none =>
          obtain ⟨rfl, rfl⟩ := Prod.mk.inj (Option.some.inj h)
          exact .here rfl (Nat.zero_le _) (fun _ _ => ⟨nofun, rfl⟩)
      | some s =>
          obtain ⟨s', hnext, ht⟩ | ⟨d, v', hnext, ht, rfl⟩ := read_escape_cases h
          · obtain ⟨_, hr⟩ := E.next_quote s _ hnext
            cases hr
          · obtain ⟨rfl, hr⟩ := E.next_quote s _ hnext
            obtain rfl := Sum.inr.inj hr
            exact .late [] v' rfl ht (Or.inr ⟨rfl, rfl⟩)
  | cons c x ih =>
      cases m with
      | none =>
          obtain ⟨rfl, rfl, rfl⟩ | ⟨rfl, ht⟩ | ⟨hc, v', ht, rfl⟩ := read_cons_cases h
          · exact .early x rfl (by simp [budget])
          · exact (ih ht).backslash
          · exact (ih ht).plain hc
      | some s =>
          obtain ⟨s', hnext, ht⟩ | ⟨d, v', hnext, ht, rfl⟩ := read_escape_cases h
          · exact (ih ht).inl hnext
          · exact (ih ht).inr hnext

/-- **A text between quotes that is read back is plain**, when a string that goes on behind the
closing quote does not end with a backslash. -/
theorem plain_of_read {x rest r : Text}
    (hrest : ∀ w r', E.read none rest = some (w, r') → w.getLast? ≠ some '\\')
    (h : E.read none (x ++ '"' :: rest) = some (x, r)) : E.Plain x ∧ r = rest := by
  cases closes_of_read h with
  | early y _ hlen =>
      rw [budget] at hlen
      omega
  | here hr _ hplain => exact ⟨(hplain rfl le_rfl).1, hr⟩
  | late u w hx hw hlast =>
      obtain hlast | ⟨_, hm⟩ := hlast
      · rw [hx, List.getLast?_append, List.getLast?_cons] at hlast
        refine absurd ?_ (hrest w r hw)
        cases hw' : w.getLast? with
        | none =>
            rw [hw'] at hlast
            cases hlast
        | some c =>
            rw [hw'] at hlast
            exact hlast
      · cases hm

end Escapes

end Quoted
