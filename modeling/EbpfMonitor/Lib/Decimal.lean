import Mathlib.Data.Nat.Basic

/-! # Decimal numbers in a text

A text is a list of characters.  `decimal n` is the usual notation of `n`.  A number that is
followed by something other than a digit can be read back from the text it stands in:
`decimal_append_inj`. -/

abbrev Text := List Char

namespace Text

/-- If two texts agree and each is a run of `p`-characters followed by a part that does not start
with one, the runs agree and so do the parts. -/
theorem append_inj_of_boundary {p : Char → Bool} {a b s t : Text} (ha : ∀ c ∈ a, p c = true)
    (hb : ∀ c ∈ b, p c = true) (hs : ∀ c, s.head? = some c → p c = false)
    (ht : ∀ c, t.head? = some c → p c = false) (h : a ++ s = b ++ t) : a = b ∧ s = t := by
  induction a generalizing b with
  | nil =>
      cases b with
      | nil => exact ⟨rfl, h⟩
      | cons c b =>
          have hc := hs c (by rw [show s = c :: (b ++ t) from h]; rfl)
          rw [hb c List.mem_cons_self] at hc
          cases hc
  | cons c a ih =>
      cases b with
      | nil =>
          have hc := ht c (by rw [show t = c :: (a ++ s) from h.symm]; rfl)
          rw [ha c List.mem_cons_self] at hc
          cases hc
      | cons d b =>
          obtain ⟨rfl, h'⟩ := List.cons.inj h
          obtain ⟨rfl, rfl⟩ := ih (fun c hc => ha c (List.mem_cons_of_mem _ hc))
            (fun c hc => hb c (List.mem_cons_of_mem _ hc)) h'
          exact ⟨rfl, rfl⟩

/-- A text is determined by what stands before and after the last occurrence of a character. -/
theorem append_inj_of_last {c : Char} {a b s t : Text} (hs : c ∉ s) (ht : c ∉ t)
    (h : a ++ c :: s = b ++ c :: t) : a = b ∧ s = t := by
  have hne : ∀ r : Text, c ∉ r → ∀ d ∈ r.reverse, decide (d ≠ c) = true := by
    intro r hr d hd
    refine decide_eq_true (fun hdc => hr ?_)
    rw [← hdc]
    exact List.mem_reverse.mp hd
  have hstart : ∀ r : Text, ∀ d, (c :: r).head? = some d → decide (d ≠ c) = false := by
    intro r d hd
    rw [← Option.some.inj hd]
    exact decide_eq_false (fun hcc => hcc rfl)
  have hrev := congrArg List.reverse h
  simp only [List.reverse_append, List.reverse_cons, List.append_assoc, List.singleton_append] at hrev
  obtain ⟨hst, hab⟩ := append_inj_of_boundary (hne s hs) (hne t ht) (hstart _) (hstart _) hrev
  exact ⟨List.reverse_inj.mp (List.cons.inj hab).2, List.reverse_inj.mp hst⟩

/-- The decimal notation of `n`. -/
def decimal (n : ℕ) : Text := Nat.toDigits 10 n

theorem isDigit_of_mem_decimal {n : ℕ} {c : Char} (h : c ∈ decimal n) : c.isDigit = true :=
  Nat.isDigit_of_mem_toDigits (by decide) (by decide) h

theorem toNat_of_isDigit {c : Char} (h : c.isDigit = true) : 48 ≤ c.toNat ∧ c.toNat ≤ 57 := by
  simp only [Char.isDigit, Bool.and_eq_true, decide_eq_true_eq] at h
  exact ⟨UInt32.le_iff_toNat_le.mp h.1, UInt32.le_iff_toNat_le.mp h.2⟩

theorem ne_of_pred {p : Char → Bool} {c d : Char} (hc : p c = true) (hd : p d = false) : c ≠ d := by
  rintro rfl
  rw [hc] at hd
  cases hd

/-- A space or a tabulator. -/
def isBlank (c : Char) : Bool := c = ' ' || c = '\t'

theorem isBlank_of_pred {p : Char → Bool} {c : Char} (hc : p c = true) (hspace : p ' ' = false)
    (htab : p '\t' = false) : isBlank c = false := by
  simp [isBlank, ne_of_pred hc hspace, ne_of_pred hc htab]

theorem isBlank_of_mem_decimal {n : ℕ} {c : Char} (h : c ∈ decimal n) : isBlank c = false :=
  isBlank_of_pred (isDigit_of_mem_decimal h) (by decide) (by decide)

theorem decimal_inj {m n : ℕ} (h : decimal m = decimal n) : m = n := by
  have := congrArg (fun ds => Nat.ofDigitChars 10 ds 0) h
  simpa [decimal] using this

theorem decimal_ne_nil (n : ℕ) : decimal n ≠ [] := Nat.toDigits_ne_nil

/-- No superfluous zero. -/
theorem head?_decimal_ne_zero {n : ℕ} (hn : n ≠ 0) : (decimal n).head? ≠ some '0' := by
  induction n using Nat.strongRecOn with
  | ind n ih =>
      by_cases hlt : n < 10
      · have hdigit : ∀ m < 10, m ≠ 0 → some m.digitChar ≠ some '0' := by decide
        rw [decimal, Nat.toDigits_of_lt_base hlt]
        exact hdigit n hlt hn
      · have hsplit : decimal n = decimal (n / 10) ++ [(n % 10).digitChar] :=
          Nat.toDigits_of_base_le (by decide) (Nat.le_of_not_lt hlt)
        have hrest := ih (n / 10) (by omega) (by omega)
        cases hd : decimal (n / 10) with
        | nil => exact absurd hd (decimal_ne_nil _)
        | cons c t =>
            rw [hd] at hrest
            rw [hsplit, hd]
            exact hrest

/-- The text does not start with a digit. -/
def EndsNumber (s : Text) : Prop := ∀ c, s.head? = some c → c.isDigit = false

theorem endsNumber_append {s : Text} (t : Text) (h : s.head?.map Char.isDigit = some false) :
    EndsNumber (s ++ t) := by
  intro c hc
  cases s with
  | nil => cases h
  | cons d s =>
      obtain rfl := Option.some.inj hc
      exact Option.some.inj h

/-- A number in a text is determined by the text. -/
theorem decimal_append_inj {m n : ℕ} {s t : Text} (hs : EndsNumber s) (ht : EndsNumber t)
    (h : decimal m ++ s = decimal n ++ t) : m = n ∧ s = t := by
  obtain ⟨hd, hst⟩ := append_inj_of_boundary (fun _ hc => isDigit_of_mem_decimal hc)
    (fun _ hc => isDigit_of_mem_decimal hc) hs ht h
  exact ⟨decimal_inj hd, hst⟩

end Text
