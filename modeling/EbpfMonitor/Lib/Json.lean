import EbpfMonitor.Lib.Number
import EbpfMonitor.Lib.Quoted
import EbpfMonitor.Lib.Utf8

/-! # JSON texts

A reader of JSON for texts whose characters stand for octets: white space, the
literals, numbers without superfluous zeros, strings without control characters and with all the
escapes, arrays and objects; the whole text has to be UTF-8.  An escaped surrogate has to come
with its partner.

* `parse` reads a text.
* `objectText` and `arrayText` put the texts of members and elements together.  `Reads n t v`
  says that `t` stands for `v` wherever it is followed by a comma or a closing bracket:
  `reads_quoted` and `reads_decimal` are such texts, `readValue_object` and `readValue_array`
  combine them.
* For texts that may not be well formed, `plain_of_member` says that a string that was put
  between quotes as it is and comes back as the member of an object had nothing to escape, and
  `good_of_readSequence` carries this along the elements of an array.
* For texts that are cut off, `readValue_append` says that only a number can go on when the text does,
  and `parse_start_of_object` that no beginning of an object is a JSON text. -/

open Text

inductive Json where
  | null
  | bool (b : Bool)
  | number (x : Numeral)
  | string (s : Text)
  | array (vs : List Json)
  | object (ms : List (Text × Json))

namespace Json

/-- The value of the only member with this name. -/
def member (name : Text) : Json → Option Json
  | .object ms =>
      match ms.filter (fun m => m.1 = name) with
      | [m] => some m.2
      | _ => none
  | _ => none

/-- A natural number. -/
def asNat : Json → Option ℕ
  | .number x => if x = Numeral.ofNat x.integer then some x.integer else none
  | _ => none

/-- A string. -/
def asText : Json → Option Text
  | .string s => some s
  | _ => none

/-! ### The reader -/

def isSpace (c : Char) : Bool := c = ' ' || c = '\t' || c = '\n' || c = '\r'

def skip (t : Text) : Text := t.dropWhile isSpace

def hexValue (c : Char) : Option ℕ :=
  if c.isDigit then some (c.toNat - '0'.toNat)
  else if 'a' ≤ c ∧ c ≤ 'f' then some (c.toNat - 'a'.toNat + 10)
  else if 'A' ≤ c ∧ c ≤ 'F' then some (c.toNat - 'A'.toNat + 10)
  else none

/-- Inside an escape; `high` is the first half of a surrogate pair. -/
inductive Escape where
  | start
  | hex (digits value : ℕ) (high : Option ℕ)
  | pairBackslash (high : ℕ)
  | pairLetter (high : ℕ)

/-- The character of a one-letter escape. -/
def letterEscape (c : Char) : Option Char :=
  if c = '"' ∨ c = '\\' ∨ c = '/' then some c
  else if c = 'b' then some '\x08'
  else if c = 'f' then some '\x0c'
  else if c = 'n' then some '\n'
  else if c = 'r' then some '\r'
  else if c = 't' then some '\t'
  else none

/-- After the last digit of a code unit. -/
def codeUnit (high : Option ℕ) (v : ℕ) : Option (Escape ⊕ Text) :=
  match high with
  | none =>
      if 0xD800 ≤ v ∧ v < 0xDC00 then some (.inl (.pairBackslash v))
      else if 0xDC00 ≤ v ∧ v < 0xE000 then none
      else some (.inr (utf8 (Char.ofNat v)))
  | some h =>
      if 0xDC00 ≤ v ∧ v < 0xE000 then
        some (.inr (utf8 (Char.ofNat (0x10000 + (h - 0xD800) * 0x400 + (v - 0xDC00)))))
      else none

def nextEscape : Escape → Char → Option (Escape ⊕ Text)
  | .start, c => if c = 'u' then some (.inl (.hex 0 0 none)) else (letterEscape c).map (fun d => .inr [d])
  | .hex digits value high, c =>
      match hexValue c with
      | none => none
      | some d =>
          if digits < 3 then some (.inl (.hex (digits + 1) (value * 16 + d) high))
          else codeUnit high (value * 16 + d)
  | .pairBackslash high, c => if c = '\\' then some (.inl (.pairLetter high)) else none
  | .pairLetter high, c => if c = 'u' then some (.inl (.hex 0 0 (some high))) else none

def spentEscape : Escape → ℕ
  | .start => 0
  | .hex digits _ none => digits + 1
  | .pairBackslash _ => 5
  | .pairLetter _ => 6
  | .hex digits _ (some _) => digits + 7

theorem codeUnit_inl {high : Option ℕ} {v : ℕ} {e : Escape} (h : codeUnit high v = some (.inl e)) :
    high = none ∧ e = .pairBackslash v := by
  cases high with
  | none =>
      simp only [codeUnit] at h
      split_ifs at h
      · exact ⟨rfl, (Sum.inl.inj (Option.some.inj h)).symm⟩
      · cases Option.some.inj h
  | some hi =>
      simp only [codeUnit] at h
      split_ifs at h
      cases Option.some.inj h

theorem codeUnit_inr {high : Option ℕ} {v : ℕ} {d : Text} (h : codeUnit high v = some (.inr d)) :
    d.length ≤ 4 := by
  cases high with
  | none =>
      simp only [codeUnit] at h
      split_ifs at h
      · cases Option.some.inj h
      · exact Sum.inr.inj (Option.some.inj h) ▸ length_utf8_le _
  | some hi =>
      simp only [codeUnit] at h
      split_ifs at h
      exact Sum.inr.inj (Option.some.inj h) ▸ length_utf8_le _

/-- What a character of an escape can lead to. -/
inductive Escape.Move : Escape → Char → Escape ⊕ Text → Prop
  | unicode : Move .start 'u' (.inl (.hex 0 0 none))
  | letter {c d : Char} : letterEscape c = some d → Move .start c (.inr [d])
  | digit {c : Char} {digits value d : ℕ} {high : Option ℕ} : hexValue c = some d → digits < 3 →
      Move (.hex digits value high) c (.inl (.hex (digits + 1) (value * 16 + d) high))
  | unit {c : Char} {digits value d : ℕ} {high : Option ℕ} {r : Escape ⊕ Text} : hexValue c = some d →
      3 ≤ digits → codeUnit high (value * 16 + d) = some r → Move (.hex digits value high) c r
  | pairBackslash {high : ℕ} : Move (.pairBackslash high) '\\' (.inl (.pairLetter high))
  | pairLetter {high : ℕ} : Move (.pairLetter high) 'u' (.inl (.hex 0 0 (some high)))

theorem move_of_nextEscape {e : Escape} {c : Char} {r : Escape ⊕ Text} (h : nextEscape e c = some r) :
    Escape.Move e c r := by
  cases e with
  | start =>
      simp only [nextEscape] at h
      split_ifs at h with hc
      · cases h
        exact hc ▸ .unicode
      · obtain ⟨d, hd, rfl⟩ := Option.map_eq_some_iff.mp h
        exact .letter hd
  | hex digits value high =>
      simp only [nextEscape] at h
      cases hc : hexValue c with
      | none =>
          rw [hc] at h
          cases h
      | some d =>
          simp only [hc] at h
          split_ifs at h with hlt
          · cases h
            exact .digit hc hlt
          · exact .unit hc (Nat.le_of_not_lt hlt) h
  | pairBackslash high =>
      simp only [nextEscape] at h
      split_ifs at h with hc
      cases h
      exact hc ▸ .pairBackslash
  | pairLetter high =>
      simp only [nextEscape] at h
      split_ifs at h with hc
      cases h
      exact hc ▸ .pairLetter

theorem Escape.Move.quote {e : Escape} {r : Escape ⊕ Text} (h : Escape.Move e '"' r) :
    e = .start ∧ r = .inr ['"'] := by
  cases h with
  | letter hd =>
      cases hd
      exact ⟨rfl, rfl⟩
  | digit hc _ => cases hc
  | unit hc _ _ => cases hc

theorem Escape.Move.inl {e e' : Escape} {c : Char} (h : Escape.Move e c (.inl e')) :
    e' ≠ .start ∧ spentEscape e' ≤ spentEscape e + 1 := by
  cases h with
  | unicode => exact ⟨nofun, le_rfl⟩
  | @digit _ _ _ _ high _ _ => cases high <;> exact ⟨nofun, le_rfl⟩
  | unit _ hdigits hunit =>
      obtain ⟨rfl, rfl⟩ := codeUnit_inl hunit
      refine ⟨nofun, ?_⟩
      simp only [spentEscape]
      omega
  | pairBackslash => exact ⟨nofun, le_rfl⟩
  | pairLetter => exact ⟨nofun, le_rfl⟩

theorem Escape.Move.inr {e : Escape} {c : Char} {d : Text} (h : Escape.Move e c (.inr d)) :
    d.length ≤ spentEscape e + 1 := by
  cases h with
  | letter _ => exact le_rfl
  | @unit _ _ _ _ high _ _ hdigits hunit =>
      have hlen := codeUnit_inr hunit
      cases high with
      | none =>
          simp only [spentEscape]
          omega
      | some hi =>
          simp only [spentEscape]
          omega

def escapes : Quoted.Escapes Escape where
  plain c := decide (c ≠ '"' ∧ c ≠ '\\' ∧ 0x20 ≤ c.toNat)
  start := .start
  next := nextEscape
  spent := spentEscape
  plain_quote := rfl
  plain_backslash := rfl
  next_quote _ _ h := (move_of_nextEscape h).quote
  next_ne_start _ _ _ h := (move_of_nextEscape h).inl.1
  spent_start := rfl
  spent_inl _ _ _ h := (move_of_nextEscape h).inl.2
  length_le _ _ _ h := (move_of_nextEscape h).inr

def isNumberChar (c : Char) : Bool := c.isDigit || c = '-' || c = '+' || c = '.' || c = 'e' || c = 'E'

/-- A zero that is followed by another digit, after the sign. -/
def leadingZero (t : Text) : Bool :=
  let t := if t.head? = some '-' then t.tail else t
  t.head? = some '0' && t.tail.head?.any Char.isDigit

def readNumber (t : Text) : Option (Json × Text) :=
  let token := t.takeWhile isNumberChar
  if leadingZero token then none
  else (Numeral.ofText token).map (fun x => (.number x, t.dropWhile isNumberChar))

def readLiteral (t : Text) : Option (Json × Text) :=
  [("null".toList, null), ("true".toList, bool true), ("false".toList, bool false)].findSome?
    (fun l => (t.dropPrefix? l.1).map (fun r => (l.2, r)))

section sequence

variable {α : Type} (item : Text → Option (α × Text)) (close : Char)

/-- One item or more with commas between them, up to the closing bracket. -/
def readSequence : ℕ → Text → Option (List α × Text)
  | 0, _ => none
  | n + 1, t => do
      let (a, t) ← item t
      match skip t with
      | [] => none
      | c :: t =>
          if c = close then some ([a], t)
          else if c = ',' then (readSequence n t).map (fun r => (a :: r.1, r.2))
          else none

/-- After the opening bracket. -/
def readItems (t : Text) : Option (List α × Text) :=
  if (skip t).head? = some close then some ([], (skip t).tail)
  else readSequence item close t.length t

end sequence

def readMember (value : Text → Option (Json × Text)) (t : Text) : Option ((Text × Json) × Text) := do
  let t ← if (skip t).head? = some '"' then some (skip t).tail else none
  let (name, t) ← escapes.read none t
  let t ← if (skip t).head? = some ':' then some (skip t).tail else none
  let (v, t) ← value t
  return ((name, v), t)

/-- A value; the number bounds the nesting. -/
def readValue : ℕ → Text → Option (Json × Text)
  | 0, _ => none
  | n + 1, t =>
      let t := skip t
      if t.head? = some '"' then (escapes.read none t.tail).map (fun r => (.string r.1, r.2))
      else if t.head? = some '[' then
        (readItems (readValue n) ']' t.tail).map (fun r => (.array r.1, r.2))
      else if t.head? = some '\x7b' then
        (readItems (readMember (readValue n)) '\x7d' t.tail).map (fun r => (.object r.1, r.2))
      else (readLiteral t).or (readNumber t)

/-- The value of a text; every bracket that is open is a character of the text. -/
def parse (t : Text) : Option Json := do
  let (v, rest) ← readValue (t.length + 1) t
  if skip rest = [] ∧ IsUtf8 t then return v else none

/-! ### Numbers -/

theorem leadingZero_decimal (k : ℕ) : leadingZero (decimal k) = false := by
  obtain ⟨c, t, hcons, hc⟩ := Numeral.exists_decimal_eq_cons k
  have hsign : (decimal k).head? ≠ some '-' := by
    rw [hcons]
    rintro ⟨⟩
    cases hc
  simp only [leadingZero, if_neg hsign]
  by_cases hk : k = 0
  · subst hk
    rfl
  · simp [head?_decimal_ne_zero hk]

/-! ### Sequences -/

section sequence

variable {α : Type} {item : Text → Option (α × Text)} {close : Char}

theorem skip_of_head {c : Char} {t : Text} (h : isSpace c = false) : skip (c :: t) = c :: t := by
  rw [skip, List.dropWhile_cons_of_neg (by rw [h]; exact Bool.false_ne_true)]

theorem readSequence_comma (hcomma : close ≠ ',') {n : ℕ} {t t' : Text} {a : α}
    (h : item t = some (a, ',' :: t')) :
    readSequence item close (n + 1) t = (readSequence item close n t').map (fun r => (a :: r.1, r.2)) := by
  have hskip : skip (',' :: t') = ',' :: t' := rfl
  rw [readSequence, h]
  simp only [Option.bind_eq_bind, Option.bind_some, hskip, if_neg hcomma.symm, if_true]

theorem readSequence_close (hspace : isSpace close = false) {n : ℕ} {t t' : Text} {a : α}
    (h : item t = some (a, close :: t')) : readSequence item close (n + 1) t = some ([a], t') := by
  rw [readSequence, h]
  simp only [Option.bind_eq_bind, Option.bind_some, skip_of_head hspace, if_true]

/-- A sequence starts with an item. -/
theorem exists_item_of_readSequence {n : ℕ} {t r : Text} {as : List α}
    (h : readSequence item close n t = some (as, r)) :
    ∃ a t' as', item t = some (a, t') ∧ as = a :: as' := by
  cases n with
  | zero => cases h
  | succ n =>
      rw [readSequence] at h
      obtain ⟨⟨a, t'⟩, hitem, h⟩ := Option.bind_eq_some_iff.mp h
      refine ⟨a, t', ?_⟩
      simp only at h
      split at h
      · cases h
      · split_ifs at h
        · cases h
          exact ⟨[], hitem, rfl⟩
        · obtain ⟨⟨as', r'⟩, _, heq⟩ := Option.map_eq_some_iff.mp h
          cases heq
          exact ⟨as', hitem, rfl⟩

variable {ι : Type} {text : ι → Text} {value : ι → α}

theorem intercalate_append (a b : Text) (ts : List Text) (rest : Text) :
    List.intercalate [','] (a :: b :: ts) ++ rest =
      a ++ ',' :: (List.intercalate [','] (b :: ts) ++ rest) := by
  rw [List.intercalate_cons_cons]
  simp

/-- Items that can be read before a comma and before the closing bracket, with commas between
them. -/
theorem readSequence_intercalate (hspace : isSpace close = false) (hcomma : close ≠ ',') {es : List ι}
    (hne : es ≠ []) (hread : ∀ e ∈ es, ∀ c rest, c = ',' ∨ c = close →
      item (text e ++ c :: rest) = some (value e, c :: rest)) {n : ℕ} (hn : es.length ≤ n) (rest : Text) :
    readSequence item close n (List.intercalate [','] (es.map text) ++ close :: rest) =
      some (es.map value, rest) := by
  induction es generalizing n with
  | nil => exact absurd rfl hne
  | cons e es ih =>
      obtain ⟨he, hes⟩ := List.forall_mem_cons.mp hread
      obtain ⟨n, rfl⟩ : ∃ m, n = m + 1 := ⟨n - 1, by rw [List.length_cons] at hn; omega⟩
      cases es with
      | nil =>
          rw [List.map_singleton, List.intercalate_singleton]
          exact readSequence_close hspace (he close rest (Or.inr rfl))
      | cons e' es =>
          have hrest := ih (List.cons_ne_nil _ _) hes (Nat.le_of_succ_le_succ hn)
          simp only [List.map_cons] at hrest ⊢
          rw [intercalate_append, readSequence_comma hcomma (he ',' _ (Or.inl rfl)), hrest]
          rfl

/-- If every item that is read as intended is good, and a good item is read to its end, then all
items of a sequence that is read as intended are good. -/
theorem good_of_readSequence (hcomma : close ≠ ',') {R : ι → α → Prop} {good : ι → Prop} {es : List ι}
    (hgood : ∀ e ∈ es, ∀ t a r, item (text e ++ t) = some (a, r) → R e a → good e)
    (hread : ∀ e ∈ es, good e → ∀ rest, item (text e ++ ',' :: rest) = some (value e, ',' :: rest))
    {n : ℕ} {rest r : Text} {as : List α}
    (h : readSequence item close n (List.intercalate [','] (es.map text) ++ close :: rest) = some (as, r))
    (hR : List.Forall₂ R es as) : ∀ e ∈ es, good e := by
  induction es generalizing n as with
  | nil => nofun
  | cons e es ih =>
      obtain ⟨hgood₁, hgood⟩ := List.forall_mem_cons.mp hgood
      obtain ⟨hread₁, hread⟩ := List.forall_mem_cons.mp hread
      obtain ⟨a, t', as', hitem, rfl⟩ := exists_item_of_readSequence h
      obtain ⟨hRe, hRes⟩ := List.forall₂_cons.mp hR
      cases es with
      | nil =>
          rw [List.map_singleton, List.intercalate_singleton] at hitem
          exact List.forall_mem_singleton.mpr (hgood₁ _ a t' hitem hRe)
      | cons e' es =>
          simp only [List.map_cons] at ih hitem h
          rw [intercalate_append] at hitem h
          have he := hgood₁ _ a t' hitem hRe
          cases n with
          | zero => cases h
          | succ n =>
              rw [readSequence_comma hcomma (hread₁ he _)] at h
              obtain ⟨⟨as'', r'⟩, hrest, heq⟩ := Option.map_eq_some_iff.mp h
              cases heq
              exact List.forall_mem_cons.mpr ⟨he, ih hgood hread hrest hRes⟩

theorem length_le_length_intercalate (close : Char) (ts : List Text) (rest : Text) :
    ts.length ≤ (List.intercalate [','] ts ++ close :: rest).length := by
  induction ts with
  | nil => exact Nat.zero_le _
  | cons a ts ih =>
      cases ts with
      | nil =>
          simp only [List.intercalate_singleton, List.length_append, List.length_cons, List.length_nil]
          omega
      | cons b ts =>
          rw [intercalate_append]
          simp only [List.length_cons, List.length_append] at ih ⊢
          omega

/-- The bracket does not close at once when the first item starts with another character. -/
theorem readItems_of_head {c : Char} (hspace : isSpace c = false) (hclose : c ≠ close) (t : Text) :
    readItems item close (c :: t) = readSequence item close (c :: t).length (c :: t) := by
  rw [readItems, skip_of_head hspace, List.head?_cons, if_neg (fun h => hclose (Option.some.inj h))]

/-- The text of an item that does not start like a closing bracket. -/
def Starts (close : Char) (t : Text) : Prop := ∃ c t', t = c :: t' ∧ isSpace c = false ∧ c ≠ close

theorem readItems_intercalate_eq {es : List ι} (hne : es ≠ []) (hstart : ∀ e ∈ es, Starts close (text e))
    (rest : Text) :
    readItems item close (List.intercalate [','] (es.map text) ++ close :: rest) =
      readSequence item close (List.intercalate [','] (es.map text) ++ close :: rest).length
        (List.intercalate [','] (es.map text) ++ close :: rest) := by
  cases es with
  | nil => exact absurd rfl hne
  | cons e es =>
      obtain ⟨c, t', htext, hspace, hclose⟩ := hstart e (List.mem_cons_self ..)
      have hhead : ∃ t'', List.intercalate [','] ((e :: es).map text) ++ close :: rest = c :: t'' := by
        cases es with
        | nil =>
            rw [List.map_singleton, List.intercalate_singleton, htext]
            exact ⟨_, rfl⟩
        | cons e' es =>
            rw [List.map_cons, List.map_cons, intercalate_append, htext]
            exact ⟨_, rfl⟩
      obtain ⟨t'', ht⟩ := hhead
      rw [ht, readItems_of_head hspace hclose]

/-- Items between brackets. -/
theorem readItems_intercalate (hspace : isSpace close = false) (hcomma : close ≠ ',') {es : List ι}
    (hstart : ∀ e ∈ es, Starts close (text e)) (hread : ∀ e ∈ es, ∀ c rest, c = ',' ∨ c = close →
      item (text e ++ c :: rest) = some (value e, c :: rest)) (rest : Text) :
    readItems item close (List.intercalate [','] (es.map text) ++ close :: rest) =
      some (es.map value, rest) := by
  cases es with
  | nil =>
      rw [List.map_nil, List.intercalate_nil, List.nil_append, readItems, skip_of_head hspace]
      exact if_pos rfl
  | cons e es =>
      have hlen := length_le_length_intercalate close ((e :: es).map text) rest
      rw [List.length_map] at hlen
      rw [readItems_intercalate_eq (List.cons_ne_nil _ _) hstart,
        readSequence_intercalate hspace hcomma (List.cons_ne_nil _ _) hread hlen]

end sequence

/-! ### Values -/

def quoted (x : Text) : Text := '"' :: (x ++ ['"'])

def memberText (m : Text × Text) : Text := quoted m.1 ++ ':' :: m.2

def objectText (ms : List (Text × Text)) : Text :=
  '\x7b' :: (List.intercalate [','] (ms.map memberText) ++ ['\x7d'])

def arrayText (ts : List Text) : Text := '[' :: (List.intercalate [','] ts ++ [']'])

/-- The text stands for the value wherever a comma or a closing bracket follows. -/
def Reads (n : ℕ) (t : Text) (v : Json) : Prop :=
  ∀ c rest, c = ',' ∨ c = ']' ∨ c = '\x7d' → readValue n (t ++ c :: rest) = some (v, c :: rest)

theorem readValue_quote (n : ℕ) (t : Text) :
    readValue (n + 1) ('"' :: t) = (escapes.read none t).map (fun r => (.string r.1, r.2)) := rfl

theorem readValue_bracket (n : ℕ) (t : Text) :
    readValue (n + 1) ('[' :: t) = (readItems (readValue n) ']' t).map (fun r => (.array r.1, r.2)) := rfl

theorem readValue_brace (n : ℕ) (t : Text) :
    readValue (n + 1) ('\x7b' :: t) =
      (readItems (readMember (readValue n)) '\x7d' t).map (fun r => (.object r.1, r.2)) := rfl

theorem quoted_append (x rest : Text) : quoted x ++ rest = '"' :: (x ++ '"' :: rest) := by
  simp [quoted]

theorem reads_quoted (n : ℕ) {x : Text} (hx : escapes.Plain x) : Reads (n + 1) (quoted x) (.string x) := by
  intro c rest _
  rw [quoted_append, readValue_quote, Quoted.Escapes.read_plain hx]
  rfl

/-- A digit starts a number. -/
theorem readValue_digit (n : ℕ) {c : Char} (hc : c.isDigit = true) (t : Text) :
    readValue (n + 1) (c :: t) = readNumber (c :: t) := by
  have hne : ∀ {d : Char}, d.isDigit = false → c ≠ d := by
    rintro d hd rfl
    rw [hc] at hd
    cases hd
  have hspace : isSpace c = false := by
    simp [isSpace, hne (d := ' ') rfl, hne (d := '\t') rfl, hne (d := '\n') rfl, hne (d := '\r') rfl]
  have hliteral : readLiteral (c :: t) = none := by
    simp [readLiteral, List.dropPrefix?, hne (d := 'n') rfl, hne (d := 't') rfl, hne (d := 'f') rfl]
  rw [readValue]
  simp [skip_of_head hspace, hne (d := '"') rfl, hne (d := '[') rfl, hne (d := '\x7b') rfl, hliteral]

theorem reads_decimal (n k : ℕ) : Reads (n + 1) (decimal k) (.number (Numeral.ofNat k)) := by
  intro c rest hc
  have hstop : isNumberChar c = false := by
    obtain rfl | rfl | rfl := hc <;> rfl
  have hdigit : ∀ d ∈ decimal k, isNumberChar d = true := fun d hd => by
    simp [isNumberChar, isDigit_of_mem_decimal hd]
  have htake : (decimal k ++ c :: rest).takeWhile isNumberChar = decimal k := by
    rw [List.takeWhile_append_of_pos hdigit, List.takeWhile_cons_of_neg (by simp [hstop]), List.append_nil]
  have hdrop : (decimal k ++ c :: rest).dropWhile isNumberChar = c :: rest := by
    rw [List.dropWhile_append_of_pos hdigit, List.dropWhile_cons_of_neg (by simp [hstop])]
  have hnumber : readNumber (decimal k ++ c :: rest) = some (.number (Numeral.ofNat k), c :: rest) := by
    simp only [readNumber, htake, hdrop, leadingZero_decimal, Numeral.ofText_decimal]
    rfl
  obtain ⟨d, t, hd, hdigit⟩ := Numeral.exists_decimal_eq_cons k
  rw [hd, List.cons_append] at hnumber ⊢
  rw [readValue_digit n hdigit, hnumber]

theorem readMember_quoted {value : Text → Option (Json × Text)} {name : Text} (hname : escapes.Plain name)
    (t : Text) :
    readMember value (quoted name ++ ':' :: t) = (value t).map (fun r => ((name, r.1), r.2)) := by
  have hquote : ∀ t', skip ('"' :: t') = '"' :: t' := fun _ => rfl
  have hcolon : skip (':' :: t) = ':' :: t := rfl
  rw [quoted_append, readMember]
  simp only [hquote, List.head?_cons, if_true, List.tail_cons, Option.bind_eq_bind, Option.bind_some,
    Quoted.Escapes.read_plain hname, hcolon]
  cases value t <;> rfl

/-- Whatever follows, a member that is read as a string is what stands behind the name. -/
theorem exists_read_of_readMember {n : ℕ} {name t r : Text} {m : Text × Json} (hname : escapes.Plain name)
    (h : readMember (readValue (n + 1)) (quoted name ++ ':' :: '"' :: t) = some (m, r)) :
    ∃ x, escapes.read none t = some (x, r) ∧ m = (name, .string x) := by
  rw [readMember_quoted hname, readValue_quote] at h
  obtain ⟨⟨v, r'⟩, hvalue, heq⟩ := Option.map_eq_some_iff.mp h
  obtain ⟨⟨x, r''⟩, hread, heq'⟩ := Option.map_eq_some_iff.mp hvalue
  cases heq'
  cases heq
  exact ⟨x, hread, rfl⟩

theorem readValue_array {n : ℕ} {ι : Type} {text : ι → Text} {value : ι → Json} {es : List ι}
    (hstart : ∀ e ∈ es, Starts ']' (text e)) (h : ∀ e ∈ es, Reads n (text e) (value e)) (rest : Text) :
    readValue (n + 1) (arrayText (es.map text) ++ rest) = some (.array (es.map value), rest) := by
  have hitems : readItems (readValue n) ']' (List.intercalate [','] (es.map text) ++ ']' :: rest) =
      some (es.map value, rest) := readItems_intercalate rfl (by decide) hstart
    (fun e he c rest hc => h e he c rest (hc.imp_right Or.inl)) rest
  rw [arrayText, List.cons_append, List.append_assoc, List.singleton_append, readValue_bracket, hitems]
  rfl

/-- An object whose members are given as name, text and value. -/
theorem readValue_object {n : ℕ} {ms : List (Text × Text × Json)}
    (h : ∀ m ∈ ms, escapes.Plain m.1 ∧ Reads n m.2.1 m.2.2) (rest : Text) :
    readValue (n + 1) (objectText (ms.map (fun m => (m.1, m.2.1))) ++ rest) =
      some (.object (ms.map (fun m => (m.1, m.2.2))), rest) := by
  have hstart : ∀ m ∈ ms, Starts '\x7d' (memberText (m.1, m.2.1)) :=
    fun m _ => ⟨'"', _, rfl, rfl, by decide⟩
  have hread : ∀ m ∈ ms, ∀ c rest, c = ',' ∨ c = '\x7d' →
      readMember (readValue n) (memberText (m.1, m.2.1) ++ c :: rest) =
        some ((m.1, m.2.2), c :: rest) := by
    intro m hm c rest hc
    obtain ⟨hname, hvalue⟩ := h m hm
    rw [memberText, List.append_assoc, List.cons_append, readMember_quoted hname,
      hvalue c rest (hc.imp_right Or.inr)]
    rfl
  have hitems := readItems_intercalate rfl (by decide) hstart hread rest
  rw [objectText, List.map_map, List.cons_append, List.append_assoc, List.singleton_append,
    readValue_brace]
  exact (congrArg (Option.map _) hitems).trans rfl

theorem parse_eq_some {t : Text} {v : Json} :
    parse t = some v ↔ ∃ r, readValue (t.length + 1) t = some (v, r) ∧ skip r = [] ∧ IsUtf8 t := by
  unfold parse
  constructor
  · intro h
    obtain ⟨⟨v', r⟩, hread, h⟩ := Option.bind_eq_some_iff.mp h
    simp only at h
    split_ifs at h with hrest
    cases h
    exact ⟨r, hread, hrest⟩
  · rintro ⟨r, hread, hrest⟩
    rw [hread]
    exact if_pos hrest

/-! ### Objects that may not be well formed -/

/-- Members that can be read, with the members that follow. -/
theorem readSequence_members {n k : ℕ} {ms : List (Text × Text × Json)} {t r : Text}
    {vs : List (Text × Json)} (h : ∀ m ∈ ms, escapes.Plain m.1 ∧ Reads n m.2.1 m.2.2)
    (hread : readSequence (readMember (readValue n)) '\x7d' k
      (ms.flatMap (fun m => memberText (m.1, m.2.1) ++ [',']) ++ t) = some (vs, r)) :
    ∃ k' vs', readSequence (readMember (readValue n)) '\x7d' k' t = some (vs', r) ∧
      vs = ms.map (fun m => (m.1, m.2.2)) ++ vs' := by
  induction ms generalizing k vs with
  | nil => exact ⟨k, vs, hread, rfl⟩
  | cons m ms ih =>
      obtain ⟨⟨hname, hvalue⟩, hms⟩ := List.forall_mem_cons.mp h
      cases k with
      | zero => cases hread
      | succ k =>
          have hitem : ∀ rest, readMember (readValue n) (memberText (m.1, m.2.1) ++ ',' :: rest) =
              some ((m.1, m.2.2), ',' :: rest) := by
            intro rest
            rw [memberText, List.append_assoc, List.cons_append, readMember_quoted hname,
              hvalue ',' rest (Or.inl rfl)]
            rfl
          rw [List.flatMap_cons, List.append_assoc, List.append_assoc, List.singleton_append,
            readSequence_comma (by decide) (hitem _)] at hread
          obtain ⟨⟨vs₁, r₁⟩, hrest, heq⟩ := Option.map_eq_some_iff.mp hread
          cases heq
          obtain ⟨k', vs', hread', rfl⟩ := ih hms hrest
          exact ⟨k', vs', hread', rfl⟩

theorem member_append {ms : List (Text × Json)} {name : Text} (hms : ∀ m ∈ ms, m.1 ≠ name) {v w : Json}
    {more : List (Text × Json)} (h : (object (ms ++ (name, v) :: more)).member name = some w) : v = w := by
  have hfilter : (ms ++ (name, v) :: more).filter (fun m => m.1 = name) =
      (name, v) :: more.filter (fun m => m.1 = name) := by
    have hnil : ms.filter (fun m => m.1 = name) = [] :=
      List.filter_eq_nil_iff.mpr (fun m hm => by simp [hms m hm])
    rw [List.filter_append, hnil, List.nil_append, List.filter_cons, if_pos (decide_eq_true rfl)]
  simp only [member, hfilter] at h
  split at h
  next m heq =>
    obtain ⟨rfl, _⟩ := List.cons.inj heq
    exact Option.some.inj h
  next => cases h

/-- **A text that is put between quotes as it is, and comes back as the member of the object, is
plain**, when a string that goes on behind the closing quote does not end with a backslash. -/
theorem plain_of_member {n : ℕ} (ms : List (Text × Text × Json)) {name x rest r : Text} {v : Json}
    (hms : ∀ m ∈ ms, escapes.Plain m.1 ∧ Reads (n + 1) m.2.1 m.2.2) (hfresh : ∀ m ∈ ms, m.1 ≠ name)
    (hname : escapes.Plain name)
    (hrest : ∀ w r', escapes.read none rest = some (w, r') → w.getLast? ≠ some '\\')
    (hread : readValue (n + 2) ('\x7b' :: (ms.flatMap (fun m => memberText (m.1, m.2.1) ++ [',']) ++
      (memberText (name, quoted x) ++ rest))) = some (v, r))
    (hv : v.member name = some (.string x)) : escapes.Plain x := by
  have hhead : ∃ t, ms.flatMap (fun m => memberText (m.1, m.2.1) ++ [',']) ++
      (memberText (name, quoted x) ++ rest) = '"' :: t := by
    cases ms with
    | nil => exact ⟨_, rfl⟩
    | cons m ms => exact ⟨_, rfl⟩
  obtain ⟨t, ht⟩ := hhead
  rw [readValue_brace, ht, readItems_of_head rfl (by decide), ← ht] at hread
  obtain ⟨⟨vs, r'⟩, hseq, heq⟩ := Option.map_eq_some_iff.mp hread
  cases heq
  obtain ⟨k', vs', hseq', rfl⟩ := readSequence_members hms hseq
  obtain ⟨m, t', more, hitem, rfl⟩ := exists_item_of_readSequence hseq'
  have htext : memberText (name, quoted x) ++ rest = quoted name ++ ':' :: '"' :: (x ++ '"' :: rest) := by
    simp [memberText, quoted]
  rw [htext] at hitem
  obtain ⟨y, hy, rfl⟩ := exists_read_of_readMember hname hitem
  have hxy := member_append (fun m hm => ?_) hv
  · cases hxy
    exact (Quoted.Escapes.plain_of_read hrest hy).1
  · obtain ⟨m', hm', rfl⟩ := List.mem_map.mp hm
    exact hfresh m' hm'

/-! ### The characters of a text -/

theorem isUtf8_quoted {x : Text} : IsUtf8 (quoted x) ↔ IsUtf8 x := by
  have hquote : '"'.toNat < 128 := by decide
  rw [quoted, isUtf8_cons hquote, isUtf8_cut hquote]
  exact and_iff_left isUtf8_nil

theorem isUtf8_intercalate {close : Char} (hclose : close.toNat < 128) (ts : List Text) :
    IsUtf8 (List.intercalate [','] ts ++ [close]) ↔ ∀ t ∈ ts, IsUtf8 t := by
  have hcomma : ','.toNat < 128 := by decide
  induction ts with
  | nil => exact ⟨fun _ => nofun, fun _ => (isUtf8_cons hclose []).mpr isUtf8_nil⟩
  | cons a ts ih =>
      cases ts with
      | nil =>
          rw [List.intercalate_singleton, isUtf8_cut hclose, List.forall_mem_singleton]
          exact and_iff_left isUtf8_nil
      | cons b ts =>
          rw [intercalate_append, isUtf8_cut hcomma, List.forall_mem_cons]
          exact and_congr_right (fun _ => ih)

theorem isUtf8_objectText {ms : List (Text × Text)} :
    IsUtf8 (objectText ms) ↔ ∀ m ∈ ms, IsUtf8 m.1 ∧ IsUtf8 m.2 := by
  have hmember : ∀ m : Text × Text, IsUtf8 (memberText m) ↔ IsUtf8 m.1 ∧ IsUtf8 m.2 := by
    intro m
    rw [memberText, isUtf8_cut (by decide), isUtf8_quoted]
  rw [objectText, isUtf8_cons (by decide), isUtf8_intercalate (by decide), List.forall_mem_map]
  simp only [hmember]

theorem isUtf8_arrayText {ts : List Text} : IsUtf8 (arrayText ts) ↔ ∀ t ∈ ts, IsUtf8 t := by
  rw [arrayText, isUtf8_cons (by decide), isUtf8_intercalate (by decide)]

theorem mem_intercalate {c : Char} {ts : List Text} (h : c ∈ List.intercalate [','] ts) :
    c = ',' ∨ ∃ t ∈ ts, c ∈ t := by
  induction ts with
  | nil => cases h
  | cons a ts ih =>
      cases ts with
      | nil =>
          rw [List.intercalate_singleton] at h
          exact Or.inr ⟨a, List.mem_singleton_self a, h⟩
      | cons b ts =>
          rw [List.intercalate_cons_cons, List.mem_append, List.mem_append, List.mem_singleton] at h
          obtain (h | h) | h := h
          · exact Or.inr ⟨a, List.mem_cons_self, h⟩
          · exact Or.inl h
          · obtain h | ⟨t, ht, h⟩ := ih h
            · exact Or.inl h
            · exact Or.inr ⟨t, List.mem_cons_of_mem _ ht, h⟩

/-- A character that is in no part of an object is not in its text. -/
theorem not_mem_objectText {c : Char} {ms : List (Text × Text)} (hc : c ∉ "\x7b\x7d,:\"".toList)
    (hms : ∀ m ∈ ms, c ∉ m.1 ∧ c ∉ m.2) : c ∉ objectText ms := by
  intro h
  have hne : ∀ d ∈ "\x7b\x7d,:\"".toList, c ≠ d := fun d hd heq => hc (heq ▸ hd)
  simp only [objectText, List.mem_cons, List.mem_append, List.not_mem_nil, or_false] at h
  obtain h | h | h := h
  · exact hne _ (by decide) h
  · obtain h | ⟨t, ht, h⟩ := mem_intercalate h
    · exact hne _ (by decide) h
    · obtain ⟨m, hm, rfl⟩ := List.mem_map.mp ht
      simp only [memberText, quoted, List.mem_cons, List.mem_append, List.not_mem_nil, or_false] at h
      obtain ((h | h | h) | h | h) := h
      · exact hne _ (by decide) h
      · exact (hms m hm).1 h
      · exact hne _ (by decide) h
      · exact hne _ (by decide) h
      · exact (hms m hm).2 h
  · exact hne _ (by decide) h

/-! ### Texts that go on -/

/-- The reader finds nothing in a blank text, and what it reads with something left over it reads the
same way when the text goes on. -/
structure Delimited {α : Type} (read : Text → Option (α × Text)) : Prop where
  blank : ∀ t, skip t = [] → read t = none
  more : ∀ t a r more, read t = some (a, r) → r ≠ [] → read (t ++ more) = some (a, r ++ more)

theorem skip_append {t t' : Text} {c : Char} (h : skip t = c :: t') (more : Text) :
    skip (t ++ more) = c :: (t' ++ more) := by
  unfold skip at h ⊢
  rw [List.dropWhile_append, h]
  rfl

section sequence

variable {α : Type} {item : Text → Option (α × Text)} {close : Char}

theorem readSequence_append (hitem : Delimited item) {m n : ℕ} (hle : m ≤ n) {t r : Text} {as : List α}
    (h : readSequence item close m t = some (as, r)) (more : Text) :
    readSequence item close n (t ++ more) = some (as, r ++ more) := by
  induction m generalizing n t as with
  | zero => cases h
  | succ m ih =>
      obtain ⟨n, rfl⟩ : ∃ k, n = k + 1 := ⟨n - 1, by omega⟩
      rw [readSequence] at h ⊢
      obtain ⟨⟨a, t'⟩, hfirst, h⟩ := Option.bind_eq_some_iff.mp h
      dsimp only at h
      cases hskip : skip t' with
      | nil =>
          rw [hskip] at h
          cases h
      | cons c rest =>
          have ht' : t' ≠ [] := by
            rintro rfl
            cases hskip
          rw [hitem.more t a t' more hfirst ht', Option.bind_eq_bind, Option.bind_some]
          dsimp only
          rw [hskip] at h
          rw [skip_append hskip]
          dsimp only at h ⊢
          split_ifs at h ⊢ with hclose hcomma
          · obtain ⟨rfl, rfl⟩ := Prod.mk.inj (Option.some.inj h)
            rfl
          · obtain ⟨⟨as', r'⟩, hrest, heq⟩ := Option.map_eq_some_iff.mp h
            obtain ⟨rfl, rfl⟩ := Prod.mk.inj heq
            rw [ih (Nat.le_of_succ_le_succ hle) hrest]
            rfl

theorem readItems_append (hitem : Delimited item) {t r : Text} {as : List α}
    (h : readItems item close t = some (as, r)) (more : Text) :
    readItems item close (t ++ more) = some (as, r ++ more) := by
  unfold readItems at h ⊢
  split_ifs at h with hclose
  · obtain ⟨rfl, rfl⟩ := Prod.mk.inj (Option.some.inj h)
    obtain ⟨rest, hskip⟩ : ∃ rest, skip t = close :: rest := List.head?_eq_some_iff.mp hclose
    rw [skip_append hskip, hskip]
    exact if_pos rfl
  · have hsequence := readSequence_append hitem
      (show t.length ≤ (t ++ more).length by rw [List.length_append]; omega) h more
    cases hskip : skip t with
    | nil =>
        obtain ⟨a, t', as', hfirst, -⟩ := exists_item_of_readSequence h
        rw [hitem.blank t hskip] at hfirst
        cases hfirst
    | cons c rest =>
        rw [hskip, List.head?_cons] at hclose
        rw [skip_append hskip, List.head?_cons, if_neg hclose, hsequence]

end sequence

/-- A member is a name between quotes, a colon and a value. -/
theorem readMember_eq_some {value : Text → Option (Json × Text)} {t r : Text} {m : Text × Json} :
    readMember value t = some (m, r) ↔ ∃ t₁ t₂ t₃, skip t = '"' :: t₁ ∧
      escapes.read none t₁ = some (m.1, t₂) ∧ skip t₂ = ':' :: t₃ ∧ value t₃ = some (m.2, r) := by
  constructor
  · intro h
    unfold readMember at h
    dsimp only at h
    split_ifs at h with hquote
    · obtain ⟨t₁, hskip⟩ := List.head?_eq_some_iff.mp hquote
      rw [hskip, List.tail_cons, Option.bind_eq_bind, Option.bind_some] at h
      obtain ⟨⟨name, t₂⟩, hname, h⟩ := Option.bind_eq_some_iff.mp h
      dsimp only at h
      split_ifs at h with hcolon
      · obtain ⟨t₃, hskip'⟩ := List.head?_eq_some_iff.mp hcolon
        rw [hskip', List.tail_cons, Option.bind_eq_bind, Option.bind_some] at h
        obtain ⟨⟨v, r'⟩, hv, h⟩ := Option.bind_eq_some_iff.mp h
        cases h
        exact ⟨t₁, t₂, t₃, hskip, hname, hskip', hv⟩
      · cases h
    · cases h
  · rintro ⟨t₁, t₂, t₃, hquote, hname, hcolon, hv⟩
    unfold readMember
    simp only [hquote, hname, hcolon, hv, List.head?_cons, List.tail_cons, if_true, Option.bind_eq_bind,
      Option.bind_some, Option.pure_def]

theorem delimited_readMember {value : Text → Option (Json × Text)} (hvalue : Delimited value) :
    Delimited (readMember value) where
  blank t ht := by
    rw [readMember, ht]
    rfl
  more t m r more h hr := by
    obtain ⟨t₁, t₂, t₃, hquote, hname, hcolon, hv⟩ := readMember_eq_some.mp h
    exact readMember_eq_some.mpr ⟨t₁ ++ more, t₂ ++ more, t₃ ++ more, skip_append hquote more,
      Quoted.Escapes.read_append hname more, skip_append hcolon more, hvalue.more _ _ _ more hv hr⟩

theorem readLiteral_append {t r : Text} {v : Json} (h : readLiteral t = some (v, r)) (more : Text) :
    readLiteral (t ++ more) = some (v, r ++ more) := by
  have hliteral : ∀ l : Text × Json, (t.dropPrefix? l.1).map (fun r => (l.2, r)) = some (v, r) →
      t ++ more = l.1 ++ (r ++ more) ∧ v = l.2 := by
    intro l hl
    obtain ⟨r', hdrop, heq⟩ := Option.map_eq_some_iff.mp hl
    obtain ⟨rfl, rfl⟩ := Prod.mk.inj heq
    obtain ⟨p, rfl, hp⟩ := List.dropPrefix?_eq_some_iff.mp hdrop
    rw [eq_of_beq hp, List.append_assoc]
    exact ⟨rfl, rfl⟩
  obtain ⟨l, hl, hread⟩ := List.exists_of_findSome?_eq_some h
  obtain ⟨htext, rfl⟩ := hliteral l hread
  rw [htext]
  simp only [List.mem_cons, List.not_mem_nil, or_false] at hl
  obtain rfl | rfl | rfl := hl <;> simp [readLiteral, List.dropPrefix?]

/-- A number starts with a digit or a minus sign. -/
theorem head_of_readNumber {c : Char} {t : Text} {p : Json × Text} (h : readNumber (c :: t) = some p) :
    c = '-' ∨ c.isDigit = true := by
  by_contra hc
  obtain ⟨hminus, hdigit⟩ := not_or.mp hc
  unfold readNumber at h
  dsimp only at h
  split_ifs at h
  obtain ⟨x, hx, -⟩ := Option.map_eq_some_iff.mp h
  rw [List.takeWhile_cons] at hx
  have hunsigned : ∀ u : Text, (u.head?.all fun d => !d.isDigit) = true → Numeral.readUnsigned false u = none := by
    intro u hu
    cases u with
    | nil => rfl
    | cons d u =>
        have hd : ¬ d.isDigit = true := by simpa using hu
        rw [Numeral.readUnsigned, List.takeWhile_cons_of_neg hd]
        rfl
  split_ifs at hx
  · unfold Numeral.ofText at hx
    split at hx
    next heq => exact hminus (List.cons.inj heq).1
    next => 
      rw [hunsigned _ (by simpa using hdigit)] at hx
      cases hx
  · cases hx

theorem readNumber_append {t r : Text} {v : Json} (h : readNumber t = some (v, r)) (hr : r ≠ [])
    (more : Text) : readNumber (t ++ more) = some (v, r ++ more) := by
  unfold readNumber at h ⊢
  dsimp only at h ⊢
  split_ifs at h with hzero
  obtain ⟨x, hx, heq⟩ := Option.map_eq_some_iff.mp h
  obtain ⟨rfl, rfl⟩ := Prod.mk.inj heq
  have hlen : (t.takeWhile isNumberChar).length ≠ t.length := by
    intro hlen
    have hall := (List.takeWhile_prefix isNumberChar).eq_of_length hlen
    exact hr (List.dropWhile_eq_nil_iff.mpr (List.takeWhile_eq_self_iff.mp hall))
  have hdrop : ¬ (t.dropWhile isNumberChar).isEmpty = true := fun h => hr (List.isEmpty_iff.mp h)
  rw [List.takeWhile_append, if_neg hlen, if_neg hzero, hx, List.dropWhile_append, if_neg hdrop]
  rfl

theorem readLiteral_of_number {c : Char} (hc : c = '-' ∨ c.isDigit = true) (t : Text) :
    readLiteral (c :: t) = none := by
  have hne : ∀ {d : Char}, d ≠ '-' → d.isDigit = false → c ≠ d := by
    rintro d hminus hdigit rfl
    rcases hc with hc | hc
    · exact hminus hc
    · rw [hdigit] at hc
      cases hc
  simp [readLiteral, List.dropPrefix?, hne (d := 'n') (by decide) rfl, hne (d := 't') (by decide) rfl,
    hne (d := 'f') (by decide) rfl]

/-- The first character that is not blank says what a text is read as. -/
theorem readValue_of_skip {n : ℕ} {t rest : Text} {c : Char} (h : skip t = c :: rest) :
    readValue (n + 1) t =
      if c = '"' then (escapes.read none rest).map (fun r => (.string r.1, r.2))
      else if c = '[' then (readItems (readValue n) ']' rest).map (fun r => (.array r.1, r.2))
      else if c = '\x7b' then
        (readItems (readMember (readValue n)) '\x7d' rest).map (fun r => (.object r.1, r.2))
      else (readLiteral (c :: rest)).or (readNumber (c :: rest)) := by
  rw [readValue, h]
  simp only [List.head?_cons, List.tail_cons, Option.some.injEq]

theorem exists_number_of_readNumber {t r : Text} {v : Json} (h : readNumber t = some (v, r)) :
    ∃ x, v = .number x := by
  unfold readNumber at h
  dsimp only at h
  split_ifs at h
  obtain ⟨x, -, heq⟩ := Option.map_eq_some_iff.mp h
  exact ⟨x, (Prod.mk.inj heq).1.symm⟩

theorem readValue_blank (n : ℕ) {t : Text} (ht : skip t = []) : readValue n t = none := by
  cases n with
  | zero => rfl
  | succ n =>
      rw [readValue, ht]
      rfl

/-- **Only a number can go on when the text does.** -/
theorem readValue_append {n : ℕ} {t r : Text} {v : Json} (h : readValue n t = some (v, r))
    (hr : (∃ x, v = .number x) → r ≠ []) (more : Text) : readValue n (t ++ more) = some (v, r ++ more) := by
  induction n generalizing t v r more with
  | zero => cases h
  | succ n ih =>
      have hvalue : Delimited (readValue n) :=
        ⟨fun _ => readValue_blank n, fun _ _ _ more h hr => ih h (fun _ => hr) more⟩
      cases hskip : skip t with
      | nil =>
          rw [readValue_blank _ hskip] at h
          cases h
      | cons c rest =>
          rw [readValue_of_skip hskip] at h
          rw [readValue_of_skip (skip_append hskip more)]
          by_cases hquote : c = '"'
          · rw [if_pos hquote] at h ⊢
            obtain ⟨⟨x, r'⟩, hread, heq⟩ := Option.map_eq_some_iff.mp h
            obtain ⟨rfl, rfl⟩ := Prod.mk.inj heq
            rw [Quoted.Escapes.read_append hread]
            rfl
          rw [if_neg hquote] at h ⊢
          by_cases hbracket : c = '['
          · rw [if_pos hbracket] at h ⊢
            obtain ⟨⟨vs, r'⟩, hread, heq⟩ := Option.map_eq_some_iff.mp h
            obtain ⟨rfl, rfl⟩ := Prod.mk.inj heq
            rw [readItems_append hvalue hread]
            rfl
          rw [if_neg hbracket] at h ⊢
          by_cases hbrace : c = '\x7b'
          · rw [if_pos hbrace] at h ⊢
            obtain ⟨⟨ms, r'⟩, hread, heq⟩ := Option.map_eq_some_iff.mp h
            obtain ⟨rfl, rfl⟩ := Prod.mk.inj heq
            rw [readItems_append (delimited_readMember hvalue) hread]
            rfl
          rw [if_neg hbrace] at h ⊢
          rcases Option.or_eq_some_iff.mp h with hliteral | ⟨-, hnumber⟩
          · rw [← List.cons_append, readLiteral_append hliteral]
            rfl
          · rw [readLiteral_of_number (head_of_readNumber hnumber), Option.none_or]
            exact readNumber_append hnumber (hr (exists_number_of_readNumber hnumber)) more

/-- **No beginning of an object is a JSON text**, short of the whole. -/
theorem parse_start_of_object {ms : List (Text × Text × Json)}
    (h : ∀ m ∈ ms, escapes.Plain m.1 ∧ ∀ n, Reads (n + 1) m.2.1 m.2.2) {t : Text} {v : Json}
    (ht : t <+: objectText (ms.map (fun m => (m.1, m.2.1)))) (hparse : parse t = some v) :
    t = objectText (ms.map (fun m => (m.1, m.2.1))) := by
  obtain ⟨more, hmore⟩ := ht
  obtain ⟨r, hread, -⟩ := parse_eq_some.mp hparse
  cases t with
  | nil => cases hread
  | cons c t =>
      have hc : c = '\x7b' := (List.cons.inj hmore).1
      have hobject : ¬ ∃ x, v = .number x := by
        rintro ⟨x, rfl⟩
        rw [hc, readValue_brace] at hread
        obtain ⟨_, _, heq⟩ := Option.map_eq_some_iff.mp hread
        cases heq
      have hlong := readValue_append hread (fun hx => absurd hx hobject) more
      rw [hmore] at hlong
      have hwhole := readValue_object (n := t.length + 1) (fun m hm => ⟨(h m hm).1, (h m hm).2 _⟩) []
      rw [List.append_nil] at hwhole
      rw [List.length_cons, hwhole] at hlong
      have hnil : r ++ more = [] := (Prod.mk.inj (Option.some.inj hlong)).2.symm
      rw [← hmore, (List.append_eq_nil_iff.mp hnil).2, List.append_nil]

/-- No beginning of a text that starts like no value is a JSON text. -/
theorem parse_start_of_skip {t l rest : Text} {c : Char} (hl : skip l = c :: rest)
    (hc : c ∉ "\"[\x7bntf-".toList) (hdigit : c.isDigit = false) (ht : t <+: l) : parse t = none := by
  obtain ⟨more, rfl⟩ := ht
  cases hskip : skip t with
  | nil =>
      rw [parse, readValue_blank _ hskip]
      rfl
  | cons d rest =>
      obtain rfl : d = c := by
        rw [skip_append hskip] at hl
        exact (List.cons.inj hl).1
      have hne : ∀ e ∈ "\"[\x7bntf-".toList, d ≠ e := fun e he heq => hc (heq ▸ he)
      have hliteral : readLiteral (d :: rest) = none := by
        simp [readLiteral, List.dropPrefix?, hne 'n' (by decide), hne 't' (by decide), hne 'f' (by decide)]
      have hnumber : readNumber (d :: rest) = none := by
        by_contra hsome
        obtain ⟨p, hp⟩ := Option.ne_none_iff_exists'.mp hsome
        rcases head_of_readNumber hp with hminus | hd
        · exact hne '-' (by decide) hminus
        · rw [hdigit] at hd
          cases hd
      rw [parse, readValue_of_skip hskip, if_neg (hne '"' (by decide)), if_neg (hne '[' (by decide)),
        if_neg (hne '\x7b' (by decide)), hliteral, hnumber]
      rfl

end Json
