import EbpfMonitor.Lib.Number
import EbpfMonitor.Lib.Quoted
import Mathlib.Data.List.TakeWhile

/-! # The text exposition format for metrics

The format is made of lines, separated by line feeds.  Tokens of a line are separated by blanks.
Empty lines and lines that start with `#` are no samples; every other line is one:

    name {label="value",…} value timestamp

with the labels and the timestamp optional.  In a label value the backslash, the double quote
and the line feed are escaped as `\\`, `\"` and `\n`.

* `parse` gives the samples of a text, or fails.
* `render` writes a sample; a valid one is read back (`readLine_render`).
* `exists_read_of_readLine` says where the first label value of a line comes from, also when the
  line is not well formed. -/

namespace Exposition

open Text

/-! ### The format -/

inductive Value where
  | number (n : Numeral)
  | nan
  | inf (negative : Bool)
deriving DecidableEq

structure Sample where
  name : Text
  labels : List (Text × Text)
  value : Value
  timestamp : Option ℤ
deriving DecidableEq

def skip (t : Text) : Text := t.dropWhile isBlank

/-- The characters up to the next blank, and what follows. -/
def token (t : Text) : Text × Text := (t.takeWhile (fun c => !isBlank c), t.dropWhile (fun c => !isBlank c))

def isLabelStart (c : Char) : Bool := c.isAlpha || c = '_'

def isLabelChar (c : Char) : Bool := isLabelStart c || c.isDigit

def isNameStart (c : Char) : Bool := isLabelStart c || c = ':'

def isNameChar (c : Char) : Bool := isNameStart c || c.isDigit

/-- A name: a first character and further ones. -/
def readName (start char : Char → Bool) : Text → Option (Text × Text)
  | [] => none
  | c :: t => if start c then some (c :: t.takeWhile char, t.dropWhile char) else none

def expect (c : Char) : Text → Option Text
  | [] => none
  | d :: t => if d = c then some t else none

/-- The three escapes of a label value. -/
def escapes : Quoted.Escapes Unit where
  plain c := c != '"' && c != '\\' && c != '\n'
  start := ()
  next _ c :=
    if c = '"' then some (.inr ['"'])
    else if c = '\\' then some (.inr ['\\'])
    else if c = 'n' then some (.inr ['\n'])
    else none
  spent _ := 0
  plain_quote := by decide
  plain_backslash := by decide
  next_quote _ _ h := ⟨rfl, (Option.some.inj h).symm⟩
  next_ne_start _ c _ h := by split_ifs at h <;> cases h
  spent_start := rfl
  spent_inl _ c _ h := by split_ifs at h <;> cases h
  length_le _ c d h := by split_ifs at h <;> cases h <;> decide

def readLabel (t : Text) : Option ((Text × Text) × Text) := do
  let (name, t) ← readName isLabelStart isLabelChar (skip t)
  let t ← expect '=' (skip t)
  let t ← expect '"' (skip t)
  let (value, t) ← escapes.read none t
  return ((name, value), t)

/-- The labels up to the closing brace.  A comma may stand after the last one. -/
def readLabels : ℕ → Text → Option (List (Text × Text) × Text)
  | 0, _ => none
  | n + 1, t =>
      match expect '\x7d' (skip t) with
      | some t => some ([], t)
      | none => do
          let (l, t) ← readLabel t
          match expect ',' (skip t) with
          | some t =>
              let (ls, t) ← readLabels n t
              return (l :: ls, t)
          | none =>
              let t ← expect '\x7d' (skip t)
              return ([l], t)

def readValue (t : Text) : Option Value :=
  if t = "NaN".toList then some .nan
  else if t = "+Inf".toList then some (.inf false)
  else if t = "-Inf".toList then some (.inf true)
  else (Numeral.ofText t).map .number

/-- The value, and the timestamp if there is one, up to the end of the line. -/
def readNumbers (t : Text) : Option (Value × Option ℤ) := do
  let value ← readValue (token (skip t)).1
  let rest := skip (token (skip t)).2
  if rest = [] then return (value, none)
  else
    let timestamp ← Numeral.readInt (token rest).1
    if skip (token rest).2 = [] then return (value, some timestamp) else none

def readSample (t : Text) : Option Sample := do
  let (name, t) ← readName isNameStart isNameChar t
  let (labels, t) ← match expect '\x7b' (skip t) with
    | some t => readLabels t.length t
    | none => some ([], t)
  let (value, timestamp) ← readNumbers t
  return ⟨name, labels, value, timestamp⟩

/-- A line: `some none` if it is no sample. -/
def readLine (t : Text) : Option (Option Sample) :=
  if skip t = [] ∨ (skip t).head? = some '#' then some none else (readSample (skip t)).map some

def parseLines : List Text → Option (List Sample)
  | [] => some []
  | t :: ts => do
      let sample ← readLine t
      let samples ← parseLines ts
      return sample.toList ++ samples

def lines (text : Text) : List Text := text.splitOn '\n'

def parse (text : Text) : Option (List Sample) := parseLines (lines text)

/-! ### Texts made of lines -/

theorem lines_append (a b : Text) : lines (a ++ '\n' :: b) = lines a ++ lines b :=
  List.splitOn_append_cons_self a b

theorem lines_of_not_mem {a : Text} (h : '\n' ∉ a) : lines a = [a] := List.splitOn_eq_singleton h

theorem parseLines_append (a b : List Text) :
    parseLines (a ++ b) = (parseLines a).bind (fun x => (parseLines b).map (x ++ ·)) := by
  induction a with
  | nil =>
      rw [List.nil_append, parseLines]
      cases parseLines b <;> rfl
  | cons t a ih =>
      rw [List.cons_append, parseLines, parseLines, ih]
      cases readLine t with
      | none => rfl
      | some s =>
          cases parseLines a with
          | none => rfl
          | some x =>
              cases parseLines b with
              | none => rfl
              | some y => simp [bind, pure]

theorem parse_append (a b : Text) :
    parse (a ++ '\n' :: b) = (parse a).bind (fun x => (parse b).map (x ++ ·)) := by
  unfold parse
  rw [lines_append, parseLines_append]

theorem parse_line {a : Text} (h : '\n' ∉ a) : parse a = (readLine a).map Option.toList := by
  unfold parse
  rw [lines_of_not_mem h, parseLines, parseLines]
  cases readLine a with
  | none => rfl
  | some s => simp [bind, pure]

/-! ### Writing samples -/

def label (l : Text × Text) : Text := l.1 ++ "=\"".toList ++ l.2 ++ "\"".toList

/-- The labels, separated by commas. -/
def labelList : List (Text × Text) → Text
  | [] => []
  | [l] => label l
  | l :: l' :: ls => label l ++ ",".toList ++ labelList (l' :: ls)

/-- A sample with natural numbers, without the line feed. -/
def render (name : Text) (ls : List (Text × Text)) (value timestamp : ℕ) : Text :=
  name ++ (if ls = [] then [] else "\x7b".toList ++ labelList ls ++ "\x7d".toList) ++ " ".toList ++
    decimal value ++ " ".toList ++ decimal timestamp

/-- The text is a name. -/
def isName (start char : Char → Bool) : Text → Bool
  | [] => false
  | c :: t => start c && t.all char

/-- The label can be written as it is. -/
def Writable (l : Text × Text) : Prop := isName isLabelStart isLabelChar l.1 = true ∧ escapes.Plain l.2

/-! ### Reading them back -/

theorem skip_of_head {c : Char} {t : Text} (h : isBlank c = false) : skip (c :: t) = c :: t := by
  rw [skip, List.dropWhile_cons_of_neg (by simp [h])]

theorem skip_blank (t : Text) : skip (' ' :: t) = skip t := rfl

theorem readName_append {start char : Char → Bool} {name : Text} (rest : Text)
    (hname : isName start char name = true) (hrest : ∀ c, rest.head? = some c → char c = false) :
    readName start char (name ++ rest) = some (name, rest) := by
  cases name with
  | nil => cases hname
  | cons c t =>
      obtain ⟨hc, ht⟩ := Bool.and_eq_true_iff.mp hname
      have ht : ∀ d ∈ t, char d = true := List.all_eq_true.mp ht
      have hstop : rest.takeWhile char = [] ∧ rest.dropWhile char = rest := by
        cases rest with
        | nil => exact ⟨rfl, rfl⟩
        | cons d rest =>
            have hd : ¬ char d = true := by simp [hrest d rfl]
            exact ⟨List.takeWhile_cons_of_neg hd, List.dropWhile_cons_of_neg hd⟩
      rw [List.cons_append, readName, if_pos hc, List.takeWhile_append_of_pos ht,
        List.dropWhile_append_of_pos ht, hstop.1, hstop.2, List.append_nil]

theorem expect_of_ne {c d : Char} (h : d ≠ c) (t : Text) : expect c (d :: t) = none := if_neg h

/-- A label name is not taken for something else. -/
theorem skip_labelName {name : Text} (hname : isName isLabelStart isLabelChar name = true) (rest : Text) :
    skip (name ++ rest) = name ++ rest ∧ expect '\x7d' (name ++ rest) = none := by
  cases name with
  | nil => cases hname
  | cons c t =>
      have hc := (Bool.and_eq_true_iff.mp hname).1
      exact ⟨skip_of_head (isBlank_of_pred hc (by decide) (by decide)),
        expect_of_ne (ne_of_pred hc (by decide)) _⟩

/-- The value of a label is what `escapes` reads after the quote. -/
theorem readLabel_of_name {name : Text} (hname : isName isLabelStart isLabelChar name = true) (t : Text) :
    readLabel (name ++ '=' :: '"' :: t) =
      (escapes.read none t).map (fun p => ((name, p.1), p.2)) := by
  have hread := readName_append ('=' :: '"' :: t) hname (by rintro c ⟨⟩; decide)
  have hequals : expect '=' (skip ('=' :: '"' :: t)) = some ('"' :: t) := rfl
  have hquote : expect '"' (skip ('"' :: t)) = some t := rfl
  simp only [readLabel, (skip_labelName hname _).1, hread, hequals, hquote, Option.bind_eq_bind,
    Option.bind_some]
  cases escapes.read none t <;> rfl

theorem label_append (name value rest : Text) :
    label (name, value) ++ rest = name ++ '=' :: '"' :: (value ++ '"' :: rest) := by
  simp [label]

/-- A label at the front of the text is read. -/
theorem readLabel_label {l : Text × Text} (hl : Writable l) (rest : Text) :
    readLabel (label l ++ rest) = some (l, rest) := by
  obtain ⟨name, value⟩ := l
  rw [label_append, readLabel_of_name hl.1, Quoted.Escapes.read_plain hl.2]
  rfl

theorem expect_brace_label {l : Text × Text} (hl : Writable l) (rest : Text) :
    expect '\x7d' (skip (label l ++ rest)) = none := by
  obtain ⟨name, value⟩ := l
  obtain ⟨hskip, hbrace⟩ := skip_labelName hl.1 ('=' :: '"' :: (value ++ '"' :: rest))
  rw [label_append, hskip, hbrace]

/-- A list of labels with the closing brace is read, given a step for each label. -/
theorem readLabels_labelList {ls : List (Text × Text)} (hls : ∀ l ∈ ls, Writable l) (hne : ls ≠ [])
    {n : ℕ} (hn : ls.length ≤ n) (rest : Text) :
    readLabels n (labelList ls ++ '\x7d' :: rest) = some (ls, rest) := by
  induction ls generalizing n with
  | nil => exact absurd rfl hne
  | cons l ls ih =>
      obtain ⟨hl, hls⟩ := List.forall_mem_cons.mp hls
      obtain ⟨n, rfl⟩ : ∃ m, n = m + 1 := ⟨n - 1, by simp only [List.length_cons] at hn; omega⟩
      cases ls with
      | nil =>
          have hcomma : expect ',' (skip ('\x7d' :: rest)) = none := rfl
          have hbrace : expect '\x7d' (skip ('\x7d' :: rest)) = some rest := rfl
          simp [readLabels, labelList, expect_brace_label hl, readLabel_label hl, hcomma, hbrace]
      | cons l' ls =>
          have hrest := ih hls (List.cons_ne_nil _ _) (by simpa using hn)
          have hcomma : ∀ t, expect ',' (skip (',' :: t)) = some t := fun _ => rfl
          simp [readLabels, labelList, expect_brace_label hl, readLabel_label hl, hcomma, hrest]

theorem length_label (l : Text × Text) : (label l).length = l.1.length + l.2.length + 3 := by
  simp [label]
  omega

theorem length_le_length_labelList (ls : List (Text × Text)) : ls.length ≤ (labelList ls).length := by
  induction ls with
  | nil => exact le_rfl
  | cons l ls ih =>
      cases ls with
      | nil =>
          rw [labelList, length_label, List.length_singleton]
          omega
      | cons l' ls =>
          rw [labelList, List.length_append, List.length_append, length_label]
          simp only [List.length_cons] at ih ⊢
          omega

theorem token_append {a rest : Text} (ha : ∀ c ∈ a, isBlank c = false) :
    token (a ++ ' ' :: rest) = (a, ' ' :: rest) := by
  have ha : ∀ c ∈ a, (!isBlank c) = true := fun c hc => by simp [ha c hc]
  unfold token
  rw [List.takeWhile_append_of_pos ha, List.dropWhile_append_of_pos ha]
  simp [isBlank]

theorem token_of_forall {a : Text} (ha : ∀ c ∈ a, isBlank c = false) : token a = (a, []) := by
  have ha : ∀ c ∈ a, (!isBlank c) = true := fun c hc => by simp [ha c hc]
  unfold token
  rw [List.takeWhile_eq_self_iff.mpr ha, List.dropWhile_eq_nil_iff.mpr ha]

theorem skip_decimal (n : ℕ) (rest : Text) : skip (decimal n ++ rest) = decimal n ++ rest := by
  obtain ⟨c, t, heq, hc⟩ := Numeral.exists_decimal_eq_cons n
  rw [heq, List.cons_append, skip_of_head (isBlank_of_pred hc (by decide) (by decide))]

theorem readValue_decimal (n : ℕ) : readValue (decimal n) = some (.number (Numeral.ofNat n)) := by
  obtain ⟨c, t, heq, hc⟩ := Numeral.exists_decimal_eq_cons n
  have hne : ∀ s : Text, s.head?.map Char.isDigit = some false → decimal n ≠ s := by
    rintro s hs rfl
    rw [heq] at hs
    rw [List.head?_cons, Option.map_some, hc] at hs
    cases hs
  unfold readValue
  rw [if_neg (hne _ (by decide)), if_neg (hne _ (by decide)), if_neg (hne _ (by decide)),
    Numeral.ofText_decimal]
  rfl

/-- The value and the timestamp are read. -/
theorem readNumbers_decimal (value timestamp : ℕ) :
    readNumbers (' ' :: (decimal value ++ ' ' :: decimal timestamp)) =
      some (.number (Numeral.ofNat value), some (timestamp : ℤ)) := by
  have hvalue : token (skip (' ' :: (decimal value ++ ' ' :: decimal timestamp))) =
      (decimal value, ' ' :: decimal timestamp) := by
    rw [skip_blank, skip_decimal, token_append (fun _ hc => isBlank_of_mem_decimal hc)]
  have hstamp : skip (' ' :: decimal timestamp) = decimal timestamp := by
    have := skip_decimal timestamp []
    rwa [List.append_nil] at this
  have htoken := token_of_forall (a := decimal timestamp) (fun _ hc => isBlank_of_mem_decimal hc)
  have hnil : skip [] = [] := rfl
  simp [readNumbers, hvalue, hstamp, htoken, readValue_decimal, decimal_ne_nil,
    Numeral.readInt_decimal, hnil]

theorem readSample_render {name : Text} {ls : List (Text × Text)} (value timestamp : ℕ)
    (hname : isName isNameStart isNameChar name = true) (hls : ∀ l ∈ ls, Writable l) :
    readSample (render name ls value timestamp) =
      some ⟨name, ls, .number (Numeral.ofNat value), some (timestamp : ℤ)⟩ := by
  have hnumbers := readNumbers_decimal value timestamp
  cases ls with
  | nil =>
      have htext : render name [] value timestamp =
          name ++ ' ' :: (decimal value ++ ' ' :: decimal timestamp) := by simp [render]
      have hread := readName_append (' ' :: (decimal value ++ ' ' :: decimal timestamp)) hname
        (by rintro c ⟨⟩; decide)
      have hbrace : expect '\x7b' (skip (' ' :: (decimal value ++ ' ' :: decimal timestamp))) = none := by
        obtain ⟨c, t, heq, hc⟩ := Numeral.exists_decimal_eq_cons value
        rw [skip_blank, skip_decimal, heq]
        exact expect_of_ne (ne_of_pred hc (by decide)) _
      simp [htext, readSample, hread, hbrace, hnumbers]
  | cons l ls =>
      generalize hrest : ' ' :: (decimal value ++ ' ' :: decimal timestamp) = rest at hnumbers
      have htext : render name (l :: ls) value timestamp =
          name ++ '\x7b' :: (labelList (l :: ls) ++ '\x7d' :: rest) := by simp [render, ← hrest]
      have hread := readName_append ('\x7b' :: (labelList (l :: ls) ++ '\x7d' :: rest)) hname
        (by rintro c ⟨⟩; decide)
      have hbrace : expect '\x7b' (skip ('\x7b' :: (labelList (l :: ls) ++ '\x7d' :: rest))) =
          some (labelList (l :: ls) ++ '\x7d' :: rest) := rfl
      have hlabels := readLabels_labelList hls (List.cons_ne_nil _ _)
        (n := (labelList (l :: ls) ++ '\x7d' :: rest).length) (by
          rw [List.length_append]
          exact Nat.le_trans (length_le_length_labelList _) (Nat.le_add_right _ _)) rest
      simp only [htext, readSample, hread, hbrace, hlabels, hnumbers, Option.bind_eq_bind,
        Option.bind_some, Option.pure_def]

/-- A line that starts with a name is a sample. -/
theorem readLine_of_name {name rest : Text} (hname : isName isNameStart isNameChar name = true) :
    readLine (name ++ rest) = (readSample (name ++ rest)).map some := by
  cases name with
  | nil => cases hname
  | cons c t =>
      have hc := (Bool.and_eq_true_iff.mp hname).1
      unfold readLine
      rw [List.cons_append, skip_of_head (isBlank_of_pred hc (by decide) (by decide)), if_neg]
      rintro (h | h)
      · cases h
      · exact ne_of_pred hc (by decide) (Option.some.inj h)

/-- **A sample is read back**, if its names are names and its label values are plain. -/
theorem readLine_render {name : Text} {ls : List (Text × Text)} (value timestamp : ℕ)
    (hname : isName isNameStart isNameChar name = true) (hls : ∀ l ∈ ls, Writable l) :
    readLine (render name ls value timestamp) =
      some (some ⟨name, ls, .number (Numeral.ofNat value), some (timestamp : ℤ)⟩) := by
  have hsample := readSample_render value timestamp hname hls
  unfold render at hsample ⊢
  simp only [List.append_assoc] at hsample ⊢
  rw [readLine_of_name hname, hsample]
  rfl

/-! ### Lines without a line feed inside -/

theorem not_mem_of_forall {p : Char → Bool} {d : Char} {a : Text} (ha : ∀ c ∈ a, p c = true)
    (hd : p d = false) : d ∉ a := by
  intro hmem
  exact ne_of_pred (ha d hmem) hd rfl

theorem not_mem_of_isName {start char : Char → Bool} {d : Char} {name : Text}
    (hname : isName start char name = true) (hstart : start d = false) (hchar : char d = false) :
    d ∉ name := by
  cases name with
  | nil => exact List.not_mem_nil
  | cons c t =>
      obtain ⟨hc, ht⟩ := Bool.and_eq_true_iff.mp hname
      rintro (_ | ⟨_, hmem⟩)
      · exact ne_of_pred hc hstart rfl
      · exact not_mem_of_forall (List.all_eq_true.mp ht) hchar hmem

theorem feed_not_mem_label {l : Text × Text} (hl : Writable l) : '\n' ∉ label l := by
  have hname := not_mem_of_isName (d := '\n') hl.1 (by decide) (by decide)
  have hvalue := not_mem_of_forall (d := '\n') hl.2 (by decide)
  simp [label, hname, hvalue]

theorem feed_not_mem_labelList {ls : List (Text × Text)} (hls : ∀ l ∈ ls, Writable l) :
    '\n' ∉ labelList ls := by
  induction ls with
  | nil => exact List.not_mem_nil
  | cons l ls ih =>
      obtain ⟨hl, hls⟩ := List.forall_mem_cons.mp hls
      cases ls with
      | nil => exact feed_not_mem_label hl
      | cons l' ls => simp [labelList, feed_not_mem_label hl, ih hls]

theorem feed_not_mem_render {name : Text} {ls : List (Text × Text)} (value timestamp : ℕ)
    (hname : isName isNameStart isNameChar name = true) (hls : ∀ l ∈ ls, Writable l) :
    '\n' ∉ render name ls value timestamp := by
  have hname := not_mem_of_isName (d := '\n') hname (by decide) (by decide)
  have hlist := feed_not_mem_labelList hls
  have hdecimal : ∀ n, '\n' ∉ decimal n := fun n =>
    not_mem_of_forall (fun c hc => isDigit_of_mem_decimal hc) (by decide)
  unfold render
  split_ifs
  · simp [hname, hdecimal]
  · simp [hname, hlist, hdecimal]

/-- A text that starts with a line that is a valid sample. -/
theorem parse_render {name : Text} {ls : List (Text × Text)} (value timestamp : ℕ)
    (hname : isName isNameStart isNameChar name = true) (hls : ∀ l ∈ ls, Writable l) (rest : Text) :
    parse (render name ls value timestamp ++ '\n' :: rest) = (parse rest).map
      (⟨name, ls, .number (Numeral.ofNat value), some (timestamp : ℤ)⟩ :: ·) := by
  rw [parse_append, parse_line (feed_not_mem_render value timestamp hname hls),
    readLine_render value timestamp hname hls]
  rfl

/-- A text that starts with a comment. -/
theorem parse_comment {t : Text} (ht : '\n' ∉ t) (rest : Text) :
    parse ('#' :: t ++ '\n' :: rest) = parse rest := by
  have hfeed : '\n' ∉ '#' :: t := by simp [ht]
  have hline : readLine ('#' :: t) = some none := rfl
  rw [parse_append, parse_line hfeed, hline]
  cases parse rest <;> rfl

/-- A text that starts with an empty line. -/
theorem parse_feed (rest : Text) : parse ('\n' :: rest) = parse rest := by
  have hnil : parse [] = some [] := rfl
  rw [show '\n' :: rest = [] ++ '\n' :: rest from rfl, parse_append, hnil]
  cases parse rest <;> rfl

/-! ### The value of a metric -/

/-- The samples in the lines that are well formed. -/
def samplesIn (text : Text) : List Sample := (lines text).filterMap (fun t => (readLine t).join)

/-- The value in the first sample of a metric. -/
def valueOf (name text : Text) : Option Value :=
  ((samplesIn text).find? (fun s => s.name = name)).map Sample.value

theorem filterMap_of_parseLines {ts : List Text} {samples : List Sample}
    (h : parseLines ts = some samples) : ts.filterMap (fun t => (readLine t).join) = samples := by
  induction ts generalizing samples with
  | nil => exact Option.some.inj h
  | cons t ts ih =>
      obtain ⟨sample, hsample, hrest⟩ := Option.bind_eq_some_iff.mp h
      obtain ⟨rest, hparse, heq⟩ := Option.bind_eq_some_iff.mp hrest
      rw [← Option.some.inj heq, List.filterMap_cons, hsample, ih hparse]
      cases sample <;> rfl

/-- In a text that is read whole they are all the samples. -/
theorem samplesIn_of_parse {text : Text} {samples : List Sample} (h : parse text = some samples) :
    samplesIn text = samples :=
  filterMap_of_parseLines h

theorem samplesIn_append (a b : Text) : samplesIn (a ++ '\n' :: b) = samplesIn a ++ samplesIn b := by
  unfold samplesIn
  rw [lines_append, List.filterMap_append]

theorem samplesIn_comment {t : Text} (ht : '\n' ∉ t) (rest : Text) :
    samplesIn ('#' :: t ++ '\n' :: rest) = samplesIn rest := by
  have hfeed : '\n' ∉ '#' :: t := by simp [ht]
  rw [samplesIn_append]
  unfold samplesIn
  rw [lines_of_not_mem hfeed]
  rfl

theorem samplesIn_render {name : Text} {ls : List (Text × Text)} (value timestamp : ℕ)
    (hname : isName isNameStart isNameChar name = true) (hls : ∀ l ∈ ls, Writable l) (rest : Text) :
    samplesIn (render name ls value timestamp ++ '\n' :: rest) =
      ⟨name, ls, .number (Numeral.ofNat value), some (timestamp : ℤ)⟩ :: samplesIn rest := by
  rw [samplesIn_append]
  unfold samplesIn
  rw [lines_of_not_mem (feed_not_mem_render value timestamp hname hls),
    List.filterMap_cons_some (b := ⟨name, ls, .number (Numeral.ofNat value), some (timestamp : ℤ)⟩)
      (by rw [readLine_render value timestamp hname hls]; rfl)]
  rfl

/-! ### Lines that may not be well formed -/

/-- Labels that start with a name start with the value read after the name. -/
theorem exists_read_of_readLabels {name t r : Text} {n : ℕ} {ls : List (Text × Text)}
    (hname : isName isLabelStart isLabelChar name = true)
    (h : readLabels n (name ++ '=' :: '"' :: t) = some (ls, r)) :
    ∃ v r' ls', escapes.read none t = some (v, r') ∧ ls = (name, v) :: ls' := by
  cases n with
  | zero => cases h
  | succ n =>
      obtain ⟨hskip, hbrace⟩ := skip_labelName hname ('=' :: '"' :: t)
      rw [readLabels, hskip, hbrace, readLabel_of_name hname] at h
      cases hread : escapes.read none t with
      | none =>
          rw [hread] at h
          cases h
      | some p =>
          obtain ⟨v, r'⟩ := p
          rw [hread] at h
          simp only [Option.map_some, Option.bind_eq_bind, Option.bind_some, Option.pure_def] at h
          refine ⟨v, r', ?_⟩
          split at h
          · obtain ⟨⟨ls', r''⟩, _, h⟩ := Option.bind_eq_some_iff.mp h
            exact ⟨ls', rfl, (Prod.mk.inj (Option.some.inj h)).1.symm⟩
          · obtain ⟨r'', _, h⟩ := Option.bind_eq_some_iff.mp h
            exact ⟨[], rfl, (Prod.mk.inj (Option.some.inj h)).1.symm⟩

/-- **Where the first label value of a line comes from.** -/
theorem exists_read_of_readLine {name lname t : Text} {s : Option Sample}
    (hname : isName isNameStart isNameChar name = true)
    (hlname : isName isLabelStart isLabelChar lname = true)
    (h : readLine (name ++ '\x7b' :: (lname ++ '=' :: '"' :: t)) = some s) :
    ∃ v r s', escapes.read none t = some (v, r) ∧ s = some s' ∧ s'.labels.head? = some (lname, v) := by
  rw [readLine_of_name hname] at h
  obtain ⟨s', hs, rfl⟩ := Option.map_eq_some_iff.mp h
  have hread := readName_append ('\x7b' :: (lname ++ '=' :: '"' :: t)) hname
    (by rintro c ⟨⟩; decide)
  have hbrace : expect '\x7b' (skip ('\x7b' :: (lname ++ '=' :: '"' :: t))) =
      some (lname ++ '=' :: '"' :: t) := rfl
  simp only [readSample, hread, hbrace, Option.bind_eq_bind, Option.bind_some, Option.pure_def] at hs
  obtain ⟨⟨ls, rest⟩, hlabels, hs⟩ := Option.bind_eq_some_iff.mp hs
  obtain ⟨_, _, hs⟩ := Option.bind_eq_some_iff.mp hs
  obtain rfl := Option.some.inj hs
  obtain ⟨v, r, ls', hv, rfl⟩ := exists_read_of_readLabels hlname hlabels
  exact ⟨v, r, _, hv, rfl, rfl⟩

/-- **Where the first label value of a text comes from**, when the text starts like a sample: it is
read from the part of the text up to the line feed. -/
theorem exists_read_of_parse {name lname t : Text} {s : Sample} {more : List Sample}
    (hname : isName isNameStart isNameChar name = true)
    (hlname : isName isLabelStart isLabelChar lname = true)
    (h : parse (name ++ '\x7b' :: (lname ++ '=' :: '"' :: t)) = some (s :: more)) :
    ∃ v r, escapes.read none (t.takeWhile (· ≠ '\n')) = some (v, r) ∧
      s.labels.head? = some (lname, v) := by
  have hline : '\n' ∉ name ++ '\x7b' :: (lname ++ '=' :: '"' :: t.takeWhile (· ≠ '\n')) := by
    have h₁ := not_mem_of_isName (d := '\n') hname (by decide) (by decide)
    have h₂ := not_mem_of_isName (d := '\n') hlname (by decide) (by decide)
    have h₃ : '\n' ∉ t.takeWhile (· ≠ '\n') :=
      not_mem_of_forall (p := fun c => decide (c ≠ '\n'))
        (fun c hc => List.mem_takeWhile_imp (p := fun c => decide (c ≠ '\n')) hc) (by decide)
    simp only [List.mem_append, List.mem_cons, h₁, h₂, h₃]
    decide
  -- the first line of the text, and the samples of the other lines
  obtain ⟨first, others, hread, hsamples⟩ : ∃ first others,
      readLine (name ++ '\x7b' :: (lname ++ '=' :: '"' :: t.takeWhile (· ≠ '\n'))) = some first ∧
        first.toList ++ others = s :: more := by
    have hsplit := List.takeWhile_append_dropWhile (p := (· ≠ '\n')) (l := t)
    cases hdrop : t.dropWhile (· ≠ '\n') with
    | nil =>
        rw [hdrop, List.append_nil] at hsplit
        rw [hsplit] at hline ⊢
        rw [parse_line hline] at h
        obtain ⟨first, hfirst, heq⟩ := Option.map_eq_some_iff.mp h
        exact ⟨first, [], hfirst, by rw [List.append_nil, heq]⟩
    | cons c rest =>
        obtain rfl : c = '\n' := by
          have hc := List.head?_dropWhile_not (fun c => decide (c ≠ '\n')) t
          rw [hdrop] at hc
          simpa using hc
        rw [hdrop] at hsplit
        rw [← hsplit] at h
        have htext : name ++ '\x7b' :: (lname ++ '=' :: '"' :: (t.takeWhile (· ≠ '\n') ++ '\n' :: rest)) =
            (name ++ '\x7b' :: (lname ++ '=' :: '"' :: t.takeWhile (· ≠ '\n'))) ++ '\n' :: rest := by simp
        rw [htext, parse_append, parse_line hline] at h
        obtain ⟨x, hx, h⟩ := Option.bind_eq_some_iff.mp h
        obtain ⟨first, hfirst, rfl⟩ := Option.map_eq_some_iff.mp hx
        obtain ⟨others, _, heq⟩ := Option.map_eq_some_iff.mp h
        exact ⟨first, others, hfirst, heq⟩
  obtain ⟨v, r, s', hv, rfl, hlabels⟩ := exists_read_of_readLine hname hlname hread
  obtain ⟨rfl, _⟩ := List.cons.inj hsamples
  exact ⟨v, r, hv, hlabels⟩

/-! ### Groups of lines -/

inductive LineKind where
  | help
  | type
  | sample
deriving DecidableEq

/-- The metric that a line belongs to. -/
def lineFamily (t : Text) : Option (LineKind × Text) :=
  if (skip t).head? = some '#' then
    let keyword := token (skip (skip t).tail)
    let name := (token (skip keyword.2)).1
    if keyword.1 = "HELP".toList then some (.help, name)
    else if keyword.1 = "TYPE".toList then some (.type, name)
    else none
  else (readName isNameStart isNameChar (skip t)).map (fun r => (.sample, r.1))

/-- The metrics of the lines that are not blank. -/
def families (text : Text) : List (Option (LineKind × Text)) :=
  ((lines text).filter (fun t => skip t ≠ [])).map lineFamily

def isOf (name : Text) (x : Option (LineKind × Text)) : Bool := x.any (fun p => p.2 = name)

/-- The lines of the metric follow each other, with one `HELP` line and one `TYPE` line before all
samples. -/
def IsGroup (fams : List (Option (LineKind × Text))) (name : Text) : Prop :=
  ∃ pre header samples post, fams = pre ++ (header ++ samples) ++ post ∧
    header.Perm [some (.help, name), some (.type, name)] ∧
    (∀ x ∈ samples, x = some (.sample, name)) ∧ ∀ x ∈ pre ++ post, isOf name x = false

/-- The lines of every metric form one group. -/
def Grouped (text : Text) : Prop :=
  ∀ name, (families text).any (isOf name) = true → IsGroup (families text) name

theorem families_append (a b : Text) : families (a ++ '\n' :: b) = families a ++ families b := by
  unfold families
  rw [lines_append, List.filter_append, List.map_append]

theorem lineFamily_of_name {name : Text} (rest : Text) (hname : isName isNameStart isNameChar name = true)
    (hrest : ∀ c, rest.head? = some c → isNameChar c = false) :
    skip (name ++ rest) ≠ [] ∧ lineFamily (name ++ rest) = some (.sample, name) := by
  have hread := readName_append rest hname hrest
  cases name with
  | nil => cases hname
  | cons c t =>
      have hc := (Bool.and_eq_true_iff.mp hname).1
      have hskip : skip (c :: t ++ rest) = c :: t ++ rest :=
        skip_of_head (isBlank_of_pred hc (by decide) (by decide))
      refine ⟨by rw [hskip]; exact List.cons_ne_nil _ _, ?_⟩
      unfold lineFamily
      rw [hskip, if_neg, hread]
      · rfl
      · intro h
        exact ne_of_pred hc (by decide) (Option.some.inj h)

/-- The first line of a text that starts with a name. -/
theorem families_of_name {name : Text} {c : Char} (t : Text) (hname : isName isNameStart isNameChar name = true)
    (hc : isNameChar c = false) (hfeed : c ≠ '\n') :
    ∃ more, families (name ++ c :: t) = some (.sample, name) :: more ∧ ('\n' ∉ t → more = []) := by
  have hname' := not_mem_of_isName (d := '\n') hname (by decide) (by decide)
  have hline : ∀ a, '\n' ∉ a → families (name ++ c :: a) = [some (.sample, name)] := by
    intro a ha
    obtain ⟨hskip, hfam⟩ := lineFamily_of_name (c :: a) hname (by rintro d ⟨⟩; exact hc)
    unfold families
    rw [lines_of_not_mem (by simp [hname', ha, hfeed.symm]),
      List.filter_cons_of_pos (by simpa using hskip)]
    simp [hfam]
  by_cases ht : '\n' ∈ t
  · obtain ⟨a, b, rfl, ha⟩ := List.eq_append_cons_of_mem ht
    refine ⟨families b, ?_, fun h => absurd ht h⟩
    rw [show name ++ c :: (a ++ '\n' :: b) = (name ++ c :: a) ++ '\n' :: b by simp, families_append,
      hline a ha]
    rfl
  · exact ⟨[], hline t ht, fun _ => rfl⟩

/-- The words of a comment line. -/
theorem lineFamily_comment {keyword name t : Text}
    (hkeyword : isName isNameStart isNameChar keyword = true)
    (hname : isName isNameStart isNameChar name = true) :
    lineFamily ('#' :: ' ' :: (keyword ++ ' ' :: (name ++ ' ' :: t))) =
      if keyword = "HELP".toList then some (.help, name)
      else if keyword = "TYPE".toList then some (.type, name)
      else none := by
  have hblank : ∀ {word : Text}, isName isNameStart isNameChar word = true →
      ∀ c ∈ word, isBlank c = false := by
    intro word hword c hc
    have hspace := not_mem_of_isName (d := ' ') hword (by decide) (by decide)
    have htab := not_mem_of_isName (d := '\t') hword (by decide) (by decide)
    have h₁ : c ≠ ' ' := fun h => hspace (h ▸ hc)
    have h₂ : c ≠ '\t' := fun h => htab (h ▸ hc)
    simp [isBlank, h₁, h₂]
  have htoken : ∀ {word : Text}, isName isNameStart isNameChar word = true → ∀ r,
      token (skip (' ' :: (word ++ ' ' :: r))) = (word, ' ' :: r) := by
    intro word hword r
    have hskip : skip (word ++ ' ' :: r) = word ++ ' ' :: r := by
      cases word with
      | nil => cases hword
      | cons c word => exact skip_of_head (hblank hword c (List.mem_cons_self ..))
    rw [skip_blank, hskip, token_append (hblank hword)]
  have hhash : skip ('#' :: ' ' :: (keyword ++ ' ' :: (name ++ ' ' :: t))) =
      '#' :: ' ' :: (keyword ++ ' ' :: (name ++ ' ' :: t)) := rfl
  unfold lineFamily
  simp only [hhash, List.head?_cons, if_true, List.tail_cons, htoken hkeyword, htoken hname]

/-- The family of a comment line without a line feed inside. -/
theorem families_comment (keyword : Text) {name t : Text}
    (hkeyword : isName isNameStart isNameChar keyword = true)
    (hname : isName isNameStart isNameChar name = true) (ht : '\n' ∉ t) :
    families ('#' :: ' ' :: (keyword ++ ' ' :: (name ++ ' ' :: t))) =
      [if keyword = "HELP".toList then some (.help, name)
      else if keyword = "TYPE".toList then some (.type, name)
      else none] := by
  have hfeed : '\n' ∉ '#' :: ' ' :: (keyword ++ ' ' :: (name ++ ' ' :: t)) := by
    have h₁ := not_mem_of_isName (d := '\n') hkeyword (by decide) (by decide)
    have h₂ := not_mem_of_isName (d := '\n') hname (by decide) (by decide)
    simp [h₁, h₂, ht]
  unfold families
  rw [lines_of_not_mem hfeed, List.filter_cons_of_pos rfl, List.filter_nil, List.map_singleton,
    lineFamily_comment hkeyword hname]

/-- After the group of a metric there is no further line of it. -/
theorem IsGroup.all_after {fams : List (Option (LineKind × Text))} {name : Text} (h : IsGroup fams name) :
    ((fams.dropWhile (fun x => !isOf name x)).dropWhile (isOf name)).all (fun x => !isOf name x) = true := by
  obtain ⟨pre, header, samples, post, rfl, hheader, hsamples, hothers⟩ := h
  have hpre : ∀ x ∈ pre, (!isOf name x) = true := fun x hx => by
    simp [hothers x (List.mem_append_left _ hx)]
  have hpost : ∀ x ∈ post, (!isOf name x) = true := fun x hx => by
    simp [hothers x (List.mem_append_right _ hx)]
  have hgroup : ∀ x ∈ header ++ samples, isOf name x = true := by
    intro x hx
    obtain hx | hx := List.mem_append.mp hx
    · have hx := hheader.mem_iff.mp hx
      simp only [List.mem_cons, List.not_mem_nil, or_false] at hx
      obtain rfl | rfl := hx <;> simp [isOf]
    · simp [hsamples x hx, isOf]
  have hstop : (header ++ samples ++ post).dropWhile (fun x => !isOf name x) = header ++ samples ++ post := by
    cases header with
    | nil => exact absurd hheader.length_eq (by simp)
    | cons x header =>
        exact List.dropWhile_cons_of_neg (by simp [hgroup x (List.mem_cons_self ..)])
  rw [List.append_assoc, List.dropWhile_append_of_pos hpre, hstop, List.dropWhile_append_of_pos hgroup]
  exact List.all_eq_true.mpr (fun x hx => hpost x (List.dropWhile_subset _ hx))

/-- The lines of a metric with one sample. -/
def metricLines (name : Text) : List (Option (LineKind × Text)) :=
  [some (.help, name), some (.type, name), some (.sample, name)]

theorem isOf_metricLines {name name' : Text} {x : Option (LineKind × Text)} (hx : x ∈ metricLines name') :
    isOf name x = decide (name' = name) := by
  simp only [metricLines, List.mem_cons, List.not_mem_nil, or_false] at hx
  obtain rfl | rfl | rfl := hx <;> rfl

/-- Metrics that stand one after the other, each with one sample, are grouped if their names differ. -/
theorem isGroup_metricLines {names : List Text} (hnodup : names.Nodup) {name : Text}
    (h : (names.flatMap metricLines).any (isOf name) = true) : IsGroup (names.flatMap metricLines) name := by
  obtain ⟨x, hx, hof⟩ := List.any_eq_true.mp h
  obtain ⟨name', hmem, hx⟩ := List.mem_flatMap.mp hx
  rw [isOf_metricLines hx] at hof
  obtain rfl := of_decide_eq_true hof
  obtain ⟨pre, post, rfl⟩ := List.append_of_mem hmem
  have hne : ∀ n ∈ pre ++ post, n ≠ name' := by
    have hfirst : (name' :: (pre ++ post)).Nodup := List.perm_middle.nodup_iff.mp hnodup
    rintro n hn rfl
    exact (List.nodup_cons.mp hfirst).1 hn
  refine ⟨pre.flatMap metricLines, [some (.help, name'), some (.type, name')], [some (.sample, name')],
    post.flatMap metricLines, by simp [metricLines], .refl _, by simp, ?_⟩
  intro x hx
  rw [← List.flatMap_append] at hx
  obtain ⟨n, hn, hx⟩ := List.mem_flatMap.mp hx
  rw [isOf_metricLines hx]
  exact decide_eq_false (hne n hn)

end Exposition
