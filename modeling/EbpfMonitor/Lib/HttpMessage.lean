import EbpfMonitor.Lib.Cut
import EbpfMonitor.Lib.Number

/-! # HTTP/1.1 responses

A response is a status line, header fields up to the first empty line, and a body whose length is in
the field `Content-Length`:

    HTTP/1.1 200 OK
    Content-Type: application/json
    Content-Length: 2

    []

Lines end with a carriage return and a line feed.  Field names do not depend on the case, and blanks
around a value are not part of it.

* `decode` reads the first response of a text and gives what is left of the text.
* `encode` writes one; a well-formed one is read back, whatever follows it (`decode_encode`). -/

namespace HttpMessage

open Text

structure Response where
  status : ℕ
  reason : Text
  fields : List (Text × Text)
  body : Text
deriving DecidableEq

/-! ### Reading -/

def crlf : Text := ['\r', '\n']

/-- The lines up to the first empty one, and what follows it. -/
def readLines : ℕ → Text → Option (List Text × Text)
  | 0, _ => none
  | n + 1, t => do
      let (line, rest) ← List.cut crlf t
      if line = [] then return ([], rest)
      else
        let (lines, rest) ← readLines n rest
        return (line :: lines, rest)

def version : Text := "HTTP/1.1".toList

/-- The version, three digits and a reason that may be empty, separated by spaces. -/
def readStatusLine (line : Text) : Option (ℕ × Text) := do
  let (protocol, rest) ← List.cut [' '] line
  let (code, reason) ← List.cut [' '] rest
  if protocol = version ∧ code.length = 3 then
    let status ← Numeral.readNat code
    return (status, reason)
  else none

def isTokenChar (c : Char) : Bool :=
  c.isAlphanum || "!#$%&'*+-.^_`|~".toList.contains c

def trimLeft (t : Text) : Text := t.dropWhile isBlank

/-- The text without the blanks at both ends. -/
def trim (t : Text) : Text := (trimLeft (trimLeft t).reverse).reverse

/-- A name, a colon and a value. -/
def readField (line : Text) : Option (Text × Text) := do
  let (name, value) ← List.cut [':'] line
  if name ≠ [] ∧ name.all isTokenChar = true then return (name, trim value) else none

def lower (t : Text) : Text := t.map Char.toLower

/-- The values of the fields with a name. -/
def valuesOf (name : Text) (fields : List (Text × Text)) : List Text :=
  (fields.filter (fun f => lower f.1 = lower name)).map Prod.snd

/-- The length of the body, if it is given once and there is no transfer coding. -/
def bodyLength (fields : List (Text × Text)) : Option ℕ :=
  match valuesOf "Transfer-Encoding".toList fields, valuesOf "Content-Length".toList fields with
  | [], [value] => Numeral.readNat value
  | _, _ => none

/-- The first response of a text, and what is left. -/
def decode (t : Text) : Option (Response × Text) := do
  let (lines, rest) ← readLines (t.length + 1) t
  let (status, reason) ← readStatusLine (lines.headD [])
  let fields ← lines.tail.mapM readField
  let n ← bodyLength fields
  if n ≤ rest.length then return (⟨status, reason, fields, rest.take n⟩, rest.drop n) else none

/-! ### Writing -/

def statusLine (r : Response) : Text :=
  version ++ ' ' :: (decimal r.status ++ ' ' :: r.reason)

def fieldLine (f : Text × Text) : Text := f.1 ++ ':' :: ' ' :: f.2

def encode (r : Response) : Text :=
  (statusLine r :: r.fields.map fieldLine).flatMap (fun line => line ++ crlf) ++ (crlf ++ r.body)

/-- The field can be written as it is. -/
structure IsField (f : Text × Text) : Prop where
  name_ne : f.1 ≠ []
  name : f.1.all isTokenChar = true
  value : '\r' ∉ f.2
  trimmed : trim f.2 = f.2

theorem isField {name value : Text} (hne : name ≠ []) (hname : name.all isTokenChar = true)
    (hvalue : '\r' ∉ value) (htrim : trim value = value) : IsField (name, value) :=
  ⟨hne, hname, hvalue, htrim⟩

structure WellFormed (r : Response) : Prop where
  status_ge : 100 ≤ r.status
  status_lt : r.status < 1000
  reason : '\r' ∉ r.reason
  fields : ∀ f ∈ r.fields, IsField f
  length : bodyLength r.fields = some r.body.length

/-! ### Reading back -/

theorem crlf_ne_nil : crlf ≠ [] := List.cons_ne_nil _ _

/-- A carriage return does not complete a line break. -/
theorem infix_of_infix_concat {line : Text} (h : crlf <:+: line ++ ['\r']) : crlf <:+: line := by
  obtain ⟨a, ha⟩ | hinside := List.infix_concat_iff.mp h
  · have hend := congrArg List.getLast? ha
    rw [List.getLast?_append_of_ne_nil _ crlf_ne_nil, List.getLast?_concat] at hend
    exact absurd (Option.some.inj hend) (by decide)
  · exact hinside

theorem cut_crlf {line : Text} (h : '\r' ∉ line) (rest : Text) :
    List.cut crlf (line ++ (crlf ++ rest)) = some (line, rest) := by
  refine List.cut_append crlf_ne_nil (fun hinfix => h ?_)
  exact (infix_of_infix_concat hinfix).subset List.mem_cons_self

/-- Lines that are not empty, up to an empty one. -/
theorem readLines_flatMap {lines : List Text} (h : ∀ l ∈ lines, l ≠ [] ∧ '\r' ∉ l) (rest : Text)
    {n : ℕ} (hn : lines.length < n) :
    readLines n (lines.flatMap (fun line => line ++ crlf) ++ (crlf ++ rest)) = some (lines, rest) := by
  induction lines generalizing n with
  | nil =>
      obtain ⟨n, rfl⟩ : ∃ m, n = m + 1 := ⟨n - 1, by omega⟩
      have hcut : List.cut crlf (crlf ++ rest) = some ([], rest) := cut_crlf List.not_mem_nil rest
      rw [List.flatMap_nil, List.nil_append, readLines, hcut]
      rfl
  | cons line lines ih =>
      obtain ⟨n, rfl⟩ : ∃ m, n = m + 1 := ⟨n - 1, by omega⟩
      obtain ⟨⟨hne, hline⟩, hlines⟩ := List.forall_mem_cons.mp h
      rw [List.flatMap_cons, List.append_assoc, List.append_assoc, readLines, cut_crlf hline]
      simp only [Option.bind_eq_bind, Option.bind_some, if_neg hne]
      rw [ih hlines (by simpa using hn)]
      rfl

theorem length_decimal_of_lt {n : ℕ} (hge : 100 ≤ n) (hlt : n < 1000) : (decimal n).length = 3 := by
  have hsplit : ∀ m, 10 ≤ m → decimal m = decimal (m / 10) ++ [(m % 10).digitChar] :=
    fun m hm => Nat.toDigits_of_base_le (by decide) hm
  have hone : ∀ m < 10, decimal m = [m.digitChar] :=
    fun m hm => Nat.toDigits_of_lt_base hm
  rw [hsplit n (by omega), hsplit (n / 10) (by omega), hone (n / 10 / 10) (by omega)]
  rfl

theorem notMem_decimal {c : Char} (hc : c.isDigit = false) (n : ℕ) : c ∉ decimal n := by
  intro hmem
  rw [isDigit_of_mem_decimal hmem] at hc
  cases hc

theorem trimLeft_of_forall {t : Text} (h : ∀ c ∈ t, isBlank c = false) : trimLeft t = t := by
  cases t with
  | nil => rfl
  | cons c t =>
      have hc := h c List.mem_cons_self
      rw [trimLeft, List.dropWhile_cons_of_neg (by rw [hc]; decide)]

theorem trim_of_forall {t : Text} (h : ∀ c ∈ t, isBlank c = false) : trim t = t := by
  have hreverse : ∀ c ∈ t.reverse, isBlank c = false := fun c hc => h c (List.mem_reverse.mp hc)
  rw [trim, trimLeft_of_forall h, trimLeft_of_forall hreverse, List.reverse_reverse]

/-- A number is a value that can be written as it is. -/
theorem isField_decimal {name : Text} (hne : name ≠ []) (hname : name.all isTokenChar = true)
    (n : ℕ) : IsField (name, decimal n) :=
  isField hne hname (notMem_decimal (by decide) n) (trim_of_forall fun _ hc => isBlank_of_mem_decimal hc)

theorem readStatusLine_statusLine {r : Response} (h : WellFormed r) :
    readStatusLine (statusLine r) = some (r.status, r.reason) := by
  have hversion : ' ' ∉ version := by decide
  have hcode : ' ' ∉ decimal r.status := notMem_decimal (by decide) _
  have hlength := length_decimal_of_lt h.status_ge h.status_lt
  simp only [readStatusLine, statusLine, List.cut_singleton hversion, List.cut_singleton hcode,
    Option.bind_eq_bind, Option.bind_some, hlength, and_self, if_true, Numeral.readNat_decimal,
    Option.pure_def]

theorem colon_notMem {name : Text} (h : name.all isTokenChar = true) : ':' ∉ name := by
  intro hmem
  have htoken := List.all_eq_true.mp h ':' hmem
  exact absurd htoken (by decide)

theorem readField_fieldLine {f : Text × Text} (h : IsField f) : readField (fieldLine f) = some f := by
  have htrim : trim (' ' :: f.2) = f.2 := h.trimmed
  rw [readField, fieldLine, List.cut_singleton (colon_notMem h.name)]
  simp only [Option.bind_eq_bind, Option.bind_some]
  rw [if_pos ⟨h.name_ne, h.name⟩, htrim]
  rfl

theorem mapM_readField {fields : List (Text × Text)} (h : ∀ f ∈ fields, IsField f) :
    (fields.map fieldLine).mapM readField = some fields := by
  induction fields with
  | nil => rfl
  | cons f fields ih =>
      obtain ⟨hf, hfields⟩ := List.forall_mem_cons.mp h
      rw [List.map_cons, List.mapM_cons, readField_fieldLine hf, ih hfields]
      rfl

theorem return_notMem_name {name : Text} (h : name.all isTokenChar = true) : '\r' ∉ name := by
  intro hmem
  have htoken := List.all_eq_true.mp h '\r' hmem
  exact absurd htoken (by decide)

theorem lines_ok {r : Response} (h : WellFormed r) :
    ∀ l ∈ statusLine r :: r.fields.map fieldLine, l ≠ [] ∧ '\r' ∉ l := by
  rw [List.forall_mem_cons]
  refine ⟨⟨?_, ?_⟩, ?_⟩
  · rw [statusLine]
    exact List.append_ne_nil_of_right_ne_nil _ (List.cons_ne_nil _ _)
  · have hstatus := notMem_decimal (c := '\r') (by decide) r.status
    have hversion : '\r' ∉ version := by decide
    simp only [statusLine, List.mem_append, List.mem_cons, hversion, hstatus, h.reason]
    decide
  · intro l hl
    obtain ⟨f, hf, rfl⟩ := List.mem_map.mp hl
    have hfield := h.fields f hf
    refine ⟨List.append_ne_nil_of_right_ne_nil _ (List.cons_ne_nil _ _), ?_⟩
    simp only [fieldLine, List.mem_append, List.mem_cons, return_notMem_name hfield.name,
      hfield.value]
    decide

/-- There are no more lines than characters. -/
theorem length_le_flatMap (lines : List Text) :
    lines.length ≤ (lines.flatMap (fun line => line ++ crlf)).length := by
  induction lines with
  | nil => exact le_refl _
  | cons line lines ih =>
      have hcrlf : crlf.length = 2 := rfl
      rw [List.flatMap_cons, List.length_append, List.length_append, List.length_cons]
      omega

/-- **A well-formed response is read back**, and what follows it is left. -/
theorem decode_encode {r : Response} (h : WellFormed r) (rest : Text) :
    decode (encode r ++ rest) = some (r, rest) := by
  have hlines : (statusLine r :: r.fields.map fieldLine).length < (encode r ++ rest).length + 1 := by
    have hle := length_le_flatMap (statusLine r :: r.fields.map fieldLine)
    rw [encode, List.length_append, List.length_append]
    omega
  have hread := readLines_flatMap (lines_ok h) (r.body ++ rest) hlines
  have htext : encode r ++ rest = (statusLine r :: r.fields.map fieldLine).flatMap
      (fun line => line ++ crlf) ++ (crlf ++ (r.body ++ rest)) := by
    rw [encode, List.append_assoc, List.append_assoc]
  rw [← htext] at hread
  rw [decode, hread]
  simp only [Option.bind_eq_bind, Option.bind_some, List.headD_cons, List.tail_cons,
    readStatusLine_statusLine h, mapM_readField h.fields, h.length]
  rw [if_pos (by simp), List.take_left, List.drop_left]
  rfl

/-! ### Reading a part -/

theorem readLines_append {n m : ℕ} {t rest : Text} {lines : List Text}
    (h : readLines n t = some (lines, rest)) (hnm : n ≤ m) (s : Text) :
    readLines m (t ++ s) = some (lines, rest ++ s) := by
  induction n generalizing m t lines with
  | zero => cases h
  | succ n ih =>
      obtain ⟨m, rfl⟩ : ∃ m', m = m' + 1 := ⟨m - 1, by omega⟩
      obtain ⟨⟨line, rest'⟩, hcut, h⟩ := Option.bind_eq_some_iff.mp h
      dsimp only at h
      rw [readLines, List.cut_append_right crlf_ne_nil hcut]
      show (if line = [] then some ([], rest' ++ s) else _) = _
      by_cases hline : line = []
      · rw [if_pos hline] at h ⊢
        obtain ⟨rfl, rfl⟩ := Prod.mk.inj (Option.some.inj h)
        rfl
      · rw [if_neg hline] at h ⊢
        obtain ⟨⟨lines', rest''⟩, hread, h⟩ := Option.bind_eq_some_iff.mp h
        obtain ⟨rfl, rfl⟩ := Prod.mk.inj (Option.some.inj h)
        rw [ih hread (by omega)]
        rfl

/-- A response that has been read is not changed by what comes later. -/
theorem decode_append {t rest : Text} {r : Response} (h : decode t = some (r, rest)) (s : Text) :
    decode (t ++ s) = some (r, rest ++ s) := by
  obtain ⟨⟨lines, rest'⟩, hlines, h⟩ := Option.bind_eq_some_iff.mp h
  obtain ⟨⟨status, reason⟩, hstatus, h⟩ := Option.bind_eq_some_iff.mp h
  obtain ⟨fields, hfields, h⟩ := Option.bind_eq_some_iff.mp h
  obtain ⟨n, hn, h⟩ := Option.bind_eq_some_iff.mp h
  obtain ⟨hle, h⟩ := Option.ite_none_right_eq_some.mp h
  obtain ⟨rfl, rfl⟩ := Prod.mk.inj (Option.some.inj h)
  rw [decode, readLines_append hlines (by simp) s]
  simp only [Option.bind_eq_bind, Option.bind_some, hstatus, hfields, hn]
  rw [if_pos (by rw [List.length_append]; omega), List.take_append_of_le_length hle,
    List.drop_append_of_le_length hle]
  rfl

/-- **A part of a response is not taken for a response**: what can be read is the whole of it. -/
theorem decode_start_of_encode {r r' : Response} (h : WellFormed r) {t rest : Text} (ht : t <+: encode r)
    (hdecode : decode t = some (r', rest)) : t = encode r ∧ r' = r ∧ rest = [] := by
  obtain ⟨s, hs⟩ := ht
  have hwhole := decode_encode h []
  rw [List.append_nil, ← hs, decode_append hdecode s] at hwhole
  obtain ⟨hr, hrest⟩ := Prod.mk.inj (Option.some.inj hwhole)
  obtain ⟨hnil, rfl⟩ := List.append_eq_nil_iff.mp hrest
  rw [List.append_nil] at hs
  exact ⟨hs, hr, hnil⟩

end HttpMessage
