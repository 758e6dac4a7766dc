import EbpfMonitor.Lib.Json
import EbpfMonitor.Outputs

/-! # The JSON outputs

What a JSON reader finds in the body of `/connections` and in a line of `--json`.

* **Members.**  `connectionMembers` and `eventMembers` list the members that are meant, each with
  its text and its value; `connectionObject_eq` and `jsonLine_eq` say that the outputs are the
  texts of these members.
* **What comes back.**  Both outputs print the process name between quotes as it is.
  `json_outputs_iff` says that they read as what they are made from exactly when every name is
  `Printable`. -/

namespace EbpfMonitor

open Text StatsReporter PrometheusMetrics Json

/-- The name can stand between quotes as it is: no double quote, no backslash, no control
character, and UTF-8. -/
def Printable (x : Text) : Prop := (∀ c ∈ x, c ≠ '"' ∧ c ≠ '\\' ∧ 0x20 ≤ c.toNat) ∧ IsUtf8 x

theorem plain_iff_json {x : Text} : escapes.Plain x ↔ ∀ c ∈ x, c ≠ '"' ∧ c ≠ '\\' ∧ 0x20 ≤ c.toNat := by
  simp [Quoted.Escapes.Plain, escapes]

/-! ### The members that are meant -/

/-- A member with its name, its text and its value. -/
abbrev Member := Text × Text × Json

def numberMember (name : Text) (n : ℕ) : Member := (name, decimal n, .number (Numeral.ofNat n))

def stringMember (name x : Text) : Member := (name, quoted x, .string x)

def connectionMembers (ports : Ports) (k : ConnectionKey) (st : ConnectionStats) : List Member :=
  [stringMember "comm".toList st.comm, numberMember "pid".toList k.pid.toNat,
    stringMember "src".toList (ipPort k.srcIp (ports k).1),
    stringMember "dst".toList (ipPort k.dstIp (ports k).2), numberMember "tx".toList st.bytesTx.toNat,
    numberMember "rx".toList st.bytesRx.toNat, numberMember "connects".toList st.connects.toNat]

def eventMembers (ev : TcpEvent) : List Member :=
  [numberMember "ts".toList ev.timestampNs.toNat, numberMember "pid".toList ev.pid.toNat,
    stringMember "comm".toList (commText ev.comm),
    stringMember "src".toList (ipPort ev.srcIp ev.srcPort.toNat),
    stringMember "dst".toList (ipPort ev.dstIp ev.dstPort.toNat),
    numberMember "action".toList ev.action.toNat, numberMember "tx".toList ev.bytesTx.toNat,
    numberMember "rx".toList ev.bytesRx.toNat]

def membersText (ms : List Member) : Text := objectText (ms.map (fun m => (m.1, m.2.1)))

def membersValue (ms : List Member) : Json := .object (ms.map (fun m => (m.1, m.2.2)))

theorem connectionObject_eq (ports : Ports) (k : ConnectionKey) (st : ConnectionStats) :
    connectionObject ports k st = membersText (connectionMembers ports k st) := by
  unfold connectionObject connectionMembers membersText
  generalize ipPort k.srcIp (ports k).1 = src, ipPort k.dstIp (ports k).2 = dst
  simp [stringMember, numberMember, objectText, memberText, quoted, List.intercalate_cons_cons]

theorem jsonLine_eq (ev : TcpEvent) : jsonLine ev = membersText (eventMembers ev) ++ "\n".toList := by
  unfold jsonLine jsonLineWith eventMembers membersText
  generalize ipPort ev.srcIp ev.srcPort.toNat = src, ipPort ev.dstIp ev.dstPort.toNat = dst
  simp [stringMember, numberMember, objectText, memberText, quoted, List.intercalate_cons_cons]

/-! ### Reading the members -/

theorem plain_of_isDigit {c : Char} (hc : c.isDigit = true) : escapes.plain c = true := by
  have hrange := toNat_of_isDigit hc
  have hquote : c ≠ '"' := by
    rintro rfl
    exact absurd hrange.1 (by decide)
  have hbackslash : c ≠ '\\' := by
    rintro rfl
    exact absurd hrange.2 (by decide)
  exact decide_eq_true ⟨hquote, hbackslash, by omega⟩

theorem plain_ipPort_json (ip : BitVec 32) (port : ℕ) : escapes.Plain (ipPort ip port) :=
  forall_mem_ipPort (fun _ => plain_of_isDigit) rfl rfl ip port

theorem toNat_lt_of_isDigit {c : Char} (hc : c.isDigit = true) : c.toNat < 128 := by
  have hrange := toNat_of_isDigit hc
  omega

theorem isUtf8_decimal (n : ℕ) : IsUtf8 (decimal n) :=
  isUtf8_ascii (fun _ hc => toNat_lt_of_isDigit (isDigit_of_mem_decimal hc))

theorem isUtf8_ipPort (ip : BitVec 32) (port : ℕ) : IsUtf8 (ipPort ip port) :=
  isUtf8_ascii (forall_mem_ipPort (fun _ => toNat_lt_of_isDigit) (by decide) (by decide) ip port)

/-- A member whose text can be read, whatever it is part of. -/
def Member.Readable (m : Member) : Prop := escapes.Plain m.1 ∧ ∀ n, Reads (n + 1) m.2.1 m.2.2

theorem readable_numberMember {name : Text} (hname : name.all escapes.plain = true) (k : ℕ) :
    (numberMember name k).Readable := ⟨List.all_eq_true.mp hname, fun n => reads_decimal n k⟩

theorem readable_stringMember {name x : Text} (hname : name.all escapes.plain = true)
    (hx : escapes.Plain x) : (stringMember name x).Readable :=
  ⟨List.all_eq_true.mp hname, fun n => reads_quoted n hx⟩

theorem readable_connectionMembers {ports : Ports} {k : ConnectionKey} {st : ConnectionStats}
    (h : escapes.Plain st.comm) : ∀ m ∈ connectionMembers ports k st, m.Readable := by
  simp only [connectionMembers, List.forall_mem_cons]
  exact ⟨readable_stringMember rfl h, readable_numberMember rfl _,
    readable_stringMember rfl (plain_ipPort_json _ _), readable_stringMember rfl (plain_ipPort_json _ _),
    readable_numberMember rfl _, readable_numberMember rfl _, readable_numberMember rfl _, nofun⟩

theorem readable_eventMembers {ev : TcpEvent} (h : escapes.Plain (commText ev.comm)) :
    ∀ m ∈ eventMembers ev, m.Readable := by
  simp only [eventMembers, List.forall_mem_cons]
  exact ⟨readable_numberMember rfl _, readable_numberMember rfl _, readable_stringMember rfl h,
    readable_stringMember rfl (plain_ipPort_json _ _), readable_stringMember rfl (plain_ipPort_json _ _),
    readable_numberMember rfl _, readable_numberMember rfl _, readable_numberMember rfl _, nofun⟩

theorem readValue_membersText {ms : List Member} (h : ∀ m ∈ ms, m.Readable) (n : ℕ) (rest : Text) :
    readValue (n + 2) (membersText ms ++ rest) = some (membersValue ms, rest) :=
  readValue_object (fun m hm => ⟨(h m hm).1, (h m hm).2 n⟩) rest

/-! ### The encoding of the text -/

section utf8

variable {name : Text} (hname : name.all (fun c => decide (c.toNat < 128)) = true)

include hname

theorem isUtf8_name : IsUtf8 name :=
  isUtf8_ascii (fun c hc => of_decide_eq_true (List.all_eq_true.mp hname c hc))

theorem isUtf8_numberMember (k : ℕ) :
    IsUtf8 (numberMember name k).1 ∧ IsUtf8 (numberMember name k).2.1 :=
  ⟨isUtf8_name hname, isUtf8_decimal k⟩

theorem isUtf8_stringMember (x : Text) :
    IsUtf8 (stringMember name x).1 ∧ IsUtf8 (stringMember name x).2.1 ↔ IsUtf8 x :=
  (and_iff_right (isUtf8_name hname)).trans isUtf8_quoted

theorem isUtf8_addressMember (ip : BitVec 32) (port : ℕ) :
    IsUtf8 (stringMember name (ipPort ip port)).1 ∧ IsUtf8 (stringMember name (ipPort ip port)).2.1 :=
  (isUtf8_stringMember hname _).mpr (isUtf8_ipPort ip port)

end utf8

theorem isUtf8_membersText {ms : List Member} :
    IsUtf8 (membersText ms) ↔ ∀ m ∈ ms, IsUtf8 m.1 ∧ IsUtf8 m.2.1 := by
  rw [membersText, isUtf8_objectText, List.forall_mem_map]

/-- Only the process name can spoil the encoding. -/
theorem isUtf8_connectionObject {ports : Ports} {k : ConnectionKey} {st : ConnectionStats} :
    IsUtf8 (connectionObject ports k st) ↔ IsUtf8 st.comm := by
  rw [connectionObject_eq, isUtf8_membersText]
  simp only [connectionMembers, List.forall_mem_cons]
  constructor
  · intro h
    exact (isUtf8_stringMember rfl _).mp h.1
  · intro h
    exact ⟨(isUtf8_stringMember rfl _).mpr h, isUtf8_numberMember rfl _, isUtf8_addressMember rfl _ _,
      isUtf8_addressMember rfl _ _, isUtf8_numberMember rfl _, isUtf8_numberMember rfl _,
      isUtf8_numberMember rfl _, nofun⟩

theorem isUtf8_eventMembers {ev : TcpEvent} :
    IsUtf8 (membersText (eventMembers ev)) ↔ IsUtf8 (commText ev.comm) := by
  rw [isUtf8_membersText]
  simp only [eventMembers, List.forall_mem_cons]
  constructor
  · intro h
    exact (isUtf8_stringMember rfl _).mp h.2.2.1
  · intro h
    exact ⟨isUtf8_numberMember rfl _, isUtf8_numberMember rfl _, (isUtf8_stringMember rfl _).mpr h,
      isUtf8_addressMember rfl _ _, isUtf8_addressMember rfl _ _, isUtf8_numberMember rfl _,
      isUtf8_numberMember rfl _, isUtf8_numberMember rfl _, nofun⟩

/-! ### `/connections` -/

/-- The object says what is stored for the connection. -/
structure Describes (e : ConnectionKey × ConnectionStats) (v : Json) : Prop where
  comm : v.member "comm".toList = some (.string e.2.comm)
  pid : v.member "pid".toList = some (.number (Numeral.ofNat e.1.pid.toNat))
  tx : v.member "tx".toList = some (.number (Numeral.ofNat e.2.bytesTx.toNat))
  rx : v.member "rx".toList = some (.number (Numeral.ofNat e.2.bytesRx.toNat))
  connects : v.member "connects".toList = some (.number (Numeral.ofNat e.2.connects.toNat))

theorem describes_connectionMembers (ports : Ports) (e : ConnectionKey × ConnectionStats) :
    Describes e (membersValue (connectionMembers ports e.1 e.2)) := ⟨rfl, rfl, rfl, rfl, rfl⟩

/-- A string that goes on behind the closing quote of the name ends with the comma before the next
name. -/
theorem getLast?_read_comma {t w r : Text} (h : escapes.read none (',' :: '"' :: t) = some (w, r)) :
    w.getLast? ≠ some '\\' := by
  have hplain : escapes.Plain [','] := List.forall_mem_singleton.mpr rfl
  have hread : escapes.read none (',' :: '"' :: t) = some ([','], t) := Quoted.Escapes.read_plain hplain t
  rw [hread] at h
  cases h
  decide

theorem plain_of_describes {ports : Ports} {e : ConnectionKey × ConnectionStats} {n : ℕ} {t r : Text}
    {v : Json} (h : readValue (n + 2) (connectionObject ports e.1 e.2 ++ t) = some (v, r))
    (hv : Describes e v) : escapes.Plain e.2.comm := by
  obtain ⟨rest, htext⟩ : ∃ rest, connectionObject ports e.1 e.2 ++ t =
      '\x7b' :: (memberText ("comm".toList, quoted e.2.comm) ++ ',' :: '"' :: rest) := by
    rw [connectionObject_eq, membersText, connectionMembers, objectText]
    simp only [List.map_cons, List.cons_append, List.append_assoc, intercalate_append]
    exact ⟨_, rfl⟩
  rw [htext] at h
  exact plain_of_member [] (List.forall_mem_nil _) (List.forall_mem_nil _) (List.all_eq_true.mp rfl) (fun _ _ => getLast?_read_comma) h
    hv.comm

theorem reads_connectionObject {ports : Ports} {e : ConnectionKey × ConnectionStats}
    (h : escapes.Plain e.2.comm) (n : ℕ) :
    Reads (n + 2) (connectionObject ports e.1 e.2) (membersValue (connectionMembers ports e.1 e.2)) := by
  intro c rest _
  rw [connectionObject_eq]
  exact readValue_membersText (readable_connectionMembers h) n (c :: rest)

theorem starts_connectionObject (ports : Ports) (e : ConnectionKey × ConnectionStats) :
    Starts ']' (connectionObject ports e.1 e.2) := by
  rw [connectionObject_eq]
  exact ⟨'\x7b', _, rfl, rfl, by decide⟩

theorem connectionsWith_eq (ports : Ports) (entries : List (ConnectionKey × ConnectionStats)) :
    connectionsWith ports entries = arrayText (entries.map (fun e => connectionObject ports e.1 e.2)) := rfl

/-- The body is read as intended exactly when all names can stand between quotes as they are. -/
theorem connections_iff (ports : Ports) (entries : List (ConnectionKey × ConnectionStats)) :
    (∃ vs, parse (connectionsWith ports entries) = some (.array vs) ∧
        List.Forall₂ Describes entries vs) ↔
      ∀ e ∈ entries, Printable e.2.comm := by
  obtain ⟨l, hl⟩ : ∃ l, (connectionsWith ports entries).length = l + 2 :=
    ⟨(List.intercalate [','] (entries.map (fun e => connectionObject ports e.1 e.2))).length, by
      simp [connectionsWith_eq, arrayText]⟩
  have hutf8 : IsUtf8 (connectionsWith ports entries) ↔ ∀ e ∈ entries, IsUtf8 e.2.comm := by
    rw [connectionsWith_eq, isUtf8_arrayText, List.forall_mem_map]
    simp only [isUtf8_connectionObject]
  have hstart : ∀ e ∈ entries, Starts ']' (connectionObject ports e.1 e.2) :=
    fun e _ => starts_connectionObject ports e
  constructor
  · rintro ⟨vs, hparse, hdescribes⟩
    obtain ⟨r, hread, _, henc⟩ := parse_eq_some.mp hparse
    rw [hl, connectionsWith_eq, arrayText, readValue_bracket] at hread
    obtain ⟨⟨vs', r'⟩, hitems, heq⟩ := Option.map_eq_some_iff.mp hread
    cases heq
    have hplain : ∀ e ∈ entries, escapes.Plain e.2.comm := by
      cases entries with
      | nil => exact List.forall_mem_nil _
      | cons e es =>
          rw [readItems_intercalate_eq (List.cons_ne_nil _ _) hstart] at hitems
          exact good_of_readSequence (by decide) (fun e _ t v r h hv => plain_of_describes h hv)
            (fun e _ he rest => reads_connectionObject he l ',' rest (Or.inl rfl)) hitems hdescribes
    exact fun e he => ⟨plain_iff_json.mp (hplain e he), hutf8.mp henc e he⟩
  · intro h
    refine ⟨entries.map (fun e => membersValue (connectionMembers ports e.1 e.2)),
      parse_eq_some.mpr ⟨[], ?_, rfl, hutf8.mpr (fun e he => (h e he).2)⟩, ?_⟩
    · have hread := readValue_array hstart
        (fun e he => reads_connectionObject (plain_iff_json.mpr (h e he).1) l) []
      rw [List.append_nil] at hread
      rw [hl]
      exact hread
    · rw [List.forall₂_map_right_iff]
      exact List.forall₂_same.mpr (fun e _ => describes_connectionMembers ports e)

/-! ### `--json` -/

/-- The object says what the event says. -/
structure DescribesEvent (ev : TcpEvent) (v : Json) : Prop where
  ts : v.member "ts".toList = some (.number (Numeral.ofNat ev.timestampNs.toNat))
  pid : v.member "pid".toList = some (.number (Numeral.ofNat ev.pid.toNat))
  comm : v.member "comm".toList = some (.string (commText ev.comm))
  action : v.member "action".toList = some (.number (Numeral.ofNat ev.action.toNat))
  tx : v.member "tx".toList = some (.number (Numeral.ofNat ev.bytesTx.toNat))
  rx : v.member "rx".toList = some (.number (Numeral.ofNat ev.bytesRx.toNat))

theorem plain_of_describesEvent {ev : TcpEvent} {n : ℕ} {r : Text} {v : Json}
    (h : readValue (n + 2) (membersText (eventMembers ev)) = some (v, r)) (hv : DescribesEvent ev v) :
    escapes.Plain (commText ev.comm) := by
  obtain ⟨rest, htext⟩ : ∃ rest, membersText (eventMembers ev) =
      '\x7b' :: ([numberMember "ts".toList ev.timestampNs.toNat, numberMember "pid".toList ev.pid.toNat].flatMap
        (fun m => memberText (m.1, m.2.1) ++ [',']) ++
        (memberText ("comm".toList, quoted (commText ev.comm)) ++ ',' :: '"' :: rest)) := by
    rw [membersText, eventMembers, objectText]
    simp only [List.map_cons, List.flatMap_cons, List.flatMap_nil, List.cons_append, List.nil_append,
      List.append_assoc, intercalate_append]
    exact ⟨_, rfl⟩
  rw [htext] at h
  refine plain_of_member _ (fun m hm => ?_) ?_ (List.all_eq_true.mp rfl) (fun _ _ => getLast?_read_comma) h
    hv.comm
  · have hreadable : Member.Readable m := by
      simp only [List.mem_cons, List.not_mem_nil, or_false] at hm
      obtain rfl | rfl := hm
      · exact readable_numberMember rfl _
      · exact readable_numberMember rfl _
    exact ⟨hreadable.1, hreadable.2 n⟩
  · simp only [List.forall_mem_cons, numberMember]
    exact ⟨by decide, by decide, List.forall_mem_nil _⟩

theorem feed_not_mem_eventMembers {ev : TcpEvent} (h : escapes.Plain (commText ev.comm)) :
    '\n' ∉ membersText (eventMembers ev) := by
  have hfeed : ∀ {x : Text}, escapes.Plain x → '\n' ∉ x := by
    intro x hx hmem
    cases hx '\n' hmem
  have hnumber : ∀ {name : Text} n, '\n' ∉ name →
      '\n' ∉ (numberMember name n).1 ∧ '\n' ∉ (numberMember name n).2.1 := fun n hname =>
    ⟨hname, hfeed (fun _ hc => plain_of_isDigit (isDigit_of_mem_decimal hc))⟩
  have hstring : ∀ {name x : Text}, '\n' ∉ name → escapes.Plain x →
      '\n' ∉ (stringMember name x).1 ∧ '\n' ∉ (stringMember name x).2.1 := fun hname hx =>
    ⟨hname, by simp [stringMember, quoted, hfeed hx]⟩
  refine not_mem_objectText (by decide) ?_
  simp only [eventMembers, List.map_cons, List.map_nil, List.forall_mem_cons]
  exact ⟨hnumber _ (by decide), hnumber _ (by decide), hstring (by decide) h,
    hstring (by decide) (plain_ipPort_json _ _), hstring (by decide) (plain_ipPort_json _ _),
    hnumber _ (by decide), hnumber _ (by decide), hnumber _ (by decide), List.forall_mem_nil _⟩

/-- The line is read as intended exactly when the name can stand between quotes as it is. -/
theorem jsonLine_iff (ev : TcpEvent) :
    (∃ line v, jsonLine ev = line ++ "\n".toList ∧ '\n' ∉ line ∧ parse line = some v ∧
        DescribesEvent ev v) ↔
      Printable (commText ev.comm) := by
  obtain ⟨l, hl⟩ : ∃ l, (membersText (eventMembers ev)).length = l + 1 := ⟨_, rfl⟩
  constructor
  · rintro ⟨line, v, hline, _, hparse, hdescribes⟩
    rw [jsonLine_eq] at hline
    obtain rfl := List.append_cancel_right hline
    obtain ⟨r, hread, _, henc⟩ := parse_eq_some.mp hparse
    rw [hl] at hread
    exact ⟨plain_iff_json.mp (plain_of_describesEvent hread hdescribes), isUtf8_eventMembers.mp henc⟩
  · rintro ⟨hplain, henc⟩
    have hplain := plain_iff_json.mpr hplain
    have hread := readValue_membersText (readable_eventMembers hplain) l []
    rw [List.append_nil] at hread
    refine ⟨membersText (eventMembers ev), membersValue (eventMembers ev), jsonLine_eq ev,
      feed_not_mem_eventMembers hplain, parse_eq_some.mpr ⟨[], ?_, rfl, isUtf8_eventMembers.mpr henc⟩,
      ⟨rfl, rfl, rfl, rfl, rfl, rfl⟩⟩
    rw [hl]
    exact hread

/-- **Both JSON outputs read as what they are made from exactly when the process names can stand
between quotes as they are.**  For `/connections` the text is an array with one object per
connection; for an event whose name ends with a NUL it is one object on one line. -/
theorem json_outputs_iff (nowMs count : ℕ) (entries : List (ConnectionKey × ConnectionStats))
    (ev : TcpEvent) (_ : ∃ i, ev.comm i = '\x00') :
    ((∃ vs, parse (httpRoute "/connections".toList nowMs count entries) = some (.array vs) ∧
        List.Forall₂ Describes entries vs) ↔
      ∀ e ∈ entries, Printable e.2.comm) ∧
    ((∃ line v, jsonLine ev = line ++ "\n".toList ∧ '\n' ∉ line ∧ parse line = some v ∧
        DescribesEvent ev v) ↔
      Printable (commText ev.comm)) := by
  have hroute : httpRoute "/connections".toList nowMs count entries =
      connectionsWith swappedPorts entries := by
    rw [httpRoute, if_neg (by decide), if_pos rfl]
  rw [hroute]
  exact ⟨connections_iff swappedPorts entries, jsonLine_iff ev⟩

/-- A connect of `curl`: both outputs read as what they are made from. -/
theorem json_outputs_curl :
    ∃ entries, (recordAll [connectEvent (Probe.process 7) 1 Probe.webSock]).Enumerates entries ∧
      (∃ vs, parse (httpRoute "/connections".toList 5 1 entries) = some (.array vs) ∧
        List.Forall₂ Describes entries vs) ∧
      ∃ line v, jsonLine (connectEvent (Probe.process 7) 1 Probe.webSock) = line ++ "\n".toList ∧
        '\n' ∉ line ∧ parse line = some v ∧
        DescribesEvent (connectEvent (Probe.process 7) 1 Probe.webSock) v := by
  have hprint : Printable (commText (connectEvent (Probe.process 7) 1 Probe.webSock).comm) :=
    ⟨plain_iff_json.mp (List.all_eq_true.mp (by decide)), isUtf8_name (by decide)⟩
  have houtputs := fun entries =>
    json_outputs_iff 5 1 entries (connectEvent (Probe.process 7) 1 Probe.webSock) ⟨15, rfl⟩
  exact ⟨_, List.Perm.refl _, (houtputs _).1.mpr (List.forall_mem_singleton.mpr hprint),
    (houtputs []).2.mpr hprint⟩

/-- A process whose name is `a\`. -/
def backslashTask : Task :=
  { Probe.process 7 with comm := fun i => "a\\".toList.getD i '\x00' }

/-- One connect of that process, and neither output is well formed. -/
theorem json_backslash_in_comm :
    (∃ entries, (recordAll [connectEvent backslashTask 1 Probe.webSock]).Enumerates entries ∧
      parse (httpRoute "/connections".toList 5 1 entries) = none) ∧
    (∃ i, (connectEvent backslashTask 1 Probe.webSock).comm i = '\x00') ∧
    ∀ line, jsonLine (connectEvent backslashTask 1 Probe.webSock) = line ++ "\n".toList →
      parse line = none := by
  refine ⟨⟨_, List.Perm.refl _, by decide +kernel⟩, ⟨15, rfl⟩, ?_⟩
  intro line hline
  rw [jsonLine_eq] at hline
  obtain rfl := List.append_cancel_right hline
  decide +kernel

end EbpfMonitor
