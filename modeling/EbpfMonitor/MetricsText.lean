import EbpfMonitor.Lib.Exposition
import EbpfMonitor.Outputs

/-! # The text of `/metrics`

What a reader of the exposition format finds in the output of `PrometheusMetrics::from_reporter`.

* **Samples.**  `gaugeSample` and `connectionSamples` are the samples that are meant.  The
  process name is put between quotes as it is, so `metrics_parse_iff` says that the text reads
  as these samples exactly when no name contains a double quote, a backslash or a line feed.
* **Groups.**  The lines of one metric have to follow each other, with `HELP` and `TYPE` first.
  The headers of the three counters are written before the first connection, whose samples then
  follow one counter after the other: `metrics_grouped_iff` says that this is right only when
  there is no connection. -/

namespace EbpfMonitor

open Text StatsReporter PrometheusMetrics

namespace PrometheusMetrics

open Exposition

/-! ### The samples that are meant -/

def gaugeSample (nowMs count : ℕ) : Sample :=
  ⟨"ebpf_active_connections".toList, [], .number (Numeral.ofNat count), some (nowMs : ℤ)⟩

def connectionLabels (ports : Ports) (k : ConnectionKey) (st : ConnectionStats) : List (Text × Text) :=
  [("comm".toList, st.comm), ("pid".toList, decimal k.pid.toNat),
    ("src".toList, ipPort k.srcIp (ports k).1), ("dst".toList, ipPort k.dstIp (ports k).2)]

def counterSample (name : Text) (ls : List (Text × Text)) (value : BitVec 64) (nowMs : ℕ) : Sample :=
  ⟨name, ls, .number (Numeral.ofNat value.toNat), some (nowMs : ℤ)⟩

/-- The three samples of a connection. -/
def connectionSamples (ports : Ports) (nowMs : ℕ) (k : ConnectionKey) (st : ConnectionStats) :
    List Sample :=
  [counterSample "ebpf_connection_bytes_tx_total".toList (connectionLabels ports k st) st.bytesTx nowMs,
    counterSample "ebpf_connection_bytes_rx_total".toList (connectionLabels ports k st) st.bytesRx nowMs,
    counterSample "ebpf_connection_connects_total".toList (connectionLabels ports k st) st.connects nowMs]

/-! ### Lines of the text -/

theorem labels_eq (ports : Ports) (k : ConnectionKey) (st : ConnectionStats) :
    labels ports k st = "\x7b".toList ++ labelList (connectionLabels ports k st) ++ "\x7d".toList := by
  unfold labels connectionLabels
  generalize decimal k.pid.toNat = pid, ipPort k.srcIp (ports k).1 = src,
    ipPort k.dstIp (ports k).2 = dst
  simp [labelList, label]

/-- A sample is a line of the format. -/
theorem sample_append (name rest : Text) (ports : Ports) (k : ConnectionKey) (st : ConnectionStats)
    (value : BitVec 64) (nowMs : ℕ) :
    sample name (labels ports k st) value nowMs ++ rest =
      render name (connectionLabels ports k st) value.toNat nowMs ++ '\n' :: rest := by
  have hne : connectionLabels ports k st ≠ [] := List.cons_ne_nil _ _
  rw [render, if_neg hne, ← labels_eq]
  simp [sample]

theorem isPlain_of_isDigit {c : Char} (hc : c.isDigit = true) : escapes.plain c = true := by
  have hquote := ne_of_pred hc (show Char.isDigit '"' = false by decide)
  have hbackslash := ne_of_pred hc (show Char.isDigit '\\' = false by decide)
  have hfeed := ne_of_pred hc (show Char.isDigit '\n' = false by decide)
  simp [escapes, hquote, hbackslash, hfeed]

theorem plain_decimal (n : ℕ) : escapes.Plain (decimal n) :=
  fun _ hc => isPlain_of_isDigit (isDigit_of_mem_decimal hc)

theorem plain_ipPort (ip : BitVec 32) (port : ℕ) : escapes.Plain (ipPort ip port) :=
  forall_mem_ipPort (fun _ => isPlain_of_isDigit) rfl rfl ip port

theorem writable_connectionLabels {ports : Ports} {k : ConnectionKey} {st : ConnectionStats}
    (h : escapes.Plain st.comm) : ∀ l ∈ connectionLabels ports k st, Writable l := by
  simp only [connectionLabels, List.forall_mem_cons]
  exact ⟨⟨rfl, h⟩, ⟨rfl, plain_decimal _⟩, ⟨rfl, plain_ipPort _ _⟩, ⟨rfl, plain_ipPort _ _⟩, nofun⟩

theorem emitHelp_append (name help rest : Text) :
    emitHelp name help ++ rest =
      '#' :: (" HELP ".toList ++ name ++ " ".toList ++ help) ++ '\n' :: rest := by
  unfold emitHelp
  simp

theorem emitType_append (name type rest : Text) :
    emitType name type ++ rest =
      '#' :: (" TYPE ".toList ++ name ++ " ".toList ++ type) ++ '\n' :: rest := by
  unfold emitType
  simp

theorem gauge_append (nowMs count : ℕ) (rest : Text) :
    render "ebpf_active_connections".toList [] count nowMs ++ '\n' :: '\n' :: rest =
      "ebpf_active_connections ".toList ++ decimal count ++ " ".toList ++ decimal nowMs ++
        "\n\n".toList ++ rest := by
  unfold render
  simp

/-- What comes before the samples: three lines of the gauge, an empty line and six lines of the
counters. -/
theorem preamble_append (nowMs count : ℕ) (rest : Text) :
    preamble nowMs count ++ rest =
      emitHelp "ebpf_active_connections".toList "Number of tracked TCP connections".toList ++
      (emitType "ebpf_active_connections".toList "gauge".toList ++
      (render "ebpf_active_connections".toList [] count nowMs ++ '\n' :: '\n' ::
      (emitHelp "ebpf_connection_bytes_tx_total".toList "Bytes transmitted per connection".toList ++
      (emitType "ebpf_connection_bytes_tx_total".toList "counter".toList ++
      (emitHelp "ebpf_connection_bytes_rx_total".toList "Bytes received per connection".toList ++
      (emitType "ebpf_connection_bytes_rx_total".toList "counter".toList ++
      (emitHelp "ebpf_connection_connects_total".toList "TCP connect events per connection".toList ++
      (emitType "ebpf_connection_connects_total".toList "counter".toList ++ rest)))))))) := by
  rw [gauge_append]
  unfold preamble
  simp only [List.append_assoc]

/-! ### Reading the samples -/

theorem parse_emitHelp {name help : Text} (hname : '\n' ∉ name) (hhelp : '\n' ∉ help) (rest : Text) :
    parse (emitHelp name help ++ rest) = parse rest := by
  rw [emitHelp_append, parse_comment]
  simp [hname, hhelp]

theorem parse_emitType {name type : Text} (hname : '\n' ∉ name) (htype : '\n' ∉ type) (rest : Text) :
    parse (emitType name type ++ rest) = parse rest := by
  rw [emitType_append, parse_comment]
  simp [hname, htype]

/-- The help and type lines of a metric hold no sample. -/
theorem parse_metadata {name help type : Text} (hname : '\n' ∉ name) (hhelp : '\n' ∉ help)
    (htype : '\n' ∉ type) (rest : Text) :
    parse (emitHelp name help ++ (emitType name type ++ rest)) = parse rest := by
  rw [parse_emitHelp hname hhelp, parse_emitType hname htype]

theorem parse_preamble (nowMs count : ℕ) (rest : Text) :
    parse (preamble nowMs count ++ rest) = (parse rest).map (gaugeSample nowMs count :: ·) := by
  rw [preamble_append, parse_metadata (by decide) (by decide) (by decide),
    parse_render _ _ (by decide) (by simp), parse_feed,
    parse_metadata (by decide) (by decide) (by decide),
    parse_metadata (by decide) (by decide) (by decide),
    parse_metadata (by decide) (by decide) (by decide)]
  rfl

/-- A sample whose process name is plain is read as it is meant. -/
theorem parse_sample {name : Text} (hname : isName isNameStart isNameChar name = true) {ports : Ports}
    {k : ConnectionKey} {st : ConnectionStats} (h : escapes.Plain st.comm) (value : BitVec 64) (nowMs : ℕ)
    (rest : Text) :
    parse (sample name (labels ports k st) value nowMs ++ rest) =
      (parse rest).map (counterSample name (connectionLabels ports k st) value nowMs :: ·) := by
  rw [sample_append, parse_render _ _ hname (writable_connectionLabels h)]
  rfl

/-- A sample begins with its name and the first label. -/
theorem sample_eq_comm (name rest : Text) (ports : Ports) (k : ConnectionKey) (st : ConnectionStats)
    (value : BitVec 64) (nowMs : ℕ) :
    ∃ after, sample name (labels ports k st) value nowMs ++ rest =
      name ++ '\x7b' :: ("comm".toList ++ '=' :: '"' :: (st.comm ++ '"' ::
        (",pid=".toList ++ '"' :: after))) := by
  refine ⟨decimal k.pid.toNat ++ ("\",src=\"".toList ++ (ipPort k.srcIp (ports k).1 ++
    ("\",dst=\"".toList ++ (ipPort k.dstIp (ports k).2 ++ ("\"\x7d".toList ++
    (" ".toList ++ (decimal value.toNat ++ (" ".toList ++ (decimal nowMs ++ ("\n".toList ++ rest)))))))))), ?_⟩
  unfold sample labels
  generalize decimal k.pid.toNat = pid, ipPort k.srcIp (ports k).1 = src,
    ipPort k.dstIp (ports k).2 = dst
  simp

/-- Whatever follows, a sample that is read as it is meant has a plain process name. -/
theorem plain_of_parse_sample {name : Text} (hname : isName isNameStart isNameChar name = true)
    {ports : Ports} {k : ConnectionKey} {st : ConnectionStats} {value : BitVec 64} {nowMs : ℕ}
    {rest : Text} {more : List Sample}
    (h : parse (sample name (labels ports k st) value nowMs ++ rest) =
      some (counterSample name (connectionLabels ports k st) value nowMs :: more)) :
    escapes.Plain st.comm := by
  obtain ⟨after, htext⟩ := sample_eq_comm name rest ports k st value nowMs
  rw [htext] at h
  obtain ⟨v, r, hread, hlabel⟩ := exists_read_of_parse hname (by decide) h
  obtain rfl : st.comm = v := (Prod.mk.inj (Option.some.inj hlabel)).2
  by_cases hfeed : '\n' ∈ st.comm
  · -- the line ends inside the name, too early to give the whole of it
    obtain ⟨a, b, hcomm, ha⟩ := List.eq_append_cons_of_mem hfeed
    have hshort : (st.comm ++ '"' :: (",pid=".toList ++ '"' :: after)).takeWhile (· ≠ '\n') = a := by
      have ha : ∀ c ∈ a, decide (c ≠ '\n') = true := fun c hc => decide_eq_true (fun heq => ha (heq ▸ hc))
      rw [hcomm, List.append_assoc, List.takeWhile_append_of_pos ha]
      simp
    rw [hshort] at hread
    have hlen := Quoted.Escapes.length_read_le hread
    rw [hcomm] at hlen
    simp only [Quoted.Escapes.budget, List.length_append, List.length_cons] at hlen
    omega
  · have hcomm : ∀ c ∈ st.comm, decide (c ≠ '\n') = true :=
      fun c hc => decide_eq_true (fun heq => hfeed (heq ▸ hc))
    have hline : (st.comm ++ '"' :: (",pid=".toList ++ '"' :: after)).takeWhile (· ≠ '\n') =
        st.comm ++ '"' :: (",pid=".toList ++ '"' :: after.takeWhile (· ≠ '\n')) := by
      rw [List.takeWhile_append_of_pos hcomm]
      simp
    rw [hline] at hread
    -- if the closing quote were escaped, the string would end with the equals sign of the next label
    have hpid : escapes.Plain ",pid=".toList := List.all_eq_true.mp rfl
    refine (Quoted.Escapes.plain_of_read (fun w r' hw => ?_) hread).1
    rw [Quoted.Escapes.read_plain hpid] at hw
    obtain ⟨rfl, _⟩ := Prod.mk.inj (Option.some.inj hw)
    decide

/-- The samples of a connection with a plain process name are read as they are meant. -/
theorem parse_samples {ports : Ports} {k : ConnectionKey} {st : ConnectionStats}
    (h : escapes.Plain st.comm) (nowMs : ℕ) (rest : Text) :
    parse (samples ports nowMs k st ++ rest) =
      (parse rest).map (connectionSamples ports nowMs k st ++ ·) := by
  unfold samples
  rw [List.append_assoc, List.append_assoc, parse_sample (by decide) h, parse_sample (by decide) h,
    parse_sample (by decide) h]
  cases parse rest <;> rfl

theorem parse_connections_iff (ports : Ports) (nowMs : ℕ)
    (entries : List (ConnectionKey × ConnectionStats)) :
    parse (entries.flatMap (fun e => samples ports nowMs e.1 e.2)) =
        some (entries.flatMap (fun e => connectionSamples ports nowMs e.1 e.2)) ↔
      ∀ e ∈ entries, escapes.Plain e.2.comm := by
  induction entries with
  | nil => exact ⟨fun _ => nofun, fun _ => rfl⟩
  | cons e entries ih =>
      rw [List.flatMap_cons, List.flatMap_cons, List.forall_mem_cons, ← ih]
      constructor
      · intro h
        have hplain : escapes.Plain e.2.comm := by
          unfold samples at h
          rw [List.append_assoc, List.append_assoc] at h
          exact plain_of_parse_sample (by decide) h
        rw [parse_samples hplain] at h
        obtain ⟨rest, hrest, heq⟩ := Option.map_eq_some_iff.mp h
        exact ⟨hplain, hrest.trans (congrArg some (List.append_cancel_left heq))⟩
      · rintro ⟨hplain, hrest⟩
        rw [parse_samples hplain, hrest]
        rfl

theorem plain_iff {x : Text} : escapes.Plain x ↔ ∀ c ∈ x, c ≠ '"' ∧ c ≠ '\\' ∧ c ≠ '\n' := by
  simp [Quoted.Escapes.Plain, escapes, and_assoc]

end PrometheusMetrics

/-- **The text of `/metrics` reads as the gauge and three samples per connection, with the labels
and values of the connection, exactly when no process name contains a double quote, a backslash
or a line feed.** -/
theorem metrics_parse_iff (nowMs count : ℕ) (entries : List (ConnectionKey × ConnectionStats)) :
    Exposition.parse (fromReporter nowMs count entries) =
        some (gaugeSample nowMs count ::
          entries.flatMap (fun e => connectionSamples swappedPorts nowMs e.1 e.2)) ↔
      ∀ e ∈ entries, ∀ c ∈ e.2.comm, c ≠ '"' ∧ c ≠ '\\' ∧ c ≠ '\n' := by
  have hentries := parse_connections_iff swappedPorts nowMs entries
  simp only [plain_iff] at hentries
  unfold fromReporter fromReporterWith
  rw [parse_preamble, ← hentries]
  constructor
  · intro h
    obtain ⟨rest, hrest, heq⟩ := Option.map_eq_some_iff.mp h
    rw [hrest, (List.cons.inj heq).2]
  · intro h
    rw [h]
    rfl

/-- A process whose name is `a"`. -/
def quotedTask : Task :=
  { Probe.process 7 with comm := fun i => "a\"".toList.getD i '\x00' }

/-- One connect of that process, and the text of `/metrics` is not well formed. -/
theorem metrics_quote_in_comm :
    ∃ entries, (recordAll [connectEvent quotedTask 1 Probe.webSock]).Enumerates entries ∧
      Exposition.parse (fromReporter 5 1 entries) = none := by
  refine ⟨_, List.Perm.refl _, ?_⟩
  rw [fromReporter, fromReporterWith, parse_preamble, Option.map_eq_none_iff]
  decide +kernel

namespace PrometheusMetrics

open Exposition

/-- The value that is printed for the gauge, whatever the process names are. -/
theorem valueOf_gauge (ports : Ports) (nowMs count : ℕ) (entries : List (ConnectionKey × ConnectionStats)) :
    valueOf "ebpf_active_connections".toList (fromReporterWith ports nowMs count entries) =
      some (.number (Numeral.ofNat count)) := by
  unfold fromReporterWith valueOf
  rw [preamble_append, emitHelp_append, samplesIn_comment (by decide), emitType_append,
    samplesIn_comment (by decide), samplesIn_render _ _ (by decide) (by simp),
    List.find?_cons_of_pos]
  · rfl
  · exact decide_eq_true rfl

end PrometheusMetrics

/-! ### Groups -/

namespace PrometheusMetrics

open Exposition

/-- The lines before the samples. -/
def preambleFamilies : List (Option (LineKind × Text)) :=
  [some (.help, "ebpf_active_connections".toList), some (.type, "ebpf_active_connections".toList),
    some (.sample, "ebpf_active_connections".toList),
    some (.help, "ebpf_connection_bytes_tx_total".toList),
    some (.type, "ebpf_connection_bytes_tx_total".toList),
    some (.help, "ebpf_connection_bytes_rx_total".toList),
    some (.type, "ebpf_connection_bytes_rx_total".toList),
    some (.help, "ebpf_connection_connects_total".toList),
    some (.type, "ebpf_connection_connects_total".toList)]

theorem families_gauge (nowMs count : ℕ) :
    families (render "ebpf_active_connections".toList [] count nowMs) =
      [some (.sample, "ebpf_active_connections".toList)] := by
  have htext : render "ebpf_active_connections".toList [] count nowMs =
      "ebpf_active_connections".toList ++ ' ' :: (decimal count ++ ' ' :: decimal nowMs) := by
    unfold render
    simp
  have hfeed : '\n' ∉ decimal count ++ ' ' :: decimal nowMs := by
    have hdecimal : ∀ n, '\n' ∉ decimal n := fun n =>
      not_mem_of_forall (fun c hc => isDigit_of_mem_decimal hc) (by decide)
    simp [hdecimal]
  obtain ⟨more, hfam, hmore⟩ := families_of_name (decimal count ++ ' ' :: decimal nowMs)
    (show isName isNameStart isNameChar "ebpf_active_connections".toList = true by decide)
    (show isNameChar ' ' = false by decide) (by decide)
  rw [htext, hfam, hmore hfeed]

theorem families_emitHelp {name help : Text} (hname : isName isNameStart isNameChar name = true)
    (hhelp : '\n' ∉ help) (rest : Text) :
    families (emitHelp name help ++ rest) = some (.help, name) :: families rest := by
  have hcomment := families_comment "HELP".toList (by decide) hname hhelp
  rw [emitHelp_append, families_append, show '#' :: (" HELP ".toList ++ name ++ " ".toList ++ help) =
    '#' :: ' ' :: ("HELP".toList ++ ' ' :: (name ++ ' ' :: help)) by simp, hcomment, if_pos rfl]
  rfl

theorem families_emitType {name type : Text} (hname : isName isNameStart isNameChar name = true)
    (htype : '\n' ∉ type) (rest : Text) :
    families (emitType name type ++ rest) = some (.type, name) :: families rest := by
  have hcomment := families_comment "TYPE".toList (by decide) hname htype
  rw [emitType_append, families_append, show '#' :: (" TYPE ".toList ++ name ++ " ".toList ++ type) =
    '#' :: ' ' :: ("TYPE".toList ++ ' ' :: (name ++ ' ' :: type)) by simp, hcomment, if_neg (by decide),
    if_pos rfl]
  rfl

theorem families_metadata {name help type : Text} (hname : isName isNameStart isNameChar name = true)
    (hhelp : '\n' ∉ help) (htype : '\n' ∉ type) (rest : Text) :
    families (emitHelp name help ++ (emitType name type ++ rest)) =
      some (.help, name) :: some (.type, name) :: families rest := by
  rw [families_emitHelp hname hhelp, families_emitType hname htype]

theorem families_preamble (nowMs count : ℕ) (rest : Text) :
    families (preamble nowMs count ++ rest) = preambleFamilies ++ families rest := by
  have hfeed : ∀ t, families ('\n' :: t) = families t := families_append []
  rw [preamble_append, families_metadata (by decide) (by decide) (by decide),
    families_append, families_gauge, hfeed,
    families_metadata (by decide) (by decide) (by decide),
    families_metadata (by decide) (by decide) (by decide),
    families_metadata (by decide) (by decide) (by decide)]
  rfl

/-- With a connection, a line of the first counter follows those of the others. -/
theorem not_isGroup_of_sample (more : List (Option (LineKind × Text))) :
    ¬ IsGroup (preambleFamilies ++ some (.sample, "ebpf_connection_bytes_tx_total".toList) :: more)
      "ebpf_connection_bytes_tx_total".toList := by
  intro h
  have hall := h.all_after
  have hdrop : ∀ fams, ((preambleFamilies ++ fams).dropWhile
      (fun x => !isOf "ebpf_connection_bytes_tx_total".toList x)).dropWhile
      (isOf "ebpf_connection_bytes_tx_total".toList) = preambleFamilies.drop 5 ++ fams := fun _ => rfl
  rw [hdrop] at hall
  have hsample := List.all_eq_true.mp hall (some (.sample, "ebpf_connection_bytes_tx_total".toList))
    (List.mem_append_right _ (List.mem_cons_self ..))
  revert hsample
  decide

/-- Each metric has its headers together, and the gauge its sample after them. -/
theorem isGroup_preamble {name : Text} (h : preambleFamilies.any (isOf name) = true) :
    IsGroup preambleFamilies name := by
  have hnames : name ∈ ["ebpf_active_connections".toList, "ebpf_connection_bytes_tx_total".toList,
      "ebpf_connection_bytes_rx_total".toList, "ebpf_connection_connects_total".toList] := by
    obtain ⟨x, hx, hof⟩ := List.any_eq_true.mp h
    simp only [preambleFamilies, List.mem_cons, List.not_mem_nil, or_false] at hx
    obtain rfl | rfl | rfl | rfl | rfl | rfl | rfl | rfl | rfl := hx <;>
      exact of_decide_eq_true hof ▸ by decide
  simp only [List.mem_cons, List.not_mem_nil, or_false] at hnames
  obtain rfl | rfl | rfl | rfl := hnames
  · exact ⟨[], preambleFamilies.take 2, (preambleFamilies.drop 2).take 1, preambleFamilies.drop 3, rfl,
      .refl _, by decide, by decide⟩
  · exact ⟨preambleFamilies.take 3, (preambleFamilies.drop 3).take 2, [], preambleFamilies.drop 5, rfl,
      .refl _, nofun, by decide⟩
  · exact ⟨preambleFamilies.take 5, (preambleFamilies.drop 5).take 2, [], preambleFamilies.drop 7, rfl,
      .refl _, nofun, by decide⟩
  · exact ⟨preambleFamilies.take 7, preambleFamilies.drop 7, [], [], rfl, .refl _, nofun, by decide⟩

/-- The samples start with one of the first counter. -/
theorem families_samples (ports : Ports) (nowMs : ℕ) (k : ConnectionKey) (st : ConnectionStats)
    (rest : Text) : ∃ more, families (samples ports nowMs k st ++ rest) =
      some (.sample, "ebpf_connection_bytes_tx_total".toList) :: more := by
  unfold samples
  obtain ⟨after, htext⟩ := sample_eq_comm "ebpf_connection_bytes_tx_total".toList
    (sample "ebpf_connection_bytes_rx_total".toList (labels ports k st) st.bytesRx nowMs ++
      (sample "ebpf_connection_connects_total".toList (labels ports k st) st.connects nowMs ++ rest))
    ports k st st.bytesTx nowMs
  rw [List.append_assoc, List.append_assoc, htext]
  obtain ⟨more, hfam, _⟩ := families_of_name
    ("comm".toList ++ '=' :: '"' :: (st.comm ++ '"' :: (",pid=".toList ++ '"' :: after)))
    (show isName isNameStart isNameChar "ebpf_connection_bytes_tx_total".toList = true by decide)
    (show isNameChar '\x7b' = false by decide) (by decide)
  exact ⟨more, hfam⟩

theorem not_grouped_of_connection (ports : Ports) (nowMs count : ℕ) (k : ConnectionKey)
    (st : ConnectionStats) (es : List (ConnectionKey × ConnectionStats)) :
    ¬ Grouped (fromReporterWith ports nowMs count ((k, st) :: es)) := by
  intro h
  obtain ⟨more, hsamples⟩ := families_samples ports nowMs k st
    (es.flatMap (fun e => samples ports nowMs e.1 e.2))
  have hfam : families (fromReporterWith ports nowMs count ((k, st) :: es)) =
      preambleFamilies ++ some (.sample, "ebpf_connection_bytes_tx_total".toList) :: more := by
    unfold fromReporterWith
    rw [List.flatMap_cons, families_preamble, hsamples]
  refine not_isGroup_of_sample more (hfam ▸ h _ ?_)
  rw [hfam, List.any_append]
  exact Bool.or_eq_true_iff.mpr (Or.inl (by decide))

end PrometheusMetrics

/-- **The lines of each metric form one group exactly when no connection is tracked**: the first
sample of a counter already stands behind the headers of the other two. -/
theorem metrics_grouped_iff (nowMs count : ℕ) (entries : List (ConnectionKey × ConnectionStats)) :
    Exposition.Grouped (fromReporter nowMs count entries) ↔ entries = [] := by
  constructor
  · intro h
    cases entries with
    | nil => rfl
    | cons e es => exact absurd h (not_grouped_of_connection swappedPorts nowMs count e.1 e.2 es)
  · rintro rfl name hname
    have hfam : Exposition.families (fromReporter nowMs count []) = preambleFamilies :=
      families_preamble nowMs count []
    rw [hfam] at hname ⊢
    exact isGroup_preamble hname

/-- One connect, and the first counter has its sample behind the headers of the other two. -/
theorem metrics_not_grouped :
    ∃ entries, (recordAll [connectEvent (Probe.process 7) 1 Probe.webSock]).Enumerates entries ∧
      ¬ Exposition.Grouped (fromReporter 5 1 entries) :=
  ⟨_, List.Perm.refl _, not_grouped_of_connection swappedPorts 5 1 _ _ []⟩

end EbpfMonitor
