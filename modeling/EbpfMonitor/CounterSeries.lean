import EbpfMonitor.Aggregation
import EbpfMonitor.Outputs

/-! # The counters of `/metrics` from one scrape to the next

A counter of the exposition format is a series, named by the metric and its label text, whose
value never goes down.  `series` lists the series of the per-connection counters with their
values; `fromReporter_eq_series` says that the text of `from_reporter` is made of them.

* **Names.**  The label text holds the process name besides the key of the connection.  The name
  of a series determines the counter, the key and the process name (`seriesName_inj`).
  So no two series of one output have the same name (`nodup_names`), whatever the process names are.
* **Values.**  The counters are sums over the events of the connection, so they only grow.

The key of a connection never changes, but `record` overwrites the process name.
`counters_continue_iff` says that all series go on exactly when every connection still has the
process name it had. -/

namespace EbpfMonitor

open Text StatsReporter PrometheusMetrics

/-! ### The series of the output -/

/-- The three metrics that are exported for each connection. -/
inductive Counter where
  | bytesTx
  | bytesRx
  | connects
deriving DecidableEq

namespace Counter

def all : List Counter := [bytesTx, bytesRx, connects]

def name : Counter → Text
  | bytesTx => "ebpf_connection_bytes_tx_total".toList
  | bytesRx => "ebpf_connection_bytes_rx_total".toList
  | connects => "ebpf_connection_connects_total".toList

def value (st : ConnectionStats) : Counter → BitVec 64
  | bytesTx => st.bytesTx
  | bytesRx => st.bytesRx
  | connects => st.connects

theorem mem_all (c : Counter) : c ∈ all := by cases c <;> decide

theorem name_inj {c c' : Counter} (h : c.name = c'.name) : c = c' := by
  revert h
  cases c <;> cases c' <;> decide

/-- What an event adds to the counter. -/
def added (ev : TcpEvent) : Counter → ℕ
  | bytesTx => ev.bytesAdded TcpEvent.bytesTx
  | bytesRx => ev.bytesAdded TcpEvent.bytesRx
  | connects => ev.connectsAdded

end Counter

/-- The metric together with the label text. -/
def seriesName (c : Counter) (k : ConnectionKey) (st : ConnectionStats) : Text :=
  c.name ++ labels swappedPorts k st

/-- The series in the output about these entries, each with its value. -/
def series (entries : List (ConnectionKey × ConnectionStats)) : List (Text × BitVec 64) :=
  entries.flatMap (fun e => Counter.all.map (fun c => (seriesName c e.1 e.2, c.value e.2)))

/-- The line of a series. -/
def seriesLine (nowMs : ℕ) (s : Text × BitVec 64) : Text :=
  s.1 ++ " ".toList ++ decimal s.2.toNat ++ " ".toList ++ decimal nowMs ++ "\n".toList

theorem samples_eq_series (nowMs : ℕ) (k : ConnectionKey) (st : ConnectionStats) :
    samples swappedPorts nowMs k st =
      (Counter.all.map (fun c => (seriesName c k st, c.value st))).flatMap (seriesLine nowMs) := by
  have hline : ∀ c : Counter, sample c.name (labels swappedPorts k st) (c.value st) nowMs =
      seriesLine nowMs (seriesName c k st, c.value st) := fun _ => rfl
  have hsamples : samples swappedPorts nowMs k st =
      sample (Counter.name .bytesTx) (labels swappedPorts k st) (Counter.value st .bytesTx) nowMs ++
        sample (Counter.name .bytesRx) (labels swappedPorts k st) (Counter.value st .bytesRx) nowMs ++
        sample (Counter.name .connects) (labels swappedPorts k st) (Counter.value st .connects) nowMs := rfl
  rw [hsamples, hline, hline, hline, List.append_assoc, Counter.all]
  simp only [List.map_cons, List.map_nil, List.flatMap_cons, List.flatMap_nil, List.append_nil]

/-- After the headers and the gauge the text has one line for each series. -/
theorem fromReporter_eq_series (nowMs count : ℕ) (entries : List (ConnectionKey × ConnectionStats)) :
    fromReporter nowMs count entries = preamble nowMs count ++ (series entries).flatMap (seriesLine nowMs) := by
  unfold fromReporter fromReporterWith series
  rw [List.flatMap_assoc]
  simp only [samples_eq_series]

theorem mem_series_iff {entries : List (ConnectionKey × ConnectionStats)} {s : Text} {v : BitVec 64} :
    (s, v) ∈ series entries ↔
      ∃ k st, (k, st) ∈ entries ∧ ∃ c : Counter, s = seriesName c k st ∧ v = c.value st := by
  simp only [series, List.mem_flatMap, List.mem_map, Prod.mk.injEq, Prod.exists]
  constructor
  · rintro ⟨k, st, hmem, c, _, hs, hv⟩
    exact ⟨k, st, hmem, c, hs.symm, hv.symm⟩
  · rintro ⟨k, st, hmem, c, hs, hv⟩
    exact ⟨k, st, hmem, c, c.mem_all, hs.symm, hv.symm⟩

/-! ### The name of a series -/

/-- The four numbers of an address determine it. -/
theorem eq_of_octets {ip ip' : BitVec 32}
    (h : ∀ i ∈ [0, 8, 16, 24], (ip.extractLsb' i 8).toNat = (ip'.extractLsb' i 8).toNat) : ip = ip' := by
  simp only [List.forall_mem_cons, BitVec.extractLsb'_toNat, Nat.shiftRight_eq_div_pow] at h
  obtain ⟨h0, h8, h16, h24, _⟩ := h
  have hlt := ip.isLt
  have hlt' := ip'.isLt
  apply BitVec.eq_of_toNat_eq
  omega

theorem ipPort_inj {ip ip' : BitVec 32} {m n : ℕ} (h : ipPort ip m = ipPort ip' n) : ip = ip' ∧ m = n := by
  have hend : EndsNumber [] := nofun
  unfold ipPort inetNtop at h
  simp only [List.append_assoc] at h
  obtain ⟨h0, h⟩ := decimal_append_inj (endsNumber_append _ rfl) (endsNumber_append _ rfl) h
  obtain ⟨h8, h⟩ := decimal_append_inj (endsNumber_append _ rfl) (endsNumber_append _ rfl)
    (List.append_cancel_left h)
  obtain ⟨h16, h⟩ := decimal_append_inj (endsNumber_append _ rfl) (endsNumber_append _ rfl)
    (List.append_cancel_left h)
  obtain ⟨h24, h⟩ := decimal_append_inj (endsNumber_append _ rfl) (endsNumber_append _ rfl)
    (List.append_cancel_left h)
  refine ⟨eq_of_octets ?_, decimal_inj (List.append_cancel_left h)⟩
  simp only [List.forall_mem_cons]
  exact ⟨h0, h8, h16, h24, nofun⟩

theorem quote_not_mem_decimal (n : ℕ) : '"' ∉ decimal n := by
  intro h
  exact absurd (isDigit_of_mem_decimal h) (by decide)

theorem quote_not_mem_ipPort (ip : BitVec 32) (port : ℕ) : '"' ∉ ipPort ip port := by
  intro h
  have hne : ∀ c ∈ ipPort ip port, c ≠ '"' := by
    refine forall_mem_ipPort (fun c hc => ?_) (by decide) (by decide) ip port
    rintro rfl
    exact absurd hc (by decide)
  exact hne '"' h rfl

/-- A value without quotes at the end of a text, behind a tag and a quote, can be cut off. -/
theorem value_append_inj (tag : Text) {x x' y y' : Text} (hy : '"' ∉ y) (hy' : '"' ∉ y')
    (h : x ++ (tag ++ ['"']) ++ y = x' ++ (tag ++ ['"']) ++ y') : x = x' ∧ y = y' := by
  have hcut : x ++ tag ++ '"' :: y = x' ++ tag ++ '"' :: y' := by simpa using h
  obtain ⟨hx, hy⟩ := append_inj_of_last hy hy' hcut
  exact ⟨List.append_cancel_right hx, hy⟩

/-- The label text can be read from its end: only the process name can contain a quote. -/
theorem labels_inj {k k' : ConnectionKey} {st st' : ConnectionStats}
    (h : labels swappedPorts k st = labels swappedPorts k' st') : k = k' ∧ st.comm = st'.comm := by
  unfold labels at h
  replace h := List.append_cancel_right h
  obtain ⟨h, hdst⟩ := value_append_inj "\",dst=".toList (quote_not_mem_ipPort _ _)
    (quote_not_mem_ipPort _ _) h
  obtain ⟨h, hsrc⟩ := value_append_inj "\",src=".toList (quote_not_mem_ipPort _ _)
    (quote_not_mem_ipPort _ _) h
  obtain ⟨h, hpid⟩ := value_append_inj "\",pid=".toList (quote_not_mem_decimal _)
    (quote_not_mem_decimal _) h
  obtain ⟨hsrcIp, hsrcPort⟩ := ipPort_inj hsrc
  obtain ⟨hdstIp, hdstPort⟩ := ipPort_inj hdst
  have hpid := BitVec.eq_of_toNat_eq (decimal_inj hpid)
  have hsrcPort := bswap16_inj.mp (BitVec.eq_of_toNat_eq hsrcPort)
  have hdstPort := bswap16_inj.mp (BitVec.eq_of_toNat_eq hdstPort)
  refine ⟨?_, List.append_cancel_left h⟩
  cases k
  cases k'
  simp only [ConnectionKey.mk.injEq]
  exact ⟨hsrcIp, hdstIp, hsrcPort, hdstPort, hpid⟩

/-- The metric ends where the labels begin. -/
theorem seriesName_inj {c c' : Counter} {k k' : ConnectionKey} {st st' : ConnectionStats}
    (h : seriesName c k st = seriesName c' k' st') : c = c' ∧ k = k' ∧ st.comm = st'.comm := by
  have hname : ∀ c : Counter, ∀ d ∈ c.name, decide (d ≠ '\x7b') = true := by
    intro c
    cases c <;> exact List.all_eq_true.mp rfl
  have hlabels : ∀ (k : ConnectionKey) (st : ConnectionStats) d,
      (labels swappedPorts k st).head? = some d → decide (d ≠ '\x7b') = false := by
    intro k st d hd
    obtain rfl : '\x7b' = d := Option.some.inj hd
    rfl
  obtain ⟨hc, hrest⟩ := append_inj_of_boundary (hname c) (hname c') (hlabels k st) (hlabels k' st') h
  exact ⟨Counter.name_inj hc, labels_inj hrest⟩

/-- Of the entry only the process name is in the name of a series. -/
theorem seriesName_congr (c : Counter) (k : ConnectionKey) {st st' : ConnectionStats}
    (h : st.comm = st'.comm) : seriesName c k st = seriesName c k st' := by
  unfold seriesName labels
  rw [h]

/-! ### One scrape -/

/-- The names of the series of different connections are different. -/
theorem nodup_names {entries : List (ConnectionKey × ConnectionStats)} (h : (entries.map Prod.fst).Nodup) :
    ((series entries).map Prod.fst).Nodup := by
  have hnames : (series entries).map Prod.fst =
      entries.flatMap (fun e => Counter.all.map (fun c => seriesName c e.1 e.2)) := by
    rw [series, List.map_flatMap]
    simp only [List.map_map, Function.comp_def]
  rw [hnames, List.nodup_flatMap]
  constructor
  · intro e _
    exact List.Nodup.map (fun c c' hc => (seriesName_inj hc).1) (by decide)
  · refine (List.pairwise_map.mp h).imp (fun {e e'} hne => List.disjoint_left.mpr ?_)
    intro s hs hs'
    obtain ⟨c, _, rfl⟩ := List.mem_map.mp hs
    obtain ⟨c', _, heq⟩ := List.mem_map.mp hs'
    exact hne (seriesName_inj heq).2.1.symm

/-- **No two samples of a scrape collide.**  After any calls of `record` and `clear`, whatever the
process names are, two connections have different label texts, and the samples of the output have
pairwise different names. -/
theorem scrape_names_distinct (cs : List Call) (entries : List (ConnectionKey × ConnectionStats))
    (h : (empty.calls cs).Enumerates entries) (nowMs count : ℕ) :
    (∀ k st k' st', (k, st) ∈ entries → (k', st') ∈ entries → k ≠ k' →
      labels swappedPorts k st ≠ labels swappedPorts k' st') ∧
    ((series entries).map Prod.fst).Nodup ∧
    fromReporter nowMs count entries =
      preamble nowMs count ++ (series entries).flatMap (seriesLine nowMs) := by
  refine ⟨fun k st k' st' _ _ hne heq => hne (labels_inj heq).1, nodup_names (nodup_keys h), ?_⟩
  exact fromReporter_eq_series nowMs count entries

/-- A process whose name imitates the labels that follow it. -/
def imitatingConnect : TcpEvent :=
  { connectEvent (Probe.process 8) 2 Probe.webSock with
    comm := fun i => "curl\",pid=\"7".toList.getD i '\x00' }

theorem scrape_names_distinct_imitating :
    ∃ entries, (empty.calls [.record Scrape.webConnect, .record imitatingConnect]).Enumerates entries ∧
      entries.length = 2 ∧ ((series entries).map Prod.fst).Nodup :=
  ⟨_, List.Perm.refl _, rfl, (scrape_names_distinct _ _ (List.Perm.refl _) 0 0).2.1⟩

/-! ### Two scrapes -/

/-- The process name of the last event of the connection. -/
def latestComm (k : ConnectionKey) (evs : List TcpEvent) : Option Text :=
  (eventsOf k evs).getLast?.map (fun ev => commText ev.comm)

/-- What the events of the connection add to the counter. -/
def sumOf (c : Counter) (k : ConnectionKey) (evs : List TcpEvent) : ℕ :=
  ((eventsOf k evs).map (Counter.added · c)).sum

/-- Every series of the first output is in the second one, with a value at least as large. -/
def Continue (first second : List (Text × BitVec 64)) : Prop :=
  ∀ s v, (s, v) ∈ first → ∃ v', (s, v') ∈ second ∧ v ≤ v'

theorem sumOf_le_append (c : Counter) (k : ConnectionKey) (evs evs' : List TcpEvent) :
    sumOf c k evs ≤ sumOf c k (evs ++ evs') := by
  unfold sumOf eventsOf
  rw [GroupFold.ofKey_append, List.map_append, List.sum_append]
  exact Nat.le_add_right _ _

theorem eventsOf_append_ne_nil {k : ConnectionKey} {evs : List TcpEvent} (h : eventsOf k evs ≠ [])
    (evs' : List TcpEvent) : eventsOf k (evs ++ evs') ≠ [] := by
  unfold eventsOf at h ⊢
  rw [GroupFold.ofKey_append]
  exact List.append_ne_nil_of_left_ne_nil h _

theorem toNat_value_foldl (c : Counter) (evs : List TcpEvent) :
    (c.value (evs.foldl ConnectionStats.add {})).toNat = (evs.map (Counter.added · c)).sum % 2 ^ 64 := by
  cases c with
  | bytesTx => exact ConnectionStats.toNat_bytesTx_foldl evs
  | bytesRx => exact ConnectionStats.toNat_bytesRx_foldl evs
  | connects => exact ConnectionStats.toNat_connects_foldl evs

theorem latestComm_eq {k : ConnectionKey} {evs : List TcpEvent} (h : eventsOf k evs ≠ []) :
    latestComm k evs = some ((eventsOf k evs).foldl ConnectionStats.add {}).comm := by
  have hcomm : ∀ st ev, (ConnectionStats.add st ev).comm = commText ev.comm := by
    intro st ev
    unfold ConnectionStats.add
    split_ifs <;> rfl
  have hlast := List.getLast?_eq_some_getLast h
  rw [GroupFold.foldl_last hcomm hlast, latestComm, hlast, Option.map_some]

/-- **Every series goes on with a value that has not gone down exactly when every connection of
the first output still has the process name it had**, as long as the byte counts fit into 64 bits
(the number of connects must not have wrapped either). -/
theorem counters_continue_iff (before : List Call) (between : List TcpEvent)
    (hbytes : ∀ k, sumOf .bytesTx k (sinceClear before ++ between) < 2 ^ 64 ∧
      sumOf .bytesRx k (sinceClear before ++ between) < 2 ^ 64)
    (entries entries' : List (ConnectionKey × ConnectionStats))
    (h : (empty.calls before).Enumerates entries)
    (h' : (empty.calls (before ++ between.map .record)).Enumerates entries') :
    Continue (series entries) (series entries') ↔
      ∀ k, eventsOf k (sinceClear before) ≠ [] →
        latestComm k (sinceClear before ++ between) = latestComm k (sinceClear before) ∧
        sumOf .connects k (sinceClear before) % 2 ^ 64 ≤
          sumOf .connects k (sinceClear before ++ between) % 2 ^ 64 := by
  have hsince := sinceClear_append_records before between
  constructor
  · intro hcont k hk
    have hk' := eventsOf_append_ne_nil hk between
    have hmem := (mem_entries_calls_iff h).mpr ⟨hk, rfl⟩
    obtain ⟨v, hv, hle⟩ := hcont _ _ (mem_series_iff.mpr ⟨k, _, hmem, .connects, rfl, rfl⟩)
    obtain ⟨k', st', hmem', c', hname, rfl⟩ := mem_series_iff.mp hv
    obtain ⟨rfl, rfl, hcomm⟩ := seriesName_inj hname
    obtain ⟨_, rfl⟩ := (mem_entries_calls_iff h').mp hmem'
    rw [hsince] at hcomm hle
    rw [latestComm_eq hk, latestComm_eq hk', hcomm]
    rw [BitVec.le_def, toNat_value_foldl, toNat_value_foldl] at hle
    exact ⟨rfl, hle⟩
  · intro hall s v hmem
    obtain ⟨k, st, hentry, c, rfl, rfl⟩ := mem_series_iff.mp hmem
    obtain ⟨hk, rfl⟩ := (mem_entries_calls_iff h).mp hentry
    obtain ⟨hcomm, hconnects⟩ := hall k hk
    have hk' := eventsOf_append_ne_nil hk between
    rw [latestComm_eq hk, latestComm_eq hk'] at hcomm
    have hmem' := (mem_entries_calls_iff h').mpr ⟨by rw [hsince]; exact hk', rfl⟩
    refine ⟨_, mem_series_iff.mpr ⟨k, _, hmem', c, ?_, rfl⟩, ?_⟩
    · rw [hsince]
      exact seriesName_congr c k (Option.some.inj hcomm).symm
    · rw [hsince, BitVec.le_def, toNat_value_foldl, toNat_value_foldl]
      have hfits : ∀ c, sumOf c k (sinceClear before ++ between) < 2 ^ 64 →
          sumOf c k (sinceClear before) % 2 ^ 64 ≤ sumOf c k (sinceClear before ++ between) % 2 ^ 64 := by
        intro c hlt
        have hle := sumOf_le_append c k (sinceClear before) between
        omega
      cases c with
      | bytesTx => exact hfits .bytesTx (hbytes k).1
      | bytesRx => exact hfits .bytesRx (hbytes k).2
      | connects => exact hconnects

/-- A second connect on the same connection: the series of the first output go on. -/
theorem counters_continue_reconnect :
    ∃ entries entries', (empty.calls [.record Scrape.webConnect]).Enumerates entries ∧
      (empty.calls ([.record Scrape.webConnect] ++ [Scrape.webConnect].map .record)).Enumerates entries' ∧
      Continue (series entries) (series entries') := by
  refine ⟨_, _, List.Perm.refl _, List.Perm.refl _,
    (counters_continue_iff [.record Scrape.webConnect] [Scrape.webConnect] ?_ _ _ (List.Perm.refl _)
      (List.Perm.refl _)).mpr ?_⟩
  · intro k
    have hevents : sinceClear [.record Scrape.webConnect] ++ [Scrape.webConnect] =
        [Scrape.webConnect, Scrape.webConnect] := rfl
    by_cases hk : Scrape.webConnect.key = k
    · subst hk
      decide +kernel
    · simp [hevents, sumOf, eventsOf, GroupFold.ofKey, hk]
  · intro k hk
    obtain ⟨ev, hev, rfl⟩ := eventsOf_ne_nil.mp hk
    obtain rfl := List.mem_singleton.mp hev
    decide +kernel

/-- The connect of another thread of the same process on the same connection. -/
def renamedConnect : TcpEvent :=
  { Scrape.webConnect with comm := fun i => "wget".toList.getD i '\x00' }

/-- The series that counts the connects of `curl`. -/
def curlSeries : Text :=
  "ebpf_connection_connects_total".toList ++
    "\x7bcomm=\"curl\",pid=\"7\",src=\"10.0.0.1:16540\",dst=\"10.0.0.2:47873\"\x7d".toList

/-- The thread that connects next has another name: the series of the first output is gone. -/
theorem counters_discontinued :
    ∃ entries entries', (empty.calls [.record Scrape.webConnect]).Enumerates entries ∧
      (empty.calls [.record Scrape.webConnect, .record renamedConnect]).Enumerates entries' ∧
      (curlSeries, 1) ∈ series entries ∧ ∀ v, (curlSeries, v) ∉ series entries' := by
  refine ⟨_, _, List.Perm.refl _, List.Perm.refl _, by decide +kernel, fun v hmem => ?_⟩
  have hname : curlSeries ∈ (series _).map Prod.fst := List.mem_map_of_mem hmem
  revert hname
  decide +kernel

end EbpfMonitor
