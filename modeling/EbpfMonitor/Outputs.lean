import EbpfMonitor.StatsReporter

/-! # The outputs of the monitor and the ports they print

Four places print the ports of a connection: `PrometheusMetrics::from_reporter`
(`src/http/metrics.h`), `http_route` for `/connections` and `handle_tcp_event` with `--json`
(`src/monitor.cpp`), and `StatsReporter::print_top`.  Each text is given as a function of the
port numbers printed in it (`…With`), and the function of the source is that text at the
numbers the source computes.

The kernel side stores both ports in host order.  `print_top` and `--json` print them as they
are, the two HTTP outputs pass them through `ntohs` first.  `outputs_report_ports_iff` says for
which sockets all four print the real ports. -/

namespace EbpfMonitor

open Text StatsReporter

/-! ### `/metrics` -/

namespace PrometheusMetrics

def emitHelp (name help : Text) : Text := "# HELP ".toList ++ name ++ " ".toList ++ help ++ "\n".toList

def emitType (name type : Text) : Text := "# TYPE ".toList ++ name ++ " ".toList ++ type ++ "\n".toList

/-- The label text of a connection. -/
def labels (ports : Ports) (k : ConnectionKey) (st : ConnectionStats) : Text :=
  "\x7bcomm=\"".toList ++ st.comm ++ "\",pid=\"".toList ++ decimal k.pid.toNat ++
    "\",src=\"".toList ++ ipPort k.srcIp (ports k).1 ++ "\",dst=\"".toList ++
    ipPort k.dstIp (ports k).2 ++ "\"\x7d".toList

def sample (name labels : Text) (value : BitVec 64) (nowMs : ℕ) : Text :=
  name ++ labels ++ " ".toList ++ decimal value.toNat ++ " ".toList ++ decimal nowMs ++ "\n".toList

/-- The samples of a connection. -/
def samples (ports : Ports) (nowMs : ℕ) (k : ConnectionKey) (st : ConnectionStats) : Text :=
  sample "ebpf_connection_bytes_tx_total".toList (labels ports k st) st.bytesTx nowMs ++
    sample "ebpf_connection_bytes_rx_total".toList (labels ports k st) st.bytesRx nowMs ++
    sample "ebpf_connection_connects_total".toList (labels ports k st) st.connects nowMs

/-- Everything before the samples; `count` is what `connection_count()` returned. -/
def preamble (nowMs count : ℕ) : Text :=
  emitHelp "ebpf_active_connections".toList "Number of tracked TCP connections".toList ++
    emitType "ebpf_active_connections".toList "gauge".toList ++
    "ebpf_active_connections ".toList ++ decimal count ++ " ".toList ++ decimal nowMs ++ "\n\n".toList ++
    emitHelp "ebpf_connection_bytes_tx_total".toList "Bytes transmitted per connection".toList ++
    emitType "ebpf_connection_bytes_tx_total".toList "counter".toList ++
    emitHelp "ebpf_connection_bytes_rx_total".toList "Bytes received per connection".toList ++
    emitType "ebpf_connection_bytes_rx_total".toList "counter".toList ++
    emitHelp "ebpf_connection_connects_total".toList "TCP connect events per connection".toList ++
    emitType "ebpf_connection_connects_total".toList "counter".toList

def fromReporterWith (ports : Ports) (nowMs count : ℕ)
    (entries : List (ConnectionKey × ConnectionStats)) : Text :=
  preamble nowMs count ++ entries.flatMap (fun e => samples ports nowMs e.1 e.2)

/-- The ports after `ntohs`. -/
def swappedPorts : Ports := fun k => ((bswap16 k.srcPort).toNat, (bswap16 k.dstPort).toNat)

/-- `from_reporter`, which prints `ntohs` of the ports. -/
def fromReporter : ℕ → ℕ → List (ConnectionKey × ConnectionStats) → Text :=
  fromReporterWith swappedPorts

end PrometheusMetrics

open PrometheusMetrics

/-! ### `/connections` -/

/-- The JSON object of a connection. -/
def connectionObject (ports : Ports) (k : ConnectionKey) (st : ConnectionStats) : Text :=
  "\x7b\"comm\":\"".toList ++ st.comm ++ "\",\"pid\":".toList ++ decimal k.pid.toNat ++
    ",\"src\":\"".toList ++ ipPort k.srcIp (ports k).1 ++ "\",\"dst\":\"".toList ++
    ipPort k.dstIp (ports k).2 ++ "\",\"tx\":".toList ++ decimal st.bytesTx.toNat ++
    ",\"rx\":".toList ++ decimal st.bytesRx.toNat ++ ",\"connects\":".toList ++
    decimal st.connects.toNat ++ "\x7d".toList

def connectionsWith (ports : Ports) (entries : List (ConnectionKey × ConnectionStats)) : Text :=
  "[".toList ++ List.intercalate ",".toList (entries.map (fun e => connectionObject ports e.1 e.2)) ++
    "]".toList

/-- `http_route`; `nowMs` and `count` are used by `/metrics` only. -/
def httpRoute (path : Text) (nowMs count : ℕ) (entries : List (ConnectionKey × ConnectionStats)) : Text :=
  if path = "/metrics".toList then fromReporter nowMs count entries
  else if path = "/connections".toList then connectionsWith swappedPorts entries
  else if path = "/health".toList then "\x7b\"status\":\"ok\"\x7d".toList
  else []

/-! ### `--json` -/

def jsonLineWith (ev : TcpEvent) (src dst : ℕ) : Text :=
  "\x7b\"ts\":".toList ++ decimal ev.timestampNs.toNat ++ ",\"pid\":".toList ++ decimal ev.pid.toNat ++
    ",\"comm\":\"".toList ++ commText ev.comm ++ "\",\"src\":\"".toList ++ ipPort ev.srcIp src ++
    "\",\"dst\":\"".toList ++ ipPort ev.dstIp dst ++ "\",\"action\":".toList ++
    decimal ev.action.toNat ++ ",\"tx\":".toList ++ decimal ev.bytesTx.toNat ++ ",\"rx\":".toList ++
    decimal ev.bytesRx.toNat ++ "\x7d\n".toList

/-- The line `handle_tcp_event` prints for the event. -/
def jsonLine (ev : TcpEvent) : Text := jsonLineWith ev ev.srcPort.toNat ev.dstPort.toNat

/-! ### Reading the ports back -/

/-- An address and a port are made of digits, points and a colon. -/
theorem forall_mem_ipPort {p : Char → Prop} (hdigit : ∀ c, c.isDigit = true → p c) (hdot : p '.')
    (hcolon : p ':') (ip : BitVec 32) (port : ℕ) : ∀ c ∈ ipPort ip port, p c := by
  have hdecimal : ∀ n, ∀ c ∈ decimal n, p c := fun n c hc => hdigit c (isDigit_of_mem_decimal hc)
  have hdot : ∀ c ∈ ".".toList, p c := List.forall_mem_singleton.mpr hdot
  have hcolon : ∀ c ∈ ":".toList, p c := List.forall_mem_singleton.mpr hcolon
  simp only [ipPort, inetNtop, List.forall_mem_append]
  exact ⟨⟨⟨⟨⟨⟨⟨⟨hdecimal _, hdot⟩, hdecimal _⟩, hdot⟩, hdecimal _⟩, hdot⟩, hdecimal _⟩, hcolon⟩, hdecimal _⟩

theorem ipPort_append_inj {ip : BitVec 32} {m n : ℕ} {s t : Text} (hs : EndsNumber s)
    (ht : EndsNumber t) (h : ipPort ip m ++ s = ipPort ip n ++ t) : m = n ∧ s = t := by
  unfold ipPort at h
  simp only [List.append_assoc] at h
  exact decimal_append_inj hs ht (List.append_cancel_left (List.append_cancel_left h))

theorem labels_append_inj {ports ports' : Ports} {k : ConnectionKey} {st : ConnectionStats} {s t : Text}
    (h : labels ports k st ++ s = labels ports' k st ++ t) : ports k = ports' k := by
  unfold labels at h
  simp only [List.append_assoc] at h
  -- the five parts before the source address
  iterate 5 replace h := List.append_cancel_left h
  obtain ⟨hsrc, hrest⟩ := ipPort_append_inj (endsNumber_append _ (by decide))
    (endsNumber_append _ (by decide)) h
  obtain ⟨hdst, _⟩ := ipPort_append_inj (endsNumber_append _ (by decide))
    (endsNumber_append _ (by decide)) (List.append_cancel_left hrest)
  exact Prod.ext hsrc hdst

theorem jsonLineWith_inj {ev : TcpEvent} {src dst src' dst' : ℕ}
    (h : jsonLineWith ev src dst = jsonLineWith ev src' dst') : src = src' ∧ dst = dst' := by
  unfold jsonLineWith at h
  simp only [List.append_assoc] at h
  iterate 7 replace h := List.append_cancel_left h
  obtain ⟨hsrc, hrest⟩ := ipPort_append_inj (endsNumber_append _ (by decide))
    (endsNumber_append _ (by decide)) h
  obtain ⟨hdst, _⟩ := ipPort_append_inj (endsNumber_append _ (by decide))
    (endsNumber_append _ (by decide)) (List.append_cancel_left hrest)
  exact ⟨hsrc, hdst⟩

/-- Two texts made of one part per entry that differ in the part of `e` at most agree only if
that part agrees. -/
theorem part_eq_of_flatMap_eq {f g : ConnectionKey × ConnectionStats → Text}
    {entries : List (ConnectionKey × ConnectionStats)} {e : ConnectionKey × ConnectionStats}
    (he : e ∈ entries) (hnodup : (entries.map Prod.fst).Nodup)
    (hfg : ∀ e' : ConnectionKey × ConnectionStats, e'.1 ≠ e.1 → f e' = g e')
    (h : entries.flatMap f = entries.flatMap g) : f e = g e := by
  obtain ⟨before, after, rfl⟩ := List.append_of_mem he
  have hne : ∀ e' ∈ before ++ after, e'.1 ≠ e.1 := by
    intro e' hmem heq
    rw [List.map_append, List.map_cons] at hnodup
    have hno := (List.nodup_middle.mp hnodup).notMem
    apply hno
    rw [← List.map_append, ← heq]
    exact List.mem_map_of_mem hmem
  have hpart : ∀ l : List (ConnectionKey × ConnectionStats), (∀ e' ∈ l, e' ∈ before ++ after) →
      l.flatMap f = l.flatMap g := fun l hl =>
    List.flatMap_congr (fun e' hmem => hfg e' (hne e' (hl e' hmem)))
  rw [List.flatMap_append, List.flatMap_append, List.flatMap_cons, List.flatMap_cons,
    hpart before (fun _ => List.mem_append_left _), hpart after (fun _ => List.mem_append_right _)] at h
  exact List.append_cancel_right (List.append_cancel_left h)

/-! ### The real ports -/

/-- All four outputs about a table filled by the events `evs` print, for the connection of the
event `ev`, the source port `src` and the destination port `dst`: putting these numbers there
does not change the text, whatever the order of the table and the number of rows asked for. -/
structure ReportPorts (evs : List TcpEvent) (ev : TcpEvent) (src dst : ℕ) : Prop where
  metrics : ∀ nowMs count entries, (recordAll evs).Enumerates entries →
    httpRoute "/metrics".toList nowMs count entries =
      fromReporterWith (Function.update swappedPorts ev.key (src, dst)) nowMs count entries
  connections : ∀ nowMs count entries, (recordAll evs).Enumerates entries →
    httpRoute "/connections".toList nowMs count entries =
      connectionsWith (Function.update swappedPorts ev.key (src, dst)) entries
  top : ∀ n items, (recordAll evs).Enumerates items → SortedByTraffic items →
    printTop items n = printTopWith (Function.update keyPorts ev.key (src, dst)) items n
  json : jsonLine ev = jsonLineWith ev src dst

theorem StatsReporter.nodup_keys {r : StatsReporter} {entries : List (ConnectionKey × ConnectionStats)}
    (h : r.Enumerates entries) : (entries.map Prod.fst).Nodup := by
  rw [(h.map Prod.fst).nodup_iff, List.map_map]
  exact r.stats.keys_nodup

theorem StatsReporter.mem_of_lookup {r : StatsReporter} {k : ConnectionKey} {st : ConnectionStats}
    {entries : List (ConnectionKey × ConnectionStats)} (h : r.Enumerates entries)
    (hk : r.stats.lookup k = some st) : (k, st) ∈ entries := by
  rw [h.mem_iff, List.mem_map]
  exact ⟨⟨k, st⟩, AList.mem_lookup_iff.mp hk, rfl⟩

/-- The numbers printed by `/metrics` can be read off its text. -/
theorem ports_of_metrics {evs : List TcpEvent} {ev : TcpEvent} (hev : ev ∈ evs) {src dst : ℕ}
    (h : ReportPorts evs ev src dst) : swappedPorts ev.key = (src, dst) := by
  obtain ⟨st, hst⟩ := exists_lookup_recordAll hev
  have henum : (recordAll evs).Enumerates ((recordAll evs).stats.entries.map (fun e => (e.1, e.2))) :=
    List.Perm.refl _
  have htext := h.metrics 0 0 _ henum
  rw [httpRoute, if_pos rfl, fromReporter] at htext
  have hother : ∀ e' : ConnectionKey × ConnectionStats, e'.1 ≠ ev.key →
      samples swappedPorts 0 e'.1 e'.2 =
        samples (Function.update swappedPorts ev.key (src, dst)) 0 e'.1 e'.2 := by
    intro e' hne
    unfold samples labels
    rw [Function.update_of_ne hne]
  have hpart : samples swappedPorts 0 ev.key st =
      samples (Function.update swappedPorts ev.key (src, dst)) 0 ev.key st :=
    part_eq_of_flatMap_eq (mem_of_lookup henum hst) (nodup_keys henum) hother
      (List.append_cancel_left htext)
  unfold samples sample at hpart
  simp only [List.append_assoc] at hpart
  have hports := labels_append_inj (List.append_cancel_left hpart)
  rwa [Function.update_self] at hports

theorem reportPorts_iff {evs : List TcpEvent} {ev : TcpEvent} (hev : ev ∈ evs) {src dst : BitVec 16} :
    ReportPorts evs ev src.toNat dst.toNat ↔
      (ev.srcPort = src ∧ ev.dstPort = dst) ∧ bswap16 src = src ∧ bswap16 dst = dst := by
  constructor
  · intro h
    obtain ⟨hsrc, hdst⟩ := jsonLineWith_inj h.json
    obtain rfl := BitVec.eq_of_toNat_eq hsrc
    obtain rfl := BitVec.eq_of_toNat_eq hdst
    obtain ⟨hs, hd⟩ := Prod.ext_iff.mp (ports_of_metrics hev h)
    exact ⟨⟨rfl, rfl⟩, BitVec.eq_of_toNat_eq hs, BitVec.eq_of_toNat_eq hd⟩
  · rintro ⟨⟨rfl, rfl⟩, hs, hd⟩
    have hswapped : Function.update swappedPorts ev.key (ev.srcPort.toNat, ev.dstPort.toNat) = swappedPorts := by
      apply Function.update_eq_self_iff.mpr
      simp only [swappedPorts, TcpEvent.key, hs, hd]
    have hkey : Function.update keyPorts ev.key (ev.srcPort.toNat, ev.dstPort.toNat) = keyPorts :=
      Function.update_eq_self_iff.mpr rfl
    refine ⟨?_, ?_, ?_, rfl⟩
    · intro nowMs count entries _
      rw [hswapped, httpRoute, if_pos rfl, fromReporter]
    · intro nowMs count entries _
      rw [hswapped, httpRoute, if_neg (by decide), if_pos rfl]
    · intro n items _ _
      rw [hkey, printTop]

/-- The ports of an event are those of its socket, unless it is a close that finds an outstanding
connect with other ports. -/
theorem event_ports_iff {filters : Filters} {pre : List Probe} {p : Probe} {ev : TcpEvent}
    (hev : (p.exec filters (Probe.pendingAfter filters pre)).1 = some ev) :
    (ev.srcPort = p.sk.skcNum ∧ ev.dstPort = p.sk.dport) ↔
      (p.kind = .close → ∀ c, Probe.Outstanding filters pre c → c.cur.pid = p.cur.pid →
        c.sk.skcNum = p.sk.skcNum ∧ c.sk.skcDport = p.sk.skcDport) := by
  rcases Probe.exec_fst_eq_some_iff.mp hev with ⟨ht, _, rfl⟩ | ⟨hc, rfl⟩
  · refine iff_of_true ⟨rfl, rfl⟩ (fun hkind => ?_)
    rw [ht.1] at hkind
    cases hkind
  · cases hlook : (Probe.pendingAfter filters pre).lookup p.cur.pid with
    | none =>
        refine iff_of_true ⟨rfl, rfl⟩ (fun _ c ho hpid => ?_)
        rw [Probe.lookup_pendingAfter_iff.mpr ⟨c, ho, hpid, rfl⟩] at hlook
        cases hlook
    | some pending =>
        constructor
        · rintro ⟨hsrc, hdst⟩ _ c ho hpid
          rw [Probe.lookup_pendingAfter_iff.mpr ⟨c, ho, hpid, rfl⟩] at hlook
          obtain rfl := Option.some.inj hlook
          exact ⟨hsrc, bswap16_inj.mp hdst⟩
        · intro h
          obtain ⟨c, ho, hpid, rfl⟩ := Probe.lookup_pendingAfter_iff.mp hlook
          obtain ⟨hsrc, hdst⟩ := h hc.1 c ho hpid
          exact ⟨hsrc, bswap16_inj.mpr hdst⟩

/-- **All outputs report the real ports** of a socket with a recorded event exactly when both
ports read the same in either byte order and, for a close that finds an outstanding connect of
its process, that connect has the same ports. -/
theorem outputs_report_ports_iff (filters : Filters) (pre : List Probe) (p : Probe) (ev : TcpEvent)
    (hev : (p.exec filters (Probe.pendingAfter filters pre)).1 = some ev) (evs : List TcpEvent)
    (hrec : ev ∈ evs) :
    ReportPorts evs ev p.sk.skcNum.toNat p.sk.dport.toNat ↔
      bswap16 p.sk.skcNum = p.sk.skcNum ∧ bswap16 p.sk.skcDport = p.sk.skcDport ∧
      (p.kind = .close → ∀ c, Probe.Outstanding filters pre c → c.cur.pid = p.cur.pid →
        c.sk.skcNum = p.sk.skcNum ∧ c.sk.skcDport = p.sk.skcDport) := by
  have hdport : bswap16 p.sk.dport = p.sk.dport ↔ bswap16 p.sk.skcDport = p.sk.skcDport := by
    rw [Sock.dport, bswap16_bswap16]
    exact eq_comm
  rw [reportPorts_iff hrec, event_ports_iff hev, hdport]
  constructor
  · rintro ⟨hc, hs, hd⟩
    exact ⟨hs, hd, hc⟩
  · rintro ⟨hs, hd, hc⟩
    exact ⟨hc, hs, hd⟩

/-- Local port `0x8080` and remote port `0x5050`, the same in either byte order. -/
def palindromicSock : Sock := ⟨0x0100000A, 0x0200000A, 0x8080, 0x5050, 10, 20⟩

/-- The close of the palindromic socket, after its connect. -/
theorem outputs_report_ports_palindromic :
    ∃ ev, (Probe.exec (fun _ => 0) (Probe.pendingAfter (fun _ => 0)
        [⟨.connect, Probe.process 7, 1, palindromicSock, true⟩])
        ⟨.close, Probe.process 7, 2, palindromicSock, true⟩).1 = some ev ∧
      ReportPorts [ev] ev 32896 20560 := by
  refine ⟨closeEvent (some (connectEvent (Probe.process 7) 1 palindromicSock)) (Probe.process 7) 2
    palindromicSock, rfl, ?_⟩
  refine (outputs_report_ports_iff (fun _ => 0) [⟨.connect, Probe.process 7, 1, palindromicSock, true⟩]
    ⟨.close, Probe.process 7, 2, palindromicSock, true⟩ _ rfl _ List.mem_cons_self).mpr
    ⟨by decide, by decide, ?_⟩
  rintro _ c ⟨before, after, hsplit, _⟩ _
  cases before with
  | nil =>
      obtain ⟨rfl, _⟩ := List.cons.inj hsplit
      exact ⟨rfl, rfl⟩
  | cons q before =>
      have hlen := congrArg List.length hsplit
      simp at hlen

/-- **Swapped ports**: the connection from port 40000 to port 443 is exported as one from port
16540 to port 47873. -/
theorem metrics_swap_ports :
    ∃ ev st, (Probe.exec (fun _ => 0) BoundedMap.empty
        ⟨.connect, Probe.process 7, 1, Probe.webSock, true⟩).1 = some ev ∧
      Probe.webSock.skcNum.toNat = 40000 ∧ Probe.webSock.dport.toNat = 443 ∧
      (recordAll [ev]).stats.lookup ev.key = some st ∧
      labels swappedPorts ev.key st =
        "\x7bcomm=\"curl\",pid=\"7\",src=\"10.0.0.1:16540\",dst=\"10.0.0.2:47873\"\x7d".toList ∧
      ¬ ReportPorts [ev] ev 40000 443 := by
  refine ⟨connectEvent (Probe.process 7) 1 Probe.webSock, _, rfl, by decide, by decide,
    lookup_record_self _ _, by decide +kernel, ?_⟩
  intro h
  have hports := ports_of_metrics List.mem_cons_self h
  exact absurd hports (by decide)

end EbpfMonitor
