import EbpfMonitor.CounterSeries
import EbpfMonitor.HttpProtocol
import EbpfMonitor.MetricsText
import EbpfMonitor.TracerInterleaving

/-! # From the probes to a scraper

The whole way of a number: probes that overlap, the ring buffer, `handle_tcp_event` and the reporter
(`TracerInterleaving`), `http_route` for `/metrics`, the HTTP response, and a scraper that decodes the
response, reads the samples and adds up a metric over its series.

`scrape_counts_probes` says that the sums are what the probes counted, modulo the width of the
counters, when nothing is on its way and the process names do not break the text.  What a probe counts
depends on whether it got a record, which is read off the run (`State.decided`). -/

namespace EbpfMonitor

open Text StatsReporter PrometheusMetrics Probe

/-! ### The scraper -/

namespace Scraper

open Exposition

/-- A value that is written as a natural number. -/
def natOf : Value → Option ℕ
  | .number ⟨false, n, [], 0⟩ => some n
  | _ => none

/-- The sum of a metric over its series. -/
def total (name : Text) : List Sample → Option ℕ
  | [] => some 0
  | s :: samples =>
      if s.name = name then (natOf s.value).bind (fun m => (total name samples).map (m + ·))
      else total name samples

/-- The samples in an answer: a response with the status 200, nothing behind it, and a body that is
well formed. -/
def read (answer : Text) : Option (List Sample) :=
  match HttpMessage.decode answer with
  | some (r, []) => if r.status = 200 then parse r.body else none
  | _ => none

theorem total_append (name : Text) (a b : List Sample) :
    total name (a ++ b) = (total name a).bind (fun m => (total name b).map (m + ·)) := by
  induction a with
  | nil =>
      show total name b = (total name b).map (0 + ·)
      cases total name b <;> simp
  | cons s a ih =>
      rw [List.cons_append, total, total]
      split_ifs
      · rw [ih]
        cases natOf s.value with
        | none => rfl
        | some m =>
            cases total name a with
            | none => rfl
            | some m' =>
                cases total name b with
                | none => rfl
                | some n => simp [Nat.add_assoc]
      · exact ih

theorem total_connectionSamples (c : Counter) (ports : Ports) (nowMs : ℕ) (k : ConnectionKey)
    (st : ConnectionStats) :
    total c.name (connectionSamples ports nowMs k st) = some (c.value st).toNat := by
  cases c <;> rfl

theorem total_samples (c : Counter) (ports : Ports) (nowMs count : ℕ)
    (entries : List (ConnectionKey × ConnectionStats)) :
    total c.name (gaugeSample nowMs count ::
        entries.flatMap (fun e => connectionSamples ports nowMs e.1 e.2)) =
      some (entries.map (fun e => (c.value e.2).toNat)).sum := by
  have hgauge : "ebpf_active_connections".toList ≠ c.name := by cases c <;> decide
  rw [total, if_neg (show (gaugeSample nowMs count).name ≠ c.name from hgauge)]
  induction entries with
  | nil => rfl
  | cons e entries ih =>
      rw [List.flatMap_cons, total_append, total_connectionSamples, ih]
      rfl

end Scraper

/-! ### What the probes count -/

/-- What the probes of a run add to a metric. -/
def Counter.counted (filters : Filters) (probes : List Probe) : Counter → ℕ
  | connects => probes.countP (Counted filters)
  | bytesTx => ((probes.filter Reported).map (fun p => p.sk.bytesSent.toNat)).sum
  | bytesRx => ((probes.filter Reported).map (fun p => p.sk.bytesReceived.toNat)).sum

namespace Counter

theorem sum_added (c : Counter) (filters : Filters) (probes : List Probe) :
    ((events filters .empty probes).map (added · c)).sum = c.counted filters probes := by
  cases c with
  | connects => exact sum_connectsAdded .empty probes
  | bytesTx => exact sum_bytesAdded (fun pending cur now sk => (closeEvent_counts pending cur now sk).2.1) _ _
  | bytesRx => exact sum_bytesAdded (fun pending cur now sk => (closeEvent_counts pending cur now sk).2.2) _ _

/-- The order of the probes does not matter. -/
theorem counted_perm (c : Counter) (filters : Filters) {probes probes' : List Probe} (h : probes.Perm probes') :
    c.counted filters probes = c.counted filters probes' := by
  cases c with
  | connects => exact h.countP_eq _
  | bytesTx | bytesRx => exact ((h.filter _).map _).sum_eq

theorem value_add (c : Counter) (st : ConnectionStats) (ev : TcpEvent) :
    (c.value (st.add ev)).toNat ≡ (c.value st).toNat + added ev c [MOD 2 ^ 64] := by
  cases c with
  | connects => exact st.connects_add ev
  | bytesTx => exact st.bytesTx_add ev
  | bytesRx => exact st.bytesRx_add ev

theorem value_add_le (c : Counter) (st : ConnectionStats) (ev : TcpEvent) :
    (c.value (st.add ev)).toNat ≤ (c.value st).toNat + added ev c := by
  cases c with
  | connects => exact st.connects_add_le ev
  | bytesTx | bytesRx =>
      simp only [value, added, ConnectionStats.add, TcpEvent.bytesAdded]
      split_ifs
      · exact Nat.le_refl _
      · exact Nat.mod_le _ _

/-- The sum over the table is what the events add. -/
theorem sum_value (c : Counter) {evs : List TcpEvent} {entries : List (ConnectionKey × ConnectionStats)}
    (h : (recordAll evs).Enumerates entries) :
    (entries.map (fun e => (c.value e.2).toNat)).sum ≡ (evs.map (added · c)).sum [MOD 2 ^ 64] ∧
      (entries.map (fun e => (c.value e.2).toNat)).sum ≤ (evs.map (added · c)).sum := by
  have h₀ : (c.value {}).toNat = 0 := by cases c <;> rfl
  exact ⟨h.sum_modEq (f := fun st => (c.value st).toNat) h₀ c.value_add,
    h.sum_le (f := fun st => (c.value st).toNat) h₀ c.value_add_le⟩

end Counter

/-! ### Process names -/

/-- The name in an event is the one of a process that ran a probe. -/
theorem exists_probe_of_mem_events {filters : Filters} {probes : List Probe} {ev : TcpEvent}
    (h : ev ∈ events filters .empty probes) : ∃ p ∈ probes, ev.comm = p.cur.comm := by
  induction probes using List.reverseRecOn with
  | nil => cases h
  | append_singleton probes p ih =>
      rw [Tracer.events_concat, List.mem_append, Option.mem_toList] at h
      rcases h with h | h
      · obtain ⟨p', hp', hcomm⟩ := ih h
        exact ⟨p', List.mem_append_left _ hp', hcomm⟩
      · rcases exec_fst_eq_some_iff.mp h with ⟨-, -, rfl⟩ | ⟨-, rfl⟩
        · exact ⟨p, by simp, rfl⟩
        · cases hl : (pendingAfter filters probes).lookup p.cur.pid with
          | none => exact ⟨p, by simp, rfl⟩
          | some c =>
              obtain ⟨d, ⟨before, after, hsplit, -⟩, -, rfl⟩ := lookup_pendingAfter_iff.mp hl
              exact ⟨d, by simp [hsplit], rfl⟩

/-- The name in an entry is the one of an event. -/
theorem exists_event_of_mem_entries {evs : List TcpEvent} {entries : List (ConnectionKey × ConnectionStats)}
    (h : (recordAll evs).Enumerates entries) {e : ConnectionKey × ConnectionStats} (he : e ∈ entries) :
    ∃ ev ∈ evs, e.2.comm = commText ev.comm := by
  have hlookup := (mem_entries_iff h).mp (show (e.1, e.2) ∈ entries from he)
  rw [lookup_recordAll] at hlookup
  obtain ⟨hne, hst⟩ := Option.ite_none_left_eq_some.mp hlookup
  have hcomm := latestComm_eq (k := e.1) hne
  rw [Option.some.inj hst, latestComm] at hcomm
  obtain ⟨ev, hlast, hev⟩ := Option.map_eq_some_iff.mp hcomm
  exact ⟨ev, ((GroupFold.mem_ofKey _).mp (List.mem_of_getLast? hlast)).1, hev.symm⟩

/-! ### The answer -/

namespace AsyncHttpServer

theorem respond_metrics {handler : Text → Text} {body : Text} (hbody : handler "/metrics".toList = body)
    (hne : body ≠ []) :
    respond (some handler) "/metrics".toList =
      buildResponse 200 "text/plain; version=0.0.4; charset=utf-8".toList body := by
  have hempty : ("/metrics".toList.isEmpty || body.isEmpty) = false := by
    rw [List.isEmpty_eq_false_iff.mpr hne]
    rfl
  unfold respond answerBody answerStatus
  simp only [hbody]
  rw [hempty]
  rfl

/-- A scraper gets the body of an answer. -/
theorem read_buildResponse (body : Text) :
    Scraper.read (buildResponse 200 "text/plain; version=0.0.4; charset=utf-8".toList body) =
      Exposition.parse body := by
  have hwf : HttpMessage.WellFormed
      (response 200 "text/plain; version=0.0.4; charset=utf-8".toList body) :=
    wellFormed_response (by decide) (by decide) (by decide) (by decide) _
  have hdecode := HttpMessage.decode_encode hwf []
  rw [List.append_nil, ← buildResponse_eq_encode] at hdecode
  unfold Scraper.read
  rw [hdecode]
  rfl

/-- The server of the monitor, with what the reporter gives out. -/
def monitorServer (nowMs count : ℕ) (entries : List (ConnectionKey × ConnectionStats)) : AsyncHttpServer :=
  ⟨some (fun path => httpRoute path nowMs count entries), ∅⟩

/-- A scraper finds the samples that are meant, if no process name breaks the text. -/
theorem read_serve_metrics {request : Text} (hpath : parsePath request = "/metrics".toList)
    (d : Delivery request) (harrived : d.PathArrived) (fd nowMs count : ℕ)
    {entries : List (ConnectionKey × ConnectionStats)}
    (hplain : ∀ e ∈ entries, Exposition.escapes.Plain e.2.comm) :
    Scraper.read (serve (monitorServer nowMs count entries) fd d.events) =
      some (gaugeSample nowMs count ::
        entries.flatMap (fun e => connectionSamples swappedPorts nowMs e.1 e.2)) := by
  have hne : request ≠ [] := by
    rintro rfl
    exact absurd hpath (by decide)
  have hbody : fromReporter nowMs count entries ≠ [] := by
    unfold fromReporter fromReporterWith
    rw [preamble_append, emitHelp_append]
    exact List.cons_ne_nil _ _
  have hroute : httpRoute "/metrics".toList nowMs count entries = fromReporter nowMs count entries := if_pos rfl
  have hrespond : respond (monitorServer nowMs count entries).handler "/metrics".toList =
      buildResponse 200 "text/plain; version=0.0.4; charset=utf-8".toList
        (fromReporter nowMs count entries) := respond_metrics hroute hbody
  rw [d.serve_eq _ rfl hne, d.parsePath_arrived_of harrived, hpath, hrespond, read_buildResponse]
  unfold fromReporter fromReporterWith
  rw [parse_preamble, (parse_connections_iff swappedPorts nowMs entries).mpr hplain]
  rfl

end AsyncHttpServer

open AsyncHttpServer Tracer

/-- **What a scraper adds up is what the probes counted.**  After any run of overlapping probes, with
the probes of one process one after the other, when none is in progress and all events are handled: every
probe that was started has got its record or none, and the answer to a request for `/metrics`, whose path
has arrived when it is answered, decodes to samples whose sum over all connections is, for each of the
three counters, the number of connects that passed the filters and got a record, or the bytes of the
closes that got a record; exactly if that fits into 64 bits, and modulo their range otherwise. -/
theorem scrape_counts_probes {ι : Type} [DecidableEq ι] (filters : Filters) (elems : ℕ → TcpEvent)
    (schedule : List (Tracer.Action ι)) (s : Tracer.State ι)
    (h : Runs.run (State.step filters) (State.init elems) schedule = some s)
    (halone : Runs.Meets (State.step filters) Alone (State.init elems) schedule)
    (hidle : ∀ i, s.phases i = .idle) (hempty : s.kernel.buffer.stored = [])
    (hnames : ∀ f ∈ s.fired, ∀ c ∈ commText f.cur.comm, c ≠ '"' ∧ c ≠ '\\' ∧ c ≠ '\n')
    (entries : List (ConnectionKey × ConnectionStats)) (hentries : s.reporter.Enumerates entries)
    (request : Text) (hpath : parsePath request = "/metrics".toList) (d : Delivery request)
    (harrived : d.PathArrived) (fd nowMs : ℕ) :
    (∀ q, (s.decided.filter (fun p => p.cur.pid = q)).map Probe.firing =
      s.fired.filter (fun f => f.cur.pid = q)) ∧
    ∃ samples,
      Scraper.read (serve (monitorServer nowMs s.reporter.connectionCount entries) fd d.events) =
        some samples ∧
      ∀ c : Counter, ∃ n, Scraper.total c.name samples = some n ∧
        n ≡ c.counted filters s.decided [MOD 2 ^ 64] ∧
        (c.counted filters s.decided < 2 ^ 64 → n = c.counted filters s.decided) := by
  obtain ⟨hreporter, probes, horder, hdecided, -, hsent⟩ :=
    (linearizes_of_run h halone).exists_probes hidle
  rw [hempty, List.append_nil] at hsent
  have hperm : s.handled.Perm (events filters .empty probes) := GroupFold.perm_of_ofKey_eq TcpEvent.pid hsent
  have hprobes : probes.Perm s.decided := GroupFold.perm_of_ofKey_eq (fun p : Probe => p.cur.pid) hdecided
  rw [hreporter] at hentries
  have hplain : ∀ e ∈ entries, Exposition.escapes.Plain e.2.comm := by
    intro e he
    obtain ⟨ev, hev, hcomm⟩ := exists_event_of_mem_entries hentries he
    obtain ⟨p, hp, hpcomm⟩ := exists_probe_of_mem_events (hperm.mem_iff.mp hev)
    have hfired : p.firing ∈ s.fired := by
      have hmem : p.firing ∈ (probes.filter (fun p' => p'.cur.pid = p.cur.pid)).map Probe.firing :=
        List.mem_map_of_mem (by simpa using hp)
      rw [horder] at hmem
      exact List.mem_of_mem_filter hmem
    rw [hcomm, hpcomm]
    exact plain_iff.mpr (hnames _ hfired)
  refine ⟨fun q => hdecided q ▸ horder q, _, read_serve_metrics hpath d harrived fd nowMs _ hplain,
    fun c => ?_⟩
  have hsum := c.sum_value hentries
  rw [(hperm.map (Counter.added · c)).sum_eq, c.sum_added, c.counted_perm filters hprobes] at hsum
  exact ⟨_, Scraper.total_samples c swappedPorts nowMs _ entries, hsum.1,
    fun hlt => hsum.1.eq_of_lt_of_lt (Nat.lt_of_le_of_lt hsum.2 hlt) hlt⟩

/-- The two processes of `overlap`, and a scraper that asks for the metrics afterwards. -/
theorem scrape_counts_probes_overlap :
    ∃ s : Tracer.State Bool, ∃ samples,
      Runs.run (State.step (fun _ => 0)) (State.init (fun _ => Scrape.webConnect)) overlap = some s ∧
      s.handled.length = 4 ∧
      Scraper.read (serve (monitorServer 5 s.reporter.connectionCount
        (s.reporter.stats.entries.map (fun e => (e.1, e.2)))) 7 oneRead.events) = some samples ∧
      Scraper.total Counter.connects.name samples = some 2 ∧
      Scraper.total Counter.bytesTx.name samples = some 240 ∧
      Scraper.total Counter.bytesRx.name samples = some 8192 := by
  obtain ⟨s, hs, hlen, hempty, hidle, hnames, hconnects, htx, hrx⟩ : ∃ s : Tracer.State Bool,
      Runs.run (State.step (fun _ => 0)) (State.init (fun _ => Scrape.webConnect)) overlap = some s ∧
      s.handled.length = 4 ∧ s.kernel.buffer.stored.length = 0 ∧
      (∀ i, (s.phases i).firing.isNone = true) ∧
      s.fired.all (fun f => (commText f.cur.comm).all Exposition.escapes.plain) = true ∧
      Counter.connects.counted (fun _ => 0) s.decided = 2 ∧
      Counter.bytesTx.counted (fun _ => 0) s.decided = 240 ∧
      Counter.bytesRx.counted (fun _ => 0) s.decided = 8192 :=
    Runs.exists_run_of_any (by decide +kernel)
  have hplain : ∀ f ∈ s.fired, ∀ c ∈ commText f.cur.comm, c ≠ '"' ∧ c ≠ '\\' ∧ c ≠ '\n' :=
    fun f hf => plain_iff.mp (List.all_eq_true.mp (List.all_eq_true.mp hnames f hf))
  have harrived : oneRead.PathArrived := ⟨12, by decide, by decide⟩
  obtain ⟨-, samples, hread, htotal⟩ := scrape_counts_probes _ _ overlap s hs (by decide +kernel)
    (fun i => Phase.eq_idle (hidle i)) (List.eq_nil_of_length_eq_zero hempty) hplain _ (List.Perm.refl _)
    metricsRequest (by decide) oneRead harrived 7 5
  have hexact : ∀ (c : Counter) (m : ℕ), c.counted (fun _ => 0) s.decided = m → m < 2 ^ 64 →
      Scraper.total c.name samples = some m := by
    intro c m hm hlt
    obtain ⟨n, hn, -, heq⟩ := htotal c
    rw [hn, heq (hm ▸ hlt), hm]
  exact ⟨s, samples, hs, hlen, hread, hexact _ _ hconnects (by decide), hexact _ _ htx (by decide),
    hexact _ _ hrx (by decide)⟩

end EbpfMonitor
