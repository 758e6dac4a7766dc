import EbpfMonitor.CounterSeries
import EbpfMonitor.JsonOutputs
import EbpfMonitor.Lib.LineReader
import EbpfMonitor.MonitorLoop

/-! # The event log of `--json`

With `--json` the main loop prints a line for every event it handles, between a banner and the last words,
which are no JSON.  A program that follows the standard output takes the lines that are JSON texts and
finds a `LogEntry` in them.

* **Reading.**  `readLog` is such a program.  What it has got may end anywhere.
* **Rebuilding.**  `Rebuilds es st` says that the numbers of a connection can be had from the entries of
  this connection alone.  The log names a connection by the texts of its addresses.

`json_log_rebuilds` is the result for every run of the loop: as long as the names of the processes can
stand between quotes, the log tells what the table of the reporter tells. -/

namespace EbpfMonitor

open Text StatsReporter SyscallAudit MonitorLoop LineReader Json
open RunMonitor (Config)

/-! ### Reading the log -/

/-- What a line of the log tells. -/
structure LogEntry where
  ts : ℕ
  pid : ℕ
  comm : Text
  src : Text
  dst : Text
  action : ℕ
  tx : ℕ
  rx : ℕ

namespace LogEntry

def ofEvent (ev : TcpEvent) : LogEntry where
  ts := ev.timestampNs.toNat
  pid := ev.pid.toNat
  comm := commText ev.comm
  src := ipPort ev.srcIp ev.srcPort.toNat
  dst := ipPort ev.dstIp ev.dstPort.toNat
  action := ev.action.toNat
  tx := ev.bytesTx.toNat
  rx := ev.bytesRx.toNat

def ofJson (v : Json) : Option LogEntry := do
  let ts ← (v.member "ts".toList).bind asNat
  let pid ← (v.member "pid".toList).bind asNat
  let comm ← (v.member "comm".toList).bind asText
  let src ← (v.member "src".toList).bind asText
  let dst ← (v.member "dst".toList).bind asText
  let action ← (v.member "action".toList).bind asNat
  let tx ← (v.member "tx".toList).bind asNat
  let rx ← (v.member "rx".toList).bind asNat
  return ⟨ts, pid, comm, src, dst, action, tx, rx⟩

def ofLine (line : Text) : Option LogEntry := (parse line).bind ofJson

/-- The entry is one of the connection. -/
def IsOf (k : ConnectionKey) (e : LogEntry) : Prop :=
  e.src = ipPort k.srcIp k.srcPort.toNat ∧ e.dst = ipPort k.dstIp k.dstPort.toNat ∧ e.pid = k.pid.toNat

instance (k : ConnectionKey) : DecidablePred (IsOf k) := fun e => by unfold IsOf; infer_instance

end LogEntry

/-- The entries of the lines that are JSON texts. -/
def readLog (out : Text) : List LogEntry := readAll LogEntry.ofLine out

/-- The entries of a connection. -/
def entriesOf (k : ConnectionKey) (log : List LogEntry) : List LogEntry := log.filter (LogEntry.IsOf k)

/-- `st` can be had from the entries of a connection. -/
structure Rebuilds (es : List LogEntry) (st : ConnectionStats) : Prop where
  connects : st.connects.toNat = es.countP (·.action = tcpActionConnect.toNat) % 2 ^ 64
  bytesTx : st.bytesTx.toNat = ((es.filter (·.action ≠ tcpActionConnect.toNat)).map (·.tx)).sum % 2 ^ 64
  bytesRx : st.bytesRx.toNat = ((es.filter (·.action ≠ tcpActionConnect.toNat)).map (·.rx)).sum % 2 ^ 64
  latest : ∃ e, es.getLast? = some e ∧ st.comm = e.comm ∧ st.timestamp.toNat = e.ts

/-! ### The lines -/

/-- The line of an event, without the line feed. -/
def eventLine (ev : TcpEvent) : Text := membersText (eventMembers ev)

theorem ofLine_eventLine {ev : TcpEvent} (h : Printable (commText ev.comm)) :
    LogEntry.ofLine (eventLine ev) = some (LogEntry.ofEvent ev) := by
  have hread := readValue_membersText (readable_eventMembers (plain_iff_json.mpr h.1))
    ((eventLine ev).length - 1) []
  rw [List.append_nil] at hread
  have hparse : parse (eventLine ev) = some (membersValue (eventMembers ev)) :=
    parse_eq_some.mpr ⟨[], hread, rfl, isUtf8_eventMembers.mpr h.2⟩
  rw [LogEntry.ofLine, hparse, Option.bind_some]
  simp [LogEntry.ofJson, LogEntry.ofEvent, membersValue, eventMembers, numberMember, stringMember, member,
    asNat, asText, Numeral.ofNat]

/-- An event is read from its whole line or not at all. -/
theorem whole_eventLine {ev : TcpEvent} (h : Printable (commText ev.comm)) :
    Whole LogEntry.ofLine (eventLine ev) where
  feed := feed_not_mem_eventMembers (plain_iff_json.mpr h.1)
  part p hp hne := by
    rw [LogEntry.ofLine]
    cases hparse : parse p with
    | none => rfl
    | some v => exact absurd (parse_start_of_object (readable_eventMembers (plain_iff_json.mpr h.1)) hp hparse) hne

/-- A line that is no JSON text, nor is any part of it. -/
structure Silent (l : Text) : Prop where
  feed : '\n' ∉ l
  none : ∀ p, p <+: l → LogEntry.ofLine p = Option.none

theorem Silent.whole {l : Text} (h : Silent l) : Whole LogEntry.ofLine l := ⟨h.feed, fun p hp _ => h.none p hp⟩

theorem silent_of_skip {l rest : Text} {c : Char} (hfeed : '\n' ∉ l) (hl : skip l = c :: rest)
    (hc : c ∉ "\"[\x7bntf-".toList) (hdigit : c.isDigit = false) : Silent l where
  feed := hfeed
  none p hp := by
    rw [LogEntry.ofLine, parse_start_of_skip hl hc hdigit hp]
    rfl

/-- The lines of the banner. -/
def bannerLines (cfg : Config) : List Text :=
  ["eBPF monitor running. HTTP metrics at http://localhost:".toList ++
      (decimal cfg.httpPort.toNat ++ "/metrics".toList),
    "Endpoints: /metrics  /connections  /health".toList, "Press Ctrl+C to stop.".toList] ++
    (if cfg.filterPid ≠ 0 then ["  Filtering PID:  ".toList ++ decimal cfg.filterPid.toNat] else []) ++
    (if cfg.filterPort ≠ 0 then ["  Filtering Port: ".toList ++ decimal cfg.filterPort.toNat] else [])

/-- The lines that are printed when the loop has ended. -/
def farewellLines : Pc → List Text
  | .done => [[], "Shutting down.".toList]
  | _ => []

theorem banner_eq (cfg : Config) : banner cfg = ofLines (bannerLines cfg) := by
  unfold banner bannerLines ofLines
  split_ifs <;> simp

theorem farewell_eq (pc : Pc) : farewell pc = ofLines (farewellLines pc) := by
  cases pc <;> rfl

theorem feed_not_mem_decimal (n : ℕ) : '\n' ∉ decimal n := by
  intro h
  cases isDigit_of_mem_decimal h

theorem silent_bannerLines (cfg : Config) : ∀ l ∈ bannerLines cfg, Silent l := by
  have hfeed : ∀ {a b : Text}, '\n' ∉ a → '\n' ∉ b → '\n' ∉ a ++ b :=
    fun ha hb h => (List.mem_append.mp h).elim ha hb
  unfold bannerLines
  simp only [List.forall_mem_append, List.forall_mem_cons]
  refine ⟨⟨⟨?_, ?_, ?_, List.forall_mem_nil _⟩, ?_⟩, ?_⟩
  · exact silent_of_skip (hfeed (by decide) (hfeed (feed_not_mem_decimal _) (by decide))) rfl (by decide) rfl
  · exact silent_of_skip (by decide) rfl (by decide) rfl
  · exact silent_of_skip (by decide) rfl (by decide) rfl
  · split_ifs
    · exact List.forall_mem_singleton.mpr
        (silent_of_skip (hfeed (by decide) (feed_not_mem_decimal _)) rfl (by decide) rfl)
    · exact List.forall_mem_nil _
  · split_ifs
    · exact List.forall_mem_singleton.mpr
        (silent_of_skip (hfeed (by decide) (feed_not_mem_decimal _)) rfl (by decide) rfl)
    · exact List.forall_mem_nil _

theorem silent_nil : Silent [] where
  feed := List.not_mem_nil
  none p hp := by
    rw [List.prefix_nil.mp hp]
    rfl

theorem silent_farewellLines (pc : Pc) : ∀ l ∈ farewellLines pc, Silent l := by
  cases pc with
  | done =>
      refine List.forall_mem_cons.mpr ⟨silent_nil, List.forall_mem_singleton.mpr ?_⟩
      exact silent_of_skip (by decide) rfl (by decide) rfl
  | condition => exact List.forall_mem_nil _
  | pollTcp => exact List.forall_mem_nil _
  | pollAudit => exact List.forall_mem_nil _
  | clock => exact List.forall_mem_nil _

/-! ### The standard output of a run -/

/-- The lines of the standard output. -/
def outLines (cfg : Config) (evs : List TcpEvent) (pc : Pc) : List Text :=
  bannerLines cfg ++ evs.map eventLine ++ farewellLines pc

theorem ofLines_eventLines (evs : List TcpEvent) : ofLines (evs.map eventLine) = evs.flatMap jsonLine := by
  have hline : (fun ev => eventLine ev ++ ['\n']) = jsonLine := by
    funext ev
    rw [jsonLine_eq, eventLine]
    rfl
  rw [ofLines, List.flatMap_map, hline]

/-- The output of the loop with `--json`. -/
def jsonOut (cfg : Config) (evs : List TcpEvent) (pc : Pc) : Text :=
  banner cfg ++ evs.flatMap jsonLine ++ farewell pc

theorem jsonOut_eq (cfg : Config) (evs : List TcpEvent) (pc : Pc) :
    jsonOut cfg evs pc = ofLines (outLines cfg evs pc) := by
  rw [jsonOut, outLines, ofLines_append, ofLines_append, ofLines_eventLines, ← banner_eq, ← farewell_eq]

section lines

variable {evs : List TcpEvent} (h : ∀ ev ∈ evs, Printable (commText ev.comm)) (cfg : Config)

include h

theorem whole_outLines (pc : Pc) : ∀ l ∈ outLines cfg evs pc, Whole LogEntry.ofLine l := by
  unfold outLines
  simp only [List.forall_mem_append, List.forall_mem_map]
  exact ⟨⟨fun l hl => (silent_bannerLines cfg l hl).whole, fun ev hev => whole_eventLine (h ev hev)⟩,
    fun l hl => (silent_farewellLines pc l hl).whole⟩

theorem filterMap_outLines (pc : Pc) :
    (outLines cfg evs pc).filterMap LogEntry.ofLine = evs.map LogEntry.ofEvent := by
  have hsilent : ∀ {ls : List Text}, (∀ l ∈ ls, Silent l) → ls.filterMap LogEntry.ofLine = [] :=
    fun hls => List.filterMap_eq_nil_iff.mpr (fun l hl => (hls l hl).none l (List.prefix_refl l))
  have hevents : (evs.map eventLine).filterMap LogEntry.ofLine = evs.map LogEntry.ofEvent := by
    rw [List.filterMap_map, ← List.filterMap_eq_map]
    exact List.filterMap_congr (fun ev hev => ofLine_eventLine (h ev hev))
  rw [outLines, List.filterMap_append, List.filterMap_append, hsilent (silent_bannerLines cfg),
    hsilent (silent_farewellLines pc), hevents, List.append_nil, List.nil_append]

end lines

section run

variable {cfg : Config} {s s' : State} {a : Action} {as : List Action} {start : ℕ}

theorem jsonOut_move (h : s.out = jsonOut cfg (handled as) s.pc) (hmove : Move true s a s') :
    s'.out = jsonOut cfg (handled (as ++ [a])) s'.pc := by
  have hquiet : handled [a] = [] → s'.out = s.out → farewell s'.pc = farewell s.pc →
      s'.out = jsonOut cfg (handled (as ++ [a])) s'.pc := by
    intro hno hout hpc
    rw [handled_append, hno, List.append_nil, hout, h, jsonOut, jsonOut, hpc]
  cases hmove with
  | signal => exact hquiet rfl rfl rfl
  | leave hpc _ =>
      rw [hpc] at h
      rw [handled_append, show handled [.test] = [] from rfl, List.append_nil, h]
      simp only [jsonOut, farewell, List.append_nil]
  | again hpc _ => exact hquiet rfl rfl (by rw [hpc]; rfl)
  | @tcpEvent ev hpc _ =>
      have hpc' : (handleTcpEvent true s ev).pc = .pollTcp := hpc
      rw [hpc']
      rw [hpc] at h
      rw [handled_append, show handled [.tcpEvent ev] = [ev] from rfl, jsonOut, List.flatMap_append,
        List.flatMap_singleton]
      simp only [handleTcpEvent, h, jsonOut, farewell, if_true, List.append_nil, List.append_assoc]
  | tcpPolled hpc => exact hquiet rfl rfl (by rw [hpc]; rfl)
  | syscallEvent _ _ => exact hquiet rfl rfl rfl
  | auditPolled hpc => exact hquiet rfl rfl (by rw [hpc]; rfl)
  | print _ _ hdue _ => cases hdue
  | skip hpc _ _ => exact hquiet rfl rfl (by rw [hpc]; rfl)

theorem jsonOut_of_run (h : Runs.run (step true) (init cfg start) as = some s) :
    s.out = jsonOut cfg (handled as) s.pc := by
  refine Runs.run_history (P := fun as s => s.out = jsonOut cfg (handled as) s.pc) ?_
    (fun _ _ _ _ hold hstep => jsonOut_move hold (move_of_step hstep)) h
  show banner cfg = banner cfg ++ [] ++ []
  rw [List.append_nil, List.append_nil]

end run

/-! ### Rebuilding the table -/

/-- The texts of the log tell connections apart. -/
theorem isOf_ofEvent {k : ConnectionKey} {ev : TcpEvent} : (LogEntry.ofEvent ev).IsOf k ↔ ev.key = k := by
  constructor
  · rintro ⟨hsrc, hdst, hpid⟩
    obtain ⟨hsrcIp, hsrcPort⟩ := ipPort_inj hsrc
    obtain ⟨hdstIp, hdstPort⟩ := ipPort_inj hdst
    unfold TcpEvent.key
    rw [hsrcIp, hdstIp, BitVec.eq_of_toNat_eq hsrcPort, BitVec.eq_of_toNat_eq hdstPort,
      BitVec.eq_of_toNat_eq hpid]
  · rintro rfl
    exact ⟨rfl, rfl, rfl⟩

theorem entriesOf_map (k : ConnectionKey) (evs : List TcpEvent) :
    entriesOf k (evs.map LogEntry.ofEvent) = (eventsOf k evs).map LogEntry.ofEvent := by
  rw [entriesOf, List.filter_map, eventsOf, GroupFold.ofKey]
  congr 1
  apply List.filter_congr
  intro ev _
  exact decide_eq_decide.mpr isOf_ofEvent

theorem action_eq_iff {ev : TcpEvent} :
    (LogEntry.ofEvent ev).action = tcpActionConnect.toNat ↔ ev.action = tcpActionConnect :=
  BitVec.toNat_inj

theorem rebuilds_foldl {evs : List TcpEvent} (h : evs ≠ []) :
    Rebuilds (evs.map LogEntry.ofEvent) (evs.foldl ConnectionStats.add {}) := by
  have hagg := aggregates_foldl h
  have hclosed : ∀ f : LogEntry → ℕ,
      (((evs.map LogEntry.ofEvent).filter (·.action ≠ tcpActionConnect.toNat)).map f) =
        (evs.filter (·.action ≠ tcpActionConnect)).map (fun ev => f (LogEntry.ofEvent ev)) := by
    intro f
    rw [List.filter_map, List.map_map]
    congr 1
    apply List.filter_congr
    intro ev _
    exact decide_eq_decide.mpr (not_congr action_eq_iff)
  constructor
  case connects =>
    rw [hagg.connects, List.countP_map]
    congr 2
    funext ev
    exact decide_eq_decide.mpr action_eq_iff.symm
  case bytesTx => rw [hagg.bytesTx, hclosed]; rfl
  case bytesRx => rw [hagg.bytesRx, hclosed]; rfl
  case latest =>
    have hadd : ∀ st ev, (ConnectionStats.add st ev).comm = commText ev.comm ∧
        (ConnectionStats.add st ev).timestamp = ev.timestampNs := by
      intro st ev
      unfold ConnectionStats.add
      split_ifs <;> exact ⟨rfl, rfl⟩
    have hlast := List.getLast?_eq_some_getLast h
    refine ⟨LogEntry.ofEvent (evs.getLast h), ?_, ?_, ?_⟩
    · rw [List.getLast?_map, hlast]
      rfl
    · exact GroupFold.foldl_last (fun st ev => (hadd st ev).1) hlast _
    · exact congrArg BitVec.toNat (GroupFold.foldl_last (fun st ev => (hadd st ev).2) hlast _)

/-- **The log of `--json` tells what the table tells.**  In every run of the loop in which the names of
all processes can stand between quotes, a program that follows the standard output reads an entry for
every handled event, in order, and from a beginning of the output a beginning of these.  For every
connection the table has an entry if the log has one, and its numbers can be had from the log. -/
theorem json_log_rebuilds {cfg : Config} {start : ℕ} {as : List Action} {s : State}
    (hrun : Runs.run (step true) (init cfg start) as = some s)
    (hnames : ∀ ev ∈ handled as, Printable (commText ev.comm)) :
    readLog s.out = (handled as).map LogEntry.ofEvent ∧
    (∀ got, got <+: s.out → readLog got <+: (handled as).map LogEntry.ofEvent) ∧
    ∀ k, (s.reporter.stats.lookup k = none ↔ entriesOf k (readLog s.out) = []) ∧
      ∀ st, s.reporter.stats.lookup k = some st → Rebuilds (entriesOf k (readLog s.out)) st := by
  have hout : s.out = ofLines (outLines cfg (handled as) s.pc) := (jsonOut_of_run hrun).trans (jsonOut_eq ..)
  have hwhole := whole_outLines hnames cfg s.pc
  have hlines := filterMap_outLines hnames cfg s.pc
  have hlog : readLog s.out = (handled as).map LogEntry.ofEvent := by
    rw [hout, readLog, readAll_ofLines rfl hwhole, hlines]
  refine ⟨hlog, fun got hgot => ?_, fun k => ?_⟩
  · rw [hout] at hgot
    rw [← hlines]
    exact readAll_start rfl hwhole hgot
  · rw [hlog, entriesOf_map, (told_of_run hrun).reporter, lookup_recordAll]
    by_cases hnone : eventsOf k (handled as) = []
    · rw [if_pos hnone, hnone]
      exact ⟨iff_of_true rfl rfl, fun st h => by cases h⟩
    · rw [if_neg hnone]
      refine ⟨iff_of_false (Option.some_ne_none _) (fun h => hnone (List.map_eq_nil_iff.mp h)), ?_⟩
      rintro st ⟨⟩
      exact rebuilds_foldl hnone

/-- A connect and a close of `curl`. -/
def curlEvents : List TcpEvent :=
  [connectEvent (Probe.process 7) 1 Probe.webSock, closeEvent none (Probe.process 7) 2 Probe.webSock]

/-- They are handled by one poll; the program that follows has got the first 300 characters. -/
theorem json_log_rebuilds_curl :
    ∃ s st, Runs.run (step true) (init {} 0) (.test :: curlEvents.map .tcpEvent) = some s ∧
      (readLog s.out).map (·.action) = [tcpActionConnect.toNat, tcpActionClose.toNat] ∧
      readLog (s.out.take 300) <+: readLog s.out ∧
      s.reporter.stats.lookup Scrape.webConnect.key = some st ∧
      Rebuilds (entriesOf Scrape.webConnect.key (readLog s.out)) st := by
  have hprint : ∀ ev ∈ handled (.test :: curlEvents.map .tcpEvent), Printable (commText ev.comm) := by
    intro ev hev
    have hcomm : commText ev.comm = "curl".toList := by
      have hall : ((handled (.test :: curlEvents.map .tcpEvent)).all
          fun ev => commText ev.comm = "curl".toList) = true := by decide +kernel
      exact of_decide_eq_true (List.all_eq_true.mp hall ev hev)
    rw [hcomm]
    exact ⟨plain_iff_json.mp (List.all_eq_true.mp (by decide)), isUtf8_name (by decide)⟩
  obtain ⟨s, hrun, hsome⟩ : ∃ s, Runs.run (step true) (init {} 0) (.test :: curlEvents.map .tcpEvent) =
      some s ∧ (s.reporter.stats.lookup Scrape.webConnect.key).isSome = true :=
    Runs.exists_run_of_any (by decide +kernel)
  obtain ⟨st, hst⟩ := Option.isSome_iff_exists.mp hsome
  obtain ⟨hlog, hstart, hrebuild⟩ := json_log_rebuilds hrun hprint
  refine ⟨s, st, hrun, ?_, ?_, hst, (hrebuild _).2 st hst⟩
  · rw [hlog]
    decide +kernel
  · rw [hlog]
    exact hstart _ (List.take_prefix _ _)

end EbpfMonitor
