import EbpfMonitor.TcpTracer
import EbpfMonitor.Lib.Decimal

/-! # `StatsReporter`

The embedding of `src/stats_reporter.h`: the table of connections that `record` fills from
the events of the tracer, and the listing `print_top` makes of it.

* **The table.**  `std::unordered_map` is a finite map.  The order in which it is walked is
  not specified: whatever walks it is given the entries as a list, and `Enumerates` says that
  the list is one the map can produce.
* **Texts.**  `std::string` is a list of characters.  `inet_ntop` writes the four bytes of an
  address as they lie in memory, lowest byte first on a little-endian host.

Every call is atomic under `mu_`. -/

namespace EbpfMonitor

open Text

structure ConnectionKey where
  srcIp : BitVec 32
  dstIp : BitVec 32
  srcPort : BitVec 16
  dstPort : BitVec 16
  pid : BitVec 32
deriving DecidableEq

structure ConnectionStats where
  comm : Text := []
  uid : BitVec 32 := 0
  bytesTx : BitVec 64 := 0
  bytesRx : BitVec 64 := 0
  connects : BitVec 64 := 0
  timestamp : BitVec 64 := 0
deriving DecidableEq

/-- `std::string(comm, strnlen(comm, 16))`. -/
def commText (comm : Comm) : Text := (List.ofFn comm).takeWhile (· ≠ '\x00')

def TcpEvent.key (ev : TcpEvent) : ConnectionKey := ⟨ev.srcIp, ev.dstIp, ev.srcPort, ev.dstPort, ev.pid⟩

/-- What `record` makes of the entry `s` of the event's connection. -/
def ConnectionStats.add (s : ConnectionStats) (ev : TcpEvent) : ConnectionStats :=
  let s := { s with comm := commText ev.comm, uid := ev.uid, timestamp := ev.timestampNs }
  if ev.action = tcpActionConnect then { s with connects := s.connects + 1 }
  else { s with bytesTx := s.bytesTx + ev.bytesTx, bytesRx := s.bytesRx + ev.bytesRx }

/-- `stats_`. -/
structure StatsReporter where
  stats : AList (fun _ : ConnectionKey => ConnectionStats)

namespace StatsReporter

def empty : StatsReporter := ⟨∅⟩

def record (r : StatsReporter) (ev : TcpEvent) : StatsReporter :=
  ⟨r.stats.insert ev.key (((r.stats.lookup ev.key).getD {}).add ev)⟩

def connectionCount (r : StatsReporter) : ℕ := r.stats.keys.length

def clear (_ : StatsReporter) : StatsReporter := empty

/-- The reporter after the events `evs`. -/
def recordAll (evs : List TcpEvent) : StatsReporter := evs.foldl record empty

/-- `entries` is an order in which `for_each` can walk the table. -/
def Enumerates (r : StatsReporter) (entries : List (ConnectionKey × ConnectionStats)) : Prop :=
  entries.Perm (r.stats.entries.map (fun e => (e.1, e.2)))

theorem lookup_record_self (r : StatsReporter) (ev : TcpEvent) :
    (r.record ev).stats.lookup ev.key = some (((r.stats.lookup ev.key).getD {}).add ev) :=
  AList.lookup_insert _

theorem isSome_lookup_record {r : StatsReporter} {k : ConnectionKey} (ev : TcpEvent)
    (h : (r.stats.lookup k).isSome) : ((r.record ev).stats.lookup k).isSome := by
  by_cases hk : k = ev.key
  · subst hk
    rw [lookup_record_self]
    rfl
  · rw [record, AList.lookup_insert_ne hk]
    exact h

theorem isSome_lookup_foldl {evs : List TcpEvent} {r : StatsReporter} {k : ConnectionKey}
    (h : (r.stats.lookup k).isSome) : ((evs.foldl record r).stats.lookup k).isSome := by
  induction evs generalizing r with
  | nil => exact h
  | cons ev evs ih => exact ih (isSome_lookup_record ev h)

/-- The connection of every recorded event is in the table. -/
theorem exists_lookup_recordAll {evs : List TcpEvent} {ev : TcpEvent} (h : ev ∈ evs) :
    ∃ st, (recordAll evs).stats.lookup ev.key = some st := by
  obtain ⟨pre, post, rfl⟩ := List.append_of_mem h
  apply Option.isSome_iff_exists.mp
  rw [recordAll, List.foldl_append, List.foldl_cons]
  apply isSome_lookup_foldl
  rw [lookup_record_self]
  rfl

/-! ### `print_top` -/

/-- `inet_ntop(AF_INET, …)`. -/
def inetNtop (ip : BitVec 32) : Text :=
  decimal (ip.extractLsb' 0 8).toNat ++ ".".toList ++ decimal (ip.extractLsb' 8 8).toNat ++
    ".".toList ++ decimal (ip.extractLsb' 16 8).toNat ++ ".".toList ++
    decimal (ip.extractLsb' 24 8).toNat

/-- `ip_port`, with the port number that is printed. -/
def ipPort (ip : BitVec 32) (port : ℕ) : Text := inetNtop ip ++ ":".toList ++ decimal port

def humanBytes (b : BitVec 64) : Text :=
  if b.toNat < 1024 then decimal b.toNat ++ "B".toList
  else if b.toNat < 1024 * 1024 then decimal (b.toNat / 1024) ++ "K".toList
  else decimal (b.toNat / (1024 * 1024)) ++ "M".toList

/-- `std::left << std::setw(n)`. -/
def setw (n : ℕ) (t : Text) : Text := t ++ List.replicate (n - t.length) ' '

/-- The port numbers that are printed for a connection, source and destination. -/
abbrev Ports := ConnectionKey → ℕ × ℕ

/-- The ports as they are in the key. -/
def keyPorts : Ports := fun k => (k.srcPort.toNat, k.dstPort.toNat)

/-- A row of the listing. -/
def topRow (ports : Ports) (k : ConnectionKey) (st : ConnectionStats) : Text :=
  setw 6 (decimal k.pid.toNat) ++ setw 16 st.comm ++ setw 20 (ipPort k.srcIp (ports k).1) ++
    setw 20 (ipPort k.dstIp (ports k).2) ++ setw 10 (humanBytes st.bytesTx) ++
    setw 10 (humanBytes st.bytesRx) ++ "\n".toList

def topHeader : Text :=
  "\x1b[2J\x1b[H".toList ++ List.replicate 55 '═' ++ "\n".toList ++
    "  eBPF System Monitor — Top TCP Connections\n".toList ++ List.replicate 55 '═' ++
    "\n".toList ++ setw 6 "PID".toList ++ setw 16 "COMM".toList ++ setw 20 "SRC".toList ++
    setw 20 "DST".toList ++ setw 10 "TX".toList ++ setw 10 "RX".toList ++ "\n".toList ++
    List.replicate 80 '=' ++ "\n".toList

/-- The sort key of `print_top`, a sum of two `uint64_t`. -/
def traffic (st : ConnectionStats) : BitVec 64 := st.bytesTx + st.bytesRx

/-- `items` is a result of the `std::sort` in `print_top`. -/
def SortedByTraffic (items : List (ConnectionKey × ConnectionStats)) : Prop :=
  items.Pairwise (fun a b => ¬ traffic b.2 > traffic a.2)

/-- `print_top(n)` on the sorted items, with the given port numbers: rows are printed while
`shown++ < n`. -/
def printTopWith (ports : Ports) (items : List (ConnectionKey × ConnectionStats)) (n : ℤ) : Text :=
  topHeader ++ (items.take n.toNat).flatMap (fun e => topRow ports e.1 e.2)

/-- `print_top(n)`, which prints the ports as they are in the key. -/
def printTop : List (ConnectionKey × ConnectionStats) → ℤ → Text := printTopWith keyPorts

end StatsReporter

end EbpfMonitor
