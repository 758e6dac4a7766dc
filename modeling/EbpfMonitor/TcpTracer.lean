import EbpfMonitor.Lib.BoundedMap
import EbpfMonitor.Lib.Runs
import Mathlib.Algebra.GroupWithZero.Nat
import Mathlib.Data.List.Induction

/-! # The TCP tracer

The embedding of `bpf/tcp_tracer.bpf.c`: the two kprobes `trace_tcp_connect` and
`trace_tcp_close`, the map `pending_connects` from process ids to partial events, the array
`filters` and the events submitted to the ring buffer `tcp_events`.

* **Inputs of a probe.**  What the helpers return (`Task` for the current process, the
  clock), the fields it reads from the socket, and whether `bpf_ringbuf_reserve` gave it
  space.  Probes are atomic; a run is a list of probes in the order they fire.
* **The map.**  `pending_connects` holds 4096 keys; an update for a new key of a full map
  fails and the probe goes on.
* **History.**  `Outstanding filters pre c` says, in terms of the probes `pre` alone, that the
  connect `c` is the one the map holds for its process: `c` passed the filters and found room,
  and no later connect that passed the filters or close with ring-buffer space came from the
  same process.  `lookup_pendingAfter_iff` shows that this is exactly what the map contains.

The map is keyed by process, not by socket, so a close reports the last outstanding connect of
the process whatever socket is being closed: `closeEvents_describe_sock_iff` says in which
runs close events are about the right socket.  The close probe does not look at the filters:
`events_pass_filters_iff` says in which runs all events pass them. -/

namespace EbpfMonitor

/-! ### Data -/

/-- `char comm[16]`. -/
abbrev Comm := Fin 16 → Char

/-- `__builtin_bswap16`, and `ntohs` on a little-endian host. -/
def bswap16 (x : BitVec 16) : BitVec 16 := x.extractLsb' 0 8 ++ x.extractLsb' 8 8

theorem toNat_bswap16 (x : BitVec 16) :
    (bswap16 x).toNat = x.toNat % 256 * 256 + x.toNat / 256 := by
  have hx := x.isLt
  have hhigh : (x.extractLsb' 8 8).toNat = x.toNat / 256 := by
    rw [BitVec.extractLsb'_toNat, Nat.shiftRight_eq_div_pow]
    omega
  unfold bswap16
  rw [BitVec.toNat_append, ← Nat.shiftLeft_add_eq_or_of_lt (x.extractLsb' 8 8).isLt, hhigh,
    BitVec.extractLsb'_toNat, Nat.shiftLeft_eq, Nat.shiftRight_zero]

@[simp] theorem bswap16_bswap16 (x : BitVec 16) : bswap16 (bswap16 x) = x := by
  apply BitVec.eq_of_toNat_eq
  have := x.isLt
  rw [toNat_bswap16, toNat_bswap16]
  omega

theorem bswap16_inj {x y : BitVec 16} : bswap16 x = bswap16 y ↔ x = y := by
  constructor
  · intro h
    rw [← bswap16_bswap16 x, h, bswap16_bswap16]
  · rintro rfl
    rfl

/-- The fields of `struct sock` and `struct tcp_sock` the probes read; `skcDport` is in
network order. -/
structure Sock where
  skcRcvSaddr : BitVec 32
  skcDaddr : BitVec 32
  skcNum : BitVec 16
  skcDport : BitVec 16
  bytesSent : BitVec 64
  bytesReceived : BitVec 64

/-- The remote port in host order. -/
def Sock.dport (sk : Sock) : BitVec 16 := bswap16 sk.skcDport

/-- The two sockets have the same addresses and ports. -/
def Sock.SameAddresses (sk sk' : Sock) : Prop :=
  sk.skcRcvSaddr = sk'.skcRcvSaddr ∧ sk.skcDaddr = sk'.skcDaddr ∧ sk.skcNum = sk'.skcNum ∧
    sk.skcDport = sk'.skcDport

/-- The current process as the helpers report it. -/
structure Task where
  pidTgid : BitVec 64
  uidGid : BitVec 64
  comm : Comm

def Task.pid (cur : Task) : BitVec 32 := (cur.pidTgid >>> 32).setWidth 32

def Task.uid (cur : Task) : BitVec 32 := (cur.uidGid &&& 0xFFFFFFFF).setWidth 32

/-- `struct tcp_event`. -/
structure TcpEvent where
  timestampNs : BitVec 64
  pid : BitVec 32
  uid : BitVec 32
  comm : Comm
  srcIp : BitVec 32
  dstIp : BitVec 32
  srcPort : BitVec 16
  dstPort : BitVec 16
  af : BitVec 8
  action : BitVec 8
  bytesTx : BitVec 64
  bytesRx : BitVec 64

def afInet : BitVec 8 := 2

def tcpActionConnect : BitVec 8 := 0

def tcpActionClose : BitVec 8 := 1

/-- `pending_connects`. -/
abbrev PendingConnects := BoundedMap (BitVec 32) TcpEvent 4096

/-- The array `filters`: `0` for the process, `1` for the port, each off when zero. -/
abbrev Filters := Fin 2 → BitVec 32

abbrev Filters.pidIndex : Fin 2 := 0

abbrev Filters.portIndex : Fin 2 := 1

/-! ### The probes -/

/-- The lookups in an array map cannot fail, so only the tests of the values are left. -/
def shouldFilter (filters : Filters) (pid : BitVec 32) (dport : BitVec 16) : Bool :=
  if filters 0 ≠ 0 ∧ filters 0 ≠ pid then true
  else if filters 1 ≠ 0 ∧ (filters 1).setWidth 16 ≠ dport then true
  else false

/-- The event `trace_tcp_connect` builds. -/
def connectEvent (cur : Task) (now : BitVec 64) (sk : Sock) : TcpEvent where
  timestampNs := now
  pid := cur.pid
  uid := cur.uid
  comm := cur.comm
  srcIp := sk.skcRcvSaddr
  dstIp := sk.skcDaddr
  srcPort := sk.skcNum
  dstPort := sk.dport
  af := afInet
  action := tcpActionConnect
  bytesTx := 0
  bytesRx := 0

def traceTcpConnect (filters : Filters) (pending : PendingConnects) (cur : Task) (now : BitVec 64)
    (sk : Sock) (reserved : Bool) : Option TcpEvent × PendingConnects :=
  if shouldFilter filters cur.pid sk.dport then (none, pending)
  else
    let ev := connectEvent cur now sk
    (if reserved then some ev else none, pending.update cur.pid ev)

/-- The event `trace_tcp_close` submits: the pending one or one made from the socket, with
the clock, the action and the byte counts of the socket. -/
def closeEvent (pending : Option TcpEvent) (cur : Task) (now : BitVec 64) (sk : Sock) : TcpEvent :=
  match pending with
  | some ev =>
      { ev with
        timestampNs := now
        action := tcpActionClose
        bytesTx := sk.bytesSent
        bytesRx := sk.bytesReceived }
  | none =>
      { timestampNs := now
        pid := cur.pid
        uid := cur.uid
        comm := cur.comm
        srcIp := sk.skcRcvSaddr
        dstIp := sk.skcDaddr
        srcPort := sk.skcNum
        dstPort := sk.dport
        af := afInet
        action := tcpActionClose
        bytesTx := sk.bytesSent
        bytesRx := sk.bytesReceived }

def traceTcpClose (pending : PendingConnects) (cur : Task) (now : BitVec 64) (sk : Sock)
    (reserved : Bool) : Option TcpEvent × PendingConnects :=
  if reserved then
    match pending.lookup cur.pid with
    | some ev => (some (closeEvent (some ev) cur now sk), pending.delete cur.pid)
    | none => (some (closeEvent none cur now sk), pending)
  else (none, pending)

/-! ### Runs of probes -/

inductive ProbeKind where
  | connect
  | close
deriving DecidableEq

/-- One firing of a probe: the process, the clock, the socket, and whether
`bpf_ringbuf_reserve` succeeds. -/
structure Probe where
  kind : ProbeKind
  cur : Task
  now : BitVec 64
  sk : Sock
  reserved : Bool

namespace Probe

def exec (filters : Filters) (pending : PendingConnects) (p : Probe) :
    Option TcpEvent × PendingConnects :=
  match p.kind with
  | .connect => traceTcpConnect filters pending p.cur p.now p.sk p.reserved
  | .close => traceTcpClose pending p.cur p.now p.sk p.reserved

/-- The map after the probes `pre`, from the empty map. -/
def pendingAfter (filters : Filters) (pre : List Probe) : PendingConnects :=
  (Runs.execAll (exec filters) BoundedMap.empty pre).2

/-- In the run `probes` the probe `p` submits the event `ev`. -/
def Submits (filters : Filters) (probes : List Probe) (p : Probe) (ev : TcpEvent) : Prop :=
  (p, some ev) ∈ probes.zip (Runs.execAll (exec filters) BoundedMap.empty probes).1

/-- The probe is a connect of the process `pid` that passes the filters. -/
def Tracks (filters : Filters) (pid : BitVec 32) (p : Probe) : Prop :=
  p.kind = .connect ∧ p.cur.pid = pid ∧ shouldFilter filters pid p.sk.dport = false

/-- The probe is a close of the process `pid` that has space for its event. -/
def Takes (pid : BitVec 32) (p : Probe) : Prop :=
  p.kind = .close ∧ p.cur.pid = pid ∧ p.reserved = true

/-- After the probes `pre` the connect `c` is the one remembered for its process: it passed
the filters and the map had room for it, and since then no connect of the process passed the
filters and no close of the process had space for its event. -/
def Outstanding (filters : Filters) (pre : List Probe) (c : Probe) : Prop :=
  ∃ before after, pre = before ++ c :: after ∧ c.Tracks filters c.cur.pid ∧
    (pendingAfter filters before).Accepts c.cur.pid ∧
    ∀ p ∈ after, ¬ p.Tracks filters c.cur.pid ∧ ¬ p.Takes c.cur.pid

variable {filters : Filters}

theorem submits_iff {probes : List Probe} {p : Probe} {ev : TcpEvent} :
    Submits filters probes p ev ↔
      ∃ pre post, probes = pre ++ p :: post ∧ (p.exec filters (pendingAfter filters pre)).1 = some ev :=
  Runs.mem_zip_execAll

theorem pendingAfter_concat (pre : List Probe) (p : Probe) :
    pendingAfter filters (pre ++ [p]) = (p.exec filters (pendingAfter filters pre)).2 := by
  unfold pendingAfter
  rw [Runs.execAll_append_snd]
  rfl

/-! ### What one probe does to the entry of a process -/

section entry

variable {m : PendingConnects} {p : Probe} {pid : BitVec 32}

theorem Tracks.exec_eq (h : p.Tracks filters pid) :
    p.exec filters m = (if p.reserved then some (connectEvent p.cur p.now p.sk) else none,
      m.update pid (connectEvent p.cur p.now p.sk)) := by
  obtain ⟨hkind, rfl, hpass⟩ := h
  simp only [exec, hkind, traceTcpConnect, hpass, Bool.false_eq_true, if_false]

/-- A tracked connect is remembered if the map accepts it. -/
theorem Tracks.lookup_exec (h : p.Tracks filters pid) (ha : m.Accepts pid) :
    (p.exec filters m).2.lookup pid = some (connectEvent p.cur p.now p.sk) := by
  rw [h.exec_eq, BoundedMap.lookup_update, if_pos ⟨rfl, ha⟩]

/-- A map that does not accept the process has no entry for it either. -/
theorem Tracks.lookup_exec_full (h : p.Tracks filters pid) (ha : ¬ m.Accepts pid) :
    (p.exec filters m).2.lookup pid = none := by
  rw [h.exec_eq, BoundedMap.lookup_update, if_neg (fun hc => ha hc.2)]
  cases hm : m.lookup pid with
  | none => rfl
  | some ev => exact absurd (BoundedMap.accepts_of_lookup hm) ha

theorem Takes.exec_fst (h : p.Takes pid) :
    (p.exec filters m).1 = some (closeEvent (m.lookup pid) p.cur p.now p.sk) := by
  obtain ⟨hkind, rfl, hres⟩ := h
  simp only [exec, hkind, traceTcpClose, hres, if_true]
  cases hm : m.lookup p.cur.pid <;> rfl

theorem Takes.lookup_exec (h : p.Takes pid) : (p.exec filters m).2.lookup pid = none := by
  obtain ⟨hkind, rfl, hres⟩ := h
  simp only [exec, hkind, traceTcpClose, hres, if_true]
  cases hm : m.lookup p.cur.pid with
  | none => exact hm
  | some ev =>
      show (m.delete p.cur.pid).lookup p.cur.pid = none
      rw [BoundedMap.lookup_delete, if_pos rfl]

/-- Every other probe leaves the entry alone. -/
theorem lookup_exec_other (ht : ¬ p.Tracks filters pid) (hc : ¬ p.Takes pid) :
    (p.exec filters m).2.lookup pid = m.lookup pid := by
  by_cases hpid : p.cur.pid = pid
  · subst hpid
    cases hkind : p.kind with
    | connect =>
        have hf : shouldFilter filters p.cur.pid p.sk.dport = true := by
          by_contra hf
          exact ht ⟨hkind, rfl, Bool.eq_false_iff.mpr hf⟩
        simp only [exec, hkind, traceTcpConnect, hf, if_true]
    | close =>
        have hres : p.reserved = false := by
          by_contra hres
          exact hc ⟨hkind, rfl, Bool.of_not_eq_false hres⟩
        simp only [exec, hkind, traceTcpClose, hres, Bool.false_eq_true, if_false]
  · cases hkind : p.kind with
    | connect =>
        simp only [exec, hkind, traceTcpConnect]
        cases shouldFilter filters p.cur.pid p.sk.dport with
        | true => rfl
        | false =>
            show (m.update p.cur.pid _).lookup pid = _
            rw [BoundedMap.lookup_update, if_neg (fun hc => hpid hc.1.symm)]
    | close =>
        simp only [exec, hkind, traceTcpClose]
        split_ifs
        · cases m.lookup p.cur.pid with
          | none => rfl
          | some ev =>
              show (m.delete p.cur.pid).lookup pid = _
              rw [BoundedMap.lookup_delete, if_neg (fun he => hpid he.symm)]
        · rfl

end entry

/-! ### The map in terms of the history -/

theorem outstanding_concat {pre : List Probe} {p c : Probe} :
    Outstanding filters (pre ++ [p]) c ↔
      (c = p ∧ p.Tracks filters p.cur.pid ∧ (pendingAfter filters pre).Accepts p.cur.pid) ∨
      (Outstanding filters pre c ∧ ¬ p.Tracks filters c.cur.pid ∧ ¬ p.Takes c.cur.pid) := by
  constructor
  · rintro ⟨before, after, hsplit, ht, ha, hafter⟩
    rcases List.eq_nil_or_concat after with rfl | ⟨after, last, rfl⟩
    · obtain ⟨rfl, hc⟩ := List.append_inj' hsplit rfl
      obtain rfl := List.singleton_inj.mp hc
      exact Or.inl ⟨rfl, ht, ha⟩
    · rw [List.concat_eq_append, ← List.cons_append, ← List.append_assoc] at hsplit
      obtain ⟨rfl, hl⟩ := List.append_inj' hsplit rfl
      obtain rfl := List.singleton_inj.mp hl
      simp only [List.concat_eq_append, List.mem_append, List.mem_singleton] at hafter
      exact Or.inr ⟨⟨before, after, rfl, ht, ha, fun q hq => hafter q (Or.inl hq)⟩,
        hafter p (Or.inr rfl)⟩
  · rintro (⟨rfl, ht, ha⟩ | ⟨⟨before, after, rfl, ht, ha, hafter⟩, hp⟩)
    · exact ⟨pre, [], rfl, ht, ha, by simp⟩
    · refine ⟨before, after ++ [p], by simp, ht, ha, ?_⟩
      intro q hq
      rcases List.mem_append.mp hq with hq | hq
      · exact hafter q hq
      · obtain rfl := List.mem_singleton.mp hq
        exact hp

/-- **The map holds exactly the outstanding connects.** -/
theorem lookup_pendingAfter_iff {pre : List Probe} {pid : BitVec 32} {ev : TcpEvent} :
    (pendingAfter filters pre).lookup pid = some ev ↔
      ∃ c, Outstanding filters pre c ∧ c.cur.pid = pid ∧ ev = connectEvent c.cur c.now c.sk := by
  induction pre using List.reverseRecOn generalizing ev with
  | nil =>
      constructor
      · intro h
        cases h
      · rintro ⟨c, ⟨before, after, hsplit, _⟩, _⟩
        simp at hsplit
  | append_singleton pre p ih =>
      rw [pendingAfter_concat]
      simp only [outstanding_concat]
      by_cases ht : p.Tracks filters pid
      · have hpid := ht.2.1
        by_cases ha : (pendingAfter filters pre).Accepts pid
        · rw [ht.lookup_exec ha]
          constructor
          · intro h
            obtain rfl := Option.some.inj h
            exact ⟨p, Or.inl ⟨rfl, hpid ▸ ht, hpid ▸ ha⟩, hpid, rfl⟩
          · rintro ⟨c, ⟨rfl, _⟩ | ⟨_, hnt, _⟩, rfl, rfl⟩
            · rfl
            · exact absurd ht hnt
        · rw [ht.lookup_exec_full ha]
          constructor
          · intro h
            cases h
          · rintro ⟨c, ⟨rfl, _, ha'⟩ | ⟨_, hnt, _⟩, rfl, rfl⟩
            · exact absurd ha' ha
            · exact absurd ht hnt
      · by_cases hc : p.Takes pid
        · rw [hc.lookup_exec]
          constructor
          · intro h
            cases h
          · rintro ⟨c, ⟨rfl, ht', _⟩ | ⟨_, _, hnc⟩, rfl, rfl⟩
            · exact absurd ht' ht
            · exact absurd hc hnc
        · rw [lookup_exec_other ht hc, ih]
          constructor
          · rintro ⟨c, ho, rfl, rfl⟩
            exact ⟨c, Or.inr ⟨ho, ht, hc⟩, rfl, rfl⟩
          · rintro ⟨c, ⟨rfl, ht', _⟩ | ⟨ho, _, _⟩, rfl, rfl⟩
            · exact absurd ht' ht
            · exact ⟨c, ho, rfl, rfl⟩

/-- **Which events are submitted**: those of the tracked connects with ring-buffer space and
those of the closes with ring-buffer space. -/
theorem exec_fst_eq_some_iff {m : PendingConnects} {p : Probe} {ev : TcpEvent} :
    (p.exec filters m).1 = some ev ↔
      (p.Tracks filters p.cur.pid ∧ p.reserved = true ∧ ev = connectEvent p.cur p.now p.sk) ∨
      (p.Takes p.cur.pid ∧ ev = closeEvent (m.lookup p.cur.pid) p.cur p.now p.sk) := by
  constructor
  · intro h
    cases hkind : p.kind with
    | connect =>
        simp only [exec, hkind, traceTcpConnect] at h
        split_ifs at h with hf hres
        · exact Or.inl ⟨⟨hkind, rfl, Bool.eq_false_iff.mpr hf⟩, hres, (Option.some.inj h).symm⟩
    | close =>
        cases hres : p.reserved with
        | true =>
            rw [Takes.exec_fst ⟨hkind, rfl, hres⟩] at h
            exact Or.inr ⟨⟨hkind, rfl, hres⟩, (Option.some.inj h).symm⟩
        | false =>
            simp only [exec, hkind, traceTcpClose, hres, Bool.false_eq_true, if_false] at h
            cases h
  · rintro (⟨ht, hres, rfl⟩ | ⟨hc, rfl⟩)
    · rw [ht.exec_eq, hres]
      rfl
    · exact hc.exec_fst

end Probe

/-! ### Close events and their sockets -/

/-- The event carries the addresses, ports and byte counts of the socket. -/
def TcpEvent.Describes (ev : TcpEvent) (sk : Sock) : Prop :=
  (ev.srcIp = sk.skcRcvSaddr ∧ ev.dstIp = sk.skcDaddr ∧ ev.srcPort = sk.skcNum ∧
    ev.dstPort = sk.dport) ∧ ev.bytesTx = sk.bytesSent ∧ ev.bytesRx = sk.bytesReceived

instance (ev : TcpEvent) (sk : Sock) : Decidable (ev.Describes sk) :=
  inferInstanceAs (Decidable (_ ∧ _))

namespace Probe

/-- Without a pending connect the event is made from the socket. -/
theorem describes_closeEvent_none (cur : Task) (now : BitVec 64) (sk : Sock) :
    (closeEvent none cur now sk).Describes sk :=
  ⟨⟨rfl, rfl, rfl, rfl⟩, rfl, rfl⟩

theorem describes_closeEvent_some_iff (c : Probe) (cur : Task) (now : BitVec 64) (sk : Sock) :
    (closeEvent (some (connectEvent c.cur c.now c.sk)) cur now sk).Describes sk ↔
      c.sk.SameAddresses sk := by
  simp only [TcpEvent.Describes, closeEvent, connectEvent, Sock.SameAddresses, Sock.dport,
    bswap16_inj, and_true]

/-- **Close events describe the socket that was closed** in exactly those runs in which every
close that finds an outstanding connect of its process closes a socket with the same addresses. -/
theorem closeEvents_describe_sock_iff (filters : Filters) (probes : List Probe) :
    (∀ p ev, p.kind = .close → Submits filters probes p ev → ev.Describes p.sk) ↔
      ∀ pre p post, probes = pre ++ p :: post → p.kind = .close → p.reserved = true →
        ∀ c, Outstanding filters pre c → c.cur.pid = p.cur.pid → c.sk.SameAddresses p.sk := by
  constructor
  · intro h pre p post hsplit hkind hres c hc hpid
    have hlook : (pendingAfter filters pre).lookup p.cur.pid = some (connectEvent c.cur c.now c.sk) :=
      lookup_pendingAfter_iff.mpr ⟨c, hc, hpid, rfl⟩
    have hsub : Submits filters probes p
        (closeEvent (some (connectEvent c.cur c.now c.sk)) p.cur p.now p.sk) := by
      rw [submits_iff]
      exact ⟨pre, post, hsplit, exec_fst_eq_some_iff.mpr (Or.inr ⟨⟨hkind, rfl, hres⟩, by rw [hlook]⟩)⟩
    exact (describes_closeEvent_some_iff c _ _ _).mp (h p _ hkind hsub)
  · intro h p ev hkind hsub
    obtain ⟨pre, post, hsplit, hev⟩ := submits_iff.mp hsub
    rcases exec_fst_eq_some_iff.mp hev with ⟨ht, _⟩ | ⟨hc, rfl⟩
    · rw [ht.1] at hkind
      cases hkind
    · cases hlook : (pendingAfter filters pre).lookup p.cur.pid with
      | none => exact describes_closeEvent_none _ _ _
      | some ev =>
          obtain ⟨c, ho, hpid, rfl⟩ := lookup_pendingAfter_iff.mp hlook
          exact (describes_closeEvent_some_iff c _ _ _).mpr
            (h pre p post hsplit hkind hc.2.2 c ho hpid)

/-- A process `curl` with the id `pid`. -/
def process (pid : BitVec 32) : Task :=
  ⟨pid.setWidth 64 <<< 32, 0, fun i => "curl".toList.getD i '\x00'⟩

/-- A socket of `10.0.0.1` connected to the HTTPS port of `10.0.0.2`. -/
def webSock : Sock := ⟨0x0100000A, 0x0200000A, 40000, 0xBB01, 120, 4096⟩

/-- A socket of `10.0.0.1` connected to a database on `10.0.0.3`. -/
def databaseSock : Sock := ⟨0x0100000A, 0x0300000A, 40001, 0x3815, 7, 9⟩

/-- Process 7 connects both sockets and closes the one to the web server. -/
def twoSockets : List Probe :=
  [⟨.connect, process 7, 1, webSock, true⟩, ⟨.connect, process 7, 2, databaseSock, true⟩,
    ⟨.close, process 7, 3, webSock, true⟩]

/-- **The wrong socket**: the close of the web connection is reported with the addresses of the
database connection. -/
theorem closeEvent_of_other_socket :
    ∃ ev, Submits (fun _ => 0) twoSockets ⟨.close, process 7, 3, webSock, true⟩ ev ∧
      ¬ ev.Describes webSock ∧ ev.dstIp = databaseSock.skcDaddr ∧ ev.srcPort = 40001 ∧
      ev.dstPort = 5432 ∧ ev.bytesRx = 4096 := by
  refine ⟨closeEvent (some (connectEvent (process 7) 2 databaseSock)) (process 7) 3 webSock, ?_,
    by decide, by decide, by decide, by decide, by decide⟩
  exact submits_iff.mpr ⟨twoSockets.take 2, [], rfl, rfl⟩

end Probe

/-! ### Events and the filters -/

/-- The event is of the process and the port the filters ask for. -/
def TcpEvent.PassesFilters (ev : TcpEvent) (filters : Filters) : Prop :=
  (filters 0 ≠ 0 → ev.pid = filters 0) ∧ (filters 1 ≠ 0 → ev.dstPort.setWidth 32 = filters 1)

theorem shouldFilter_eq_false_iff {filters : Filters} {pid : BitVec 32} {dport : BitVec 16} :
    shouldFilter filters pid dport = false ↔
      (filters 0 ≠ 0 → pid = filters 0) ∧ (filters 1 ≠ 0 → dport = (filters 1).setWidth 16) := by
  unfold shouldFilter
  split_ifs with h0 h1
  · simp only [false_iff]
    exact fun h => h0.2 (h.1 h0.1).symm
  · simp only [false_iff]
    exact fun h => h1.2 (h.2 h1.1).symm
  · simp only [true_iff]
    constructor
    · intro hne
      by_contra hpid
      exact h0 ⟨hne, fun he => hpid he.symm⟩
    · intro hne
      by_contra hport
      exact h1 ⟨hne, fun he => hport he.symm⟩

/-- The filter compares the low 16 bits of the port, so an event it lets through has the
configured port if that fits into 16 bits. -/
theorem passesFilters_iff_of_shouldFilter {filters : Filters} {ev : TcpEvent}
    (h : shouldFilter filters ev.pid ev.dstPort = false) :
    ev.PassesFilters filters ↔ (filters 1).toNat < 2 ^ 16 := by
  obtain ⟨hpid, hport⟩ := shouldFilter_eq_false_iff.mp h
  have hlt := ev.dstPort.isLt
  constructor
  · rintro ⟨_, hp⟩
    by_cases hz : filters 1 = 0
    · rw [hz]
      decide
    · rw [← hp hz, BitVec.toNat_setWidth]
      omega
  · intro hsmall
    refine ⟨hpid, fun hne => ?_⟩
    apply BitVec.eq_of_toNat_eq
    rw [hport hne, BitVec.toNat_setWidth, BitVec.toNat_setWidth]
    omega

namespace Probe

variable {filters : Filters}

theorem Outstanding.shouldFilter_eq {pre : List Probe} {c : Probe} (h : Outstanding filters pre c) :
    shouldFilter filters c.cur.pid c.sk.dport = false := by
  obtain ⟨_, _, _, ht, _⟩ := h
  exact ht.2.2

/-- **All events pass the filters** in exactly those runs in which every close with ring-buffer
space and no outstanding connect of its process is of the configured process and port, and in
which, if any other event is submitted, the configured port fits into 16 bits. -/
theorem events_pass_filters_iff (filters : Filters) (probes : List Probe) :
    (∀ p ev, Submits filters probes p ev → ev.PassesFilters filters) ↔
      ∀ pre p post, probes = pre ++ p :: post → p.reserved = true →
        (p.kind = .close → (∀ c, Outstanding filters pre c → c.cur.pid ≠ p.cur.pid) →
          (filters 0 ≠ 0 → p.cur.pid = filters 0) ∧
          (filters 1 ≠ 0 → p.sk.dport.setWidth 32 = filters 1)) ∧
        (p.kind = .close → (∃ c, Outstanding filters pre c ∧ c.cur.pid = p.cur.pid) →
          (filters 1).toNat < 2 ^ 16) ∧
        (p.Tracks filters p.cur.pid → (filters 1).toNat < 2 ^ 16) := by
  constructor
  · intro h pre p post hsplit hres
    have hsub : ∀ ev, (p.exec filters (pendingAfter filters pre)).1 = some ev →
        ev.PassesFilters filters := fun ev hev => h p ev (submits_iff.mpr ⟨pre, post, hsplit, hev⟩)
    refine ⟨?_, ?_, ?_⟩
    · intro hkind hnone
      have hlook : (pendingAfter filters pre).lookup p.cur.pid = none := by
        by_contra hne
        obtain ⟨ev, hev⟩ := Option.ne_none_iff_exists'.mp hne
        obtain ⟨c, ho, hpid, _⟩ := lookup_pendingAfter_iff.mp hev
        exact hnone c ho hpid
      exact hsub _ (exec_fst_eq_some_iff.mpr (Or.inr ⟨⟨hkind, rfl, hres⟩, by rw [hlook]⟩))
    · rintro hkind ⟨c, ho, hpid⟩
      have hlook := lookup_pendingAfter_iff.mpr ⟨c, ho, hpid, rfl⟩
      exact (passesFilters_iff_of_shouldFilter ho.shouldFilter_eq).mp
        (hsub _ (exec_fst_eq_some_iff.mpr (Or.inr ⟨⟨hkind, rfl, hres⟩, by rw [hlook]⟩)))
    · intro ht
      exact (passesFilters_iff_of_shouldFilter ht.2.2).mp
        (hsub _ (exec_fst_eq_some_iff.mpr (Or.inl ⟨ht, hres, rfl⟩)))
  · intro h p ev hsub
    obtain ⟨pre, post, hsplit, hev⟩ := submits_iff.mp hsub
    rcases exec_fst_eq_some_iff.mp hev with ⟨ht, hres, rfl⟩ | ⟨hc, rfl⟩
    · exact (passesFilters_iff_of_shouldFilter ht.2.2).mpr ((h pre p post hsplit hres).2.2 ht)
    · obtain ⟨hnone, hsome, _⟩ := h pre p post hsplit hc.2.2
      cases hlook : (pendingAfter filters pre).lookup p.cur.pid with
      | none =>
          refine hnone hc.1 (fun c ho hpid => ?_)
          rw [lookup_pendingAfter_iff.mpr ⟨c, ho, hpid, rfl⟩] at hlook
          cases hlook
      | some ev =>
          obtain ⟨c, ho, hpid, rfl⟩ := lookup_pendingAfter_iff.mp hlook
          exact (passesFilters_iff_of_shouldFilter ho.shouldFilter_eq).mpr
            (hsome hc.1 ⟨c, ho, hpid⟩)

/-- **The filter is bypassed**: only process 7 and port 443 are asked for, and the close of a
socket of process 8 that was never seen connecting is reported. -/
theorem close_bypasses_filter :
    ∃ ev, Submits (fun i => if i = 0 then 7 else 443) [⟨.close, process 8, 1, databaseSock, true⟩]
        ⟨.close, process 8, 1, databaseSock, true⟩ ev ∧
      ¬ ev.PassesFilters (fun i => if i = 0 then 7 else 443) ∧ ev.pid = 8 ∧ ev.dstPort = 5432 := by
  refine ⟨closeEvent none (process 8) 1 databaseSock, ?_, ?_, by decide, by decide⟩
  · exact submits_iff.mpr ⟨[], [], rfl, rfl⟩
  · intro h
    exact absurd (h.1 (by decide)) (by decide)

end Probe

end EbpfMonitor
