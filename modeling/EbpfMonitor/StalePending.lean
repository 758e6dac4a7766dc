import EbpfMonitor.TcpTracer

/-! # Connections that are closed and still remembered

`trace_tcp_close` returns early when the ring buffer has no room, after it has looked the pending
connect up and before it deletes it.  The entry stays behind for a connection that is gone, and the
next close of the same process that has room takes it for its own.

* **Sockets.**  The probes get a `struct sock *`, which they only read through; `SocketProbe` keeps
  it, so that it can be said which close belongs to which connect.
* **Connections.**  A connection is one firing of the connect probe, at its place in the run.  Its
  own close is the first close of the same socket after it.  Addresses, process ids and sockets may
  be used again, and a socket may be connected more than once.
* **Remembered connects.**  `Remembers filters before c after` says that the entry of the process
  is the one the connect `c` made.  If the own close of `c` is among the probes `after`, it found no
  room (`own_close_without_room`).
* **Events.**  A close event is made from the entry of the process or, without one, from the socket that
  is closed; either way it is about one connection (`MadeFrom`).

From this `closeEvents_not_stale_iff` says in which runs no close event is about a connection whose
own close came before. -/

namespace EbpfMonitor

/-! ### Connections -/

instance (sk sk' : Sock) : Decidable (sk.SameAddresses sk') := inferInstanceAs (Decidable (_ ∧ _))

theorem Sock.SameAddresses.symm {sk sk' : Sock} (h : sk.SameAddresses sk') : sk'.SameAddresses sk :=
  ⟨h.1.symm, h.2.1.symm, h.2.2.1.symm, h.2.2.2.symm⟩

/-- The event carries the addresses and ports of the socket. -/
def TcpEvent.Carries (ev : TcpEvent) (sk : Sock) : Prop :=
  ev.srcIp = sk.skcRcvSaddr ∧ ev.dstIp = sk.skcDaddr ∧ ev.srcPort = sk.skcNum ∧ ev.dstPort = sk.dport

instance (ev : TcpEvent) (sk : Sock) : Decidable (ev.Carries sk) := inferInstanceAs (Decidable (_ ∧ _))

/-- A firing of a probe with the `struct sock *` it is called on. -/
structure SocketProbe extends Probe where
  socket : ℕ

namespace SocketProbe

open Probe (pendingAfter lookup_pendingAfter_iff exec_fst_eq_some_iff)

/-- The probe is a `tcp_close` of the socket. -/
def Closes (socket : ℕ) (d : SocketProbe) : Prop := d.kind = .close ∧ d.socket = socket

instance (socket : ℕ) (d : SocketProbe) : Decidable (d.Closes socket) :=
  inferInstanceAs (Decidable (_ ∧ _))

/-- The own close of a connection on the socket, among the probes after its connect. -/
def ownClose (socket : ℕ) (after : List SocketProbe) : Option SocketProbe :=
  after.find? (fun d => d.Closes socket)

/-- Every socket is closed by the process that connected it. -/
def ClosedByOwner (probes : List SocketProbe) : Prop :=
  ∀ before c after, probes = before ++ c :: after → c.kind = .connect →
    ∀ d ∈ ownClose c.socket after, d.cur.pid = c.cur.pid

/-- Sockets are not used again after their close, and no two of them have the same addresses. -/
def OwnAddresses (probes : List SocketProbe) : Prop :=
  probes.Pairwise (fun q r =>
    (q.sk.SameAddresses r.sk → q.socket = r.socket) ∧ (q.kind = .close → r.socket ≠ q.socket))

instance (probes : List SocketProbe) : Decidable (OwnAddresses probes) :=
  inferInstanceAs (Decidable (List.Pairwise _ _))

/-- The map after the probes `pre`. -/
def pending (filters : Filters) (pre : List SocketProbe) : PendingConnects :=
  pendingAfter filters (pre.map toProbe)

/-- After `before ++ c :: after` the entry of the process is the one that the connect `c` made: the
map had room for it, and nothing has overwritten or deleted it since. -/
structure Remembers (filters : Filters) (before : List SocketProbe) (c : SocketProbe)
    (after : List SocketProbe) : Prop where
  tracks : c.Tracks filters c.cur.pid
  accepts : (pending filters before).Accepts c.cur.pid
  since : ∀ q ∈ after, ¬ q.Tracks filters c.cur.pid ∧ ¬ q.Takes c.cur.pid

/-- After `before ++ c :: after` the event of the close `p` is about the connection `c`: it is made from
the entry of the process, which is that of `c`, or, if the process has no entry, from the socket, whose
last connect is `c`. -/
def MadeFrom (filters : Filters) (before : List SocketProbe) (c : SocketProbe)
    (after : List SocketProbe) (p : SocketProbe) : Prop :=
  Remembers filters before c after ∧ c.cur.pid = p.cur.pid ∨
    (pending filters (before ++ c :: after)).lookup p.cur.pid = none ∧
      c.kind = .connect ∧ c.socket = p.socket ∧ ∀ q ∈ after, q.kind = .connect → q.socket ≠ c.socket

/-- The event of the close `p` carries the addresses of the connection it is about, and the own close of
that connection is among the probes `pre` before it. -/
def Stale (filters : Filters) (pre : List SocketProbe) (p : SocketProbe) (ev : TcpEvent) : Prop :=
  ∃ before c after, pre = before ++ c :: after ∧ MadeFrom filters before c after p ∧
    ev.Carries c.sk ∧ (ownClose c.socket after).isSome

/-- The event carries the addresses of some connection whose own close is among the probes `pre`. -/
def CarriesClosed (pre : List SocketProbe) (ev : TcpEvent) : Prop :=
  ∃ before c after, pre = before ++ c :: after ∧ c.kind = .connect ∧ ev.Carries c.sk ∧
    (ownClose c.socket after).isSome

/-- No close `d` of a remembered connection `c` finds the buffer full and is followed by a close of
the process that has room, with the entry still there. -/
def NoneLeftBehind (filters : Filters) (probes : List SocketProbe) : Prop :=
  ∀ before c mid d mid' p post, probes = before ++ c :: (mid ++ d :: (mid' ++ p :: post)) →
    Remembers filters before c mid → d.Closes c.socket → d.reserved = false →
    (∀ q ∈ mid', ¬ q.Tracks filters c.cur.pid ∧ ¬ q.Takes c.cur.pid) → ¬ p.Takes c.cur.pid

/-- No socket is closed a second time, without a connect of it since the first and with the same
addresses, by a process that has room for the event and no entry. -/
def NoneClosedAgain (filters : Filters) (probes : List SocketProbe) : Prop :=
  ∀ before c mid d mid' p post, probes = before ++ c :: (mid ++ d :: (mid' ++ p :: post)) →
    c.kind = .connect → d.Closes c.socket → p.Closes c.socket → p.reserved = true →
    p.sk.SameAddresses c.sk → (∀ q ∈ mid ++ d :: mid', q.kind = .connect → q.socket ≠ c.socket) →
    ((pending filters (before ++ c :: (mid ++ d :: mid'))).lookup p.cur.pid).isSome

variable {filters : Filters}

/-! ### A remembered connect -/

theorem lookup_pending_iff {pre : List SocketProbe} {pid : BitVec 32} {ev : TcpEvent} :
    (pending filters pre).lookup pid = some ev ↔
      ∃ before c after, pre = before ++ c :: after ∧ Remembers filters before c after ∧
        c.cur.pid = pid ∧ ev = connectEvent c.cur c.now c.sk := by
  rw [pending, lookup_pendingAfter_iff]
  constructor
  · rintro ⟨_, ⟨_, _, hsplit, ht, ha, hafter⟩, hpid, rfl⟩
    obtain ⟨before, rest, rfl, rfl, hrest⟩ := List.map_eq_append_iff.mp hsplit
    obtain ⟨c, after, rfl, rfl, rfl⟩ := List.map_eq_cons_iff.mp hrest
    exact ⟨before, c, after, rfl, ⟨ht, ha, fun q hq => hafter q.toProbe (List.mem_map_of_mem hq)⟩, hpid, rfl⟩
  · rintro ⟨before, c, after, rfl, hr, hpid, rfl⟩
    refine ⟨c.toProbe, ⟨before.map toProbe, after.map toProbe, by simp, hr.tracks, hr.accepts, ?_⟩, hpid, rfl⟩
    intro _ hmem
    obtain ⟨q, hq, rfl⟩ := List.mem_map.mp hmem
    exact hr.since q hq

/-- A close without room changes nothing. -/
theorem Remembers.append_close {before mid mid' : List SocketProbe} {c d : SocketProbe}
    (h : Remembers filters before c mid) (hkind : d.kind = .close) (hres : d.reserved = false)
    (hmid : ∀ q ∈ mid', ¬ q.Tracks filters c.cur.pid ∧ ¬ q.Takes c.cur.pid) :
    Remembers filters before c (mid ++ d :: mid') := by
  refine ⟨h.tracks, h.accepts, fun q hq => ?_⟩
  rcases List.mem_append.mp hq with hq | hq
  · exact h.since q hq
  · rcases List.mem_cons.mp hq with rfl | hq
    · exact ⟨fun ht => by simp [ht.1] at hkind, fun ht => by simp [ht.2.2] at hres⟩
    · exact hmid q hq

theorem isSome_ownClose_iff {socket : ℕ} {after : List SocketProbe} :
    (ownClose socket after).isSome ↔ ∃ mid d mid', after = mid ++ d :: mid' ∧ d.Closes socket := by
  rw [ownClose, List.find?_isSome]
  constructor
  · rintro ⟨d, hd, hcloses⟩
    obtain ⟨mid, mid', rfl⟩ := List.append_of_mem hd
    exact ⟨mid, d, mid', rfl, of_decide_eq_true hcloses⟩
  · rintro ⟨mid, d, mid', rfl, hcloses⟩
    exact ⟨d, by simp, decide_eq_true hcloses⟩

/-- **The own close of a connection that is still remembered found no room**: it is a close of the
same process, and with room it would have deleted the entry. -/
theorem own_close_without_room {before after : List SocketProbe} {c : SocketProbe}
    (h : Remembers filters before c after)
    (howner : ∀ d ∈ ownClose c.socket after, d.cur.pid = c.cur.pid)
    (hclosed : (ownClose c.socket after).isSome) :
    ∃ mid d mid', after = mid ++ d :: mid' ∧ d.Closes c.socket ∧ d.reserved = false := by
  obtain ⟨d, hd⟩ := Option.isSome_iff_exists.mp hclosed
  obtain ⟨hcloses, mid, mid', rfl, -⟩ := List.find?_eq_some_iff_append.mp hd
  have hcloses : d.Closes c.socket := of_decide_eq_true hcloses
  refine ⟨mid, d, mid', rfl, hcloses, Bool.eq_false_iff.mpr fun hres => ?_⟩
  exact (h.since d (by simp)).2 ⟨hcloses.1, howner d hd, hres⟩

/-! ### Stale events -/

theorem carries_closeEvent_none_iff {cur : Task} {now : BitVec 64} {sk sk' : Sock} :
    (closeEvent none cur now sk).Carries sk' ↔ sk.SameAddresses sk' := by
  simp only [TcpEvent.Carries, closeEvent, Sock.SameAddresses, Sock.dport, bswap16_inj]

theorem carries_closeEvent_some_iff {c : Probe} {cur : Task} {now : BitVec 64} {sk sk' : Sock} :
    (closeEvent (some (connectEvent c.cur c.now c.sk)) cur now sk).Carries sk' ↔
      c.sk.SameAddresses sk' := by
  simp only [TcpEvent.Carries, closeEvent, connectEvent, Sock.SameAddresses, Sock.dport, bswap16_inj]

/-- The event of a close. -/
theorem closeEvent_of_exec {pre : List SocketProbe} {p : SocketProbe} {ev : TcpEvent}
    (hkind : p.kind = .close) (hev : (p.exec filters (pending filters pre)).1 = some ev) :
    p.Takes p.cur.pid ∧ ev = closeEvent ((pending filters pre).lookup p.cur.pid) p.cur p.now p.sk := by
  rcases exec_fst_eq_some_iff.mp hev with ⟨ht, -⟩ | h
  · rw [ht.1] at hkind
    cases hkind
  · exact h

theorem MadeFrom.connect {before after : List SocketProbe} {c p : SocketProbe}
    (h : MadeFrom filters before c after p) : c.kind = .connect := by
  rcases h with ⟨hr, -⟩ | ⟨-, hkind, -⟩
  · exact hr.tracks.1
  · exact hkind

/-- The close with room that follows is reported with the addresses that were left behind. -/
theorem Remembers.stale {before after : List SocketProbe} {c p : SocketProbe}
    (h : Remembers filters before c after) (hclosed : (ownClose c.socket after).isSome)
    (htakes : p.Takes c.cur.pid) :
    ∃ ev, (p.exec filters (pending filters (before ++ c :: after))).1 = some ev ∧
      Stale filters (before ++ c :: after) p ev := by
  have hlook : (pending filters (before ++ c :: after)).lookup c.cur.pid =
      some (connectEvent c.cur c.now c.sk) :=
    lookup_pending_iff.mpr ⟨before, c, after, rfl, h, rfl, rfl⟩
  refine ⟨_, htakes.exec_fst, before, c, after, rfl, Or.inl ⟨h, htakes.2.1.symm⟩, ?_, hclosed⟩
  rw [hlook, carries_closeEvent_some_iff]
  exact ⟨rfl, rfl, rfl, rfl⟩

/-- An event made from the entry of a connection that is closed: its own close left the entry behind. -/
theorem not_takes_of_noneLeftBehind {before after post : List SocketProbe} {c p : SocketProbe}
    (howner : ClosedByOwner (before ++ c :: after ++ p :: post))
    (hnone : NoneLeftBehind filters (before ++ c :: after ++ p :: post))
    (hr : Remembers filters before c after) (hclosed : (ownClose c.socket after).isSome) :
    ¬ p.Takes c.cur.pid := by
  -- the own close stays the first one, whatever follows
  have hown : ∀ d ∈ ownClose c.socket after, d.cur.pid = c.cur.pid := by
    intro d hd
    refine howner before c (after ++ p :: post) (by simp) hr.tracks.1 d ?_
    exact List.find?_append.trans (by rw [show after.find? _ = some d from hd]; rfl)
  obtain ⟨mid, d, mid', rfl, hd, hres⟩ := own_close_without_room hr hown hclosed
  refine hnone before c mid d mid' p post (by simp) ?_ hd hres ?_
  · exact ⟨hr.tracks, hr.accepts, fun q hq => hr.since q (by simp [hq])⟩
  · exact fun q hq => hr.since q (by simp [hq])

theorem not_stale_iff {probes : List SocketProbe} (howner : ClosedByOwner probes) :
    (∀ pre p post ev, probes = pre ++ p :: post → p.kind = .close →
      (p.exec filters (pending filters pre)).1 = some ev → ¬ Stale filters pre p ev) ↔
    NoneLeftBehind filters probes ∧ NoneClosedAgain filters probes := by
  constructor
  · intro h
    refine ⟨?_, ?_⟩
    · intro before c mid d mid' p post hsplit hr hd hres hmid htakes
      have hclosed := isSome_ownClose_iff.mpr ⟨mid, d, mid', rfl, hd⟩
      obtain ⟨ev, hev, hstale⟩ := (hr.append_close hd.1 hres hmid).stale hclosed htakes
      exact h _ p post ev (by simp [hsplit]) htakes.1 hev hstale
    · intro before c mid d mid' p post hsplit hc hd hp hres hsame hlast
      rw [Option.isSome_iff_ne_none]
      intro hlook
      have htakes : p.Takes p.cur.pid := ⟨hp.1, rfl, hres⟩
      refine h _ p post _ (by simp [hsplit]) hp.1 htakes.exec_fst ⟨before, c, mid ++ d :: mid', rfl,
        Or.inr ⟨hlook, hc, hp.2.symm, hlast⟩, ?_, isSome_ownClose_iff.mpr ⟨mid, d, mid', rfl, hd⟩⟩
      rw [hlook, carries_closeEvent_none_iff]
      exact hsame
  · rintro ⟨hleft, hagain⟩ pre p post ev rfl hkind hev ⟨before, c, after, rfl, hfrom, hcarries, hclosed⟩
    obtain ⟨htakes, rfl⟩ := closeEvent_of_exec hkind hev
    rcases hfrom with ⟨hr, hpid⟩ | ⟨hlook, hc, hsocket, hlast⟩
    · exact not_takes_of_noneLeftBehind howner hleft hr hclosed (hpid ▸ htakes)
    · rw [hlook, carries_closeEvent_none_iff] at hcarries
      obtain ⟨mid, d, mid', rfl, hd⟩ := isSome_ownClose_iff.mp hclosed
      have hentry := hagain before c mid d mid' p post (by simp) hc hd ⟨hkind, hsocket.symm⟩ htakes.2.2
        hcarries hlast
      rw [hlook] at hentry
      cases hentry

/-! ### Addresses -/

/-- Where addresses are not shared, they tell the socket. -/
theorem OwnAddresses.socket_eq {probes : List SocketProbe} (h : OwnAddresses probes) {q r : SocketProbe}
    (hq : q ∈ probes) (hr : r ∈ probes) (hsame : q.sk.SameAddresses r.sk) : q.socket = r.socket := by
  let R (q r : SocketProbe) : Prop := q.sk.SameAddresses r.sk → q.socket = r.socket
  have : Std.Symm R := ⟨fun _ _ hqr hs => (hqr hs.symm).symm⟩
  have hpair : probes.Pairwise R := h.imp And.left
  exact hpair.forall_of_forall (fun _ _ _ => rfl) hq hr hsame

theorem OwnAddresses.socket_ne {pre post : List SocketProbe} (h : OwnAddresses (pre ++ post))
    {d r : SocketProbe} (hd : d ∈ pre) (hkind : d.kind = .close) (hr : r ∈ post) : r.socket ≠ d.socket :=
  ((List.pairwise_append.mp h).2.2 d hd r hr).2 hkind

/-- A socket that is not used after its close is not closed again. -/
theorem OwnAddresses.noneClosedAgain {probes : List SocketProbe} (h : OwnAddresses probes) :
    NoneClosedAgain filters probes := by
  rintro before c mid d mid' p post rfl - hd hp - - -
  have hcut : OwnAddresses ((before ++ c :: (mid ++ [d])) ++ (mid' ++ p :: post)) := by simpa using h
  exact absurd (hp.2.trans hd.2.symm) (hcut.socket_ne (by simp) hd.1 (by simp))

/-- A close of the socket can only come after the connect. -/
theorem OwnAddresses.isSome_ownClose {before after : List SocketProbe} {c d : SocketProbe}
    (h : OwnAddresses (before ++ c :: after)) (hc : c.kind = .connect) (hd : d ∈ before ++ c :: after)
    (hcloses : d.Closes c.socket) : (ownClose c.socket after).isSome := by
  rcases List.mem_append.mp hd with hd | hd
  · exact absurd hcloses.2.symm (h.socket_ne hd hcloses.1 (by simp))
  · rcases List.mem_cons.mp hd with rfl | hd
    · rw [hcloses.1] at hc
      cases hc
    · obtain ⟨mid, mid', rfl⟩ := List.append_of_mem hd
      exact isSome_ownClose_iff.mpr ⟨mid, d, mid', rfl, hcloses⟩

/-- Where addresses are not shared, an event with those of a closed connection is made from the
entry of that connection. -/
theorem carriesClosed_iff_stale {pre post : List SocketProbe} {p : SocketProbe} {ev : TcpEvent}
    (hown : OwnAddresses (pre ++ p :: post)) (hkind : p.kind = .close)
    (hev : (p.exec filters (pending filters pre)).1 = some ev) :
    CarriesClosed pre ev ↔ Stale filters pre p ev := by
  constructor
  · rintro ⟨before, c, after, hpre, -, hcarries, hclosed⟩
    obtain ⟨mid, d, mid', rfl, hcloses⟩ := isSome_ownClose_iff.mp hclosed
    have hcpre : c ∈ pre := by simp [hpre]
    have hdpre : d ∈ pre := by simp [hpre]
    obtain ⟨-, rfl⟩ := closeEvent_of_exec hkind hev
    cases hlook : (pending filters pre).lookup p.cur.pid with
    | none =>
        -- the event is made from the socket that is being closed, which is not closed before
        rw [hlook, carries_closeEvent_none_iff] at hcarries
        have hsock : p.socket = c.socket :=
          hown.socket_eq (by simp) (List.mem_append_left _ hcpre) hcarries
        exact absurd (hsock.trans hcloses.2.symm) (hown.socket_ne hdpre hcloses.1 (by simp))
    | some e =>
        obtain ⟨before', c', after', rfl, hr, hpid, rfl⟩ := lookup_pending_iff.mp hlook
        rw [hlook, carries_closeEvent_some_iff] at hcarries
        have hsock : c'.socket = c.socket :=
          hown.socket_eq (by simp) (List.mem_append_left _ hcpre) hcarries
        refine ⟨before', c', after', rfl, Or.inl ⟨hr, hpid⟩, ?_, ?_⟩
        · rw [carries_closeEvent_some_iff]
          exact ⟨rfl, rfl, rfl, rfl⟩
        · exact OwnAddresses.isSome_ownClose (List.pairwise_append.mp hown).1 hr.tracks.1 hdpre
            (hsock ▸ hcloses)
  · rintro ⟨before, c, after, rfl, hfrom, hcarries, hclosed⟩
    exact ⟨before, c, after, rfl, hfrom.connect, hcarries, hclosed⟩

/-- **No close event is about a connection whose own close came before** in exactly those runs in
which no close that finds no room, of the connection that is remembered for its process, is followed
by a close with room of the process while the entry is still there, and no socket is closed a second
time by a process without an entry.  Where addresses are not shared and sockets not used after their
close, the first condition says exactly when no close event carries the addresses of any connection
whose own close came before. -/
theorem closeEvents_not_stale_iff (filters : Filters) (probes : List SocketProbe)
    (howner : ClosedByOwner probes) :
    ((∀ pre p post ev, probes = pre ++ p :: post → p.kind = .close →
        (p.exec filters (pending filters pre)).1 = some ev → ¬ Stale filters pre p ev) ↔
      NoneLeftBehind filters probes ∧ NoneClosedAgain filters probes) ∧
    (OwnAddresses probes →
      ((∀ pre p post ev, probes = pre ++ p :: post → p.kind = .close →
          (p.exec filters (pending filters pre)).1 = some ev → ¬ CarriesClosed pre ev) ↔
        NoneLeftBehind filters probes)) := by
  refine ⟨not_stale_iff howner, fun hown => ?_⟩
  refine Iff.trans ?_ ((not_stale_iff howner).trans (and_iff_left hown.noneClosedAgain))
  constructor
  · intro h pre p post ev hsplit hkind hev hstale
    exact h pre p post ev hsplit hkind hev ((carriesClosed_iff_stale (hsplit ▸ hown) hkind hev).mpr hstale)
  · intro h pre p post ev hsplit hkind hev hcarries
    exact h pre p post ev hsplit hkind hev ((carriesClosed_iff_stale (hsplit ▸ hown) hkind hev).mp hcarries)

/-- Process 7 opens both sockets and closes them again, the second one first. -/
def nested (reserved : Bool) : List SocketProbe :=
  [⟨⟨.connect, Probe.process 7, 1, Probe.webSock, true⟩, 1⟩,
    ⟨⟨.connect, Probe.process 7, 2, Probe.databaseSock, true⟩, 2⟩,
    ⟨⟨.close, Probe.process 7, 3, Probe.databaseSock, reserved⟩, 2⟩,
    ⟨⟨.close, Probe.process 7, 4, Probe.webSock, true⟩, 1⟩]

theorem closedByOwner_nested (reserved : Bool) : ClosedByOwner (nested reserved) := by
  have hall : ∀ q ∈ nested reserved, q.cur.pid = 7 := by
    cases reserved <;> decide
  intro before c after hsplit _ d hd
  rw [hall c (by simp [hsplit]), hall d (by simp [hsplit, List.mem_of_find?_eq_some hd])]

/-- With room for both closes no event is stale. -/
theorem closeEvents_not_stale_nested :
    ClosedByOwner (nested true) ∧ OwnAddresses (nested true) ∧
      (∀ pre p post ev, nested true = pre ++ p :: post → p.kind = .close →
        (p.exec (fun _ => 0) (pending (fun _ => 0) pre)).1 = some ev → ¬ Stale (fun _ => 0) pre p ev) ∧
      ∀ pre p post ev, nested true = pre ++ p :: post → p.kind = .close →
        (p.exec (fun _ => 0) (pending (fun _ => 0) pre)).1 = some ev → ¬ CarriesClosed pre ev := by
  have howner := closedByOwner_nested true
  have hown : OwnAddresses (nested true) := by decide
  have hnone : NoneLeftBehind (fun _ => 0) (nested true) := by
    intro before c mid d mid' p post hsplit _ _ hres
    -- every probe of this run has room
    have hall : ∀ q ∈ nested true, q.reserved = true := by decide
    rw [hall d (by simp [hsplit])] at hres
    cases hres
  obtain ⟨hstale, hcarries⟩ := closeEvents_not_stale_iff (fun _ => 0) (nested true) howner
  exact ⟨howner, hown, hstale.mpr ⟨hnone, hown.noneClosedAgain⟩, (hcarries hown).mpr hnone⟩

/-- **A stale event**: the close of the database connection finds no room, and the close of the web
connection is then reported with the addresses of the database connection. -/
theorem closeEvent_stale :
    ∃ pre p ev, ClosedByOwner (nested false) ∧ OwnAddresses (nested false) ∧
      nested false = pre ++ [p] ∧ p.kind = .close ∧ p.sk = Probe.webSock ∧
      (p.exec (fun _ => 0) (pending (fun _ => 0) pre)).1 = some ev ∧
      ev.Carries Probe.databaseSock ∧ CarriesClosed pre ev := by
  refine ⟨(nested false).take 3, ⟨⟨.close, Probe.process 7, 4, Probe.webSock, true⟩, 1⟩,
    closeEvent (some (connectEvent (Probe.process 7) 2 Probe.databaseSock)) (Probe.process 7) 4 Probe.webSock,
    closedByOwner_nested false, by decide, rfl, rfl, rfl, rfl, by decide, ?_⟩
  exact ⟨(nested false).take 1, ⟨⟨.connect, Probe.process 7, 2, Probe.databaseSock, true⟩, 2⟩,
    [⟨⟨.close, Probe.process 7, 3, Probe.databaseSock, false⟩, 2⟩], rfl, rfl, by decide, rfl⟩

end SocketProbe

end EbpfMonitor
