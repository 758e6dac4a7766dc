import EbpfMonitor.Aggregation
import EbpfMonitor.Lib.RingBuffer

/-! # Probes that overlap

`TcpTracer` takes the probes of `bpf/tcp_tracer.bpf.c` as atomic.  On several processors they overlap:
here a probe takes a step for each access to the maps, with the local work behind it, and any number of
tasks take their steps in any order, together with `handle_tcp_event` in user space.

* **The map.**  `bpf_map_lookup_elem` gives a pointer to an element of `pending_connects`, and the
  element may get another content before it is read.  An update takes a free element, any one; the one
  that held the entry before becomes free.
* **The ring buffer** has 4 MiB.  A record is reserved in one step and submitted in another one, and the
  reader stops at a record that is not submitted.
* **Records.**  `State.decided` lists the probes in the order in which it is decided whether they get a
  record, with the outcome: what their reservation gave, or no record for a filtered connect.
* **Processes.**  The key of the map is the process, so two threads of one process share an entry.
  `Alone` says that a probe starts when no other probe of its process is in progress.

`tcpProbes_linearize` says that under `Alone` the overlapping probes cannot be told from atomic ones: a
connect takes effect at its update, a close at its deletion.  What is proved for runs of atomic probes
then holds for these.  The proof goes through runs in which the tasks are the processes
(`Simulates.step`), where every process has its own part of the invariant (`ProcOk`). -/

namespace EbpfMonitor

open StatsReporter Probe Scrape

/-! ### Probes and their steps -/

/-- A call of a probe: the process, the clock it reads and the socket. -/
structure Firing where
  kind : ProbeKind
  cur : Task
  now : BitVec 64
  sk : Sock

def Firing.probe (f : Firing) (reserved : Bool) : Probe := ⟨f.kind, f.cur, f.now, f.sk, reserved⟩

def Probe.firing (p : Probe) : Firing := ⟨p.kind, p.cur, p.now, p.sk⟩

@[simp] theorem Firing.firing_probe (f : Firing) (reserved : Bool) : (f.probe reserved).firing = f := rfl

/-- The event that a connect builds. -/
def Firing.connected (f : Firing) : TcpEvent := connectEvent f.cur f.now f.sk

/-- The event that a close fills in. -/
def Firing.closed (f : Firing) (pending : Option TcpEvent) : TcpEvent := closeEvent pending f.cur f.now f.sk

namespace Tracer

/-- `max_entries` of `tcp_events`. -/
def bufferSize : ℕ := 4 * 1024 * 1024

/-- A record is the event and a header of eight bytes. -/
def recordLen : ℕ := 8 + 64

/-- The two maps; `table` has the element of each entry and `elems` what the elements hold. -/
structure Kernel where
  table : BoundedMap (BitVec 32) ℕ 4096
  elems : ℕ → TcpEvent
  buffer : RingBuffer TcpEvent

namespace Kernel

/-- The entry of `pending_connects` for the process. -/
def pending (k : Kernel) (pid : BitVec 32) : Option TcpEvent := (k.table.lookup pid).map k.elems

/-- No entry is in the element. -/
def free (k : Kernel) (elem : ℕ) : Bool := k.table.entries.entries.all (fun x => x.2 != elem)

/-- `bpf_map_update_elem`, with the element it takes. -/
def update (k : Kernel) (pid : BitVec 32) (ev : TcpEvent) (elem : ℕ) : Kernel :=
  if k.table.Accepts pid then
    { k with table := k.table.update pid elem, elems := Function.update k.elems elem ev }
  else k

/-- `bpf_map_delete_elem`. -/
def delete (k : Kernel) (pid : BitVec 32) : Kernel := { k with table := k.table.delete pid }

end Kernel

/-- Where a task is in a probe: before which access. -/
inductive Phase where
  | idle
  /-- a connect that passed `should_filter`, before the update of the map -/
  | update (f : Firing)
  /-- a connect, before its reservation -/
  | reserve (f : Firing)
  /-- a close with the pointer that the lookup gave, before its reservation -/
  | looked (f : Firing) (elem : Option ℕ)
  /-- a close with a record, before the copy from the element -/
  | copy (f : Firing) (ticket elem : ℕ)
  /-- a close with the copy, before the deletion -/
  | delete (f : Firing) (ticket : ℕ) (copied : TcpEvent)
  /-- a probe that has filled its record -/
  | submit (f : Firing) (ticket : ℕ) (ev : TcpEvent)

inductive Input where
  | fire (f : Firing)
  /-- go on; an update takes the element `elem` -/
  | go (elem : ℕ)

def Input.fired : Input → List Firing
  | fire f => [f]
  | go _ => []

/-- The next step of a task. -/
def next (filters : Filters) (k : Kernel) : Phase → Input → Option (Kernel × Phase)
  | .idle, .fire f =>
      match f.kind with
      | .connect =>
          if shouldFilter filters f.cur.pid f.sk.dport then some (k, .idle) else some (k, .update f)
      | .close => some (k, .looked f (k.table.lookup f.cur.pid))
  | .update f, .go elem =>
      if k.free elem then some (k.update f.cur.pid f.connected elem, .reserve f) else none
  | .reserve f, .go _ =>
      match k.buffer.reserve bufferSize recordLen with
      | some (ticket, b) => some ({ k with buffer := b }, .submit f ticket f.connected)
      | none => some (k, .idle)
  | .looked f elem, .go _ =>
      match k.buffer.reserve bufferSize recordLen with
      | some (ticket, b) =>
          match elem with
          | some e => some ({ k with buffer := b }, .copy f ticket e)
          | none => some ({ k with buffer := b }, .submit f ticket (f.closed none))
      | none => some (k, .idle)
  | .copy f ticket elem, .go _ => some (k, .delete f ticket (k.elems elem))
  | .delete f ticket copied, .go _ => some (k.delete f.cur.pid, .submit f ticket (f.closed (some copied)))
  | .submit _ ticket ev, .go _ => some ({ k with buffer := k.buffer.submit ticket ev }, .idle)
  | _, _ => none

/-- The probe of which this step decides whether it gets a record: a filtered connect gets none, another
probe gets one if the buffer has room for it. -/
def Phase.decided (filters : Filters) (k : Kernel) : Phase → Input → List Probe
  | .idle, .fire f =>
      match f.kind with
      | .connect => if shouldFilter filters f.cur.pid f.sk.dport then [f.probe false] else []
      | .close => []
  | .reserve f, .go _ | .looked f _, .go _ => [f.probe (k.buffer.reserve bufferSize recordLen).isSome]
  | _, _ => []

/-- The kernel with its tasks `ι`, and the reporter; `fired` are the probes started, `decided` those that
got their record or none, and `handled` the events that `handle_tcp_event` got. -/
structure State (ι : Type) where
  kernel : Kernel
  phases : ι → Phase
  reporter : StatsReporter
  fired : List Firing
  decided : List Probe
  handled : List TcpEvent

inductive Action (ι : Type) where
  | task (i : ι) (x : Input)
  /-- user space handles one record -/
  | handle

namespace State

variable {ι : Type} [DecidableEq ι]

def init (elems : ℕ → TcpEvent) : State ι := ⟨⟨.empty, elems, .empty⟩, fun _ => .idle, .empty, [], [], []⟩

def step (filters : Filters) (s : State ι) : Action ι → Option (State ι)
  | .task i x =>
      (next filters s.kernel (s.phases i) x).map (fun (k, ph) =>
        { s with
          kernel := k
          phases := Function.update s.phases i ph
          fired := s.fired ++ x.fired
          decided := s.decided ++ (s.phases i).decided filters s.kernel x })
  | .handle =>
      s.kernel.buffer.consume.map (fun (ev, b) =>
        { s with
          kernel := { s.kernel with buffer := b }
          reporter := s.reporter.record ev
          handled := s.handled ++ [ev] })

end State

/-! ### What a step does -/

/-- The steps of a task, with the probe that is decided. -/
inductive Move (filters : Filters) (k : Kernel) : Phase → Input → Kernel → Phase → List Probe → Prop where
  | filtered {f : Firing} (hkind : f.kind = .connect) (hf : shouldFilter filters f.cur.pid f.sk.dport = true) :
      Move filters k .idle (.fire f) k .idle [f.probe false]
  | connect {f : Firing} (hkind : f.kind = .connect)
      (hf : shouldFilter filters f.cur.pid f.sk.dport = false) :
      Move filters k .idle (.fire f) k (.update f) []
  | lookup {f : Firing} (hkind : f.kind = .close) :
      Move filters k .idle (.fire f) k (.looked f (k.table.lookup f.cur.pid)) []
  | update {f : Firing} {elem : ℕ} (hfree : k.free elem = true) :
      Move filters k (.update f) (.go elem) (k.update f.cur.pid f.connected elem) (.reserve f) []
  | connectFull {f : Firing} {x : ℕ} (hb : k.buffer.reserve bufferSize recordLen = none) :
      Move filters k (.reserve f) (.go x) k .idle [f.probe false]
  | connectReserve {f : Firing} {x ticket : ℕ} {b : RingBuffer TcpEvent}
      (hb : k.buffer.reserve bufferSize recordLen = some (ticket, b)) :
      Move filters k (.reserve f) (.go x) { k with buffer := b } (.submit f ticket f.connected)
        [f.probe true]
  | closeFull {f : Firing} {elem : Option ℕ} {x : ℕ}
      (hb : k.buffer.reserve bufferSize recordLen = none) :
      Move filters k (.looked f elem) (.go x) k .idle [f.probe false]
  | closeReserve {f : Firing} {x ticket : ℕ} {b : RingBuffer TcpEvent}
      (hb : k.buffer.reserve bufferSize recordLen = some (ticket, b)) :
      Move filters k (.looked f none) (.go x) { k with buffer := b } (.submit f ticket (f.closed none))
        [f.probe true]
  | pendingReserve {f : Firing} {x ticket elem : ℕ} {b : RingBuffer TcpEvent}
      (hb : k.buffer.reserve bufferSize recordLen = some (ticket, b)) :
      Move filters k (.looked f (some elem)) (.go x) { k with buffer := b } (.copy f ticket elem)
        [f.probe true]
  | copy {f : Firing} {x ticket elem : ℕ} :
      Move filters k (.copy f ticket elem) (.go x) k (.delete f ticket (k.elems elem)) []
  | delete {f : Firing} {x ticket : ℕ} {copied : TcpEvent} :
      Move filters k (.delete f ticket copied) (.go x) (k.delete f.cur.pid)
        (.submit f ticket (f.closed (some copied))) []
  | submit {f : Firing} {x ticket : ℕ} {ev : TcpEvent} :
      Move filters k (.submit f ticket ev) (.go x) { k with buffer := k.buffer.submit ticket ev } .idle []

theorem move_of_next {filters : Filters} {k k' : Kernel} {ph ph' : Phase} {x : Input}
    (h : next filters k ph x = some (k', ph')) : Move filters k ph x k' ph' (ph.decided filters k x) := by
  unfold next at h
  split at h
  case h_1 f =>
    unfold Phase.decided
    split at h
    case h_1 hkind =>
      simp only [hkind]
      split_ifs at h ⊢ with hf
      · obtain ⟨rfl, rfl⟩ := Prod.mk.inj (Option.some.inj h)
        exact .filtered hkind hf
      · obtain ⟨rfl, rfl⟩ := Prod.mk.inj (Option.some.inj h)
        exact .connect hkind (Bool.eq_false_iff.mpr hf)
    case h_2 hkind =>
      simp only [hkind]
      obtain ⟨rfl, rfl⟩ := Prod.mk.inj (Option.some.inj h)
      exact .lookup hkind
  case h_2 f elem =>
    obtain ⟨hfree, h⟩ := Option.ite_none_right_eq_some.mp h
    obtain ⟨rfl, rfl⟩ := Prod.mk.inj (Option.some.inj h)
    exact .update hfree
  case h_3 f x =>
    unfold Phase.decided
    split at h
    case h_1 hb =>
      obtain ⟨rfl, rfl⟩ := Prod.mk.inj (Option.some.inj h)
      rw [hb]
      exact .connectReserve hb
    case h_2 hb =>
      obtain ⟨rfl, rfl⟩ := Prod.mk.inj (Option.some.inj h)
      rw [hb]
      exact .connectFull hb
  case h_4 f elem x =>
    unfold Phase.decided
    split at h
    case h_1 hb =>
      rw [hb]
      cases elem with
      | none =>
          obtain ⟨rfl, rfl⟩ := Prod.mk.inj (Option.some.inj h)
          exact .closeReserve hb
      | some e =>
          obtain ⟨rfl, rfl⟩ := Prod.mk.inj (Option.some.inj h)
          exact .pendingReserve hb
    case h_2 hb =>
      obtain ⟨rfl, rfl⟩ := Prod.mk.inj (Option.some.inj h)
      rw [hb]
      exact .closeFull hb
  case h_5 =>
    obtain ⟨rfl, rfl⟩ := Prod.mk.inj (Option.some.inj h)
    exact .copy
  case h_6 =>
    obtain ⟨rfl, rfl⟩ := Prod.mk.inj (Option.some.inj h)
    exact .delete
  case h_7 =>
    obtain ⟨rfl, rfl⟩ := Prod.mk.inj (Option.some.inj h)
    exact .submit
  case h_8 => cases h

namespace Kernel

variable {k : Kernel} {pid q : BitVec 32} {elem : ℕ}

theorem lookup_ne_of_free (h : k.free elem = true) (pid : BitVec 32) : k.table.lookup pid ≠ some elem := by
  intro hl
  have hmem : (⟨pid, elem⟩ : Sigma fun _ : BitVec 32 => ℕ) ∈ k.table.entries.entries :=
    AList.mem_lookup_iff.mp hl
  have hne := List.all_eq_true.mp h _ hmem
  simp at hne

theorem lookup_update_of_ne (hne : pid ≠ q) (ev : TcpEvent) :
    (k.update q ev elem).table.lookup pid = k.table.lookup pid := by
  unfold update
  split_ifs
  · show (k.table.update q elem).lookup pid = _
    rw [BoundedMap.lookup_update, if_neg (fun h => hne h.1)]
  · rfl

/-- The element of an update held no entry, so no other entry changes. -/
theorem pending_update (hfree : k.free elem = true) (pid q : BitVec 32) (ev : TcpEvent) :
    (k.update q ev elem).pending pid = if pid = q ∧ k.table.Accepts q then some ev else k.pending pid := by
  unfold update
  split_ifs with ha heq heq
  · show ((k.table.update q elem).lookup pid).map (Function.update k.elems elem ev) = some ev
    rw [BoundedMap.lookup_update, if_pos heq, Option.map_some, Function.update_self]
  · show ((k.table.update q elem).lookup pid).map (Function.update k.elems elem ev) = k.pending pid
    rw [BoundedMap.lookup_update, if_neg heq]
    unfold pending
    cases hl : k.table.lookup pid with
    | none => rfl
    | some e =>
        have hne : e ≠ elem := fun h => lookup_ne_of_free hfree pid (h ▸ hl)
        rw [Option.map_some, Option.map_some, Function.update_of_ne hne]
  · exact absurd heq.2 ha
  · rfl

theorem buffer_update (q : BitVec 32) (ev : TcpEvent) : (k.update q ev elem).buffer = k.buffer := by
  unfold update
  split_ifs <;> rfl

theorem buffer_delete (q : BitVec 32) : (k.delete q).buffer = k.buffer := rfl

theorem lookup_delete_of_ne (hne : pid ≠ q) : (k.delete q).table.lookup pid = k.table.lookup pid := by
  show (k.table.delete q).lookup pid = _
  rw [BoundedMap.lookup_delete, if_neg hne]

theorem pending_delete (pid q : BitVec 32) : (k.delete q).pending pid = if pid = q then none else k.pending pid := by
  show ((k.table.delete q).lookup pid).map _ = _
  rw [BoundedMap.lookup_delete]
  split_ifs
  · rfl
  · rfl

end Kernel

/-! ### Atomic probes, seen from a process -/

/-- The part of a run of atomic probes that concerns a process: its probes, its entry in the map, and
the events with its id. -/
structure Share where
  probes : List Probe
  entry : Option TcpEvent
  sent : List TcpEvent

def share (filters : Filters) (probes : List Probe) (pid : BitVec 32) : Share where
  probes := probes.filter (fun p => p.cur.pid = pid)
  entry := (pendingAfter filters probes).lookup pid
  sent := (events filters .empty probes).filter (fun ev => ev.pid = pid)

variable {filters : Filters}

theorem events_concat (probes : List Probe) (p : Probe) :
    events filters .empty (probes ++ [p]) =
      events filters .empty probes ++ (p.exec filters (pendingAfter filters probes)).1.toList := by
  unfold events
  rw [Runs.execAll_append_fst, List.reduceOption_append]
  congr 1

/-- An event has the id of the process whose probe submits it. -/
theorem pid_of_exec {probes : List Probe} {p : Probe} {ev : TcpEvent}
    (h : (p.exec filters (pendingAfter filters probes)).1 = some ev) : ev.pid = p.cur.pid := by
  rcases exec_fst_eq_some_iff.mp h with ⟨-, -, rfl⟩ | ⟨-, rfl⟩
  · rfl
  · cases hl : (pendingAfter filters probes).lookup p.cur.pid with
    | none => rfl
    | some c =>
        obtain ⟨d, -, hd, rfl⟩ := lookup_pendingAfter_iff.mp hl
        exact hd

theorem share_concat_of_ne (probes : List Probe) {p : Probe} {pid : BitVec 32} (hne : p.cur.pid ≠ pid) :
    share filters (probes ++ [p]) pid = share filters probes pid := by
  unfold share
  congr 1
  · simp [hne]
  · rw [pendingAfter_concat]
    exact lookup_exec_other (fun h => hne h.2.1) (fun h => hne h.2.1)
  · rw [events_concat, List.filter_append]
    have hnone : (p.exec filters (pendingAfter filters probes)).1.toList.filter (fun ev => ev.pid = pid) = [] := by
      rw [List.filter_eq_nil_iff]
      intro ev hev
      have hpid := pid_of_exec (Option.mem_toList.mp hev)
      simpa [hpid] using hne
    rw [hnone, List.append_nil]

theorem share_concat_self (filters : Filters) (probes : List Probe) (p : Probe) :
    share filters (probes ++ [p]) p.cur.pid =
      ⟨(share filters probes p.cur.pid).probes ++ [p],
        (p.exec filters (pendingAfter filters probes)).2.lookup p.cur.pid,
        (share filters probes p.cur.pid).sent ++ (p.exec filters (pendingAfter filters probes)).1.toList⟩ := by
  unfold share
  congr 1
  · simp
  · rw [pendingAfter_concat]
  · rw [events_concat, List.filter_append]
    congr 1
    rw [List.filter_eq_self]
    intro ev hev
    simpa using pid_of_exec (Option.mem_toList.mp hev)

theorem share_commit {probes : List Probe} {f : Firing} {r : Bool} {ev : Option TcpEvent} {m : PendingConnects}
    (h : (f.probe r).exec filters (pendingAfter filters probes) = (ev, m)) :
    share filters (probes ++ [f.probe r]) f.cur.pid =
      ⟨(share filters probes f.cur.pid).probes ++ [f.probe r], m.lookup f.cur.pid,
        (share filters probes f.cur.pid).sent ++ ev.toList⟩ := by
  have hself := share_concat_self filters probes (f.probe r)
  rw [h] at hself
  exact hself

/-- Probes of other processes do not matter. -/
theorem share_append_of_ne (probes : List Probe) {pid : BitVec 32} {post : List Probe}
    (hpost : ∀ p ∈ post, p.cur.pid ≠ pid) : share filters (probes ++ post) pid = share filters probes pid := by
  induction post using List.reverseRecOn with
  | nil => rw [List.append_nil]
  | append_singleton post p ih =>
      rw [← List.append_assoc, share_concat_of_ne _ (hpost p (by simp))]
      exact ih (fun p' hp' => hpost p' (List.mem_append_left _ hp'))

/-! The reservation of a connect comes after its effect on the map, so its success is known when later
probes have taken effect already. -/

/-- Whether a connect gets a record is of no concern to the map and to other processes. -/
theorem share_reserved (filters : Filters) (pre post : List Probe) {f : Firing} (hkind : f.kind = .connect) :
    pendingAfter filters (pre ++ f.probe true :: post) = pendingAfter filters (pre ++ f.probe false :: post) ∧
      ∀ pid, f.cur.pid ≠ pid → share filters (pre ++ f.probe true :: post) pid =
        share filters (pre ++ f.probe false :: post) pid := by
  induction post using List.reverseRecOn with
  | nil =>
      refine ⟨?_, fun pid hne => ?_⟩
      · rw [pendingAfter_concat, pendingAfter_concat]
        simp only [Probe.exec, Firing.probe, hkind, traceTcpConnect]
        split_ifs <;> rfl
      · rw [share_concat_of_ne _ (by exact hne), share_concat_of_ne _ (by exact hne)]
  | append_singleton post p ih =>
      obtain ⟨hmap, hshare⟩ := ih
      simp only [← List.cons_append, ← List.append_assoc]
      refine ⟨?_, fun pid hne => ?_⟩
      · rw [pendingAfter_concat, pendingAfter_concat, hmap]
      · by_cases hp : p.cur.pid = pid
        · subst hp
          rw [share_concat_self, share_concat_self, hshare _ hne, hmap]
        · rw [share_concat_of_ne _ hp, share_concat_of_ne _ hp, hshare _ hne]

theorem exists_of_getLast?_filter {l : List Probe} {q : Probe → Bool} {p : Probe}
    (h : (l.filter q).getLast? = some p) :
    ∃ pre post, l = pre ++ p :: post ∧ ∀ p' ∈ post, q p' = false := by
  rw [← List.head?_reverse, ← List.filter_reverse, List.head?_filter,
    List.find?_eq_some_iff_append] at h
  obtain ⟨-, as, bs, hsplit, has⟩ := h
  refine ⟨bs.reverse, as.reverse, ?_, fun p' hp' => ?_⟩
  · rw [← List.reverse_reverse l, hsplit]
    simp
  · simpa using has p' (List.mem_reverse.mp hp')

/-- The reservation of the last probe of a process, a connect that passed the filters, succeeds. -/
theorem exists_reserved {probes : List Probe} {f : Firing} (hkind : f.kind = .connect)
    (hpass : shouldFilter filters f.cur.pid f.sk.dport = false)
    {others : List Probe} (hlast : (share filters probes f.cur.pid).probes = others ++ [f.probe false]) :
    ∃ probes', (∀ pid, f.cur.pid ≠ pid → share filters probes' pid = share filters probes pid) ∧
      share filters probes' f.cur.pid =
        ⟨others ++ [f.probe true], (share filters probes f.cur.pid).entry,
          (share filters probes f.cur.pid).sent ++ [f.connected]⟩ := by
  have hgetLast : (share filters probes f.cur.pid).probes.getLast? = some (f.probe false) := by
    rw [hlast, List.getLast?_concat]
  obtain ⟨pre, post, rfl, hpost⟩ := exists_of_getLast?_filter hgetLast
  obtain ⟨-, hother⟩ := share_reserved filters pre post hkind
  refine ⟨pre ++ f.probe true :: post, hother, ?_⟩
  -- the later probes are of other processes, so only the one at hand is left to look at
  have hshare : ∀ r, share filters (pre ++ f.probe r :: post) f.cur.pid =
      share filters (pre ++ [f.probe r]) f.cur.pid := by
    intro r
    rw [List.append_cons]
    exact share_append_of_ne _ (fun p hp => by simpa using hpost p hp)
  have hexec : ∀ r m, (f.probe r).exec filters m = (if r then some f.connected else none,
      m.update f.cur.pid f.connected) := by
    intro r m
    exact Tracks.exec_eq (p := f.probe r) ⟨hkind, rfl, hpass⟩
  rw [hshare, share_commit (hexec _ _)] at hlast ⊢
  rw [hshare, share_commit (hexec _ _), List.append_cancel_right hlast]
  simp

/-! ### The invariant of a process -/

namespace Phase

def firing : Phase → Option Firing
  | idle => none
  | update f | reserve f | looked f _ | copy f _ _ | delete f _ _ | submit f _ _ => some f

/-- The process whose probe is in progress. -/
def pid (ph : Phase) : Option (BitVec 32) := ph.firing.map (fun f => f.cur.pid)

/-- The record that is reserved and not submitted. -/
def ticket : Phase → Option ℕ
  | copy _ t _ | delete _ t _ | submit _ t _ => some t
  | idle | update _ | reserve _ | looked _ _ => none

/-- The probe, as long as it has had no effect. -/
def waiting : Phase → List Firing
  | update f | looked f _ | copy f _ _ | delete f _ _ => [f]
  | idle | reserve _ | submit _ _ _ => []

/-- The probe, when it has its record and has had no effect. -/
def ahead : Phase → List Probe
  | copy f _ _ | delete f _ _ => [f.probe true]
  | idle | update _ | reserve _ | looked _ _ | submit _ _ _ => []

/-- The probe, when it has had its effect and is not decided. -/
def undecided : Phase → List Probe
  | reserve f => [f.probe false]
  | idle | update _ | looked _ _ | copy _ _ _ | delete _ _ _ | submit _ _ _ => []

/-- The event that is filled in and not submitted. -/
def filled : Phase → List TcpEvent
  | submit _ _ ev => [ev]
  | idle | update _ | reserve _ | looked _ _ | copy _ _ _ | delete _ _ _ => []

/-- What the process `q` relies on in the middle of a probe: nobody else touches its entry. -/
def Ok (filters : Filters) (k : Kernel) (q : BitVec 32) : Phase → Prop
  | idle => True
  | update f => f.cur.pid = q ∧ f.kind = .connect ∧ shouldFilter filters f.cur.pid f.sk.dport = false
  | reserve f => f.cur.pid = q ∧ f.kind = .connect ∧ shouldFilter filters f.cur.pid f.sk.dport = false
  | looked f elem => f.cur.pid = q ∧ f.kind = .close ∧ k.table.lookup q = elem
  | copy f _ elem => f.cur.pid = q ∧ f.kind = .close ∧ k.table.lookup q = some elem
  | delete f _ copied => f.cur.pid = q ∧ f.kind = .close ∧ k.pending q = some copied
  | submit f _ ev => f.cur.pid = q ∧ ev.pid = q

theorem Ok.congr {filters : Filters} {k k' : Kernel} {q : BitVec 32} {ph : Phase}
    (h : ph.Ok filters k q) (hlookup : k'.table.lookup q = k.table.lookup q)
    (hpending : k'.pending q = k.pending q) : ph.Ok filters k' q := by
  cases ph with
  | idle => trivial
  | update f => exact h
  | reserve f => exact h
  | looked f elem => exact ⟨h.1, h.2.1, hlookup.trans h.2.2⟩
  | copy f t elem => exact ⟨h.1, h.2.1, hlookup.trans h.2.2⟩
  | delete f t copied => exact ⟨h.1, h.2.1, hpending.trans h.2.2⟩
  | submit f t ev => exact h

end Phase

/-- The process `q` against its share of a run of atomic probes; `keys` are the processes that made
the reservations. -/
structure ProcOk (filters : Filters) (k : Kernel) (keys : List (BitVec 32)) (started : List Firing)
    (settled : List Probe) (out : List TcpEvent) (sh : Share) (q : BitVec 32) (ph : Phase) : Prop where
  entry : k.pending q = sh.entry
  phase : ph.Ok filters k q
  last : ∀ t, ph.ticket = some t → ∀ t', t < t' → keys[t']? ≠ some q
  fired : sh.probes.map Probe.firing ++ ph.waiting = started.filter (fun f => f.cur.pid = q)
  decided : sh.probes ++ ph.ahead = settled.filter (fun p => p.cur.pid = q) ++ ph.undecided
  sent : (out ++ k.buffer.stored).filter (fun ev => ev.pid = q) ++ ph.filled = sh.sent

/-- The record that each process holds. -/
def held (phases : BitVec 32 → Phase) (q : BitVec 32) : Option (ℕ × BitVec 32) :=
  (phases q).ticket.map (fun t => (t, q))

theorem held_update (phases : BitVec 32 → Phase) (q : BitVec 32) (ph : Phase) :
    held (Function.update phases q ph) = Function.update (held phases) q (ph.ticket.map (fun t => (t, q))) := by
  funext pid
  rcases eq_or_ne pid q with rfl | hne
  · simp [held]
  · simp [held, hne]

theorem held_update_of_ticket {phases : BitVec 32 → Phase} {q : BitVec 32} {ph : Phase}
    (h : ph.ticket = (phases q).ticket) : held (Function.update phases q ph) = held phases := by
  rw [held_update, h]
  exact Function.update_eq_self q (held phases)

theorem held_of_ticket {phases : BitVec 32 → Phase} {q : BitVec 32} {t : ℕ}
    (h : (phases q).ticket = some t) : held phases q = some (t, q) := by
  simp [held, h]

/-- The run so far is one of the atomic probes `probes`, up to the probes in progress. -/
structure Linearized (filters : Filters) (s : State (BitVec 32)) (probes : List Probe)
    (keys : List (BitVec 32)) : Prop where
  ring : RingBuffer.Holds (fun q ev => TcpEvent.pid ev = q) s.kernel.buffer (held s.phases) keys s.handled
  proc : ∀ q, ProcOk filters s.kernel keys s.fired s.decided s.handled (share filters probes q) q (s.phases q)
  reporter : s.reporter = recordAll s.handled

/-- What a step of the process `q` may change. -/
structure Frame (filters : Filters) (q : BitVec 32) (k k' : Kernel) (keys keys' : List (BitVec 32))
    (probes probes' : List Probe) : Prop where
  lookup : ∀ pid, q ≠ pid → k'.table.lookup pid = k.table.lookup pid
  pending : ∀ pid, q ≠ pid → k'.pending pid = k.pending pid
  stored : ∀ pid, q ≠ pid → k'.buffer.stored.filter (fun ev => ev.pid = pid) =
    k.buffer.stored.filter (fun ev => ev.pid = pid)
  keys : ∀ pid, q ≠ pid → ∀ t : ℕ, keys'[t]? = some pid → keys[t]? = some pid
  share : ∀ pid, q ≠ pid → share filters probes' pid = share filters probes pid

namespace Frame

variable {q : BitVec 32} {k k' k'' : Kernel} {keys keys' keys'' : List (BitVec 32)}
  {probes probes' probes'' : List Probe}

theorem refl : Frame filters q k k keys keys probes probes :=
  ⟨fun _ _ => rfl, fun _ _ => rfl, fun _ _ => rfl, fun _ _ _ h => h, fun _ _ => rfl⟩

theorem trans (h : Frame filters q k k' keys keys' probes probes')
    (h' : Frame filters q k' k'' keys' keys'' probes' probes'') :
    Frame filters q k k'' keys keys'' probes probes'' where
  lookup pid hne := (h'.lookup pid hne).trans (h.lookup pid hne)
  pending pid hne := (h'.pending pid hne).trans (h.pending pid hne)
  stored pid hne := (h'.stored pid hne).trans (h.stored pid hne)
  keys pid hne t ht := h.keys pid hne t (h'.keys pid hne t ht)
  share pid hne := (h'.share pid hne).trans (h.share pid hne)

theorem commit (f : Firing) (r : Bool) :
    Frame filters f.cur.pid k k keys keys probes (probes ++ [f.probe r]) where
  lookup _ _ := rfl
  pending _ _ := rfl
  stored _ _ := rfl
  keys _ _ _ h := h
  share _ hne := share_concat_of_ne probes hne

theorem update {elem : ℕ} (hfree : k.free elem = true) (ev : TcpEvent) :
    Frame filters q k (k.update q ev elem) keys keys probes probes where
  lookup _ hne := Kernel.lookup_update_of_ne hne.symm ev
  pending pid hne := by rw [Kernel.pending_update hfree, if_neg (fun h => hne h.1.symm)]
  stored _ _ := by rw [Kernel.buffer_update]
  keys _ _ _ h := h
  share _ _ := rfl

theorem delete : Frame filters q k (k.delete q) keys keys probes probes where
  lookup _ hne := Kernel.lookup_delete_of_ne hne.symm
  pending pid hne := by rw [Kernel.pending_delete, if_neg hne.symm]
  stored _ _ := by rw [Kernel.buffer_delete]
  keys _ _ _ h := h
  share _ _ := rfl

theorem reserve {ticket : ℕ} {b : RingBuffer TcpEvent}
    (hb : k.buffer.reserve bufferSize recordLen = some (ticket, b)) :
    Frame filters q k { k with buffer := b } keys (keys ++ [q]) probes probes where
  lookup _ _ := rfl
  pending _ _ := rfl
  stored _ _ := by rw [RingBuffer.stored_reserve hb]
  keys pid hne t ht := by
    rcases Nat.lt_or_ge t keys.length with hlt | hge
    · rwa [List.getElem?_append_left hlt] at ht
    · rw [List.getElem?_append_right hge, List.getElem?_singleton] at ht
      obtain ⟨-, ht⟩ := Option.ite_none_right_eq_some.mp ht
      exact absurd (Option.some.inj ht) hne
  share _ _ := rfl

theorem submit {phases : BitVec 32 → Phase} {out : List TcpEvent} {ticket : ℕ} {ev : TcpEvent}
    (h : RingBuffer.Holds (fun q ev => TcpEvent.pid ev = q) k.buffer (held phases) keys out)
    (ht : (phases q).ticket = some ticket) (hev : ev.pid = q) :
    Frame filters q k { k with buffer := k.buffer.submit ticket ev } keys keys probes probes where
  lookup _ _ := rfl
  pending _ _ := rfl
  stored pid hne := by
    obtain ⟨xs, ys, hxs, hys, -⟩ := h.stored_submit ev (held_of_ticket ht)
    rw [hxs]
    show ((k.buffer.submit ticket ev).stored).filter _ = _
    rw [hys]
    simp [hev, hne]
  keys _ _ _ h := h
  share _ _ := rfl

end Frame

/-- A step of a process keeps the part of every other one. -/
theorem Linearized.advance {s : State (BitVec 32)} {probes probes' : List Probe} {q : BitVec 32} {x : Input}
    {keys keys' : List (BitVec 32)} {k' : Kernel} {ph' : Phase} {ds : List Probe}
    (h : Linearized filters s probes keys) (hx : ∀ f ∈ x.fired, f.cur.pid = q)
    (hds : ∀ p ∈ ds, p.cur.pid = q)
    (hframe : Frame filters q s.kernel k' keys keys' probes probes')
    (hring : RingBuffer.Holds (fun q ev => TcpEvent.pid ev = q) k'.buffer
      (held (Function.update s.phases q ph')) keys' s.handled)
    (hq : ProcOk filters k' keys' (s.fired ++ x.fired) (s.decided ++ ds) s.handled (share filters probes' q)
      q ph') :
    Linearized filters
      { s with
        kernel := k'
        phases := Function.update s.phases q ph'
        fired := s.fired ++ x.fired
        decided := s.decided ++ ds } probes' keys' := by
  refine ⟨hring, fun pid => ?_, h.reporter⟩
  rcases eq_or_ne q pid with rfl | hne
  · simpa using hq
  · have hp := h.proc pid
    have hnone : x.fired.filter (fun f => f.cur.pid = pid) = [] := by
      rw [List.filter_eq_nil_iff]
      intro f hf
      simpa [hx f hf] using hne
    have hnoneDecided : ds.filter (fun p => p.cur.pid = pid) = [] := by
      rw [List.filter_eq_nil_iff]
      intro p hp
      simpa [hds p hp] using hne
    simp only [Function.update_of_ne hne.symm, hframe.share pid hne]
    constructor
    case entry => exact (hframe.pending pid hne).trans hp.entry
    case phase => exact hp.phase.congr (hframe.lookup pid hne) (hframe.pending pid hne)
    case last => exact fun t ht t' hlt hk => hp.last t ht t' hlt (hframe.keys pid hne t' hk)
    case fired => rw [List.filter_append, hnone, List.append_nil, hp.fired]
    case decided => rw [List.filter_append, hnoneDecided, List.append_nil, hp.decided]
    case sent =>
      rw [List.filter_append, hframe.stored pid hne, ← List.filter_append]
      exact hp.sent

namespace Linearized

variable {s : State (BitVec 32)} {probes : List Probe} {keys : List (BitVec 32)} {f : Firing} {x : ℕ}

/-- The map accepts a process when the one of the atomic probes does. -/
theorem accepts_iff (h : Linearized filters s probes keys) (q : BitVec 32) :
    s.kernel.table.Accepts q ↔ (pendingAfter filters probes).Accepts q := by
  refine BoundedMap.accepts_congr (fun pid => ?_) q
  have hentry : s.kernel.pending pid = (pendingAfter filters probes).lookup pid := (h.proc pid).entry
  rw [← hentry]
  simp [Kernel.pending]

/-- The number of the next reservation. -/
theorem ticket_eq (h : Linearized filters s probes keys) {ticket : ℕ} {b : RingBuffer TcpEvent}
    (hb : s.kernel.buffer.reserve bufferSize recordLen = some (ticket, b)) : ticket = keys.length := by
  rw [(RingBuffer.reserve_eq_some hb).1, h.ring.consumed, h.ring.total]

/-- No reservation comes after the last one. -/
theorem last_concat {ticket : ℕ} {q : BitVec 32} (ht : ticket = keys.length) :
    ∀ t', ticket < t' → (keys ++ [q])[t']? ≠ some q := by
  intro t' hlt hk
  have hle := (List.getElem?_eq_some_iff.mp hk).1
  rw [List.length_append, List.length_singleton] at hle
  omega

theorem ring_reserve (h : Linearized filters s probes keys) {ticket : ℕ} {b : RingBuffer TcpEvent}
    (hb : s.kernel.buffer.reserve bufferSize recordLen = some (ticket, b)) {q : BitVec 32} {ph : Phase}
    (hph : ph.ticket = some ticket) :
    RingBuffer.Holds (fun q ev => TcpEvent.pid ev = q) b (held (Function.update s.phases q ph))
      (keys ++ [q]) s.handled := by
  rw [held_update, hph]
  exact h.ring.reserve q hb q

/-- A probe of the process takes effect. -/
theorem procOk_commit {k k' : Kernel} {keys' : List (BitVec 32)} {started : List Firing} {settled : List Probe}
    {out : List TcpEvent} {ph' : Phase} {r : Bool} {ev : Option TcpEvent} {m : PendingConnects}
    (hfired : (share filters probes f.cur.pid).probes.map Probe.firing ++ [f] =
      started.filter (fun f' => f'.cur.pid = f.cur.pid))
    (hdecided : (share filters probes f.cur.pid).probes ++ [f.probe r] =
      settled.filter (fun p => p.cur.pid = f.cur.pid) ++ ph'.undecided)
    (hsent : (out ++ k.buffer.stored).filter (fun ev => ev.pid = f.cur.pid) =
      (share filters probes f.cur.pid).sent)
    (hexec : (f.probe r).exec filters (pendingAfter filters probes) = (ev, m))
    (hentry : k'.pending f.cur.pid = m.lookup f.cur.pid)
    (hstored : k'.buffer.stored = k.buffer.stored)
    (hphase : ph'.Ok filters k' f.cur.pid)
    (hlast : ∀ t, ph'.ticket = some t → ∀ t', t < t' → keys'[t']? ≠ some f.cur.pid)
    (hwaiting : ph'.waiting = []) (hahead : ph'.ahead = []) (hfilled : ph'.filled = ev.toList) :
    ProcOk filters k' keys' started settled out (share filters (probes ++ [f.probe r]) f.cur.pid) f.cur.pid
      ph' := by
  rw [share_commit hexec]
  constructor
  case entry => exact hentry
  case phase => exact hphase
  case last => exact hlast
  case fired =>
    rw [hwaiting, List.append_nil, List.map_append, ← hfired]
    rfl
  case decided => rw [hahead, List.append_nil, hdecided]
  case sent => rw [hstored, hsent, hfilled]

theorem last_of_none {ph : Phase} (h : ph.ticket = none) {P : ℕ → Prop} (t : ℕ) (ht : ph.ticket = some t) :
    P t := by
  rw [h] at ht
  cases ht

/-- The probes started, when the process starts another one. -/
theorem fired_fire (h : Linearized filters s probes keys) (hph : s.phases f.cur.pid = .idle) :
    (share filters probes f.cur.pid).probes.map Probe.firing ++ [f] =
      (s.fired ++ [f]).filter (fun f' => f'.cur.pid = f.cur.pid) := by
  have hfired := (h.proc f.cur.pid).fired
  rw [hph] at hfired
  rw [List.filter_append, ← hfired]
  simp [Phase.waiting]

/-- The probes decided, when the process has none of which the effect and the decision are apart. -/
theorem settled (h : Linearized filters s probes keys) {q : BitVec 32} (hahead : (s.phases q).ahead = [])
    (hundecided : (s.phases q).undecided = []) :
    (share filters probes q).probes = s.decided.filter (fun p => p.cur.pid = q) := by
  have hdecided := (h.proc q).decided
  rwa [hahead, hundecided, List.append_nil, List.append_nil] at hdecided

/-- A probe of the process is decided. -/
theorem filter_decided (ps : List Probe) (f : Firing) (r : Bool) :
    (ps ++ [f.probe r]).filter (fun p => p.cur.pid = f.cur.pid) =
      ps.filter (fun p => p.cur.pid = f.cur.pid) ++ [f.probe r] := by
  simp [Firing.probe]

/-- A probe is decided as it takes effect. -/
theorem settled_concat (h : Linearized filters s probes keys) (hahead : (s.phases f.cur.pid).ahead = [])
    (hundecided : (s.phases f.cur.pid).undecided = []) (r : Bool) :
    (share filters probes f.cur.pid).probes ++ [f.probe r] =
      (s.decided ++ [f.probe r]).filter (fun p => p.cur.pid = f.cur.pid) ++ [] := by
  rw [filter_decided, h.settled hahead hundecided, List.append_nil]

theorem decided_nil {q : BitVec 32} : ∀ p ∈ ([] : List Probe), p.cur.pid = q := by simp

theorem decided_self {r : Bool} : ∀ p ∈ [f.probe r], p.cur.pid = f.cur.pid := by simp [Firing.probe]

/-- The events of the process, when it has none on its way. -/
theorem sent_of_filled (h : Linearized filters s probes keys) {q : BitVec 32}
    (hph : (s.phases q).filled = []) :
    (s.handled ++ s.kernel.buffer.stored).filter (fun ev => ev.pid = q) = (share filters probes q).sent := by
  have hsent := (h.proc q).sent
  rwa [hph, List.append_nil] at hsent

/-- A phase without a record. -/
theorem ring_of_ticket (h : Linearized filters s probes keys) {q : BitVec 32} {ph : Phase}
    (hph : ph.ticket = (s.phases q).ticket) :
    RingBuffer.Holds (fun q ev => TcpEvent.pid ev = q) s.kernel.buffer
      (held (Function.update s.phases q ph)) keys s.handled := by
  rw [held_update_of_ticket hph]
  exact h.ring

theorem filtered (h : Linearized filters s probes keys) (hph : s.phases f.cur.pid = .idle)
    (hkind : f.kind = .connect) (hf : shouldFilter filters f.cur.pid f.sk.dport = true) :
    Linearized filters
      { s with
        phases := Function.update s.phases f.cur.pid .idle
        fired := s.fired ++ [f]
        decided := s.decided ++ [f.probe false] }
      (probes ++ [f.probe false]) keys := by
  have hexec : (f.probe false).exec filters (pendingAfter filters probes) =
      (none, pendingAfter filters probes) := by
    simp [Probe.exec, Firing.probe, hkind, traceTcpConnect, hf]
  refine h.advance (x := .fire f) (by simp [Input.fired]) decided_self (Frame.commit f false)
    (h.ring_of_ticket (by rw [hph])) ?_
  exact procOk_commit (h.fired_fire hph) (h.settled_concat (by rw [hph]; rfl) (by rw [hph]; rfl) false)
    (h.sent_of_filled (by rw [hph]; rfl)) hexec (h.proc _).entry rfl trivial (last_of_none rfl) rfl rfl rfl

/-- A probe starts and has no effect yet. -/
theorem fire (h : Linearized filters s probes keys) (hph : s.phases f.cur.pid = .idle) {ph' : Phase}
    (hphase : ph'.Ok filters s.kernel f.cur.pid) (hticket : ph'.ticket = none) (hwaiting : ph'.waiting = [f])
    (hahead : ph'.ahead = []) (hundecided : ph'.undecided = []) (hfilled : ph'.filled = []) :
    Linearized filters
      { s with
        phases := Function.update s.phases f.cur.pid ph'
        fired := s.fired ++ [f]
        decided := s.decided ++ [] } probes keys := by
  refine h.advance (x := .fire f) (by simp [Input.fired]) decided_nil Frame.refl
    (h.ring_of_ticket (by rw [hph, hticket]; rfl)) ?_
  constructor
  case entry => exact (h.proc _).entry
  case phase => exact hphase
  case last => exact last_of_none hticket
  case fired =>
    rw [hwaiting]
    exact h.fired_fire hph
  case decided =>
    rw [hahead, hundecided, List.append_nil, List.append_nil, List.append_nil]
    exact h.settled (by rw [hph]; rfl) (by rw [hph]; rfl)
  case sent =>
    rw [hfilled, List.append_nil]
    exact h.sent_of_filled (by rw [hph]; rfl)

/-- The probes started, when one of the process is in progress. -/
theorem fired_of_waiting (h : Linearized filters s probes keys) {q : BitVec 32} {l : List Firing}
    (hph : (s.phases q).waiting = l) :
    (share filters probes q).probes.map Probe.firing ++ l =
      (s.fired ++ []).filter (fun f' => f'.cur.pid = q) := by
  rw [List.append_nil, ← hph]
  exact (h.proc q).fired

/-- An input that starts no probe. -/
theorem fired_go {q : BitVec 32} : ∀ f ∈ (Input.go x).fired, f.cur.pid = q := by simp [Input.fired]

theorem update (h : Linearized filters s probes keys) {elem : ℕ} (hph : s.phases f.cur.pid = .update f)
    (hfree : s.kernel.free elem = true) :
    Linearized filters
      { s with
        kernel := s.kernel.update f.cur.pid f.connected elem
        phases := Function.update s.phases f.cur.pid (.reserve f)
        fired := s.fired ++ (Input.go elem).fired
        decided := s.decided ++ [] }
      (probes ++ [f.probe false]) keys := by
  have hq := h.proc f.cur.pid
  have hphase := hq.phase
  rw [hph] at hphase
  obtain ⟨-, hkind, hpass⟩ := hphase
  have hexec : (f.probe false).exec filters (pendingAfter filters probes) =
      (none, (pendingAfter filters probes).update f.cur.pid f.connected) :=
    Tracks.exec_eq (p := f.probe false) ⟨hkind, rfl, hpass⟩
  refine h.advance fired_go decided_nil ((Frame.update hfree _).trans (Frame.commit f false)) ?_ ?_
  · rw [Kernel.buffer_update]
    exact h.ring_of_ticket (by rw [hph]; rfl)
  · refine procOk_commit (h.fired_of_waiting (by rw [hph]; rfl)) ?_ (h.sent_of_filled (by rw [hph]; rfl)) hexec
      ?_ (by rw [Kernel.buffer_update]) ⟨rfl, hkind, hpass⟩ (last_of_none rfl) rfl rfl rfl
    · rw [List.append_nil, h.settled (by rw [hph]; rfl) (by rw [hph]; rfl)]
      rfl
    · rw [Kernel.pending_update hfree, BoundedMap.lookup_update, hq.entry]
      simp only [h.accepts_iff]
      rfl

/-- Before its reservation a connect has taken effect and is not decided. -/
theorem probes_of_reserve (h : Linearized filters s probes keys) (hph : s.phases f.cur.pid = .reserve f) :
    (share filters probes f.cur.pid).probes =
      s.decided.filter (fun p => p.cur.pid = f.cur.pid) ++ [f.probe false] := by
  have hdecided := (h.proc f.cur.pid).decided
  rw [hph] at hdecided
  exact (List.append_nil _).symm.trans hdecided

/-- The buffer has no room for the event of a connect. -/
theorem connectFull (h : Linearized filters s probes keys) (hph : s.phases f.cur.pid = .reserve f) :
    Linearized filters
      { s with
        phases := Function.update s.phases f.cur.pid .idle
        fired := s.fired ++ (Input.go x).fired
        decided := s.decided ++ [f.probe false] } probes keys := by
  refine h.advance fired_go decided_self Frame.refl (h.ring_of_ticket (by rw [hph]; rfl)) ?_
  constructor
  case entry => exact (h.proc _).entry
  case phase => trivial
  case last => exact last_of_none rfl
  case fired => exact h.fired_of_waiting (by rw [hph]; rfl)
  case decided =>
    rw [filter_decided, h.probes_of_reserve hph]
    rfl
  case sent =>
    rw [h.sent_of_filled (by rw [hph]; rfl)]
    exact List.append_nil _

theorem connectReserve (h : Linearized filters s probes keys) (hph : s.phases f.cur.pid = .reserve f)
    {ticket : ℕ} {b : RingBuffer TcpEvent}
    (hb : s.kernel.buffer.reserve bufferSize recordLen = some (ticket, b)) :
    ∃ probes', Linearized filters
      { s with
        kernel := { s.kernel with buffer := b }
        phases := Function.update s.phases f.cur.pid (.submit f ticket f.connected)
        fired := s.fired ++ (Input.go x).fired
        decided := s.decided ++ [f.probe true] } probes' (keys ++ [f.cur.pid]) := by
  have hq := h.proc f.cur.pid
  have hphase := hq.phase
  rw [hph] at hphase
  obtain ⟨-, hkind, hpass⟩ := hphase
  obtain ⟨probes', hother, hself⟩ := exists_reserved hkind hpass (h.probes_of_reserve hph)
  have hshare : Frame filters f.cur.pid { s.kernel with buffer := b } { s.kernel with buffer := b }
      (keys ++ [f.cur.pid]) (keys ++ [f.cur.pid]) probes probes' :=
    ⟨fun _ _ => rfl, fun _ _ => rfl, fun _ _ => rfl, fun _ _ _ h => h, hother⟩
  refine ⟨probes', h.advance fired_go decided_self ((Frame.reserve hb).trans hshare) (h.ring_reserve hb rfl) ?_⟩
  rw [hself]
  constructor
  case entry => exact hq.entry
  case phase => exact ⟨rfl, rfl⟩
  case last =>
    rintro t ht
    obtain rfl := Option.some.inj ht
    exact last_concat (h.ticket_eq hb)
  case fired =>
    have hfired := h.fired_of_waiting (q := f.cur.pid) (l := []) (by rw [hph]; rfl)
    rw [h.probes_of_reserve hph] at hfired
    simpa [Phase.waiting, Input.fired] using hfired
  case decided =>
    rw [filter_decided]
    rfl
  case sent =>
    rw [RingBuffer.stored_reserve hb, h.sent_of_filled (by rw [hph]; rfl)]
    rfl

/-- The buffer has no room for the event of a close. -/
theorem closeFull (h : Linearized filters s probes keys) {elem : Option ℕ}
    (hph : s.phases f.cur.pid = .looked f elem) :
    Linearized filters
      { s with
        phases := Function.update s.phases f.cur.pid .idle
        fired := s.fired ++ (Input.go x).fired
        decided := s.decided ++ [f.probe false] } (probes ++ [f.probe false]) keys := by
  have hphase := (h.proc f.cur.pid).phase
  rw [hph] at hphase
  obtain ⟨-, hkind, -⟩ := hphase
  have hexec : (f.probe false).exec filters (pendingAfter filters probes) =
      (none, pendingAfter filters probes) := by
    simp [Probe.exec, Firing.probe, hkind, traceTcpClose]
  refine h.advance fired_go decided_self (Frame.commit f false) (h.ring_of_ticket (by rw [hph]; rfl)) ?_
  exact procOk_commit (h.fired_of_waiting (by rw [hph]; rfl))
    (h.settled_concat (by rw [hph]; rfl) (by rw [hph]; rfl) false) (h.sent_of_filled (by rw [hph]; rfl)) hexec
    (h.proc _).entry rfl trivial (last_of_none rfl) rfl rfl rfl

theorem closeReserve (h : Linearized filters s probes keys) (hph : s.phases f.cur.pid = .looked f none)
    {ticket : ℕ} {b : RingBuffer TcpEvent}
    (hb : s.kernel.buffer.reserve bufferSize recordLen = some (ticket, b)) :
    Linearized filters
      { s with
        kernel := { s.kernel with buffer := b }
        phases := Function.update s.phases f.cur.pid (.submit f ticket (f.closed none))
        fired := s.fired ++ (Input.go x).fired
        decided := s.decided ++ [f.probe true] } (probes ++ [f.probe true]) (keys ++ [f.cur.pid]) := by
  have hq := h.proc f.cur.pid
  have hphase := hq.phase
  rw [hph] at hphase
  obtain ⟨-, hkind, hlookup⟩ := hphase
  have hnone : (pendingAfter filters probes).lookup f.cur.pid = none := by
    refine hq.entry.symm.trans ?_
    rw [Kernel.pending, hlookup]
    rfl
  have hexec : (f.probe true).exec filters (pendingAfter filters probes) =
      (some (f.closed none), pendingAfter filters probes) := by
    simp [Probe.exec, Firing.probe, hkind, traceTcpClose, hnone, Firing.closed]
  refine h.advance fired_go decided_self ((Frame.reserve hb).trans (Frame.commit f true))
    (h.ring_reserve hb rfl) ?_
  refine procOk_commit (h.fired_of_waiting (by rw [hph]; rfl))
    (h.settled_concat (by rw [hph]; rfl) (by rw [hph]; rfl) true) (h.sent_of_filled (by rw [hph]; rfl)) hexec
    hq.entry (RingBuffer.stored_reserve hb) ⟨rfl, rfl⟩ ?_ rfl rfl rfl
  intro t ht
  obtain rfl := Option.some.inj ht
  exact last_concat (h.ticket_eq hb)

/-- A step that neither starts a probe nor lets it take effect. -/
theorem go (h : Linearized filters s probes keys) {q : BitVec 32} {ph' : Phase} {k' : Kernel}
    {keys' : List (BitVec 32)} {ds : List Probe} (hds : ∀ p ∈ ds, p.cur.pid = q)
    (hframe : Frame filters q s.kernel k' keys keys' probes probes)
    (hring : RingBuffer.Holds (fun q ev => TcpEvent.pid ev = q) k'.buffer
      (held (Function.update s.phases q ph')) keys' s.handled)
    (hpending : k'.pending q = s.kernel.pending q)
    (hphase : ph'.Ok filters k' q)
    (hlast : ∀ t, ph'.ticket = some t → ∀ t', t < t' → keys'[t']? ≠ some q)
    (hwaiting : ph'.waiting = (s.phases q).waiting)
    (hdecided : (share filters probes q).probes ++ ph'.ahead =
      (s.decided ++ ds).filter (fun p => p.cur.pid = q) ++ ph'.undecided)
    (hsent : (s.handled ++ k'.buffer.stored).filter (fun ev => ev.pid = q) ++ ph'.filled =
      (share filters probes q).sent) :
    Linearized filters
      { s with
        kernel := k'
        phases := Function.update s.phases q ph'
        fired := s.fired ++ (Input.go x).fired
        decided := s.decided ++ ds } probes keys' :=
  h.advance fired_go hds hframe hring
    ⟨hpending.trans (h.proc q).entry, hphase, hlast, h.fired_of_waiting hwaiting.symm, hdecided, hsent⟩

theorem pendingReserve (h : Linearized filters s probes keys) {elem : ℕ}
    (hph : s.phases f.cur.pid = .looked f (some elem)) {ticket : ℕ} {b : RingBuffer TcpEvent}
    (hb : s.kernel.buffer.reserve bufferSize recordLen = some (ticket, b)) :
    Linearized filters
      { s with
        kernel := { s.kernel with buffer := b }
        phases := Function.update s.phases f.cur.pid (.copy f ticket elem)
        fired := s.fired ++ (Input.go x).fired
        decided := s.decided ++ [f.probe true] } probes (keys ++ [f.cur.pid]) := by
  have hphase := (h.proc f.cur.pid).phase
  rw [hph] at hphase
  refine h.go decided_self (Frame.reserve hb) (h.ring_reserve hb rfl) rfl hphase ?_ (by rw [hph]; rfl)
    (h.settled_concat (by rw [hph]; rfl) (by rw [hph]; rfl) true) ?_
  · intro t ht
    obtain rfl := Option.some.inj ht
    exact last_concat (h.ticket_eq hb)
  · rw [RingBuffer.stored_reserve hb, h.sent_of_filled (by rw [hph]; rfl)]
    exact List.append_nil _

theorem copy (h : Linearized filters s probes keys) {ticket elem : ℕ}
    (hph : s.phases f.cur.pid = .copy f ticket elem) :
    Linearized filters
      { s with
        phases := Function.update s.phases f.cur.pid (.delete f ticket (s.kernel.elems elem))
        fired := s.fired ++ (Input.go x).fired
        decided := s.decided ++ [] } probes keys := by
  have hq := h.proc f.cur.pid
  rw [hph] at hq
  obtain ⟨-, hkind, hlookup⟩ := hq.phase
  refine h.go decided_nil Frame.refl (h.ring_of_ticket (by rw [hph]; rfl)) rfl ⟨rfl, hkind, ?_⟩ hq.last
    (by rw [hph]; rfl) ?_ hq.sent
  · rw [Kernel.pending, hlookup]
    rfl
  · rw [List.append_nil]
    exact hq.decided

/-- The deletion is where a close takes effect: the entry is still the one that was looked up. -/
theorem delete (h : Linearized filters s probes keys) {ticket : ℕ} {copied : TcpEvent}
    (hph : s.phases f.cur.pid = .delete f ticket copied) :
    Linearized filters
      { s with
        kernel := s.kernel.delete f.cur.pid
        phases := Function.update s.phases f.cur.pid (.submit f ticket (f.closed (some copied)))
        fired := s.fired ++ (Input.go x).fired
        decided := s.decided ++ [] } (probes ++ [f.probe true]) keys := by
  have hq := h.proc f.cur.pid
  rw [hph] at hq
  obtain ⟨-, hkind, hpending⟩ := hq.phase
  have htakes : (f.probe true).Takes f.cur.pid := ⟨hkind, rfl, rfl⟩
  have hlookup : (pendingAfter filters probes).lookup f.cur.pid = some copied :=
    hq.entry.symm.trans hpending
  have hfst : ((f.probe true).exec filters (pendingAfter filters probes)).1 =
      some (f.closed (some copied)) := by
    rw [htakes.exec_fst, hlookup]
    rfl
  have hexec : (f.probe true).exec filters (pendingAfter filters probes) =
      (some (f.closed (some copied)), ((f.probe true).exec filters (pendingAfter filters probes)).2) :=
    Prod.ext hfst rfl
  have hpid : (f.closed (some copied)).pid = f.cur.pid := pid_of_exec (p := f.probe true) hfst
  have hentry : (s.kernel.delete f.cur.pid).pending f.cur.pid =
      ((f.probe true).exec filters (pendingAfter filters probes)).2.lookup f.cur.pid := by
    rw [Kernel.pending_delete, if_pos rfl, htakes.lookup_exec]
  refine h.advance fired_go decided_nil (Frame.delete.trans (Frame.commit f true)) ?_ ?_
  · rw [Kernel.buffer_delete]
    exact h.ring_of_ticket (by rw [hph]; rfl)
  · refine procOk_commit (h.fired_of_waiting (by rw [hph]; rfl)) ?_ (h.sent_of_filled (by rw [hph]; rfl))
      hexec hentry (by rw [Kernel.buffer_delete]) ⟨rfl, hpid⟩ hq.last rfl rfl rfl
    rw [List.append_nil]
    exact hq.decided

theorem submit (h : Linearized filters s probes keys) {ticket : ℕ} {ev : TcpEvent}
    (hph : s.phases f.cur.pid = .submit f ticket ev) :
    Linearized filters
      { s with
        kernel := { s.kernel with buffer := s.kernel.buffer.submit ticket ev }
        phases := Function.update s.phases f.cur.pid .idle
        fired := s.fired ++ (Input.go x).fired
        decided := s.decided ++ [] } probes keys := by
  have hq := h.proc f.cur.pid
  have hticket : (s.phases f.cur.pid).ticket = some ticket := by rw [hph]; rfl
  rw [hph] at hq
  have hev : ev.pid = f.cur.pid := hq.phase.2
  refine h.go decided_nil (Frame.submit h.ring hticket hev) ?_ rfl trivial (last_of_none rfl)
    (by rw [hph]; rfl) ?_ ?_
  · rw [held_update]
    exact h.ring.submit (held_of_ticket hticket) hev
  · rw [List.append_nil]
    exact hq.decided
  · -- records of later reservations are of other processes
    obtain ⟨xs, ys, hxs, hys, hlater⟩ := h.ring.stored_submit ev (held_of_ticket hticket)
    have hnone : ys.filter (fun ev => ev.pid = f.cur.pid) = [] := by
      rw [List.filter_eq_nil_iff]
      intro e he
      obtain ⟨t, c, hlt, hkey, rfl⟩ := hlater e he
      have hne := hq.last ticket rfl t hlt
      simp only [decide_eq_true_eq]
      exact fun hc => hne (hc ▸ hkey)
    have hsent := hq.sent
    rw [hxs] at hsent
    show (s.handled ++ (s.kernel.buffer.submit ticket ev).stored).filter _ ++ [] = _
    rw [hys, ← hsent]
    simp [hev, hnone, Phase.filled]

theorem handle (h : Linearized filters s probes keys) {ev : TcpEvent} {b : RingBuffer TcpEvent}
    (hb : s.kernel.buffer.consume = some (ev, b)) :
    Linearized filters
      { s with
        kernel := { s.kernel with buffer := b }
        reporter := s.reporter.record ev
        handled := s.handled ++ [ev] } probes keys := by
  refine ⟨h.ring.consume hb, fun q => ?_, ?_⟩
  · have hq := h.proc q
    refine ⟨hq.entry, hq.phase.congr rfl rfl, hq.last, hq.fired, hq.decided, ?_⟩
    rw [← hq.sent, RingBuffer.stored_consume hb, List.append_assoc]
    rfl
  · show s.reporter.record ev = recordAll (s.handled ++ [ev])
    rw [h.reporter, recordAll, recordAll, List.foldl_append]
    rfl

theorem move (h : Linearized filters s probes keys) {q : BitVec 32} {x : Input} {k' : Kernel} {ph' : Phase}
    {ds : List Probe} (hm : Move filters s.kernel (s.phases q) x k' ph' ds)
    (hown : ∀ f ∈ x.fired, f.cur.pid = q) :
    ∃ probes' keys', Linearized filters
      { s with
        kernel := k'
        phases := Function.update s.phases q ph'
        fired := s.fired ++ x.fired
        decided := s.decided ++ ds } probes' keys' := by
  have hphase := (h.proc q).phase
  generalize hph : s.phases q = ph at hm hphase
  cases hm with
  | @filtered f hkind hf =>
      obtain rfl := hown f List.mem_cons_self
      exact ⟨_, _, h.filtered hph hkind hf⟩
  | @connect f hkind hf =>
      obtain rfl := hown f List.mem_cons_self
      exact ⟨_, _, h.fire hph ⟨rfl, hkind, hf⟩ rfl rfl rfl rfl rfl⟩
  | @lookup f hkind =>
      obtain rfl := hown f List.mem_cons_self
      exact ⟨_, _, h.fire hph ⟨rfl, hkind, rfl⟩ rfl rfl rfl rfl rfl⟩
  | update hfree =>
      obtain rfl := hphase.1
      exact ⟨_, _, h.update hph hfree⟩
  | connectFull hb =>
      obtain rfl := hphase.1
      exact ⟨_, _, h.connectFull hph⟩
  | connectReserve hb =>
      obtain rfl := hphase.1
      obtain ⟨probes', h'⟩ := h.connectReserve hph hb
      exact ⟨_, _, h'⟩
  | closeFull hb =>
      obtain rfl := hphase.1
      exact ⟨_, _, h.closeFull hph⟩
  | closeReserve hb =>
      obtain rfl := hphase.1
      exact ⟨_, _, h.closeReserve hph hb⟩
  | pendingReserve hb =>
      obtain rfl := hphase.1
      exact ⟨_, _, h.pendingReserve hph hb⟩
  | copy =>
      obtain rfl := hphase.1
      exact ⟨_, _, h.copy hph⟩
  | delete =>
      obtain rfl := hphase.1
      exact ⟨_, _, h.delete hph⟩
  | submit =>
      obtain rfl := hphase.1
      exact ⟨_, _, h.submit hph⟩

theorem init (elems : ℕ → TcpEvent) : Linearized filters (State.init elems) [] [] := by
  refine ⟨?_, fun q => ?_, rfl⟩
  · exact RingBuffer.Holds.empty
  · exact ⟨rfl, trivial, last_of_none rfl, rfl, rfl, rfl⟩

end Linearized

/-! ### Tasks and processes -/

/-- A probe starts when no other probe of its process is in progress. -/
def Alone {ι : Type} (s : State ι) : Action ι → Prop
  | .task _ (.fire f) => ∀ j, (s.phases j).pid ≠ some f.cur.pid
  | _ => True

instance {ι : Type} [Fintype ι] (s : State ι) (a : Action ι) : Decidable (Alone s a) :=
  match a with
  | .task _ (.fire f) => inferInstanceAs (Decidable (∀ j, (s.phases j).pid ≠ some f.cur.pid))
  | .task _ (.go _) => isTrue trivial
  | .handle => isTrue trivial

/-- The probe in progress stays the same until it ends. -/
theorem Move.pid_eq {k k' : Kernel} {ph ph' : Phase} {x : Input} {ds : List Probe}
    (h : Move filters k ph x k' ph' ds) :
    ∃ q, (∀ f ∈ x.fired, f.cur.pid = q) ∧ (ph = .idle ∧ x.fired ≠ [] ∨ ph.pid = some q ∧ x.fired = []) ∧
      (ph' = .idle ∨ ph'.pid = some q) := by
  cases h with
  | @filtered f => exact ⟨f.cur.pid, by simp [Input.fired], Or.inl ⟨rfl, by simp [Input.fired]⟩, Or.inl rfl⟩
  | @connect f => exact ⟨f.cur.pid, by simp [Input.fired], Or.inl ⟨rfl, by simp [Input.fired]⟩, Or.inr rfl⟩
  | @lookup f => exact ⟨f.cur.pid, by simp [Input.fired], Or.inl ⟨rfl, by simp [Input.fired]⟩, Or.inr rfl⟩
  | @update f | @connectReserve f | @closeReserve f | @pendingReserve f | @copy f | @delete f =>
      exact ⟨f.cur.pid, Linearized.fired_go, Or.inr ⟨rfl, rfl⟩, Or.inr rfl⟩
  | @connectFull f | @closeFull f | @submit f =>
      exact ⟨f.cur.pid, Linearized.fired_go, Or.inr ⟨rfl, rfl⟩, Or.inl rfl⟩

section tasks

variable {ι : Type} {s : State ι} {t : State (BitVec 32)}

/-- The tasks seen as the processes they run for. -/
structure Simulates (s : State ι) (t : State (BitVec 32)) : Prop where
  kernel : t.kernel = s.kernel
  reporter : t.reporter = s.reporter
  fired : t.fired = s.fired
  decided : t.decided = s.decided
  handled : t.handled = s.handled
  phase : ∀ i q, (s.phases i).pid = some q → t.phases q = s.phases i
  owner : ∀ q, t.phases q ≠ .idle → ∃ i, s.phases i = t.phases q ∧ (s.phases i).pid = some q
  alone : ∀ i j q, (s.phases i).pid = some q → (s.phases j).pid = some q → i = j

namespace Simulates

theorem init (elems : ℕ → TcpEvent) : Simulates (State.init elems : State ι) (State.init elems) where
  kernel := rfl
  reporter := rfl
  fired := rfl
  decided := rfl
  handled := rfl
  phase _ _ h := by cases h
  owner _ h := absurd rfl h
  alone _ _ _ h := by cases h

/-- A step of task `i` is a step of its process `q`, which no other task runs for. -/
theorem advance [DecidableEq ι] (h : Simulates s t) {i : ι} {q : BitVec 32} {k' : Kernel} {ph' : Phase} {x : Input}
    {ds : List Probe}
    (hself : ∀ q', (s.phases i).pid = some q' → q' = q) (hothers : ∀ j, j ≠ i → (s.phases j).pid ≠ some q)
    (hph' : ph' = .idle ∨ ph'.pid = some q) :
    Simulates
      { s with
        kernel := k'
        phases := Function.update s.phases i ph'
        fired := s.fired ++ x.fired
        decided := s.decided ++ ds }
      { t with
        kernel := k'
        phases := Function.update t.phases q ph'
        fired := t.fired ++ x.fired
        decided := t.decided ++ ds } := by
  have hpid : ∀ q', ph'.pid = some q' → q' = q := by
    intro q' hq'
    rcases hph' with rfl | hph'
    · cases hq'
    · exact Option.some.inj (hq'.symm.trans hph')
  constructor
  case kernel => rfl
  case reporter => exact h.reporter
  case fired => rw [h.fired]
  case decided => rw [h.decided]
  case handled => exact h.handled
  case phase =>
    intro j q' hj
    rcases eq_or_ne j i with rfl | hne
    · simp only [Function.update_self] at hj ⊢
      rw [hpid q' hj, Function.update_self]
    · simp only [Function.update_of_ne hne] at hj ⊢
      have hq' : q' ≠ q := fun he => hothers j hne (he ▸ hj)
      rw [Function.update_of_ne hq']
      exact h.phase j q' hj
  case owner =>
    intro q' hq'
    rcases eq_or_ne q' q with rfl | hne
    · simp only [Function.update_self] at hq' ⊢
      exact ⟨i, Function.update_self .., by rw [Function.update_self]; exact hph'.resolve_left hq'⟩
    · simp only [Function.update_of_ne hne] at hq' ⊢
      obtain ⟨j, hj, hjq⟩ := h.owner q' hq'
      have hji : j ≠ i := by
        rintro rfl
        exact hne (hself q' hjq)
      exact ⟨j, by rwa [Function.update_of_ne hji], by rwa [Function.update_of_ne hji]⟩
  case alone =>
    intro j j' q' hj hj'
    by_cases hji : j = i <;> by_cases hji' : j' = i
    · exact hji.trans hji'.symm
    · rw [hji] at hj
      simp only [Function.update_self, Function.update_of_ne hji'] at hj hj'
      exact absurd (hpid q' hj ▸ hj') (hothers j' hji')
    · rw [hji'] at hj'
      simp only [Function.update_self, Function.update_of_ne hji] at hj hj'
      exact absurd (hpid q' hj' ▸ hj) (hothers j hji)
    · simp only [Function.update_of_ne hji, Function.update_of_ne hji'] at hj hj'
      exact h.alone j j' q' hj hj'

end Simulates

/-- The run so far is one of atomic probes, up to the probes in progress. -/
def Linearizes (filters : Filters) (s : State ι) : Prop :=
  ∃ t probes keys, Simulates s t ∧ Linearized filters t probes keys

theorem Linearizes.step [DecidableEq ι] (s : State ι) (a : Action ι) (s' : State ι) (h : Linearizes filters s)
    (halone : Alone s a) (hstep : s.step filters a = some s') : Linearizes filters s' := by
  obtain ⟨t, probes, keys, hsim, hlin⟩ := h
  cases a with
  | task i x =>
      obtain ⟨⟨k', ph'⟩, hnext, rfl⟩ := Option.map_eq_some_iff.mp hstep
      have hm := move_of_next hnext
      obtain ⟨q, hfired, hcase, hph'⟩ := hm.pid_eq
      have hothers : ∀ j, j ≠ i → (s.phases j).pid ≠ some q := by
        intro j hj
        rcases hcase with ⟨-, hx⟩ | ⟨hpid, -⟩
        · cases x with
          | fire f => exact hfired f List.mem_cons_self ▸ halone j
          | go elem => exact absurd rfl hx
        · exact fun hjq => hj (hsim.alone j i q hjq hpid)
      have hself : ∀ q', (s.phases i).pid = some q' → q' = q := by
        intro q' hq'
        rcases hcase with ⟨hidle, -⟩ | ⟨hpid, -⟩
        · rw [hidle] at hq'
          cases hq'
        · exact Option.some.inj (hq'.symm.trans hpid)
      have hphase : t.phases q = s.phases i := by
        rcases hcase with ⟨hidle, -⟩ | ⟨hpid, -⟩
        · rw [hidle]
          by_contra hne
          obtain ⟨j, -, hjq⟩ := hsim.owner q hne
          rcases eq_or_ne j i with rfl | hj
          · rw [hidle] at hjq
            cases hjq
          · exact hothers j hj hjq
        · exact hsim.phase i q hpid
      generalize (s.phases i).decided filters s.kernel x = ds at hm ⊢
      rw [← hphase, ← hsim.kernel] at hm
      obtain ⟨probes', keys', hlin'⟩ := hlin.move hm hfired
      exact ⟨_, probes', keys', hsim.advance hself hothers hph', hlin'⟩
  | handle =>
      obtain ⟨⟨ev, b⟩, hb, rfl⟩ := Option.map_eq_some_iff.mp hstep
      rw [← hsim.kernel] at hb
      refine ⟨_, probes, keys, ?_, hlin.handle hb⟩
      exact ⟨by rw [hsim.kernel], by rw [hsim.reporter], hsim.fired, hsim.decided, by rw [hsim.handled],
        hsim.phase, hsim.owner, hsim.alone⟩

end tasks

/-! ### Overlapping probes are as good as atomic ones -/

/-- The table depends on the order of the events of each process only. -/
theorem lookup_recordAll_congr {evs evs' : List TcpEvent}
    (h : ∀ q, evs.filter (fun ev => ev.pid = q) = evs'.filter (fun ev => ev.pid = q)) (k : ConnectionKey) :
    (recordAll evs).stats.lookup k = (recordAll evs').stats.lookup k := by
  have hkey : ∀ l : List TcpEvent, eventsOf k l = eventsOf k (l.filter (fun ev => ev.pid = k.pid)) := by
    intro l
    unfold eventsOf GroupFold.ofKey
    rw [List.filter_filter]
    refine List.filter_congr (fun ev _ => ?_)
    by_cases hev : ev.key = k
    · subst hev
      simp [TcpEvent.key]
    · simp [hev]
  rw [lookup_recordAll, lookup_recordAll, hkey evs, hkey evs', h]

theorem linearizes_of_run {ι : Type} [DecidableEq ι] {elems : ℕ → TcpEvent} {schedule : List (Action ι)}
    {s : State ι} (h : Runs.run (State.step filters) (State.init elems) schedule = some s)
    (halone : Runs.Meets (State.step filters) Alone (State.init elems) schedule) : Linearizes filters s :=
  Runs.run_invariant_of_meets Linearizes.step schedule _ _
    ⟨_, [], [], Simulates.init elems, Linearized.init elems⟩ halone h

/-- With no probe in progress the atomic probes account for everything. -/
theorem Linearizes.exists_probes {ι : Type} {s : State ι} (h : Linearizes filters s)
    (hidle : ∀ i, s.phases i = .idle) :
    s.reporter = recordAll s.handled ∧ ∃ probes : List Probe,
      (∀ q, (probes.filter (fun p => p.cur.pid = q)).map Probe.firing =
        s.fired.filter (fun f => f.cur.pid = q)) ∧
      (∀ q, probes.filter (fun p => p.cur.pid = q) = s.decided.filter (fun p => p.cur.pid = q)) ∧
      (∀ q, s.kernel.pending q = (pendingAfter filters probes).lookup q) ∧
      ∀ q, (s.handled ++ s.kernel.buffer.stored).filter (fun ev => ev.pid = q) =
        (events filters .empty probes).filter (fun ev => ev.pid = q) := by
  obtain ⟨t, probes, keys, hsim, hlin⟩ := h
  have hphase : ∀ q, t.phases q = .idle := by
    intro q
    by_contra hne
    obtain ⟨i, hi, hq⟩ := hsim.owner q hne
    exact hne (hi.symm.trans (hidle i))
  refine ⟨?_, probes, fun q => ?_, fun q => ?_, fun q => ?_, fun q => ?_⟩
  · rw [← hsim.reporter, hlin.reporter, hsim.handled]
  · have hq := hlin.fired_of_waiting (q := q) (l := []) (by rw [hphase]; rfl)
    rw [List.append_nil, List.append_nil, hsim.fired] at hq
    exact hq
  · rw [← hsim.decided]
    exact hlin.settled (by rw [hphase]; rfl) (by rw [hphase]; rfl)
  · rw [← hsim.kernel]
    exact (hlin.proc q).entry
  · have hq := hlin.sent_of_filled (q := q) (by rw [hphase]; rfl)
    rwa [hsim.handled, hsim.kernel] at hq

/-- **Probes that overlap are as good as atomic ones**, as long as the probes of one process do not
overlap each other.  When all have ended, there is an order in which the same probes could have run one
at a time, each process in the order in which it started them, each of them with a record exactly when it
got one: with the same entries in the map, the same events of each process in the same order, handled or
still in the buffer, and, when the buffer is empty, the same table of connections. -/
theorem tcpProbes_linearize {ι : Type} [DecidableEq ι] (filters : Filters) (elems : ℕ → TcpEvent)
    (schedule : List (Action ι)) (s : State ι)
    (h : Runs.run (State.step filters) (State.init elems) schedule = some s)
    (halone : Runs.Meets (State.step filters) Alone (State.init elems) schedule)
    (hidle : ∀ i, s.phases i = .idle) :
    ∃ probes : List Probe,
      (∀ q, (probes.filter (fun p => p.cur.pid = q)).map Probe.firing =
        s.fired.filter (fun f => f.cur.pid = q)) ∧
      (∀ q, probes.filter (fun p => p.cur.pid = q) = s.decided.filter (fun p => p.cur.pid = q)) ∧
      (∀ q, s.kernel.pending q = (pendingAfter filters probes).lookup q) ∧
      (∀ q, (s.handled ++ s.kernel.buffer.stored).filter (fun ev => ev.pid = q) =
        (events filters .empty probes).filter (fun ev => ev.pid = q)) ∧
      (s.kernel.buffer.stored = [] → ∀ k,
        s.reporter.stats.lookup k = (recordAll (events filters .empty probes)).stats.lookup k) := by
  obtain ⟨hreporter, probes, horder, hdecided, hentries, hsent⟩ :=
    (linearizes_of_run h halone).exists_probes hidle
  refine ⟨probes, horder, hdecided, hentries, hsent, fun hempty k => ?_⟩
  rw [hempty, List.append_nil] at hsent
  rw [hreporter]
  exact lookup_recordAll_congr hsent k

theorem Phase.eq_idle {ph : Phase} (h : ph.firing.isNone = true) : ph = .idle := by
  cases ph <;> first | rfl | cases h

def firing (kind : ProbeKind) (pid : BitVec 32) (now : BitVec 64) : Input :=
  .fire ⟨kind, process pid, now, webSock⟩

/-- Two processes connect and close at the same time; the second one is the faster one at the update of
the map, at its second reservation and at the deletion. -/
def overlap : List (Action Bool) :=
  [.task false (firing .connect 7 1), .task true (firing .connect 9 2), .task true (.go 0),
    .task false (.go 1), .task false (.go 0), .task true (.go 0), .task true (.go 0), .task false (.go 0),
    .handle, .task false (firing .close 7 3), .task true (firing .close 9 4), .task true (.go 0),
    .task false (.go 0), .task false (.go 0), .task true (.go 0), .task true (.go 0), .task false (.go 0),
    .task false (.go 0), .handle, .task true (.go 0), .handle, .handle]

theorem tcpProbes_linearize_overlap :
    ∃ s : State Bool, ∃ probes : List Probe,
      Runs.run (State.step (fun _ => 0)) (State.init (fun _ => webConnect)) overlap = some s ∧
      s.handled.map (fun ev => (ev.pid, ev.action)) = [(7, 0), (9, 0), (9, 1), (7, 1)] ∧
      s.decided.map (fun p => (p.cur.pid, p.reserved)) = [(7, true), (9, true), (9, true), (7, true)] ∧
      (∀ q, probes.filter (fun p => p.cur.pid = q) = s.decided.filter (fun p => p.cur.pid = q)) ∧
      ∀ k, s.reporter.stats.lookup k = (recordAll (events (fun _ => 0) .empty probes)).stats.lookup k := by
  obtain ⟨s, hs, hhandled, hflags, hempty, hidle⟩ : ∃ s : State Bool,
      Runs.run (State.step (fun _ => 0)) (State.init (fun _ => webConnect)) overlap = some s ∧
      s.handled.map (fun ev => (ev.pid, ev.action)) = [(7, 0), (9, 0), (9, 1), (7, 1)] ∧
      s.decided.map (fun p => (p.cur.pid, p.reserved)) = [(7, true), (9, true), (9, true), (7, true)] ∧
      s.kernel.buffer.stored.length = 0 ∧ ∀ i, (s.phases i).firing.isNone = true :=
    Runs.exists_run_of_any (by decide +kernel)
  obtain ⟨probes, -, hdecided, -, -, hreporter⟩ := tcpProbes_linearize _ _ overlap s hs (by decide +kernel)
    (fun i => Phase.eq_idle (hidle i))
  exact ⟨s, probes, hs, hhandled, hflags, hdecided, hreporter (List.eq_nil_of_length_eq_zero hempty)⟩

end Tracer

end EbpfMonitor
