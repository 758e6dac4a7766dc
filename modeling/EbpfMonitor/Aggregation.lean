import EbpfMonitor.Lib.GroupFold
import EbpfMonitor.Scrape
import EbpfMonitor.Totals

/-! # What the reporter holds after a history of calls

`StatsReporter` against its purpose: it is an aggregator of the events recorded since the last
`clear`.  `Aggregates evs st` says what the entry `st` of a connection has to be when `evs` are
the events of that connection: the counters are sums over `evs`, and the process name, the user
and the time are those of the last one.

`record` is an instance of `GroupFold.record`, so the entry of a connection is made from the
events of that connection alone (`lookup_recordAll`).  `statsReporter_aggregates` is the result
for every history; the counters do not depend on the order of the events. -/

namespace EbpfMonitor

open StatsReporter

/-! ### Histories of calls -/

/-- The events recorded since the last `clear`, after one more call. -/
def Call.since (evs : List TcpEvent) : Call → List TcpEvent
  | .record ev => evs ++ [ev]
  | .clear => []

/-- The events recorded since the last `clear`. -/
def sinceClear (cs : List Call) : List TcpEvent := cs.foldl Call.since []

/-- The events of the connection `k`. -/
def eventsOf (k : ConnectionKey) (evs : List TcpEvent) : List TcpEvent := GroupFold.ofKey TcpEvent.key k evs

namespace StatsReporter

theorem call_recordAll (evs : List TcpEvent) (c : Call) :
    (recordAll evs).call c = recordAll (c.since evs) := by
  cases c with
  | record ev =>
      rw [Call.since, recordAll, recordAll, List.foldl_append]
      rfl
  | clear => rfl

/-- A `clear` makes the calls before it forgotten. -/
theorem calls_eq_recordAll (cs : List Call) : empty.calls cs = recordAll (sinceClear cs) := by
  have hcalls : ∀ evs, (recordAll evs).calls cs = recordAll (cs.foldl Call.since evs) := by
    induction cs with
    | nil => exact fun _ => rfl
    | cons c cs ih =>
        intro evs
        rw [calls, List.foldl_cons, List.foldl_cons, call_recordAll]
        exact ih (c.since evs)
  exact hcalls []

theorem sinceClear_append_records (cs : List Call) (evs : List TcpEvent) :
    sinceClear (cs ++ evs.map .record) = sinceClear cs ++ evs := by
  unfold sinceClear
  rw [List.foldl_append]
  generalize cs.foldl Call.since [] = before
  induction evs generalizing before with
  | nil => exact (List.append_nil before).symm
  | cons ev evs ih =>
      rw [List.map_cons, List.foldl_cons, ih, Call.since, List.append_assoc]
      rfl

/-! ### The entry of a connection -/

/-- The entry of a connection is made from its own events. -/
theorem lookup_recordAll (evs : List TcpEvent) (k : ConnectionKey) :
    (recordAll evs).stats.lookup k =
      if eventsOf k evs = [] then none else some ((eventsOf k evs).foldl ConnectionStats.add {}) := by
  rw [stats_recordAll]
  exact GroupFold.lookup_foldl_record_empty _ _ _ evs k

theorem eventsOf_ne_nil {k : ConnectionKey} {evs : List TcpEvent} :
    eventsOf k evs ≠ [] ↔ ∃ ev ∈ evs, ev.key = k :=
  GroupFold.ofKey_ne_nil _

theorem mem_entries_iff {r : StatsReporter} {entries : List (ConnectionKey × ConnectionStats)}
    (h : r.Enumerates entries) {k : ConnectionKey} {st : ConnectionStats} :
    (k, st) ∈ entries ↔ r.stats.lookup k = some st := by
  constructor
  · intro hmem
    rw [h.mem_iff, List.mem_map] at hmem
    obtain ⟨e, he, heq⟩ := hmem
    obtain ⟨rfl, rfl⟩ := Prod.mk.inj heq
    exact AList.mem_lookup_iff.mpr he
  · exact mem_of_lookup h

/-- What a walk of the table meets after the calls. -/
theorem mem_entries_calls_iff {cs : List Call} {entries : List (ConnectionKey × ConnectionStats)}
    (h : (empty.calls cs).Enumerates entries) {k : ConnectionKey} {st : ConnectionStats} :
    (k, st) ∈ entries ↔
      eventsOf k (sinceClear cs) ≠ [] ∧ st = (eventsOf k (sinceClear cs)).foldl ConnectionStats.add {} := by
  rw [mem_entries_iff h, calls_eq_recordAll, lookup_recordAll]
  split_ifs with hnone
  · simp [hnone]
  · simp [hnone, eq_comm]

end StatsReporter

/-! ### The aggregator -/

/-- The text is the name up to its first NUL, all 16 characters if there is none. -/
structure Truncates (comm : Comm) (t : Text) : Prop where
  length_le : t.length ≤ 16
  agrees : ∀ i : Fin 16, i.val < t.length → t[i.val]? = some (comm i) ∧ comm i ≠ '\x00'
  ends : ∀ i : Fin 16, i.val = t.length → comm i = '\x00'

/-- `st` is what there is to say about a connection with the events `evs`. -/
structure Aggregates (evs : List TcpEvent) (st : ConnectionStats) : Prop where
  connects : st.connects.toNat = evs.countP (·.action = tcpActionConnect) % 2 ^ 64
  bytesTx : st.bytesTx.toNat =
    ((evs.filter (·.action ≠ tcpActionConnect)).map (·.bytesTx.toNat)).sum % 2 ^ 64
  bytesRx : st.bytesRx.toNat =
    ((evs.filter (·.action ≠ tcpActionConnect)).map (·.bytesRx.toNat)).sum % 2 ^ 64
  latest : ∃ ev, evs.getLast? = some ev ∧ Truncates ev.comm st.comm ∧ st.uid = ev.uid ∧
    st.timestamp = ev.timestampNs

theorem truncates_commText (comm : Comm) : Truncates comm (commText comm) := by
  have hsplit : commText comm ++ (List.ofFn comm).dropWhile (· ≠ '\x00') = List.ofFn comm :=
    List.takeWhile_append_dropWhile
  have hlen : (commText comm).length ≤ 16 := by
    have := congrArg List.length hsplit
    rw [List.length_append, List.length_ofFn] at this
    omega
  have hget : ∀ i : Fin 16, (List.ofFn comm)[i.val]? = some (comm i) := by
    intro i
    rw [List.getElem?_ofFn, dif_pos i.isLt]
  refine ⟨hlen, fun i hi => ?_, fun i hi => ?_⟩
  · have hchar : (commText comm)[i.val]? = some (comm i) := by
      rw [← hget i, ← hsplit, List.getElem?_append_left hi]
    have hmem : comm i ∈ commText comm := List.mem_of_getElem? hchar
    exact ⟨hchar, by simpa using List.mem_takeWhile_imp hmem⟩
  · have hchar := hget i
    rw [← hsplit, hi, List.getElem?_append_right le_rfl, Nat.sub_self, ← List.head?_eq_getElem?] at hchar
    have hnot := List.head?_dropWhile_not (fun c : Char => decide (c ≠ '\x00')) (List.ofFn comm)
    rw [hchar] at hnot
    simpa using hnot

theorem sum_map_connectsAdded (evs : List TcpEvent) :
    (evs.map TcpEvent.connectsAdded).sum = evs.countP (·.action = tcpActionConnect) := by
  unfold TcpEvent.connectsAdded
  rw [List.sum_map_ite]
  simp [List.countP_eq_length_filter]

theorem sum_map_bytesAdded (bytes : TcpEvent → BitVec 64) (evs : List TcpEvent) :
    (evs.map (TcpEvent.bytesAdded bytes)).sum =
      ((evs.filter (·.action ≠ tcpActionConnect)).map (fun ev => (bytes ev).toNat)).sum := by
  unfold TcpEvent.bytesAdded
  rw [List.sum_map_ite]
  simp

namespace ConnectionStats

theorem toNat_connects_foldl (evs : List TcpEvent) :
    (evs.foldl add {}).connects.toNat = (evs.map TcpEvent.connectsAdded).sum % 2 ^ 64 :=
  GroupFold.foldl_counter (f := connects) rfl connects_add evs

theorem toNat_bytesTx_foldl (evs : List TcpEvent) :
    (evs.foldl add {}).bytesTx.toNat = (evs.map (TcpEvent.bytesAdded TcpEvent.bytesTx)).sum % 2 ^ 64 :=
  GroupFold.foldl_counter (f := bytesTx) rfl bytesTx_add evs

theorem toNat_bytesRx_foldl (evs : List TcpEvent) :
    (evs.foldl add {}).bytesRx.toNat = (evs.map (TcpEvent.bytesAdded TcpEvent.bytesRx)).sum % 2 ^ 64 :=
  GroupFold.foldl_counter (f := bytesRx) rfl bytesRx_add evs

end ConnectionStats

/-- Folding `add` over the events of a connection aggregates them. -/
theorem aggregates_foldl {evs : List TcpEvent} (h : evs ≠ []) :
    Aggregates evs (evs.foldl ConnectionStats.add {}) := by
  have hcomm : ∀ st ev, (ConnectionStats.add st ev).comm = commText ev.comm ∧
      (ConnectionStats.add st ev).uid = ev.uid ∧ (ConnectionStats.add st ev).timestamp = ev.timestampNs := by
    intro st ev
    unfold ConnectionStats.add
    split_ifs <;> exact ⟨rfl, rfl, rfl⟩
  refine ⟨?_, ?_, ?_, ?_⟩
  · rw [ConnectionStats.toNat_connects_foldl, sum_map_connectsAdded]
  · rw [ConnectionStats.toNat_bytesTx_foldl, sum_map_bytesAdded]
  · rw [ConnectionStats.toNat_bytesRx_foldl, sum_map_bytesAdded]
  · have hlast := List.getLast?_eq_some_getLast h
    refine ⟨_, hlast, ?_, ?_, ?_⟩
    · rw [GroupFold.foldl_last (fun st ev => (hcomm st ev).1) hlast]
      exact truncates_commText _
    · exact GroupFold.foldl_last (fun st ev => (hcomm st ev).2.1) hlast _
    · exact GroupFold.foldl_last (fun st ev => (hcomm st ev).2.2) hlast _

/-- The counters of an entry. -/
def ConnectionStats.counters (st : ConnectionStats) : BitVec 64 × BitVec 64 × BitVec 64 :=
  (st.connects, st.bytesTx, st.bytesRx)

/-- The counters are the same for any order of the events. -/
theorem counters_foldl_perm {evs evs' : List TcpEvent} (h : evs.Perm evs') :
    (evs.foldl ConnectionStats.add {}).counters = (evs'.foldl ConnectionStats.add {}).counters := by
  have hsum : ∀ g : TcpEvent → ℕ, (evs.map g).sum = (evs'.map g).sum := fun g => (h.map g).sum_eq
  unfold ConnectionStats.counters
  refine Prod.ext ?_ (Prod.ext ?_ ?_)
  · apply BitVec.eq_of_toNat_eq
    rw [ConnectionStats.toNat_connects_foldl, ConnectionStats.toNat_connects_foldl, hsum]
  · apply BitVec.eq_of_toNat_eq
    rw [ConnectionStats.toNat_bytesTx_foldl, ConnectionStats.toNat_bytesTx_foldl, hsum]
  · apply BitVec.eq_of_toNat_eq
    rw [ConnectionStats.toNat_bytesRx_foldl, ConnectionStats.toNat_bytesRx_foldl, hsum]

/-- **The reporter is an exact aggregator.**  After any calls of `record` and `clear`, a walk of
the table meets every connection with an event since the last `clear` once and no other,
`connection_count` is their number, and the entry of each one aggregates its events.  A history
whose events since the last `clear` are the same in another order gives the same connections
with the same counters. -/
theorem statsReporter_aggregates (cs : List Call) (entries : List (ConnectionKey × ConnectionStats))
    (h : (empty.calls cs).Enumerates entries) :
    (entries.map Prod.fst).Nodup ∧
    (∀ k, k ∈ entries.map Prod.fst ↔ ∃ ev ∈ sinceClear cs, ev.key = k) ∧
    (empty.calls cs).connectionCount = ((sinceClear cs).map TcpEvent.key).toFinset.card ∧
    (∀ k st, (k, st) ∈ entries → Aggregates (eventsOf k (sinceClear cs)) st) ∧
    ∀ cs', (sinceClear cs').Perm (sinceClear cs) → ∀ k,
      ((empty.calls cs').stats.lookup k).map ConnectionStats.counters =
        ((empty.calls cs).stats.lookup k).map ConnectionStats.counters := by
  have hkeys : ∀ k, k ∈ entries.map Prod.fst ↔ ∃ ev ∈ sinceClear cs, ev.key = k := by
    intro k
    rw [← eventsOf_ne_nil, List.mem_map]
    constructor
    · rintro ⟨⟨_, st⟩, hmem, rfl⟩
      exact ((mem_entries_calls_iff h).mp hmem).1
    · intro hne
      exact ⟨_, (mem_entries_calls_iff h).mpr ⟨hne, rfl⟩, rfl⟩
  refine ⟨nodup_keys h, hkeys, ?_, fun k st hmem => ?_, fun cs' hperm k => ?_⟩
  · rw [← card_keySet, ← h.keys_eq]
    congr 1
    ext k
    rw [List.mem_toFinset, hkeys, List.mem_toFinset, List.mem_map]
  · obtain ⟨hne, rfl⟩ := (mem_entries_calls_iff h).mp hmem
    exact aggregates_foldl hne
  · rw [calls_eq_recordAll, calls_eq_recordAll, stats_recordAll, stats_recordAll]
    exact GroupFold.map_lookup_foldl_record_perm _ _ _ (fun _ _ _ h => counters_foldl_perm h) hperm k

/-- A connect, a `clear`, then a connect and a close of the same connection. -/
theorem statsReporter_aggregates_connect_close :
    ∃ entries, (empty.calls [.record Scrape.webConnect, .clear, .record Scrape.webConnect,
        .record (closeEvent (some Scrape.webConnect) (Probe.process 7) 2 Probe.webSock)]).Enumerates entries ∧
      entries.map Prod.fst = [Scrape.webConnect.key] ∧
      ∀ k st, (k, st) ∈ entries → st.connects.toNat = 1 ∧ st.bytesTx.toNat = 120 := by
  refine ⟨_, List.Perm.refl _, rfl, fun k st hmem => ?_⟩
  have hk : k = Scrape.webConnect.key := List.mem_singleton.mp (List.mem_map_of_mem (f := Prod.fst) hmem)
  have hagg := (statsReporter_aggregates _ _ (List.Perm.refl _)).2.2.2.1 k st hmem
  subst hk
  exact ⟨hagg.connects, hagg.bytesTx⟩

end EbpfMonitor
