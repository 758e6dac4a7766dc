import EbpfMonitor.Lib.TableSum
import EbpfMonitor.StatsReporter
import Mathlib.Data.List.ReduceOption
import Mathlib.Data.Nat.ModEq

/-! # From the probes to the reporter

The events that a run of probes submits are recorded one after the other.  What `record` adds
to the entry of a connection and what a probe puts into its event are each a number that
depends on the event, respectively on the probe, alone: the close probe overwrites the action
and the byte counts of the event it takes from `pending_connects`.  So the sums over the table
are the sums over the probes (`totals_conserved`).

The counters are 64 bits wide: the sums agree modulo `2 ^ 64`, and the number of connects
exactly as long as it fits. -/

namespace EbpfMonitor

namespace StatsReporter

open TableSum

/-- `record` aggregates the events by connection. -/
theorem stats_recordAll (evs : List TcpEvent) :
    (recordAll evs).stats = evs.foldl (GroupFold.record TcpEvent.key {} ConnectionStats.add) ∅ :=
  (List.foldl_hom stats (fun _ _ => rfl)).symm

section listing

variable {evs : List TcpEvent} {entries : List (ConnectionKey × ConnectionStats)}
  {f : ConnectionStats → ℕ} {g : TcpEvent → ℕ} {n : ℕ}

/-- The sum over any listing of the table. -/
theorem Enumerates.sum_eq {r : StatsReporter} (h : r.Enumerates entries) (f : ConnectionStats → ℕ) :
    (entries.map (fun e => f e.2)).sum = total f r.stats := by
  rw [(h.map (fun e => f e.2)).sum_eq, List.map_map]
  rfl

/-- If an event adds `g ev` to the number of its entry modulo `n`, the numbers of all entries add up
to those of all events. -/
theorem Enumerates.sum_modEq (h : (recordAll evs).Enumerates entries) (h₀ : f {} = 0)
    (hadd : ∀ st ev, f (st.add ev) ≡ f st + g ev [MOD n]) :
    (entries.map (fun e => f e.2)).sum ≡ (evs.map g).sum [MOD n] := by
  have hsum : total f (evs.foldl (GroupFold.record TcpEvent.key {} ConnectionStats.add) ∅) ≡
      0 + (evs.map g).sum [MOD n] := total_foldl_modEq h₀ hadd evs ∅
  rw [← stats_recordAll, ← h.sum_eq f, Nat.zero_add] at hsum
  exact hsum

theorem Enumerates.sum_le (h : (recordAll evs).Enumerates entries) (h₀ : f {} = 0)
    (hadd : ∀ st ev, f (st.add ev) ≤ f st + g ev) :
    (entries.map (fun e => f e.2)).sum ≤ (evs.map g).sum := by
  have hsum : total f (evs.foldl (GroupFold.record TcpEvent.key {} ConnectionStats.add) ∅) ≤
      0 + (evs.map g).sum := total_foldl_le h₀ hadd evs ∅
  rw [← stats_recordAll, ← h.sum_eq f, Nat.zero_add] at hsum
  exact hsum

end listing

end StatsReporter

/-! ### What an event is worth -/

/-- One for a connect event. -/
def TcpEvent.connectsAdded (ev : TcpEvent) : ℕ := if ev.action = tcpActionConnect then 1 else 0

/-- The bytes that `record` adds for the event, given those it carries. -/
def TcpEvent.bytesAdded (bytes : TcpEvent → BitVec 64) (ev : TcpEvent) : ℕ :=
  if ev.action = tcpActionConnect then 0 else (bytes ev).toNat

namespace ConnectionStats

theorem connects_add (st : ConnectionStats) (ev : TcpEvent) :
    (st.add ev).connects.toNat ≡ st.connects.toNat + ev.connectsAdded [MOD 2 ^ 64] := by
  unfold add TcpEvent.connectsAdded
  split_ifs
  · exact Nat.mod_modEq _ _
  · exact Nat.ModEq.refl _

theorem connects_add_le (st : ConnectionStats) (ev : TcpEvent) :
    (st.add ev).connects.toNat ≤ st.connects.toNat + ev.connectsAdded := by
  unfold add TcpEvent.connectsAdded
  split_ifs
  · exact Nat.mod_le _ _
  · exact le_rfl

theorem bytesTx_add (st : ConnectionStats) (ev : TcpEvent) :
    (st.add ev).bytesTx.toNat ≡ st.bytesTx.toNat + ev.bytesAdded TcpEvent.bytesTx [MOD 2 ^ 64] := by
  unfold add TcpEvent.bytesAdded
  split_ifs
  · exact Nat.ModEq.refl _
  · exact Nat.mod_modEq _ _

theorem bytesRx_add (st : ConnectionStats) (ev : TcpEvent) :
    (st.add ev).bytesRx.toNat ≡ st.bytesRx.toNat + ev.bytesAdded TcpEvent.bytesRx [MOD 2 ^ 64] := by
  unfold add TcpEvent.bytesAdded
  split_ifs
  · exact Nat.ModEq.refl _
  · exact Nat.mod_modEq _ _

end ConnectionStats

/-! ### What a probe submits -/

namespace Probe

/-- The events that the probes submit, in order, from any state of `pending_connects`. -/
def events (filters : Filters) (pending : PendingConnects) (probes : List Probe) : List TcpEvent :=
  (Runs.execAll (exec filters) pending probes).1.reduceOption

/-- The probe is a connect that passes `should_filter` and has space for its event. -/
def Counted (filters : Filters) (p : Probe) : Prop :=
  p.kind = .connect ∧ shouldFilter filters p.cur.pid p.sk.dport = false ∧ p.reserved = true

instance (filters : Filters) (p : Probe) : Decidable (p.Counted filters) := by
  unfold Counted; infer_instance

/-- The probe is a close that has space for its event. -/
def Reported (p : Probe) : Prop := p.kind = .close ∧ p.reserved = true

instance (p : Probe) : Decidable p.Reported := by unfold Reported; infer_instance

/-- A close event carries the action and the byte counts of the close, whatever was pending. -/
theorem closeEvent_counts (pending : Option TcpEvent) (cur : Task) (now : BitVec 64) (sk : Sock) :
    (closeEvent pending cur now sk).action = tcpActionClose ∧
      (closeEvent pending cur now sk).bytesTx = sk.bytesSent ∧
      (closeEvent pending cur now sk).bytesRx = sk.bytesReceived := by
  cases pending with
  | none => exact ⟨rfl, rfl, rfl⟩
  | some ev => exact ⟨rfl, rfl, rfl⟩

variable {filters : Filters}

/-- The three ways in which a probe can end. -/
theorem exec_fst_cases (filters : Filters) (m : PendingConnects) (p : Probe) :
    (p.Counted filters ∧ (p.exec filters m).1 = some (connectEvent p.cur p.now p.sk)) ∨
    (p.Reported ∧ ∃ pending, (p.exec filters m).1 = some (closeEvent pending p.cur p.now p.sk)) ∨
    (¬ p.Counted filters ∧ ¬ p.Reported ∧ (p.exec filters m).1 = none) := by
  by_cases hc : p.Counted filters
  · obtain ⟨hkind, hpass, hres⟩ := hc
    refine Or.inl ⟨⟨hkind, hpass, hres⟩, ?_⟩
    have ht : p.Tracks filters p.cur.pid := ⟨hkind, rfl, hpass⟩
    rw [ht.exec_eq, if_pos hres]
  by_cases hr : p.Reported
  · have ht : p.Takes p.cur.pid := ⟨hr.1, rfl, hr.2⟩
    exact Or.inr (Or.inl ⟨hr, _, ht.exec_fst⟩)
  refine Or.inr (Or.inr ⟨hc, hr, ?_⟩)
  cases hkind : p.kind with
  | connect =>
      simp only [exec, hkind, traceTcpConnect]
      split_ifs with hfilter hres
      · rfl
      · exact absurd ⟨hkind, Bool.eq_false_iff.mpr hfilter, hres⟩ hc
      · rfl
  | close =>
      have hres : p.reserved = false := Bool.eq_false_iff.mpr (fun hres => hr ⟨hkind, hres⟩)
      simp only [exec, hkind, traceTcpClose, hres, Bool.false_eq_true, if_false]

/-- What the probe submits counts for one connect if it is counted. -/
theorem connectsAdded_exec (m : PendingConnects) (p : Probe) :
    (p.exec filters m).1.elim 0 TcpEvent.connectsAdded = if p.Counted filters then 1 else 0 := by
  obtain ⟨hc, hexec⟩ | ⟨hr, pending, hexec⟩ | ⟨hc, hr, hexec⟩ := exec_fst_cases filters m p
  · rw [hexec, if_pos hc]
    rfl
  · have hc : ¬ p.Counted filters := fun hc => absurd (hc.1.symm.trans hr.1) (by decide)
    rw [hexec, if_neg hc]
    simp [TcpEvent.connectsAdded, (closeEvent_counts pending p.cur p.now p.sk).1, tcpActionClose,
      tcpActionConnect]
  · rw [hexec, if_neg hc]
    rfl

/-- What the probe submits counts for the bytes of the socket if it is reported. -/
theorem bytesAdded_exec {bytes : TcpEvent → BitVec 64} {count : Sock → BitVec 64}
    (hbytes : ∀ pending cur now sk, bytes (closeEvent pending cur now sk) = count sk)
    (m : PendingConnects) (p : Probe) :
    (p.exec filters m).1.elim 0 (TcpEvent.bytesAdded bytes) =
      if p.Reported then (count p.sk).toNat else 0 := by
  obtain ⟨hc, hexec⟩ | ⟨hr, pending, hexec⟩ | ⟨hc, hr, hexec⟩ := exec_fst_cases filters m p
  · have hr : ¬ p.Reported := fun hr => absurd (hc.1.symm.trans hr.1) (by decide)
    rw [hexec, if_neg hr]
    rfl
  · rw [hexec, if_pos hr]
    simp [TcpEvent.bytesAdded, (closeEvent_counts pending p.cur p.now p.sk).1, tcpActionClose,
      tcpActionConnect, hbytes]
  · rw [hexec, if_neg hr]
    rfl

/-- The sum over the events is the sum over the probes. -/
theorem sum_events {g : TcpEvent → ℕ} {w : Probe → ℕ}
    (h : ∀ m p, (exec filters m p).1.elim 0 g = w p) (probes : List Probe) (m : PendingConnects) :
    ((events filters m probes).map g).sum = (probes.map w).sum := by
  induction probes generalizing m with
  | nil => rfl
  | cons p probes ih =>
      have hrest := ih (p.exec filters m).2
      have hone := h m p
      unfold events at hrest ⊢
      rw [List.map_cons, List.sum_cons, ← hrest, ← hone]
      simp only [Runs.execAll]
      cases hexec : (p.exec filters m).1 with
      | none => simp [List.reduceOption_cons_of_none]
      | some ev => simp [List.reduceOption_cons_of_some]

/-- The bytes that the events of a run add are those of the reported close probes. -/
theorem sum_bytesAdded {bytes : TcpEvent → BitVec 64} {count : Sock → BitVec 64}
    (hbytes : ∀ pending cur now sk, bytes (closeEvent pending cur now sk) = count sk)
    (m : PendingConnects) (probes : List Probe) :
    ((events filters m probes).map (TcpEvent.bytesAdded bytes)).sum =
      ((probes.filter Reported).map (fun p => (count p.sk).toNat)).sum := by
  rw [sum_events (bytesAdded_exec hbytes), List.sum_map_ite]
  simp

/-- The connects that the events of a run add are the counted connect probes. -/
theorem sum_connectsAdded (m : PendingConnects) (probes : List Probe) :
    ((events filters m probes).map TcpEvent.connectsAdded).sum = probes.countP (Counted filters) := by
  rw [sum_events connectsAdded_exec, List.sum_map_ite]
  simp [List.countP_eq_length_filter]

end Probe

/-! ### The totals -/

open StatsReporter Probe

/-- **Totals are conserved from the probes to the reporter**: for every state of
`pending_connects`, all filters and every run of probes, the connects over all connections are
the counted connect probes, and the bytes are those of the reported close probes. -/
theorem totals_conserved (filters : Filters) (m : PendingConnects) (probes : List Probe)
    (entries : List (ConnectionKey × ConnectionStats))
    (h : (recordAll (events filters m probes)).Enumerates entries) :
    ((entries.map (fun e => e.2.connects.toNat)).sum ≡ probes.countP (Counted filters) [MOD 2 ^ 64] ∧
      (probes.countP (Counted filters) < 2 ^ 64 →
        (entries.map (fun e => e.2.connects.toNat)).sum = probes.countP (Counted filters))) ∧
    (entries.map (fun e => e.2.bytesTx.toNat)).sum ≡
      ((probes.filter Reported).map (fun p => p.sk.bytesSent.toNat)).sum [MOD 2 ^ 64] ∧
    (entries.map (fun e => e.2.bytesRx.toNat)).sum ≡
      ((probes.filter Reported).map (fun p => p.sk.bytesReceived.toNat)).sum [MOD 2 ^ 64] := by
  have hle := h.sum_le (f := fun st => st.connects.toNat) rfl ConnectionStats.connects_add_le
  have hconnects := h.sum_modEq (f := fun st => st.connects.toNat) rfl ConnectionStats.connects_add
  have htx := h.sum_modEq (f := fun st => st.bytesTx.toNat) rfl ConnectionStats.bytesTx_add
  have hrx := h.sum_modEq (f := fun st => st.bytesRx.toNat) rfl ConnectionStats.bytesRx_add
  rw [sum_connectsAdded] at hle hconnects
  rw [sum_bytesAdded (fun pending cur now sk => (closeEvent_counts pending cur now sk).2.1)] at htx
  rw [sum_bytesAdded (fun pending cur now sk => (closeEvent_counts pending cur now sk).2.2)] at hrx
  refine ⟨⟨hconnects, fun hlt => ?_⟩, htx, hrx⟩
  exact hconnects.eq_of_lt_of_lt (Nat.lt_of_le_of_lt hle hlt) hlt

/-- A process connects, the connect is remembered, and the close that takes it up carries the
bytes of its socket. -/
theorem totals_conserved_connect_close :
    ∃ entries, (recordAll (events (fun _ => 0) BoundedMap.empty
        [⟨.connect, process 7, 1, webSock, true⟩, ⟨.close, process 7, 2, webSock, true⟩])).Enumerates
        entries ∧
      (entries.map (fun e => e.2.connects.toNat)).sum = 1 ∧
      (entries.map (fun e => e.2.bytesTx.toNat)).sum ≡ 120 [MOD 2 ^ 64] := by
  refine ⟨_, List.Perm.refl _, ?_, ?_⟩
  · exact (totals_conserved (fun _ => 0) BoundedMap.empty _ _ (List.Perm.refl _)).1.2 (by decide)
  · exact (totals_conserved (fun _ => 0) BoundedMap.empty _ _ (List.Perm.refl _)).2.1

end EbpfMonitor
