import EbpfMonitor.Lib.Runs
import EbpfMonitor.MetricsText
import Mathlib.Data.Finset.Card

/-! # A scrape while other threads record

`PrometheusMetrics::from_reporter` takes the lock of the reporter twice: `connection_count`
reads the size of the table, and `for_each` walks it.  A `Scrape` is the reporter together with
the place the scraping thread has reached; between its two locked sections other threads may
call `record` and `clear`, each atomic.

* **The table as a set.**  Of the calls only the keys matter: `record` inserts one, `clear`
  removes all.  `tracked` follows the calls on sets of keys, and `keySet_calls` says that the
  table does the same.
* **The number that is printed.**  `scrape_consistent_iff` compares the gauge in the text with
  the number of connections in it, for every interleaving. -/

namespace EbpfMonitor

open StatsReporter PrometheusMetrics

/-- A call of another thread. -/
inductive Call where
  | record (ev : TcpEvent)
  | clear

/-! ### The table as a set of keys -/

/-- What a call does to a set of keys. -/
def Call.track (s : Finset ConnectionKey) : Call → Finset ConnectionKey
  | .record ev => insert ev.key s
  | .clear => ∅

/-- The connections that are tracked after the calls. -/
def tracked (s : Finset ConnectionKey) (cs : List Call) : Finset ConnectionKey := cs.foldl Call.track s

namespace StatsReporter

def call (r : StatsReporter) : Call → StatsReporter
  | .record ev => r.record ev
  | .clear => r.clear

def calls (r : StatsReporter) (cs : List Call) : StatsReporter := cs.foldl call r

def keySet (r : StatsReporter) : Finset ConnectionKey := r.stats.keys.toFinset

theorem keySet_record (r : StatsReporter) (ev : TcpEvent) : (r.record ev).keySet = insert ev.key r.keySet := by
  ext k
  have hmem : k ∈ (r.record ev).stats ↔ k = ev.key ∨ k ∈ r.stats := AList.mem_insert _
  simp only [keySet, List.mem_toFinset, Finset.mem_insert]
  exact hmem

theorem keySet_call (r : StatsReporter) (c : Call) : (r.call c).keySet = c.track r.keySet := by
  cases c with
  | record ev => exact keySet_record r ev
  | clear => rfl

/-- The table follows the calls as the set of its keys does. -/
theorem keySet_calls (r : StatsReporter) (cs : List Call) : (r.calls cs).keySet = tracked r.keySet cs := by
  induction cs generalizing r with
  | nil => rfl
  | cons c cs ih =>
      have hcs := ih (r.call c)
      rw [keySet_call] at hcs
      exact hcs

theorem card_keySet (r : StatsReporter) : r.keySet.card = r.connectionCount :=
  List.toFinset_card_of_nodup r.stats.keys_nodup

/-- However the table is walked, every key is met. -/
theorem Enumerates.keys_eq {r : StatsReporter} {entries : List (ConnectionKey × ConnectionStats)}
    (h : r.Enumerates entries) : (entries.map Prod.fst).toFinset = r.keySet := by
  have hkeys : (entries.map Prod.fst).Perm r.stats.keys := by
    have hmap := h.map Prod.fst
    rw [List.map_map] at hmap
    exact hmap
  exact List.toFinset_eq_of_perm _ _ hkeys

instance (r : StatsReporter) (entries : List (ConnectionKey × ConnectionStats)) :
    Decidable (r.Enumerates entries) := inferInstanceAs (Decidable (List.Perm _ _))

end StatsReporter

/-! ### When the calls leave the number of connections as it was -/

theorem mem_tracked {cs : List Call} (h : Call.clear ∉ cs) {s : Finset ConnectionKey} {k : ConnectionKey} :
    k ∈ tracked s cs ↔ k ∈ s ∨ ∃ ev, Call.record ev ∈ cs ∧ ev.key = k := by
  induction cs generalizing s with
  | nil => simp [tracked]
  | cons c cs ih =>
      rw [List.mem_cons, not_or] at h
      cases c with
      | clear => exact absurd rfl h.1
      | record ev =>
          have hrest : k ∈ tracked s (.record ev :: cs) ↔
              k ∈ insert ev.key s ∨ ∃ ev, Call.record ev ∈ cs ∧ ev.key = k := ih h.2
          rw [hrest, Finset.mem_insert]
          constructor
          · rintro ((rfl | hk) | ⟨ev', hmem, hkey⟩)
            · exact Or.inr ⟨ev, List.mem_cons_self .., rfl⟩
            · exact Or.inl hk
            · exact Or.inr ⟨ev', List.mem_cons_of_mem _ hmem, hkey⟩
          · rintro (hk | ⟨ev', hmem, hkey⟩)
            · exact Or.inl (Or.inr hk)
            · rcases List.mem_cons.mp hmem with heq | hmem
              · cases heq
                exact Or.inl (Or.inl hkey.symm)
              · exact Or.inr ⟨ev', hmem, hkey⟩

/-- What was tracked before the last `clear` does not matter. -/
theorem tracked_of_clear {cs : List Call} (h : Call.clear ∈ cs) (s : Finset ConnectionKey) :
    tracked s cs = tracked ∅ cs := by
  obtain ⟨as, bs, rfl⟩ := List.append_of_mem h
  simp only [tracked, List.foldl_append, List.foldl_cons, Call.track]

/-- Between the sections, either nothing is cleared and only connections are recorded that are
tracked already, or the connections recorded since the last `clear` are as many as there were. -/
def Undisturbed (before between : List Call) : Prop :=
  (Call.clear ∉ between ∧ ∀ ev, Call.record ev ∈ between → ev.key ∈ tracked ∅ before) ∨
    (Call.clear ∈ between ∧ (tracked ∅ between).card = (tracked ∅ before).card)

theorem card_tracked_iff (before between : List Call) :
    (tracked ∅ before).card = (tracked (tracked ∅ before) between).card ↔ Undisturbed before between := by
  by_cases hclear : Call.clear ∈ between
  · rw [tracked_of_clear hclear]
    constructor
    · intro h
      exact Or.inr ⟨hclear, h.symm⟩
    · rintro (⟨hnot, _⟩ | ⟨_, h⟩)
      · exact absurd hclear hnot
      · exact h.symm
  · have hsub : tracked ∅ before ⊆ tracked (tracked ∅ before) between :=
      fun k hk => (mem_tracked hclear).mpr (Or.inl hk)
    constructor
    · intro h
      refine Or.inl ⟨hclear, fun ev hev => ?_⟩
      rw [Finset.eq_of_subset_of_card_le hsub h.ge]
      exact (mem_tracked hclear).mpr (Or.inr ⟨ev, hev, rfl⟩)
    · rintro (⟨_, h⟩ | ⟨hc, _⟩)
      · congr 1
        refine hsub.antisymm (fun k hk => ?_)
        rcases (mem_tracked hclear).mp hk with hk | ⟨ev, hev, rfl⟩
        · exact hk
        · exact h ev hev
      · exact absurd hc hclear

/-! ### The scrape -/

/-- Where the scraping thread is; `listed` are the connections whose samples it has written. -/
inductive Scrape.Pc where
  | start
  | counted (nowMs count : ℕ)
  | finished (out : Text) (listed : List ConnectionKey)

structure Scrape where
  reporter : StatsReporter
  pc : Scrape.Pc

namespace Scrape

inductive Action where
  | call (c : Call)
  /-- `connection_count()`. -/
  | count (nowMs : ℕ)
  /-- `for_each`, which meets the entries in this order. -/
  | walk (entries : List (ConnectionKey × ConnectionStats))

def step (s : Scrape) : Action → Option Scrape
  | .call c => some { s with reporter := s.reporter.call c }
  | .count nowMs =>
      match s.pc with
      | .start => some { s with pc := .counted nowMs s.reporter.connectionCount }
      | _ => none
  | .walk entries =>
      match s.pc with
      | .counted nowMs count =>
          if s.reporter.Enumerates entries then
            some { s with pc := .finished (fromReporter nowMs count entries) (entries.map Prod.fst) }
          else none
      | _ => none

def init : Scrape := ⟨empty, .start⟩

/-- The calls before the next step of the scraping thread. -/
def callsBefore : List Action → List Call
  | .call c :: as => c :: callsBefore as
  | _ => []

/-- The calls between its two locked sections. -/
def callsBetween : List Action → List Call
  | .call _ :: as => callsBetween as
  | .count _ :: as => callsBefore as
  | _ => []

theorem pc_of_finished {s t : Scrape} {as : List Action} {out : Text} {listed : List ConnectionKey}
    (hrun : Runs.run step s as = some t) (hpc : s.pc = .finished out listed) :
    t.pc = .finished out listed := by
  refine Runs.run_invariant (P := fun s => s.pc = .finished out listed) (fun s a s' hs h => ?_) hpc hrun
  cases a with
  | call c =>
      cases h
      exact hs
  | count nowMs => simp [step, hs] at h
  | walk entries => simp [step, hs] at h

/-- The second section writes what the table holds after the calls so far. -/
theorem finished_of_counted {as : List Action} {r : StatsReporter} {nowMs count : ℕ} {t : Scrape}
    {out : Text} {listed : List ConnectionKey} (hrun : Runs.run step ⟨r, .counted nowMs count⟩ as = some t)
    (hpc : t.pc = .finished out listed) :
    ∃ entries, (r.calls (callsBefore as)).Enumerates entries ∧ out = fromReporter nowMs count entries ∧
      listed = entries.map Prod.fst := by
  induction as generalizing r with
  | nil =>
      cases hrun
      cases hpc
  | cons a as ih =>
      obtain ⟨s, hstep, hrun⟩ := Runs.run_cons_eq_some.mp hrun
      cases a with
      | call c =>
          cases hstep
          exact ih hrun
      | count nowMs => cases hstep
      | walk entries =>
          simp only [step, Option.ite_none_right_eq_some, Option.some.injEq] at hstep
          obtain ⟨henum, rfl⟩ := hstep
          have hfinished := pc_of_finished hrun rfl
          rw [hpc] at hfinished
          cases hfinished
          exact ⟨entries, henum, rfl, rfl⟩

/-- A finished scrape has counted after the calls before its first section and walked after those
before its second. -/
theorem finished_of_start {as : List Action} {r : StatsReporter} {t : Scrape} {out : Text}
    {listed : List ConnectionKey} (hrun : Runs.run step ⟨r, .start⟩ as = some t)
    (hpc : t.pc = .finished out listed) :
    ∃ nowMs entries, ((r.calls (callsBefore as)).calls (callsBetween as)).Enumerates entries ∧
      out = fromReporter nowMs (r.calls (callsBefore as)).connectionCount entries ∧
      listed = entries.map Prod.fst := by
  induction as generalizing r with
  | nil =>
      cases hrun
      cases hpc
  | cons a as ih =>
      obtain ⟨s, hstep, hrun⟩ := Runs.run_cons_eq_some.mp hrun
      cases a with
      | call c =>
          cases hstep
          exact ih hrun
      | count nowMs =>
          cases hstep
          exact ⟨nowMs, finished_of_counted hrun hpc⟩
      | walk entries => cases hstep

/-- **The gauge is the number of connections in the same text exactly when the calls between the
two locked sections leave that number as it was**: either they record only connections that are
tracked already, or they clear the table and the connections recorded since are as many. -/
theorem scrape_consistent_iff {as : List Action} {t : Scrape} {out : Text} {listed : List ConnectionKey}
    (hrun : Runs.run step init as = some t) (hpc : t.pc = .finished out listed) :
    Exposition.valueOf "ebpf_active_connections".toList out =
        some (.number (Numeral.ofNat listed.toFinset.card)) ↔
      Undisturbed (callsBefore as) (callsBetween as) := by
  obtain ⟨nowMs, entries, henum, rfl, rfl⟩ := finished_of_start hrun hpc
  have hbefore : (empty.calls (callsBefore as)).keySet = tracked ∅ (callsBefore as) :=
    keySet_calls empty (callsBefore as)
  rw [fromReporter, valueOf_gauge, henum.keys_eq, keySet_calls, ← card_keySet, hbefore, ← card_tracked_iff]
  constructor
  · intro h
    injection h with h
    injection h with h
    exact congrArg Numeral.integer h
  · intro h
    rw [h]

/-- A connect of process 7 on a web socket. -/
def webConnect : TcpEvent := connectEvent (Probe.process 7) 1 Probe.webSock

/-- The entries of that connection after `n` connects. -/
def webEntries (n : BitVec 64) : List (ConnectionKey × ConnectionStats) :=
  [(webConnect.key, { comm := commText webConnect.comm, uid := webConnect.uid, connects := n, timestamp := 1 })]

/-- A second connect on the same connection between the two sections does no harm. -/
theorem scrape_consistent_reconnect :
    ∃ t out listed,
      Runs.run step init [.call (.record webConnect), .count 5, .call (.record webConnect),
        .walk (webEntries 2)] = some t ∧ t.pc = .finished out listed ∧
      Exposition.valueOf "ebpf_active_connections".toList out =
        some (.number (Numeral.ofNat listed.toFinset.card)) := by
  have hrun : Runs.run step init [.call (.record webConnect), .count 5, .call (.record webConnect),
      .walk (webEntries 2)] = some ⟨(empty.record webConnect).record webConnect,
        .finished (fromReporter 5 1 (webEntries 2)) [webConnect.key]⟩ := rfl
  refine ⟨_, _, _, hrun, rfl, (scrape_consistent_iff hrun rfl).mpr (Or.inl ⟨?_, ?_⟩)⟩
  · simp [callsBetween, callsBefore]
  · simp [callsBetween, callsBefore, tracked, Call.track]

/-- A connection that is recorded between the two sections: the gauge says 0, and the text lists
one connection. -/
theorem scrape_inconsistent :
    ∃ t out listed,
      Runs.run step init [.count 5, .call (.record webConnect), .walk (webEntries 1)] = some t ∧
      t.pc = .finished out listed ∧
      Exposition.valueOf "ebpf_active_connections".toList out = some (.number (Numeral.ofNat 0)) ∧
      listed.toFinset.card = 1 := by
  have hrun : Runs.run step init [.count 5, .call (.record webConnect), .walk (webEntries 1)] =
      some ⟨empty.record webConnect, .finished (fromReporter 5 0 (webEntries 1)) [webConnect.key]⟩ := rfl
  exact ⟨_, _, _, hrun, rfl, valueOf_gauge swappedPorts 5 0 (webEntries 1), rfl⟩

end Scrape

end EbpfMonitor
