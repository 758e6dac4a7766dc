import EbpfMonitor.Aggregation
import EbpfMonitor.Lib.SortByKey

/-! # What `print_top` shows

`print_top` lists the entries of the table in the order of a walk, sorts them with `busier` and prints
a row for the first ones, counted by `shown`.  `ShowsTop` says what the rows have to be: the
connections with the most traffic, where the traffic of a connection is the sum of its two byte
counters as numbers.

The comparator adds the counters in 64 bits.  It is a strict weak order, whatever the counters are,
so `std::sort` does its work; but a sum that does not fit is compared by its remainder.
`printTop_shows_most_iff` says when the rows are right for every walk, every sort and every `n`: when
less traffic always has a smaller remainder. -/

namespace EbpfMonitor

open StatsReporter SortByKey

/-! ### The listing -/

/-- The comparator of `print_top`. -/
def busier (a b : ConnectionKey × ConnectionStats) : Prop := traffic a.2 > traffic b.2

/-- The entries whose rows the loop prints, from the value `shown` of its counter on. -/
def shownFrom (n : ℤ) : ℤ → List (ConnectionKey × ConnectionStats) → List (ConnectionKey × ConnectionStats)
  | _, [] => []
  | shown, e :: items => if shown ≥ n then [] else e :: shownFrom n (shown + 1) items

theorem shownFrom_eq_take (n : ℤ) (items : List (ConnectionKey × ConnectionStats)) (shown : ℤ) :
    shownFrom n shown items = items.take (n - shown).toNat := by
  induction items generalizing shown with
  | nil => simp [shownFrom]
  | cons e items ih =>
      rw [shownFrom]
      split_ifs with hn
      · have hzero : (n - shown).toNat = 0 := by omega
        rw [hzero, List.take_zero]
      · have hsucc : (n - shown).toNat = (n - (shown + 1)).toNat + 1 := by omega
        rw [hsucc, List.take_succ_cons, ih]

theorem shownFrom_zero (n : ℤ) (items : List (ConnectionKey × ConnectionStats)) :
    shownFrom n 0 items = items.take n.toNat := by
  rw [shownFrom_eq_take, Int.sub_zero]

/-- The output is the header and a row for each of these entries. -/
theorem printTop_eq (items : List (ConnectionKey × ConnectionStats)) (n : ℤ) :
    printTop items n = topHeader ++ (shownFrom n 0 items).flatMap (fun e => topRow keyPorts e.1 e.2) := by
  rw [shownFrom_zero]
  rfl

/-! ### The connections with the most traffic -/

/-- The sum of the byte counters, as a number. -/
def totalTraffic (st : ConnectionStats) : ℕ := st.bytesTx.toNat + st.bytesRx.toNat

/-- The rows of `print_top(n)` against the table. -/
structure ShowsTop (r : StatsReporter) (n : ℤ) (rows : List (ConnectionKey × ConnectionStats)) : Prop where
  length : (rows.length : ℤ) = min (max n 0) r.connectionCount
  nodup : (rows.map Prod.fst).Nodup
  tracked : ∀ k st, (k, st) ∈ rows → r.stats.lookup k = some st
  descending : rows.Pairwise (fun a b => totalTraffic b.2 ≤ totalTraffic a.2)
  most : ∀ k st, r.stats.lookup k = some st → (k, st) ∉ rows →
    ∀ e ∈ rows, totalTraffic st ≤ totalTraffic e.2

/-- The entries in one of the orders in which the map can be walked. -/
def StatsReporter.listing (r : StatsReporter) : List (ConnectionKey × ConnectionStats) :=
  r.stats.entries.map (fun e => (e.1, e.2))

theorem StatsReporter.enumerates_listing (r : StatsReporter) : r.Enumerates r.listing := List.Perm.refl _

section listing

variable {r : StatsReporter} {listed items : List (ConnectionKey × ConnectionStats)}

theorem busier_eq : busier = fun a b => (traffic b.2).toNat < (traffic a.2).toNat := rfl

theorem enumerates_of_sorts (h : r.Enumerates listed) (hsort : Sorts busier listed items) :
    r.Enumerates items := by
  rw [busier_eq] at hsort
  exact (sorts_iff.mp hsort).1.trans h

theorem length_of_enumerates (h : r.Enumerates items) : items.length = r.connectionCount := by
  rw [h.length_eq, List.length_map, connectionCount, AList.keys, List.keys, List.length_map]

/-- The first entries of a listing in descending order of traffic are those with the most. -/
theorem showsTop_of_descending (h : r.Enumerates items)
    (hdesc : items.Pairwise (fun a b => totalTraffic b.2 ≤ totalTraffic a.2)) (n : ℤ) :
    ShowsTop r n (shownFrom n 0 items) := by
  rw [shownFrom_zero]
  constructor
  case length =>
    rw [List.length_take, length_of_enumerates h]
    omega
  case nodup =>
    rw [List.map_take]
    exact (nodup_keys h).sublist (List.take_sublist _ _)
  case tracked => exact fun k st hmem => (mem_entries_iff h).mp (List.mem_of_mem_take hmem)
  case descending => exact hdesc.sublist (List.take_sublist _ _)
  case most =>
    intro k st hlookup hnot e he
    exact rel_of_mem_take hdesc he ((mem_entries_iff h).mpr hlookup) hnot

theorem shownFrom_length : shownFrom items.length 0 items = items := by
  rw [shownFrom_zero, Int.toNat_natCast, List.take_length]

end listing

/-- **When `print_top` shows the connections with the most traffic.**  Its output is the header and
the rows of the entries that the loop reaches.  In a given state of the reporter these are right for
every `n`, every order in which the map can be walked and every sort, exactly when less traffic
always means a smaller sum in 64 bits. -/
theorem printTop_shows_most_iff (r : StatsReporter) :
    (∀ items n, printTop items n =
      topHeader ++ (shownFrom n 0 items).flatMap (fun e => topRow keyPorts e.1 e.2)) ∧
    ((∀ n listed items, r.Enumerates listed → Sorts busier listed items →
      ShowsTop r n (shownFrom n 0 items)) ↔
    ∀ k st k' st', r.stats.lookup k = some st → r.stats.lookup k' = some st' →
      totalTraffic st < totalTraffic st' → traffic st < traffic st') := by
  refine ⟨printTop_eq, ?_⟩
  rw [busier_eq]
  constructor
  · intro h k st k' st' hst hst' hlt
    have hlisted := r.enumerates_listing
    have hagrees : ∀ a ∈ r.listing, ∀ b ∈ r.listing,
        totalTraffic a.2 < totalTraffic b.2 → (traffic a.2).toNat < (traffic b.2).toNat := by
      refine descending_iff.mp (fun sorted hsort => ?_)
      have hall := (h sorted.length _ sorted hlisted hsort).descending
      rw [shownFrom_length] at hall
      exact hall
    exact hagrees (k, st) ((mem_entries_iff hlisted).mpr hst) (k', st') ((mem_entries_iff hlisted).mpr hst') hlt
  · intro h n listed items hlisted hsort
    have hdesc : items.Pairwise (fun a b => totalTraffic b.2 ≤ totalTraffic a.2) := by
      refine descending_iff.mpr (fun a ha b hb hlt => ?_) items hsort
      exact h a.1 a.2 b.1 b.2 ((mem_entries_iff hlisted).mp ha) ((mem_entries_iff hlisted).mp hb) hlt
    exact showsTop_of_descending (enumerates_of_sorts hlisted hsort) hdesc n

theorem toNat_traffic {st : ConnectionStats} (h : totalTraffic st < 2 ^ 64) :
    (traffic st).toNat = totalTraffic st := by
  unfold traffic
  rw [BitVec.toNat_add]
  exact Nat.mod_eq_of_lt h

/-- Sums that fit are in the right order. -/
theorem traffic_lt_of_fits {r : StatsReporter}
    (h : ∀ k st, r.stats.lookup k = some st → totalTraffic st < 2 ^ 64) :
    ∀ k st k' st', r.stats.lookup k = some st → r.stats.lookup k' = some st' →
      totalTraffic st < totalTraffic st' → traffic st < traffic st' := by
  intro k st k' st' hst hst' hlt
  rw [BitVec.lt_def, toNat_traffic (h k st hst), toNat_traffic (h k' st' hst')]
  exact hlt

/-- The end of a connection of 16 bytes. -/
def quietClose : TcpEvent := closeEvent none (Probe.process 7) 2 Probe.databaseSock

/-- The end of a connection over which `2 ^ 63` bytes went in each direction. -/
def busyClose : TcpEvent :=
  closeEvent none (Probe.process 7) 1
    { Probe.webSock with bytesSent := 0x8000000000000000, bytesReceived := 0x8000000000000000 }

/-- The ends of two connections of a few bytes. -/
def quietCalls : List Call :=
  [.record quietClose, .record (closeEvent none (Probe.process 7) 1 Probe.webSock)]

/-- `print_top(1)` shows the busier one of them. -/
theorem printTop_shows_most_two :
    Sorts busier (empty.calls quietCalls).listing (empty.calls quietCalls).listing ∧
      ShowsTop (empty.calls quietCalls) 1 (shownFrom 1 0 (empty.calls quietCalls).listing) := by
  have hsorts : Sorts busier (empty.calls quietCalls).listing (empty.calls quietCalls).listing := by
    rw [busier_eq]
    exact sorts_iff.mpr ⟨List.Perm.refl _, by decide +kernel⟩
  have hfits : ∀ e ∈ (empty.calls quietCalls).listing, totalTraffic e.2 < 2 ^ 64 := by decide +kernel
  refine ⟨hsorts, (printTop_shows_most_iff _).2.mpr ?_ 1 _ _ (enumerates_listing _) hsorts⟩
  exact traffic_lt_of_fits (fun k st hst =>
    hfits (k, st) ((mem_entries_iff (enumerates_listing _)).mpr hst))

def busyCalls : List Call := [.record busyClose, .record quietClose]

/-- **The busiest connection is left out**: its sum is `2 ^ 64`, which is compared as zero, and
`print_top(1)` shows the connection of 16 bytes. -/
theorem printTop_hides_busiest :
    ∃ listed items st, (empty.calls busyCalls).Enumerates listed ∧ Sorts busier listed items ∧
      (shownFrom 1 0 items).map (fun e => (e.1, totalTraffic e.2)) = [(quietClose.key, 16)] ∧
      (empty.calls busyCalls).stats.lookup busyClose.key = some st ∧
      totalTraffic st = 2 ^ 64 ∧
      ¬ ShowsTop (empty.calls busyCalls) 1 (shownFrom 1 0 items) := by
  refine ⟨_, (empty.calls busyCalls).listing, _, enumerates_listing _, ?_, rfl, rfl,
    by decide +kernel, fun h => ?_⟩
  · rw [busier_eq]
    exact sorts_iff.mpr ⟨List.Perm.refl _, by decide +kernel⟩
  · have hle := h.most busyClose.key _ rfl (by decide +kernel) _ (List.mem_singleton.mpr rfl)
    revert hle
    decide +kernel

end EbpfMonitor
