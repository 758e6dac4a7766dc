import EbpfMonitor.RunMonitor
import EbpfMonitor.SyscallAudit
import EbpfMonitor.TopConnections
import Mathlib.Algebra.Order.BigOperators.Group.List
import Mathlib.Algebra.Order.Group.Nat

/-! # The main loop of `run_monitor`

The embedding of the loop in `src/monitor.cpp` with its two callbacks, and of what `run_monitor` prints
around it.

* **An iteration** polls the ring buffer of the tracer, then that of the audit, and then looks at the
  clock.  A poll calls the callback for any number of records, whose names end with a zero byte.  The
  loop tests `g_stop` once per iteration; a signal can arrive at any time.
* **The clock** is steady: a reading is never before the last one.  Times are in nanoseconds.
* **Outputs.**  With `--json` the standard output gets a line for each event, otherwise a screen of
  `print_top(10)` from time to time.  The audit goes to the standard error.

`Told` says what one run tells in either mode.  `screens_show_top` is the result without `--json`: the
screens are at least five seconds apart, no reading of the clock finds one overdue, and each shows the
busiest connections among the events handled before it. -/

namespace EbpfMonitor

open Text StatsReporter RunMonitor SyscallAudit

theorem StatsReporter.recordAll_concat (evs : List TcpEvent) (ev : TcpEvent) :
    recordAll (evs ++ [ev]) = (recordAll evs).record ev := by
  unfold recordAll
  rw [List.foldl_append]
  rfl

namespace MonitorLoop

/-! ### The loop -/

/-- What `run_monitor` prints before the loop. -/
def banner (cfg : Config) : Text :=
  "eBPF monitor running. HTTP metrics at http://localhost:".toList ++ decimal cfg.httpPort.toNat ++
    "/metrics\n".toList ++ "Endpoints: /metrics  /connections  /health\n".toList ++
    "Press Ctrl+C to stop.\n".toList ++
    (if cfg.filterPid ≠ 0 then "  Filtering PID:  ".toList ++ decimal cfg.filterPid.toNat ++ "\n".toList
      else []) ++
    (if cfg.filterPort ≠ 0 then "  Filtering Port: ".toList ++ decimal cfg.filterPort.toNat ++ "\n".toList
      else [])

/-- What it prints after the loop. -/
def shuttingDown : Text := "\nShutting down.\n".toList

/-- `PRINT_INTERVAL_SEC`. -/
def printIntervalSec : ℕ := 5

def nanosPerSec : ℕ := 1000000000

/-- The time between two screens. -/
def printInterval : ℕ := printIntervalSec * nanosPerSec

/-- The place in the loop. -/
inductive Pc where
  /-- at the test of `g_stop` -/
  | condition
  /-- in `tcp_rb.poll` -/
  | pollTcp
  /-- in `audit_rb.poll` -/
  | pollAudit
  /-- before the clock is read -/
  | clock
  /-- the loop has ended -/
  | done
deriving DecidableEq

structure State where
  pc : Pc
  gStop : Bool
  reporter : StatsReporter
  out : Text
  err : Text
  lastPrint : ℕ
  /-- the last reading of the clock -/
  now : ℕ

/-- After the banner, with the first reading of the clock. -/
def init (cfg : Config) (now : ℕ) : State := ⟨.condition, false, empty, banner cfg, [], now, now⟩

inductive Action where
  /-- `SIGINT` or `SIGTERM` arrives -/
  | signal
  /-- `g_stop` is tested -/
  | test
  /-- `handle_tcp_event` -/
  | tcpEvent (ev : TcpEvent)
  /-- `tcp_rb.poll` returns -/
  | tcpPolled
  /-- `handle_syscall_event` -/
  | syscallEvent (ev : SyscallEvent)
  /-- `audit_rb.poll` returns -/
  | auditPolled
  /-- the clock is read; the items are what the sort in `print_top` leaves, if it is called -/
  | clock (now : ℕ) (items : List (ConnectionKey × ConnectionStats))

def handleTcpEvent (json : Bool) (s : State) (ev : TcpEvent) : State :=
  { s with reporter := s.reporter.record ev, out := s.out ++ (if json then jsonLine ev else []) }

def handleSyscallEvent (s : State) (ev : SyscallEvent) : State := { s with err := s.err ++ auditLine ev }

/-- The condition under which a screen is printed. -/
def due (json : Bool) (s : State) (now : ℕ) : Bool :=
  !json && decide (printIntervalSec ≤ (now - s.lastPrint) / nanosPerSec)

/-- The items are a result of the sort in `print_top`. -/
def Listed (r : StatsReporter) (items : List (ConnectionKey × ConnectionStats)) : Prop :=
  r.Enumerates items ∧ SortedByTraffic items

instance (r : StatsReporter) (items : List (ConnectionKey × ConnectionStats)) :
    Decidable (Listed r items) := by
  unfold Listed Enumerates SortedByTraffic; infer_instance

/-- The screen of `print_top(10)`. -/
def screen (items : List (ConnectionKey × ConnectionStats)) : Text := printTop items 10

def step (json : Bool) (s : State) : Action → Option State
  | .signal => some { s with gStop := true }
  | .test =>
      if s.pc = .condition then
        if s.gStop then some { s with pc := .done, out := s.out ++ shuttingDown }
        else some { s with pc := .pollTcp }
      else none
  | .tcpEvent ev =>
      if s.pc = .pollTcp ∧ ev.comm.Terminated then some (handleTcpEvent json s ev) else none
  | .tcpPolled => if s.pc = .pollTcp then some { s with pc := .pollAudit } else none
  | .syscallEvent ev =>
      if s.pc = .pollAudit ∧ ev.comm.Terminated then some (handleSyscallEvent s ev) else none
  | .auditPolled => if s.pc = .pollAudit then some { s with pc := .clock } else none
  | .clock now items =>
      if s.pc = .clock ∧ s.now ≤ now then
        if due json s now then
          if Listed s.reporter items then
            some { s with pc := .condition, now := now, out := s.out ++ screen items, lastPrint := now }
          else none
        else some { s with pc := .condition, now := now }
      else none

/-! ### What a step does -/

inductive Move (json : Bool) (s : State) : Action → State → Prop
  | signal : Move json s .signal { s with gStop := true }
  | leave : s.pc = .condition → s.gStop = true →
      Move json s .test { s with pc := .done, out := s.out ++ shuttingDown }
  | again : s.pc = .condition → s.gStop = false → Move json s .test { s with pc := .pollTcp }
  | tcpEvent {ev : TcpEvent} : s.pc = .pollTcp → ev.comm.Terminated →
      Move json s (.tcpEvent ev) (handleTcpEvent json s ev)
  | tcpPolled : s.pc = .pollTcp → Move json s .tcpPolled { s with pc := .pollAudit }
  | syscallEvent {ev : SyscallEvent} : s.pc = .pollAudit → ev.comm.Terminated →
      Move json s (.syscallEvent ev) (handleSyscallEvent s ev)
  | auditPolled : s.pc = .pollAudit → Move json s .auditPolled { s with pc := .clock }
  | print {now : ℕ} {items : List (ConnectionKey × ConnectionStats)} : s.pc = .clock → s.now ≤ now →
      due json s now = true → Listed s.reporter items →
      Move json s (.clock now items)
        { s with pc := .condition, now := now, out := s.out ++ screen items, lastPrint := now }
  | skip {now : ℕ} {items : List (ConnectionKey × ConnectionStats)} : s.pc = .clock → s.now ≤ now →
      due json s now = false → Move json s (.clock now items) { s with pc := .condition, now := now }

variable {json : Bool} {cfg : Config} {s s' : State} {a : Action} {as : List Action} {start : ℕ}

theorem move_of_step (h : step json s a = some s') : Move json s a s' := by
  cases a with
  | signal =>
      cases h
      exact .signal
  | test =>
      simp only [step] at h
      split_ifs at h with hpc hstop
      · cases h
        exact .leave hpc hstop
      · cases h
        exact .again hpc (Bool.eq_false_iff.mpr hstop)
  | tcpEvent ev =>
      simp only [step] at h
      split_ifs at h with hpc
      cases h
      exact .tcpEvent hpc.1 hpc.2
  | tcpPolled =>
      simp only [step] at h
      split_ifs at h with hpc
      cases h
      exact .tcpPolled hpc
  | syscallEvent ev =>
      simp only [step] at h
      split_ifs at h with hpc
      cases h
      exact .syscallEvent hpc.1 hpc.2
  | auditPolled =>
      simp only [step] at h
      split_ifs at h with hpc
      cases h
      exact .auditPolled hpc
  | clock now items =>
      simp only [step] at h
      split_ifs at h with hpc hdue hlisted
      · cases h
        exact .print hpc.1 hpc.2 hdue hlisted
      · cases h
        exact .skip hpc.1 hpc.2 (Bool.eq_false_iff.mpr hdue)

/-! ### What a run tells -/

/-- The events that `handle_tcp_event` was called for. -/
def handled (as : List Action) : List TcpEvent :=
  as.filterMap (fun a => match a with
    | .tcpEvent ev => some ev
    | _ => none)

/-- The events that `handle_syscall_event` was called for. -/
def audited (as : List Action) : List SyscallEvent :=
  as.filterMap (fun a => match a with
    | .syscallEvent ev => some ev
    | _ => none)

/-- What is printed when the loop has ended. -/
def farewell : Pc → Text
  | .done => shuttingDown
  | _ => []

theorem handled_append (as bs : List Action) : handled (as ++ bs) = handled as ++ handled bs :=
  List.filterMap_append

theorem audited_append (as bs : List Action) : audited (as ++ bs) = audited as ++ audited bs :=
  List.filterMap_append

/-- The table and the standard error after the actions `as`. -/
structure Told (as : List Action) (s : State) : Prop where
  reporter : s.reporter = recordAll (handled as)
  err : s.err = auditLog (audited as)

theorem Told.move (h : Told as s) (hmove : Move json s a s') : Told (as ++ [a]) s' := by
  obtain ⟨hreporter, herr⟩ := h
  have hquiet : handled [a] = [] → audited [a] = [] → s'.reporter = s.reporter → s'.err = s.err →
      Told (as ++ [a]) s' := by
    intro hno hno' hr he
    refine ⟨?_, ?_⟩
    · rw [handled_append, hno, List.append_nil, hr, hreporter]
    · rw [audited_append, hno', List.append_nil, he, herr]
  cases hmove with
  | signal => exact hquiet rfl rfl rfl rfl
  | leave _ _ => exact hquiet rfl rfl rfl rfl
  | again _ _ => exact hquiet rfl rfl rfl rfl
  | @tcpEvent ev _ _ =>
      refine ⟨?_, ?_⟩
      · rw [handled_append, show handled [.tcpEvent ev] = [ev] from rfl, recordAll_concat, ← hreporter]
        rfl
      · rw [audited_append, show audited [.tcpEvent ev] = [] from rfl, List.append_nil]
        exact herr
  | tcpPolled _ => exact hquiet rfl rfl rfl rfl
  | @syscallEvent ev _ _ =>
      refine ⟨?_, ?_⟩
      · rw [handled_append, show handled [.syscallEvent ev] = [] from rfl, List.append_nil]
        exact hreporter
      · rw [audited_append, show audited [.syscallEvent ev] = [ev] from rfl, auditLog, List.flatMap_append,
          List.flatMap_singleton]
        exact congrArg (· ++ auditLine ev) herr
  | auditPolled _ => exact hquiet rfl rfl rfl rfl
  | print _ _ _ _ => exact hquiet rfl rfl rfl rfl
  | skip _ _ _ => exact hquiet rfl rfl rfl rfl

theorem told_of_run (h : Runs.run (step json) (init cfg start) as = some s) : Told as s :=
  Runs.run_history ⟨rfl, rfl⟩ (fun _ _ _ _ hold hstep => hold.move (move_of_step hstep)) h

/-! ### The end of the loop -/

/-- The action is a reading of the clock. -/
def Action.isClock : Action → Bool
  | .clock _ _ => true
  | _ => false

theorem Move.gStop (h : Move json s a s') (hstop : s.gStop = true) : s'.gStop = true := by
  cases h <;> first | rfl | exact hstop

/-- Once the loop has ended only signals arrive. -/
theorem Move.signal_of_done (h : Move json s a s') (hpc : s.pc = .done) : a = .signal ∧ s'.pc = .done := by
  cases h with
  | signal => exact ⟨rfl, hpc⟩
  | _ => simp_all

theorem signals_of_done (hpc : s.pc = .done) (h : Runs.run (step json) s as = some s') :
    ∀ a ∈ as, a = .signal := by
  refine (Runs.run_history (P := fun as t => t.pc = .done ∧ ∀ a ∈ as, a = .signal)
    ⟨hpc, fun _ ha => absurd ha List.not_mem_nil⟩ ?_ h).2
  rintro as t a t' ⟨ht, has⟩ hstep
  obtain ⟨ha, ht'⟩ := (move_of_step hstep).signal_of_done ht
  exact ⟨ht', List.forall_mem_append.mpr ⟨has, List.forall_mem_singleton.mpr ha⟩⟩

/-- **A test after a signal leaves the loop**, and nothing but signals comes after it. -/
theorem leaves_of_signal {pre mid post : List Action} {s₀ : State}
    (h : Runs.run (step json) s₀ (pre ++ .signal :: mid ++ .test :: post) = some s) :
    ∃ u, Runs.run (step json) s₀ (pre ++ .signal :: mid ++ [.test]) = some u ∧ u.pc = .done ∧
      ∀ a ∈ post, a = .signal := by
  obtain ⟨t, ht, hrest⟩ := Runs.run_append_eq_some.mp h
  obtain ⟨u, hu, hpost⟩ := Runs.run_cons_eq_some.mp hrest
  have hstop : t.gStop = true := by
    obtain ⟨v, -, hv⟩ := Runs.run_append_eq_some.mp ht
    obtain ⟨w, hw, hmid⟩ := Runs.run_cons_eq_some.mp hv
    refine Runs.run_invariant (P := fun s => s.gStop = true)
      (fun _ _ _ hs hstep => (move_of_step hstep).gStop hs) ?_ hmid
    cases hw
    rfl
  have hdone : u.pc = .done := by
    cases move_of_step hu with
    | leave _ _ => rfl
    | again _ hgo =>
        rw [hstop] at hgo
        cases hgo
  exact ⟨u, Runs.run_concat ht hu, hdone, signals_of_done hdone hpost⟩

/-! ### The screens -/

/-- A screen, with the time at which it is printed and the items that it is printed from. -/
abbrev Screen := ℕ × List (ConnectionKey × ConnectionStats)

/-- The start of the loop and the times of the screens. -/
def times (start : ℕ) (screens : List Screen) : List ℕ := start :: screens.map Prod.fst

/-- The screen is printed at a reading of the clock, from the events handled before it. -/
def PrintedIn (as : List Action) (sc : Screen) : Prop :=
  ∃ pre post, as = pre ++ .clock sc.1 sc.2 :: post ∧ Listed (recordAll (handled pre)) sc.2

theorem PrintedIn.concat {sc : Screen} (h : PrintedIn as sc) (a : Action) : PrintedIn (as ++ [a]) sc := by
  obtain ⟨pre, post, has, hlisted⟩ := h
  exact ⟨pre, post ++ [a], by rw [has, List.append_assoc, List.cons_append], hlisted⟩

/-- The screens are those of a run with the actions `as`. -/
structure Shows (cfg : Config) (start : ℕ) (as : List Action) (s : State) (screens : List Screen) : Prop where
  out : s.out = banner cfg ++ screens.flatMap (fun sc => screen sc.2) ++ farewell s.pc
  last : s.lastPrint ∈ times start screens
  le_last : ∀ t ∈ times start screens, t ≤ s.lastPrint
  le_now : s.lastPrint ≤ s.now
  apart : (times start screens).Pairwise (fun t t' => t + printInterval ≤ t')
  timely : ∀ now items, .clock now items ∈ as →
    ∃ t ∈ times start screens, t ≤ now ∧ now < t + printInterval
  printed : ∀ sc ∈ screens, PrintedIn as sc

theorem due_iff {now : ℕ} : due false s now = true ↔ printInterval ≤ now - s.lastPrint := by
  unfold due printInterval
  rw [Bool.not_false, Bool.true_and, decide_eq_true_iff]
  exact Nat.le_div_iff_mul_le (by decide)

theorem times_concat (start : ℕ) (screens : List Screen) (sc : Screen) :
    times start (screens ++ [sc]) = times start screens ++ [sc.1] := by
  unfold times
  rw [List.map_append, List.map_singleton, List.cons_append]

namespace Shows

variable {screens : List Screen}

theorem init (cfg : Config) (start : ℕ) : Shows cfg start [] (init cfg start) [] where
  out := by
    rw [List.flatMap_nil, List.append_nil]
    exact (List.append_nil _).symm
  last := List.mem_cons_self
  le_last := List.forall_mem_singleton.mpr le_rfl
  le_now := le_rfl
  apart := List.pairwise_singleton _ _
  timely _ _ h := absurd h List.not_mem_nil
  printed _ h := absurd h List.not_mem_nil

/-- A step that is no reading of the clock. -/
theorem frame (h : Shows cfg start as s screens) (ha : a.isClock = false)
    (hout : s'.out = banner cfg ++ screens.flatMap (fun sc => screen sc.2) ++ farewell s'.pc)
    (hlast : s'.lastPrint = s.lastPrint) (hnow : s'.now = s.now) :
    Shows cfg start (as ++ [a]) s' screens where
  out := hout
  last := hlast ▸ h.last
  le_last := hlast ▸ h.le_last
  le_now := by
    rw [hlast, hnow]
    exact h.le_now
  apart := h.apart
  timely now items hmem := by
    rcases List.mem_append.mp hmem with hmem | hmem
    · exact h.timely now items hmem
    · rw [← List.mem_singleton.mp hmem] at ha
      cases ha
  printed sc hsc := (h.printed sc hsc).concat a

/-- A reading of the clock at which no screen is due. -/
theorem skip (h : Shows cfg start as s screens) {now : ℕ} {items : List (ConnectionKey × ConnectionStats)}
    (hpc : s.pc = .clock) (hnow : s.now ≤ now) (hdue : due false s now = false) :
    Shows cfg start (as ++ [.clock now items]) { s with pc := .condition, now := now } screens where
  out := by
    have hout := h.out
    rw [hpc] at hout
    exact hout
  last := h.last
  le_last := h.le_last
  le_now := le_trans h.le_now hnow
  apart := h.apart
  timely now' items' hmem := by
    rcases List.mem_append.mp hmem with hmem | hmem
    · exact h.timely now' items' hmem
    · cases List.mem_singleton.mp hmem
      have hnot : ¬ printInterval ≤ now - s.lastPrint := by
        rw [← due_iff, hdue]
        exact Bool.false_ne_true
      have hle := h.le_now
      exact ⟨s.lastPrint, h.last, by omega, by omega⟩
  printed sc hsc := (h.printed sc hsc).concat _

/-- A reading of the clock at which a screen is printed. -/
theorem print (h : Shows cfg start as s screens) (htold : Told as s) {now : ℕ}
    {items : List (ConnectionKey × ConnectionStats)} (hpc : s.pc = .clock) (hnow : s.now ≤ now)
    (hdue : due false s now = true) (hlisted : Listed s.reporter items) :
    Shows cfg start (as ++ [.clock now items])
      { s with pc := .condition, now := now, out := s.out ++ screen items, lastPrint := now }
      (screens ++ [(now, items)]) where
  out := by
    have hout := h.out
    rw [hpc] at hout
    simp only [hout, farewell, List.append_nil, List.flatMap_append, List.flatMap_singleton,
      List.append_assoc]
  last := by
    rw [times_concat]
    exact List.mem_append_right _ (List.mem_singleton.mpr rfl)
  le_last t ht := by
    rw [times_concat] at ht
    rcases List.mem_append.mp ht with ht | ht
    · exact le_trans (h.le_last t ht) (le_trans h.le_now hnow)
    · exact le_of_eq (List.mem_singleton.mp ht)
  le_now := le_rfl
  apart := by
    rw [times_concat, List.pairwise_append]
    refine ⟨h.apart, List.pairwise_singleton _ _, fun t ht t' ht' => ?_⟩
    have hle := h.le_last t ht
    have hgap := due_iff.mp hdue
    have hpos : 0 < printInterval := by decide
    rw [List.mem_singleton.mp ht']
    show t + printInterval ≤ now
    omega
  timely now' items' hmem := by
    rw [times_concat]
    rcases List.mem_append.mp hmem with hmem | hmem
    · obtain ⟨t, ht, hbounds⟩ := h.timely now' items' hmem
      exact ⟨t, List.mem_append_left _ ht, hbounds⟩
    · cases List.mem_singleton.mp hmem
      exact ⟨now, List.mem_append_right _ (List.mem_singleton.mpr rfl), le_rfl,
        Nat.lt_add_of_pos_right (by decide)⟩
  printed sc hsc := by
    rcases List.mem_append.mp hsc with hsc | hsc
    · exact (h.printed sc hsc).concat _
    · obtain rfl := List.mem_singleton.mp hsc
      exact ⟨as, [], rfl, htold.reporter ▸ hlisted⟩

theorem move (h : Shows cfg start as s screens) (htold : Told as s) (hmove : Move false s a s') :
    ∃ screens', Shows cfg start (as ++ [a]) s' screens' := by
  have hout := h.out
  cases hmove with
  | signal => exact ⟨screens, h.frame rfl hout rfl rfl⟩
  | leave hpc _ =>
      refine ⟨screens, h.frame rfl ?_ rfl rfl⟩
      rw [hpc] at hout
      simp only [hout, farewell, List.append_nil]
  | again hpc _ =>
      rw [hpc] at hout
      exact ⟨screens, h.frame rfl hout rfl rfl⟩
  | tcpEvent _ _ => exact ⟨screens, h.frame rfl ((List.append_nil _).trans hout) rfl rfl⟩
  | tcpPolled hpc =>
      rw [hpc] at hout
      exact ⟨screens, h.frame rfl hout rfl rfl⟩
  | syscallEvent _ _ => exact ⟨screens, h.frame rfl hout rfl rfl⟩
  | auditPolled hpc =>
      rw [hpc] at hout
      exact ⟨screens, h.frame rfl hout rfl rfl⟩
  | print hpc hnow hdue hlisted => exact ⟨_, h.print htold hpc hnow hdue hlisted⟩
  | skip hpc hnow hdue => exact ⟨_, h.skip hpc hnow hdue⟩

end Shows

theorem shows_of_run (h : Runs.run (step false) (MonitorLoop.init cfg start) as = some s) :
    ∃ screens, Shows cfg start as s screens := by
  have hboth : Told as s ∧ ∃ screens, Shows cfg start as s screens := by
    refine Runs.run_history (P := fun as s => Told as s ∧ ∃ screens, Shows cfg start as s screens)
      ⟨⟨rfl, rfl⟩, [], Shows.init cfg start⟩ ?_ h
    rintro as s a s' ⟨htold, screens, hshows⟩ hstep
    exact ⟨htold.move (move_of_step hstep), hshows.move htold (move_of_step hstep)⟩
  exact hboth.2

/-! ### The rows of a screen -/

/-- The bytes that an event carries. -/
def bytesOf (ev : TcpEvent) : ℕ := ev.bytesTx.toNat + ev.bytesRx.toNat

theorem totalTraffic_add_le (st : ConnectionStats) (ev : TcpEvent) :
    totalTraffic (st.add ev) ≤ totalTraffic st + bytesOf ev := by
  unfold totalTraffic bytesOf ConnectionStats.add
  split_ifs
  · exact Nat.le_add_right _ _
  · have htx := Nat.mod_le (st.bytesTx.toNat + ev.bytesTx.toNat) (2 ^ 64)
    have hrx := Nat.mod_le (st.bytesRx.toNat + ev.bytesRx.toNat) (2 ^ 64)
    simp only [BitVec.toNat_add]
    omega

/-- No connection has more traffic than the events carry. -/
theorem totalTraffic_le {evs : List TcpEvent} {k : ConnectionKey} {st : ConnectionStats}
    (h : (recordAll evs).stats.lookup k = some st) : totalTraffic st ≤ (evs.map bytesOf).sum := by
  have hlisting := (recordAll evs).enumerates_listing
  have hmem : totalTraffic st ∈ (recordAll evs).listing.map (fun e => totalTraffic e.2) :=
    List.mem_map_of_mem (f := fun e : ConnectionKey × ConnectionStats => totalTraffic e.2)
      ((mem_entries_iff hlisting).mpr h)
  exact le_trans (List.le_sum_of_mem hmem) (hlisting.sum_le rfl totalTraffic_add_le)

/-- The rows of a listing are right if the bytes fit in 64 bits. -/
theorem showsTop_of_listed {evs : List TcpEvent} {items : List (ConnectionKey × ConnectionStats)}
    (h : Listed (recordAll evs) items) (hfits : (evs.map bytesOf).sum < 2 ^ 64) (n : ℤ) :
    ShowsTop (recordAll evs) n (shownFrom n 0 items) := by
  obtain ⟨henum, hsorted⟩ := h
  have hfit : ∀ e ∈ items, totalTraffic e.2 < 2 ^ 64 := fun e he =>
    lt_of_le_of_lt (totalTraffic_le ((mem_entries_iff henum).mp he)) hfits
  refine showsTop_of_descending henum (hsorted.imp_of_mem ?_) n
  intro a b ha hb hnot
  rw [gt_iff_lt, BitVec.lt_def, toNat_traffic (hfit a ha), toNat_traffic (hfit b hb), not_lt] at hnot
  exact hnot

/-- **The screens without `--json`.**  In every run, as long as the bytes of all events fit in 64 bits,
the standard output is the banner, the screens, and the last words once the loop has ended.  Two
screens are at least five seconds apart.  At every reading of the clock the last screen, or the start,
is less than five seconds old.  Each screen is printed at a reading of the clock and shows the ten
connections with the most traffic among the events handled before.  A test of `g_stop` after a signal
leaves the loop, for good. -/
theorem screens_show_top (hrun : Runs.run (step false) (init cfg start) as = some s)
    (hfits : ((handled as).map bytesOf).sum < 2 ^ 64) :
    (∃ screens : List Screen,
      s.out = banner cfg ++ screens.flatMap (fun sc => screen sc.2) ++ farewell s.pc ∧
      (times start screens).Pairwise (fun t t' => t + printInterval ≤ t') ∧
      (∀ now items, .clock now items ∈ as →
        ∃ t ∈ times start screens, t ≤ now ∧ now < t + printInterval) ∧
      ∀ sc ∈ screens, ∃ pre post, as = pre ++ .clock sc.1 sc.2 :: post ∧
        ShowsTop (recordAll (handled pre)) 10 (shownFrom 10 0 sc.2)) ∧
    ∀ pre mid post, as = pre ++ .signal :: mid ++ .test :: post →
      ∃ u, Runs.run (step false) (init cfg start) (pre ++ .signal :: mid ++ [.test]) = some u ∧
        u.pc = .done ∧ ∀ a ∈ post, a = .signal := by
  obtain ⟨screens, h⟩ := shows_of_run hrun
  refine ⟨⟨screens, h.out, h.apart, h.timely, fun sc hsc => ?_⟩, ?_⟩
  · obtain ⟨pre, post, has, hlisted⟩ := h.printed sc hsc
    refine ⟨pre, post, has, showsTop_of_listed hlisted (lt_of_le_of_lt ?_ hfits) 10⟩
    rw [has, handled_append, List.map_append, List.sum_append]
    exact Nat.le_add_right _ _
  · rintro pre mid post rfl
    exact leaves_of_signal hrun

/-- The ends of two connections. -/
def twoCloses : List TcpEvent := [quietClose, closeEvent none (Probe.process 7) 1 Probe.webSock]

/-- Two iterations, with a reading of the clock after three seconds and one after seven, and a signal. -/
def twoIterations : List Action :=
  [.test, .tcpEvent quietClose, .tcpPolled, .auditPolled, .clock 3000000000 [], .test,
    .tcpEvent (closeEvent none (Probe.process 7) 1 Probe.webSock), .tcpPolled, .auditPolled,
    .clock 7000000000 (recordAll twoCloses).listing, .signal, .test]

/-- There is a screen, at the second reading. -/
theorem screens_show_top_two :
    ∃ s screens, Runs.run (step false) (init {} 0) twoIterations = some s ∧ s.pc = .done ∧
      s.out = banner {} ++ screens.flatMap (fun sc : Screen => screen sc.2) ++ shuttingDown ∧
      (times 0 screens).Pairwise (fun t t' => t + printInterval ≤ t') ∧
      ∃ t ∈ times 0 screens, 2000000000 < t ∧ t ≤ 7000000000 := by
  obtain ⟨s, hrun, hpc⟩ : ∃ s, Runs.run (step false) (init {} 0) twoIterations = some s ∧ s.pc = .done :=
    Runs.exists_run_of_any (by decide +kernel)
  obtain ⟨⟨screens, hout, hapart, htimely, -⟩, -⟩ := screens_show_top hrun (by decide +kernel)
  obtain ⟨t, ht, hle, hlt⟩ := htimely 7000000000 (recordAll twoCloses).listing (by simp [twoIterations])
  have hinterval : printInterval = 5000000000 := rfl
  rw [hpc] at hout
  exact ⟨s, screens, hrun, hpc, hout, hapart, t, ht, by omega, hle⟩

end MonitorLoop

end EbpfMonitor
