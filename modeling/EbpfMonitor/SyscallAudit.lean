import EbpfMonitor.Lib.RingBuffer
import EbpfMonitor.Lib.Runs
import EbpfMonitor.StatsReporter

/-! # The syscall audit

The embedding of `bpf/syscall_audit.bpf.c` and of `handle_syscall_event` in `src/monitor.cpp`: from the
system calls of the processes, through the ring buffer `syscall_events`, to the lines on `stderr`.

* **Probes.**  Any number of tasks run `audit_syscall` at the same time.  A probe takes three steps:
  the tests with the lookup in `uid_whitelist`, the reservation in the ring buffer, and the submission
  of the event it has filled in.  Another program may change `uid_whitelist` at any time.
* **User space** handles one record of the ring buffer after the other.
* **History.**  `audited` are the calls that passed the tests, `reserved` and `lost` say which of them
  got a record and which found the buffer full, and `handled` are the events printed.

`auditLog_inj` is about the text: a process can choose its name, with blanks and line ends in it, but no
name makes the log read as another sequence of records.  `audit_log_faithful` is the result for all
runs. -/

namespace EbpfMonitor

open Text

/-! ### Data -/

/-- `struct syscall_event`. -/
structure SyscallEvent where
  timestampNs : BitVec 64
  pid : BitVec 32
  uid : BitVec 32
  comm : Comm
  syscallNr : BitVec 64
  args : Fin 3 → BitVec 64

/-- The fields of `struct trace_event_raw_sys_enter` that the probe reads. -/
structure SysEnter where
  id : BitVec 64
  args : Fin 6 → BitVec 64

/-- A system call: the process, as the helpers report it, and what it calls. -/
structure SysCall where
  cur : Task
  ctx : SysEnter

/-- `uid_whitelist`. -/
abbrev UidWhitelist := BoundedMap (BitVec 32) (BitVec 8) 64

/-- What `bpf_get_current_comm` writes ends with a zero byte. -/
def Comm.Terminated (c : Comm) : Prop := c 15 = '\x00'

instance (c : Comm) : Decidable c.Terminated := inferInstanceAs (Decidable (_ = _))

theorem Comm.Terminated.length_le {c : Comm} (h : c.Terminated) : (commText c).length ≤ 15 := by
  have hsplit : List.ofFn c = (List.ofFn (fun i : Fin 15 => c i.castSucc)) ++ [c 15] := List.ofFn_succ_last
  have hstop : ([c 15] : Text).takeWhile (· ≠ '\x00') = [] := by
    rw [h]
    rfl
  unfold commText
  rw [hsplit, List.takeWhile_append]
  split_ifs with hall
  · rw [hstop, List.append_nil, List.length_ofFn]
  · exact le_trans (List.takeWhile_prefix _).length_le (le_of_eq List.length_ofFn)

/-! ### The probe -/

namespace SyscallAudit

def sysExecve : BitVec 64 := 59

def sysExecveat : BitVec 64 := 322

def sysPtrace : BitVec 64 := 101

def sysProcessVmReadv : BitVec 64 := 310

def sysProcessVmWritev : BitVec 64 := 311

def isSuspicious (nr : BitVec 64) : Bool :=
  nr = sysExecve || nr = sysExecveat || nr = sysPtrace || nr = sysProcessVmReadv ||
    nr = sysProcessVmWritev

/-- `audit_syscall` up to the reservation: the call is to be recorded. -/
def passes (whitelist : UidWhitelist) (c : SysCall) : Bool :=
  isSuspicious c.ctx.id &&
    match whitelist.lookup c.cur.uid with
    | some wl => wl = 0
    | none => true

/-- The event that `audit_syscall` fills in; the clock and the name are read after the reservation. -/
def auditEvent (c : SysCall) (now : BitVec 64) (comm : Comm) : SyscallEvent where
  timestampNs := now
  pid := c.cur.pid
  uid := c.cur.uid
  comm := comm
  syscallNr := c.ctx.id
  args i := c.ctx.args (Fin.castLE (by decide) i)

/-- `max_entries` of `syscall_events`. -/
def bufferSize : ℕ := 2 * 1024 * 1024

/-- A record is the event and a header of eight bytes. -/
def recordLen : ℕ := 8 + 64

/-! ### The line -/

/-- `%ld`. -/
def long (x : BitVec 64) : Text :=
  match x.toInt with
  | .ofNat n => decimal n
  | .negSucc n => '-' :: decimal (n + 1)

/-- The line that `handle_syscall_event` prints. -/
def auditLine (ev : SyscallEvent) : Text :=
  "[AUDIT] ts=".toList ++ decimal ev.timestampNs.toNat ++ " pid=".toList ++ decimal ev.pid.toNat ++
    " uid=".toList ++ decimal ev.uid.toNat ++ " comm=".toList ++ commText ev.comm ++
    " syscall=".toList ++ long ev.syscallNr ++ "\n".toList

def auditLog (events : List SyscallEvent) : Text := events.flatMap auditLine

/-- What a line tells of the event. -/
def printed (ev : SyscallEvent) : BitVec 64 × BitVec 32 × BitVec 32 × Text × BitVec 64 :=
  (ev.timestampNs, ev.pid, ev.uid, commText ev.comm, ev.syscallNr)

/-! ### Reading the log -/

theorem mem_long {x : BitVec 64} {c : Char} (h : c ∈ long x) : c.isDigit = true ∨ c = '-' := by
  unfold long at h
  split at h
  · exact Or.inl (isDigit_of_mem_decimal h)
  · rcases List.mem_cons.mp h with rfl | h
    · exact Or.inr rfl
    · exact Or.inl (isDigit_of_mem_decimal h)

theorem decimal_ne_minus {n : ℕ} {t : Text} : decimal n ≠ '-' :: t := by
  intro h
  have hdigit : '-'.isDigit = true := isDigit_of_mem_decimal (by rw [h]; exact List.mem_cons_self)
  cases hdigit

theorem long_inj {x y : BitVec 64} (h : long x = long y) : x = y := by
  apply BitVec.eq_of_toInt_eq
  unfold long at h
  cases hx : x.toInt with
  | ofNat m =>
      cases hy : y.toInt with
      | ofNat n =>
          rw [hx, hy] at h
          rw [decimal_inj h]
      | negSucc n =>
          rw [hx, hy] at h
          exact absurd h decimal_ne_minus
  | negSucc m =>
      cases hy : y.toInt with
      | ofNat n =>
          rw [hx, hy] at h
          exact absurd h.symm decimal_ne_minus
      | negSucc n =>
          rw [hx, hy] at h
          rw [Nat.succ.inj (decimal_inj (List.cons.inj h).2)]

/-- A number of `%ld` at the end of a line is determined by the text. -/
theorem long_append_inj {x y : BitVec 64} {s t : Text}
    (h : long x ++ ("\n".toList ++ s) = long y ++ ("\n".toList ++ t)) : x = y ∧ s = t := by
  have hchars : ∀ z : BitVec 64, ∀ c ∈ long z, (c.isDigit || c == '-') = true := by
    intro z c hc
    rcases mem_long hc with hd | rfl
    · rw [hd]
      rfl
    · rfl
  have hend : ∀ r : Text, ∀ c, ("\n".toList ++ r).head? = some c → (c.isDigit || c == '-') = false := by
    intro r c hc
    obtain rfl := Option.some.inj hc
    rfl
  obtain ⟨hlong, hrest⟩ := append_inj_of_boundary (hchars x) (hchars y) (hend s) (hend t) h
  exact ⟨long_inj hlong, List.append_cancel_left hrest⟩

/-- The rest of a log starts without a blank. -/
def LogRest (s : Text) : Prop := ' ' ∉ s.take 7

/-- What follows the name and a blank in a log. -/
def afterComm (nr : BitVec 64) (s : Text) : Text :=
  "syscall=".toList ++ (long nr ++ ("\n".toList ++ s))

/-- **After the name there is no blank for a while**: fifteen characters, as many as a name can have. -/
theorem space_notMem_afterComm (nr : BitVec 64) {s : Text} (hs : LogRest s) :
    ' ' ∉ (afterComm nr s).take 15 := by
  have hline : ' ' ∉ "syscall=".toList ++ (long nr ++ "\n".toList) := by
    rw [List.mem_append, List.mem_append]
    rintro (h | h | h)
    · exact absurd h (by decide)
    · rcases mem_long h with h | h <;> cases h
    · exact absurd h (by decide)
  have hlen : 8 ≤ ("syscall=".toList ++ (long nr ++ "\n".toList)).length := by
    rw [List.length_append]
    exact Nat.le_add_right 8 _
  have hsplit : afterComm nr s = ("syscall=".toList ++ (long nr ++ "\n".toList)) ++ s := by
    unfold afterComm
    rw [List.append_assoc, List.append_assoc]
  rw [hsplit, List.take_append, List.mem_append]
  rintro (h | h)
  · exact hline (List.mem_of_mem_take h)
  · exact hs (List.take_subset_take_left _ (by omega) h)

/-- The name of one reading is no longer than that of another. -/
theorem comm_length_le {c c' s s' : Text} {nr nr' : BitVec 64} (hs : LogRest s) (hc' : c'.length ≤ 15)
    (h : c ++ ' ' :: afterComm nr s = c' ++ ' ' :: afterComm nr' s') : c'.length ≤ c.length := by
  by_contra hlt
  obtain ⟨d, rfl⟩ : c <+: c' :=
    List.prefix_of_prefix_length_le (List.prefix_append _ _) ⟨_, h.symm⟩ (Nat.le_of_lt (Nat.lt_of_not_le hlt))
  rw [List.append_assoc] at h
  have hd := List.append_cancel_left h
  rw [List.length_append] at hlt hc'
  cases d with
  | nil => exact hlt (le_refl _)
  | cons x d =>
      have hrest : afterComm nr s = d ++ ' ' :: afterComm nr' s' := (List.cons.inj hd).2
      refine space_notMem_afterComm nr hs ?_
      rw [List.length_cons] at hc'
      obtain ⟨m, hm⟩ : ∃ m, 15 - d.length = m + 1 := ⟨14 - d.length, by omega⟩
      rw [hrest, List.take_append, List.mem_append, hm, List.take_succ_cons]
      exact Or.inr List.mem_cons_self

/-- **The name in a line is determined by the log**, whatever characters it is made of. -/
theorem comm_append_inj {c c' s s' : Text} {nr nr' : BitVec 64} (hs : LogRest s) (hs' : LogRest s')
    (hc : c.length ≤ 15) (hc' : c'.length ≤ 15)
    (h : c ++ ' ' :: afterComm nr s = c' ++ ' ' :: afterComm nr' s') : c = c' ∧ nr = nr' ∧ s = s' := by
  have hlen : c.length = c'.length := Nat.le_antisymm (comm_length_le hs' hc h.symm) (comm_length_le hs hc' h)
  obtain ⟨rfl, hrest⟩ := List.append_inj h hlen
  exact ⟨rfl, long_append_inj (List.append_cancel_left (List.cons.inj hrest).2)⟩

/-- How a line starts. -/
theorem auditLine_eq_append (ev : SyscallEvent) : ∃ rest, auditLine ev = "[AUDIT] ts=".toList ++ rest := by
  unfold auditLine
  simp only [List.append_assoc]
  exact ⟨_, rfl⟩

theorem auditLog_cons (ev : SyscallEvent) (events : List SyscallEvent) :
    auditLog (ev :: events) = auditLine ev ++ auditLog events :=
  List.flatMap_cons

theorem logRest_auditLog (events : List SyscallEvent) : LogRest (auditLog events) := by
  cases events with
  | nil => exact List.not_mem_nil
  | cons ev events =>
      obtain ⟨rest, hrest⟩ := auditLine_eq_append ev
      have hhead : ' ' ∉ "[AUDIT] ts=".toList.take 7 := by decide
      rw [auditLog_cons, hrest, List.append_assoc]
      unfold LogRest
      rw [List.take_append_of_le_length (by decide)]
      exact hhead

theorem auditLine_append_inj {ev ev' : SyscallEvent} {s s' : Text} (hs : LogRest s) (hs' : LogRest s')
    (hc : ev.comm.Terminated) (hc' : ev'.comm.Terminated) (h : auditLine ev ++ s = auditLine ev' ++ s') :
    printed ev = printed ev' ∧ s = s' := by
  unfold auditLine at h
  simp only [List.append_assoc] at h
  obtain ⟨hts, h⟩ := decimal_append_inj (endsNumber_append _ (by decide)) (endsNumber_append _ (by decide))
    (List.append_cancel_left h)
  obtain ⟨hpid, h⟩ := decimal_append_inj (endsNumber_append _ (by decide)) (endsNumber_append _ (by decide))
    (List.append_cancel_left h)
  obtain ⟨huid, h⟩ := decimal_append_inj (endsNumber_append _ (by decide)) (endsNumber_append _ (by decide))
    (List.append_cancel_left h)
  obtain ⟨hcomm, hnr, hrest⟩ := comm_append_inj hs hs' hc.length_le hc'.length_le (List.append_cancel_left h)
  refine ⟨?_, hrest⟩
  unfold printed
  rw [BitVec.eq_of_toNat_eq hts, BitVec.eq_of_toNat_eq hpid, BitVec.eq_of_toNat_eq huid, hcomm, hnr]

theorem auditLine_ne_nil (ev : SyscallEvent) : auditLine ev ≠ [] := by
  obtain ⟨rest, hrest⟩ := auditLine_eq_append ev
  rw [hrest]
  exact List.append_ne_nil_of_left_ne_nil (by decide) _

/-- **The log determines the records.**  Two sequences of events that give the same text agree in
everything that is printed, whatever the names of the processes. -/
theorem auditLog_inj {es es' : List SyscallEvent} (hes : ∀ ev ∈ es, ev.comm.Terminated)
    (hes' : ∀ ev ∈ es', ev.comm.Terminated) (h : auditLog es = auditLog es') :
    es.map printed = es'.map printed := by
  induction es generalizing es' with
  | nil =>
      cases es' with
      | nil => rfl
      | cons ev' es' =>
          rw [auditLog_cons] at h
          exact absurd (List.append_eq_nil_iff.mp h.symm).1 (auditLine_ne_nil ev')
  | cons ev es ih =>
      cases es' with
      | nil =>
          rw [auditLog_cons] at h
          exact absurd (List.append_eq_nil_iff.mp h).1 (auditLine_ne_nil ev)
      | cons ev' es' =>
          rw [auditLog_cons, auditLog_cons] at h
          obtain ⟨hev, hrest⟩ := auditLine_append_inj (logRest_auditLog es) (logRest_auditLog es')
            (hes ev List.mem_cons_self) (hes' ev' List.mem_cons_self) h
          rw [List.map_cons, List.map_cons, hev, ih (fun e he => hes e (List.mem_cons_of_mem _ he))
            (fun e he => hes' e (List.mem_cons_of_mem _ he)) hrest]

/-! ### The system -/

/-- Where a task is in `audit_syscall`; `n` is the number of calls that passed the tests before this
one. -/
inductive Probe where
  | idle
  /-- the call has passed the tests -/
  | checked (n : ℕ) (c : SysCall)
  /-- the call has a record, which is not submitted yet -/
  | reserved (ticket n : ℕ) (c : SysCall)

/-- The maps, the probes of the tasks `ι`, and `stderr`. -/
structure State (ι : Type) where
  whitelist : UidWhitelist
  buffer : RingBuffer SyscallEvent
  probes : ι → Probe
  stderr : Text
  audited : List SysCall
  reserved : List (ℕ × SysCall)
  lost : List ℕ
  handled : List SyscallEvent

inductive Action (ι : Type) where
  /-- another program writes to `uid_whitelist` -/
  | setWhitelist (uid : BitVec 32) (value : BitVec 8)
  | unsetWhitelist (uid : BitVec 32)
  /-- task `i` enters a system call: the tests of the probe -/
  | enter (i : ι) (c : SysCall)
  | reserve (i : ι)
  | submit (i : ι) (now : BitVec 64) (comm : Comm)
  /-- the callback of the ring buffer handles one record -/
  | handle

namespace State

variable {ι : Type} [DecidableEq ι]

def init : State ι := ⟨.empty, .empty, fun _ => .idle, [], [], [], [], []⟩

def setProbe (s : State ι) (i : ι) (p : Probe) : State ι :=
  { s with probes := Function.update s.probes i p }

def step (s : State ι) : Action ι → Option (State ι)
  | .setWhitelist uid value => some { s with whitelist := s.whitelist.update uid value }
  | .unsetWhitelist uid => some { s with whitelist := s.whitelist.delete uid }
  | .enter i c =>
      match s.probes i with
      | .idle =>
          if passes s.whitelist c then
            some { s.setProbe i (.checked s.audited.length c) with audited := s.audited ++ [c] }
          else some s
      | _ => none
  | .reserve i =>
      match s.probes i with
      | .checked n c =>
          match s.buffer.reserve bufferSize recordLen with
          | some (ticket, buffer) =>
              some { s.setProbe i (.reserved ticket n c) with
                buffer := buffer
                reserved := s.reserved ++ [(n, c)] }
          | none => some { s.setProbe i .idle with lost := s.lost ++ [n] }
      | _ => none
  | .submit i now comm =>
      match s.probes i with
      | .reserved ticket _ c =>
          if comm.Terminated then
            some { s.setProbe i .idle with buffer := s.buffer.submit ticket (auditEvent c now comm) }
          else none
      | _ => none
  | .handle =>
      s.buffer.consume.map (fun (ev, buffer) =>
        { s with
          buffer := buffer
          stderr := s.stderr ++ auditLine ev
          handled := s.handled ++ [ev] })

/-- The calls that got a record or lost it. -/
def done (s : State ι) : List ℕ := s.reserved.map Prod.fst ++ s.lost

end State

/-! ### The invariant -/

def Probe.held : Probe → Option (ℕ × ℕ × SysCall)
  | reserved ticket n c => some (ticket, n, c)
  | _ => none

/-- The event is the one of the call. -/
def Fills (k : ℕ × SysCall) (ev : SyscallEvent) : Prop :=
  ∃ now comm, Comm.Terminated comm ∧ ev = auditEvent k.2 now comm

/-- The records in the ring buffer fit the calls, the log is what was handled, and every audited call
is in one place. -/
structure State.Ok {ι : Type} (s : State ι) : Prop where
  buffer : RingBuffer.Holds Fills s.buffer (Probe.held ∘ s.probes) s.reserved s.handled
  log : s.stderr = auditLog s.handled
  suspicious : ∀ c ∈ s.audited, isSuspicious c.ctx.id = true
  numbered : ∀ k ∈ s.reserved, s.audited[k.1]? = some k.2
  lost_lt : ∀ n ∈ s.lost, n < s.audited.length
  checked : ∀ i n c, s.probes i = .checked n c → s.audited[n]? = some c ∧ n ∉ s.done
  checked_unique : ∀ i j n c c', s.probes i = .checked n c → s.probes j = .checked n c' → i = j
  nodup : s.done.Nodup
  complete : ∀ n < s.audited.length, n ∈ s.done ∨ ∃ i c, s.probes i = .checked n c
  bounded : s.buffer.records.length ≤ 29127

namespace State.Ok

variable {ι : Type} [DecidableEq ι] {s : State ι} {i : ι}

omit [DecidableEq ι] in
theorem init : (State.init : State ι).Ok where
  buffer := RingBuffer.Holds.empty
  log := rfl
  suspicious := nofun
  numbered := nofun
  lost_lt := nofun
  checked := nofun
  checked_unique := nofun
  nodup := List.nodup_nil
  complete := nofun
  bounded := Nat.zero_le _

/-- A probe that moves and holds no record before and after. -/
theorem held_setProbe {p p' : Probe} (hp : s.probes i = p) (hheld : p.held = none)
    (hheld' : p'.held = none) : Probe.held ∘ Function.update s.probes i p' = Probe.held ∘ s.probes := by
  rw [Function.comp_update, hheld', Function.update_eq_self_iff, Function.comp_apply, hp, hheld]

theorem checked_setProbe (p' : Probe) (hp' : ∀ n c, p' ≠ .checked n c) {j : ι} {n : ℕ} {c : SysCall}
    (h : Function.update s.probes i p' j = .checked n c) : j ≠ i ∧ s.probes j = .checked n c := by
  rcases eq_or_ne j i with rfl | hne
  · rw [Function.update_self] at h
    exact absurd h (hp' n c)
  · rw [Function.update_of_ne hne] at h
    exact ⟨hne, h⟩

/-- A call passes the tests. -/
theorem enter (h : s.Ok) {c : SysCall} (hi : s.probes i = .idle) (hc : passes s.whitelist c = true) :
    Ok { s.setProbe i (.checked s.audited.length c) with audited := s.audited ++ [c] } := by
  have hdone : ∀ n ∈ s.done, n < s.audited.length := by
    intro n hn
    rcases List.mem_append.mp hn with hn | hn
    · obtain ⟨k, hk, rfl⟩ := List.mem_map.mp hn
      exact (List.getElem?_eq_some_iff.mp (h.numbered k hk)).1
    · exact h.lost_lt n hn
  have hold : ∀ j n c', s.probes j = .checked n c' → n < s.audited.length := by
    intro j n c' hj
    exact (List.getElem?_eq_some_iff.mp (h.checked j n c' hj).1).1
  refine ⟨?_, h.log, ?_, ?_, ?_, ?_, ?_, h.nodup, ?_, h.bounded⟩
  · simp only [setProbe]
    rw [held_setProbe hi rfl rfl]
    exact h.buffer
  · intro c' hc'
    rcases List.mem_append.mp hc' with hc' | hc'
    · exact h.suspicious c' hc'
    · obtain rfl := List.mem_singleton.mp hc'
      exact (Bool.and_eq_true_iff.mp hc).1
  · intro k hk
    have hkey := h.numbered k hk
    rwa [List.getElem?_append_left (List.getElem?_eq_some_iff.mp hkey).1]
  · intro n hn
    exact Nat.lt_of_lt_of_le (h.lost_lt n hn) (by simp)
  · intro j n c' hj
    simp only [setProbe] at hj
    rcases eq_or_ne j i with rfl | hne
    · rw [Function.update_self] at hj
      obtain ⟨rfl, rfl⟩ := Probe.checked.inj hj
      exact ⟨by simp, fun hn => absurd (hdone _ hn) (lt_irrefl _)⟩
    · rw [Function.update_of_ne hne] at hj
      obtain ⟨hkey, hnot⟩ := h.checked j n c' hj
      exact ⟨by rwa [List.getElem?_append_left (hold j n c' hj)], hnot⟩
  · intro j k n c₁ c₂ hj hk
    simp only [setProbe] at hj hk
    by_cases hji : j = i <;> by_cases hki : k = i
    · exact hji.trans hki.symm
    · rw [hji, Function.update_self] at hj
      rw [Function.update_of_ne hki] at hk
      obtain ⟨rfl, -⟩ := Probe.checked.inj hj
      exact absurd (hold k _ c₂ hk) (lt_irrefl _)
    · rw [Function.update_of_ne hji] at hj
      rw [hki, Function.update_self] at hk
      obtain ⟨rfl, -⟩ := Probe.checked.inj hk
      exact absurd (hold j _ c₁ hj) (lt_irrefl _)
    · rw [Function.update_of_ne hji] at hj
      rw [Function.update_of_ne hki] at hk
      exact h.checked_unique j k n c₁ c₂ hj hk
  · intro n hn
    rw [List.length_append, List.length_singleton] at hn
    rcases Nat.lt_or_ge n s.audited.length with hlt | hge
    · refine (h.complete n hlt).imp_right ?_
      rintro ⟨j, c', hj⟩
      have hne : j ≠ i := by
        rintro rfl
        rw [hi] at hj
        cases hj
      exact ⟨j, c', by simpa only [setProbe, Function.update_of_ne hne] using hj⟩
    · obtain rfl : n = s.audited.length := by omega
      exact Or.inr ⟨i, c, by simp [setProbe]⟩

/-- A call leaves the state `checked`. -/
theorem move_checked (h : s.Ok) {n : ℕ} {c : SysCall} (p' : Probe) (hi : s.probes i = .checked n c)
    (hp' : ∀ n c, p' ≠ .checked n c) {done' : List ℕ} (hdone : done'.Perm (n :: s.done)) :
    (∀ j m c', (s.setProbe i p').probes j = .checked m c' → s.audited[m]? = some c' ∧ m ∉ done') ∧
      (∀ j k m c₁ c₂, (s.setProbe i p').probes j = .checked m c₁ →
        (s.setProbe i p').probes k = .checked m c₂ → j = k) ∧
      done'.Nodup ∧
      ∀ m < s.audited.length, m ∈ done' ∨ ∃ j c', (s.setProbe i p').probes j = .checked m c' := by
  refine ⟨?_, ?_, ?_, ?_⟩
  · intro j m c' hj
    obtain ⟨hne, hj⟩ := checked_setProbe p' hp' hj
    obtain ⟨hkey, hnot⟩ := h.checked j m c' hj
    refine ⟨hkey, fun hm => ?_⟩
    rcases List.mem_cons.mp (hdone.mem_iff.mp hm) with rfl | hm
    · exact hne (h.checked_unique j i m c' c hj hi)
    · exact hnot hm
  · intro j k m c₁ c₂ hj hk
    exact h.checked_unique j k m c₁ c₂ (checked_setProbe p' hp' hj).2 (checked_setProbe p' hp' hk).2
  · rw [hdone.nodup_iff, List.nodup_cons]
    exact ⟨(h.checked i n c hi).2, h.nodup⟩
  · intro m hm
    rcases h.complete m hm with hmem | ⟨j, c', hj⟩
    · exact Or.inl (hdone.mem_iff.mpr (List.mem_cons_of_mem _ hmem))
    · rcases eq_or_ne j i with rfl | hne
      · rw [hi] at hj
        obtain ⟨rfl, -⟩ := Probe.checked.inj hj
        exact Or.inl (hdone.mem_iff.mpr List.mem_cons_self)
      · exact Or.inr ⟨j, c', by simpa only [setProbe, Function.update_of_ne hne] using hj⟩

theorem reserve_some (h : s.Ok) {n ticket : ℕ} {c : SysCall} {b : RingBuffer SyscallEvent}
    (hi : s.probes i = .checked n c) (hb : s.buffer.reserve bufferSize recordLen = some (ticket, b)) :
    Ok { s.setProbe i (.reserved ticket n c) with
      buffer := b, reserved := s.reserved ++ [(n, c)] } := by
  have hdone : (List.map Prod.fst (s.reserved ++ [(n, c)]) ++ s.lost).Perm (n :: s.done) := by
    rw [List.map_append, List.append_assoc]
    exact List.perm_middle
  obtain ⟨hchecked, hunique, hnodup, hcomplete⟩ := h.move_checked (.reserved ticket n c) hi nofun hdone
  refine ⟨?_, h.log, h.suspicious, ?_, h.lost_lt, hchecked, hunique, hnodup, hcomplete, ?_⟩
  · simp only [setProbe]
    rw [Function.comp_update]
    exact h.buffer.reserve (n, c) hb i
  · intro k hk
    rcases List.mem_append.mp hk with hk | hk
    · exact h.numbered k hk
    · obtain rfl := List.mem_singleton.mp hk
      exact (h.checked i n c hi).1
  · obtain ⟨-, rfl⟩ := RingBuffer.reserve_eq_some hb
    have hroom := RingBuffer.lt_of_reserve hb
    simp only [bufferSize, recordLen] at hroom
    show (s.buffer.records ++ [none]).length ≤ 29127
    rw [List.length_append, List.length_singleton]
    omega

theorem reserve_none (h : s.Ok) {n : ℕ} {c : SysCall} (hi : s.probes i = .checked n c) :
    Ok { s.setProbe i .idle with lost := s.lost ++ [n] } := by
  have hdone : (s.reserved.map Prod.fst ++ (s.lost ++ [n])).Perm (n :: s.done) := by
    rw [← List.append_assoc]
    exact List.perm_append_singleton _ _
  obtain ⟨hchecked, hunique, hnodup, hcomplete⟩ := h.move_checked .idle hi nofun hdone
  refine ⟨?_, h.log, h.suspicious, h.numbered, ?_, hchecked, hunique, hnodup, hcomplete, h.bounded⟩
  · simp only [setProbe]
    rw [held_setProbe hi rfl rfl]
    exact h.buffer
  · intro m hm
    rcases List.mem_append.mp hm with hm | hm
    · exact h.lost_lt m hm
    · obtain rfl := List.mem_singleton.mp hm
      exact (List.getElem?_eq_some_iff.mp (h.checked i m c hi).1).1

theorem submit (h : s.Ok) {n ticket : ℕ} {c : SysCall} {now : BitVec 64} {comm : Comm}
    (hi : s.probes i = .reserved ticket n c) (hc : comm.Terminated) :
    Ok { s.setProbe i .idle with buffer := s.buffer.submit ticket (auditEvent c now comm) } := by
  refine ⟨?_, h.log, h.suspicious, h.numbered, h.lost_lt, ?_, ?_, h.nodup, ?_, ?_⟩
  · simp only [setProbe]
    rw [Function.comp_update]
    exact h.buffer.submit (c := (n, c)) (by rw [Function.comp_apply, hi]; rfl) ⟨now, comm, hc, rfl⟩
  · intro j m c' hj
    exact h.checked j m c' (checked_setProbe .idle nofun hj).2
  · intro j k m c₁ c₂ hj hk
    exact h.checked_unique j k m c₁ c₂ (checked_setProbe .idle nofun hj).2 (checked_setProbe .idle nofun hk).2
  · intro m hm
    refine (h.complete m hm).imp_right ?_
    rintro ⟨j, c', hj⟩
    have hne : j ≠ i := by
      rintro rfl
      rw [hi] at hj
      cases hj
    exact ⟨j, c', by simpa only [setProbe, Function.update_of_ne hne] using hj⟩
  · show (s.buffer.records.set _ _).length ≤ 29127
    rw [List.length_set]
    exact h.bounded

omit [DecidableEq ι] in
theorem handle (h : s.Ok) {ev : SyscallEvent} {b : RingBuffer SyscallEvent}
    (hb : s.buffer.consume = some (ev, b)) :
    Ok { s with buffer := b, stderr := s.stderr ++ auditLine ev, handled := s.handled ++ [ev] } := by
  refine ⟨h.buffer.consume hb, ?_, h.suspicious, h.numbered, h.lost_lt, h.checked, h.checked_unique, h.nodup,
    h.complete, ?_⟩
  · show s.stderr ++ auditLine ev = auditLog (s.handled ++ [ev])
    rw [h.log, auditLog, auditLog, List.flatMap_append, List.flatMap_singleton]
  · have hbounded := h.bounded
    obtain ⟨rest, hrest, rfl⟩ := RingBuffer.consume_eq_some hb
    rw [hrest, List.length_cons] at hbounded
    exact Nat.le_of_succ_le hbounded

theorem step (s : State ι) (a : Action ι) (s' : State ι) (h : s.Ok) (hs : s.step a = some s') : s'.Ok := by
  cases a with
  | setWhitelist uid value =>
      obtain rfl := Option.some.inj hs
      exact ⟨h.buffer, h.log, h.suspicious, h.numbered, h.lost_lt, h.checked, h.checked_unique, h.nodup,
        h.complete, h.bounded⟩
  | unsetWhitelist uid =>
      obtain rfl := Option.some.inj hs
      exact ⟨h.buffer, h.log, h.suspicious, h.numbered, h.lost_lt, h.checked, h.checked_unique, h.nodup,
        h.complete, h.bounded⟩
  | enter i c =>
      simp only [State.step] at hs
      split at hs
      case h_1 hi =>
        split_ifs at hs with hc
        · obtain rfl := Option.some.inj hs
          exact h.enter hi hc
        · obtain rfl := Option.some.inj hs
          exact h
      case h_2 => cases hs
  | reserve i =>
      simp only [State.step] at hs
      split at hs
      case h_1 n c hi =>
        split at hs
        case h_1 ticket b hb =>
          obtain rfl := Option.some.inj hs
          exact h.reserve_some hi hb
        case h_2 =>
          obtain rfl := Option.some.inj hs
          exact h.reserve_none hi
      case h_2 => cases hs
  | submit i now comm =>
      simp only [State.step] at hs
      split at hs
      case h_1 ticket n c hi =>
        split_ifs at hs with hc
        obtain rfl := Option.some.inj hs
        exact h.submit hi hc
      case h_2 => cases hs
  | handle =>
      obtain ⟨⟨ev, b⟩, hb, rfl⟩ := Option.map_eq_some_iff.mp hs
      exact h.handle hb

omit [DecidableEq ι] in
/-- Every event handled has a name that ends. -/
theorem terminated (h : s.Ok) : ∀ ev ∈ s.handled, ev.comm.Terminated := by
  intro ev hev
  obtain ⟨c, now, comm, hcomm, rfl⟩ := h.buffer.exists_of_mem hev
  exact hcomm

omit [DecidableEq ι] in
/-- With no probe running, every audited call has a record or has lost it. -/
theorem done_perm (h : s.Ok) (hidle : ∀ i, s.probes i = .idle) :
    s.done.Perm (List.range s.audited.length) := by
  rw [List.perm_ext_iff_of_nodup h.nodup List.nodup_range]
  intro n
  rw [List.mem_range]
  constructor
  · intro hn
    rcases List.mem_append.mp hn with hn | hn
    · obtain ⟨k, hk, rfl⟩ := List.mem_map.mp hn
      exact (List.getElem?_eq_some_iff.mp (h.numbered k hk)).1
    · exact h.lost_lt n hn
  · intro hn
    rcases h.complete n hn with hn | ⟨i, c, hi⟩
    · exact hn
    · rw [hidle i] at hi
      cases hi

omit [DecidableEq ι] in
/-- A buffer without room for a record holds as many as it can. -/
theorem records_of_full (h : s.Ok) (hb : s.buffer.reserve bufferSize recordLen = none) :
    s.buffer.records.length = 29127 := by
  have hfull := RingBuffer.reserve_eq_none hb
  have hbounded := h.bounded
  simp only [bufferSize, recordLen] at hfull
  omega

end State.Ok

/-! ### Lost calls -/

section lost

variable {ι : Type} [DecidableEq ι]

/-- In the run the call with this number asked for a record when 29127 records were in the buffer and not
consumed. -/
def FoundFull (schedule : List (Action ι)) (n : ℕ) : Prop :=
  ∃ pre i post t c, schedule = pre ++ .reserve i :: post ∧
    Runs.run State.step State.init pre = some t ∧ t.probes i = .checked n c ∧
    t.buffer.records.length = 29127

theorem FoundFull.concat {schedule : List (Action ι)} {n : ℕ} (h : FoundFull schedule n) (a : Action ι) :
    FoundFull (schedule ++ [a]) n := by
  obtain ⟨pre, i, post, t, c, rfl, ht, hi, hfull⟩ := h
  exact ⟨pre, i, post ++ [a], t, c, by simp, ht, hi, hfull⟩

/-- A step loses a call only when the buffer has no room for its record. -/
theorem lost_of_step {s s' : State ι} {a : Action ι} (hs : s.step a = some s') :
    s'.lost = s.lost ∨ ∃ i n c, a = .reserve i ∧ s.probes i = .checked n c ∧
      s.buffer.reserve bufferSize recordLen = none ∧ s'.lost = s.lost ++ [n] := by
  cases a with
  | setWhitelist uid value | unsetWhitelist uid =>
      obtain rfl := Option.some.inj hs
      exact Or.inl rfl
  | enter i c =>
      simp only [State.step] at hs
      split at hs
      case h_1 =>
        split_ifs at hs
        all_goals
          obtain rfl := Option.some.inj hs
          exact Or.inl rfl
      case h_2 => cases hs
  | reserve i =>
      simp only [State.step] at hs
      split at hs
      case h_1 n c hi =>
        split at hs
        case h_1 =>
          obtain rfl := Option.some.inj hs
          exact Or.inl rfl
        case h_2 hb =>
          obtain rfl := Option.some.inj hs
          exact Or.inr ⟨i, n, c, rfl, hi, hb, rfl⟩
      case h_2 => cases hs
  | submit i now comm =>
      simp only [State.step] at hs
      split at hs
      case h_1 =>
        split_ifs at hs
        obtain rfl := Option.some.inj hs
        exact Or.inl rfl
      case h_2 => cases hs
  | handle =>
      obtain ⟨_, -, rfl⟩ := Option.map_eq_some_iff.mp hs
      exact Or.inl rfl

theorem foundFull_of_run {schedule : List (Action ι)} {s : State ι}
    (h : Runs.run State.step State.init schedule = some s) : ∀ n ∈ s.lost, FoundFull schedule n := by
  refine (Runs.run_history (P := fun as t => Runs.run State.step State.init as = some t ∧ t.Ok ∧
    ∀ n ∈ t.lost, FoundFull as n) ⟨rfl, State.Ok.init, nofun⟩ ?_ h).2.2
  rintro as t a t' ⟨hrun, hok, hlost⟩ hstep
  refine ⟨Runs.run_concat hrun hstep, State.Ok.step t a t' hok hstep, fun n hn => ?_⟩
  rcases lost_of_step hstep with heq | ⟨i, m, c, rfl, hi, hb, heq⟩
  · rw [heq] at hn
    exact (hlost n hn).concat a
  · rw [heq, List.mem_append, List.mem_singleton] at hn
    rcases hn with hn | rfl
    · exact (hlost n hn).concat _
    · exact ⟨as, i, [], t, c, rfl, hrun, hi, hok.records_of_full hb⟩

end lost

/-- **The audit log is faithful.**  In every state that any number of tasks, changes of the whitelist
and the callback reach: `stderr` holds one line for each event handled; the events are, in the order of
the reservations, those of calls that passed the tests, and each is filled in from its own call; every
such call is suspicious, and has one record, or none because it found the buffer full, with 29127 records
that were not consumed; and no other sequence of events gives the same text. -/
theorem audit_log_faithful {ι : Type} [DecidableEq ι] (schedule : List (Action ι)) (s : State ι)
    (h : Runs.run State.step State.init schedule = some s) :
    s.stderr = auditLog s.handled ∧
      List.Forall₂ (fun k ev => s.audited[k.1]? = some k.2 ∧ ∃ now comm, ev = auditEvent k.2 now comm)
        (s.reserved.take s.handled.length) s.handled ∧
      (∀ c ∈ s.audited, isSuspicious c.ctx.id = true) ∧
      s.done.Nodup ∧ ((∀ i, s.probes i = .idle) → s.done.Perm (List.range s.audited.length)) ∧
      (∀ n ∈ s.lost, FoundFull schedule n) ∧
      ∀ events : List SyscallEvent, (∀ ev ∈ events, ev.comm.Terminated) → auditLog events = s.stderr →
        events.map printed = s.handled.map printed := by
  have hok := Runs.run_invariant State.Ok.step State.Ok.init h
  refine ⟨hok.log, ?_, hok.suspicious, hok.nodup, hok.done_perm, foundFull_of_run h, ?_⟩
  · rw [List.forall₂_iff_zip]
    refine ⟨hok.buffer.delivered.length_eq, fun {k ev} hmem => ?_⟩
    obtain ⟨now, comm, -, hev⟩ := List.forall₂_zip hok.buffer.delivered hmem
    exact ⟨hok.numbered k (List.mem_of_mem_take (List.of_mem_zip hmem).1), now, comm, hev⟩
  · intro events hevents htext
    exact auditLog_inj hevents hok.terminated (htext.trans hok.log)

/-! ### A run with a misleading name -/

/-- The name `x syscall=1` with a line end behind it. -/
def misleadingName : Comm := fun i => ("x syscall=1\n".toList).getD i.val '\x00'

def callBy (uid nr : BitVec 64) : SysCall := ⟨⟨42, uid, misleadingName⟩, ⟨nr, fun _ => 0⟩⟩

/-- User 7 is on the whitelist.  Two calls of others overlap; the second one is submitted first, and is
handled when the first is submitted too. -/
def overlappingCalls : List (Action Bool) :=
  [.setWhitelist 7 1, .enter false (callBy 1000 sysPtrace), .enter true (callBy 7 sysExecve),
    .enter true (callBy 0 sysExecve), .reserve false, .reserve true, .submit true 5 misleadingName,
    .submit false 6 misleadingName, .handle, .handle]

theorem audit_log_faithful_overlapping :
    ∃ s : State Bool, Runs.run State.step State.init overlappingCalls = some s ∧
      s.handled.map SyscallEvent.syscallNr = [sysPtrace, sysExecve] ∧
      ∀ events : List SyscallEvent, (∀ ev ∈ events, ev.comm.Terminated) → auditLog events = s.stderr →
        events.map printed = s.handled.map printed := by
  obtain ⟨s, hs, hnr⟩ : ∃ s : State Bool, Runs.run State.step State.init overlappingCalls = some s ∧
      s.handled.map SyscallEvent.syscallNr = [sysPtrace, sysExecve] :=
    Runs.exists_run_of_any (by decide +kernel)
  obtain ⟨-, -, -, -, -, -, hread⟩ := audit_log_faithful overlappingCalls s hs
  exact ⟨s, hs, hnr, hread⟩

end SyscallAudit

end EbpfMonitor
