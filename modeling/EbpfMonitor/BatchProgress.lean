import EbpfMonitor.BatchNoDrop
import Mathlib.Algebra.BigOperators.Ring.List

/-! # Progress of `BatchProcessor`

The two threads of a `BatchProcessor` never wait for each other: there is no lock and no retry in the
code.  `left` bounds the steps that a call in progress still takes, whatever the other thread does
meanwhile, also when the two enqueues of the free list race.  Every step of a thread inside a call takes
one from it (`left_senderStep`, `left_workerStep`), so that a call returns within the steps that are left
right after it is made.

`Draining` is about a processor whose sender has stopped: every `process_burst` takes 32 packets, or what
is left, out of the ring, and then all slots that are not held are in the pool again.

`batchProcessor_wait_free` puts the two together. -/

namespace EbpfMonitor

open SpscRing Circular

variable {R P : Capacity}

/-! ### The operations of the ring -/

namespace SpscRing

variable {T : Type} {cap : Capacity}

/-- The number of items that a call asks for. -/
def DeqCall.count : DeqCall → ℕ
  | dequeue => 1
  | dequeueBurst n => n.toNat

theorem DeqCall.claim_le_count {call : DeqCall} {t h cnt : SizeT} (hc : call.claim t h = some cnt) :
    cnt.toNat ≤ call.count := by
  cases call with
  | dequeue =>
      simp only [DeqCall.claim] at hc
      split_ifs at hc
      obtain rfl := Option.some.inj hc
      exact le_rfl
  | dequeueBurst n =>
      obtain rfl := Option.some.inj hc
      rw [toNat_clamp]
      exact min_le_left _ _

/-- The number of elementary steps that the operation still takes at most. -/
def Consumer.remaining : Consumer T → ℕ
  | .idle => 0
  | .loadTail call => call.count + 3
  | .loadHead call _ => call.count + 2
  | .read _ cnt got => cnt.toNat - got.length + 1

theorem Consumer.remaining_pos {c : Consumer T} (hc : c ≠ .idle) : 0 < c.remaining := by
  cases c with
  | idle => exact absurd rfl hc
  | _ => exact Nat.succ_pos _

theorem Consumer.remaining_next_lt {c : Consumer T} (hc : c ≠ .idle) (r : SpscRing T cap) :
    (c.next r).2.1.remaining < c.remaining := by
  cases c with
  | idle => exact absurd rfl hc
  | loadTail call => exact Nat.lt_succ_self _
  | loadHead call t =>
      simp only [Consumer.next]
      cases hclaim : call.claim t r.head with
      | none => exact Nat.succ_pos _
      | some cnt =>
          have hle := DeqCall.claim_le_count hclaim
          simp only [remaining, List.length_nil]
          omega
  | read t cnt got =>
      simp only [Consumer.next]
      split_ifs with hlt
      · simp only [remaining, List.length_append, List.length_singleton]
        omega
      · exact Nat.succ_pos _

/-- The call takes at most `n` items. -/
def Consumer.Within (n : ℕ) : Consumer T → Prop
  | .idle => True
  | .loadTail call => call.count ≤ n
  | .loadHead call _ => call.count ≤ n
  | .read _ cnt got => cnt.toNat ≤ n ∧ got.length ≤ cnt.toNat

theorem Consumer.Within.next {n : ℕ} {c : Consumer T} (h : c.Within n) (r : SpscRing T cap) :
    (c.next r).2.1.Within n ∧ (c.next r).2.2.length ≤ n := by
  cases c with
  | idle => exact ⟨trivial, Nat.zero_le _⟩
  | loadTail call => exact ⟨h, Nat.zero_le _⟩
  | loadHead call t =>
      simp only [Consumer.next]
      cases hclaim : call.claim t r.head with
      | none => exact ⟨trivial, Nat.zero_le _⟩
      | some cnt => exact ⟨⟨le_trans (DeqCall.claim_le_count hclaim) h, Nat.zero_le _⟩, Nat.zero_le _⟩
  | read t cnt got =>
      obtain ⟨hcnt, hgot⟩ := h
      simp only [Consumer.next]
      split_ifs with hlt
      · refine ⟨⟨hcnt, ?_⟩, Nat.zero_le _⟩
        rw [List.length_append, List.length_singleton]
        omega
      · exact ⟨trivial, le_trans hgot hcnt⟩

end SpscRing

/-! ### The threads -/

namespace Sender

/-- The number of steps that the call in progress still takes at most. -/
def left : Sender P → ℕ
  | idle => 0
  | alloc c => c.remaining
  | send _ p => p.remaining + 2
  | drop _ p => p.remaining

/-- A thread inside a call is inside an operation of a ring. -/
def InCall : Sender P → Prop
  | idle => True
  | alloc c => c ≠ .idle
  | send pkt p => p.Inside (.enqueue pkt)
  | drop pkt p => p.Inside (.enqueue pkt)

/-- A call with no step left has returned. -/
theorem InCall.idle_of_left {s : Sender P} (h : s.InCall) (hleft : s.left = 0) : s = .idle := by
  cases s with
  | idle => rfl
  | alloc c => exact absurd hleft (Consumer.remaining_pos h).ne'
  | send pkt p => exact absurd hleft (Nat.succ_ne_zero _)
  | drop pkt p => exact absurd hleft (Producer.remaining_pos h.ne_idle).ne'

theorem left_afterAlloc (c : Consumer (Fin P.size)) : (afterAlloc c).left = c.remaining := by
  cases c <;> rfl

theorem inCall_afterAlloc (c : Consumer (Fin P.size)) : (afterAlloc c).InCall := by
  cases c with
  | idle => exact trivial
  | _ => exact nofun

theorem left_afterDrop (pkt : Fin P.size) (p : Producer (Fin P.size)) :
    (afterDrop pkt p).left = p.remaining := by
  cases p <;> rfl

end Sender

namespace Worker

/-- The number of steps that the call in progress still takes at most. -/
def left : Worker P → ℕ
  | idle => 0
  | burst c => c.remaining + 68
  | handle pkts i => pkts.length - i + 36
  | release _ p => p.remaining

/-- A thread inside a call is inside an operation of a ring or the handler loop, and its burst is no
larger than `BURST_SIZE`. -/
def InCall : Worker P → Prop
  | idle => True
  | burst c => c ≠ .idle ∧ c.Within burstSize.toNat
  | handle pkts _ => pkts.length ≤ burstSize.toNat
  | release _ p => p ≠ .idle

theorem InCall.idle_of_left {w : Worker P} (h : w.InCall) (hleft : w.left = 0) : w = .idle := by
  cases w with
  | idle => rfl
  | burst c => exact absurd hleft (Nat.succ_ne_zero _)
  | handle pkts i => exact absurd hleft (Nat.succ_ne_zero _)
  | release pkts p => exact absurd hleft (Producer.remaining_pos h).ne'

theorem left_afterRelease (pkts : List (Fin P.size)) (p : Producer (Fin P.size)) :
    (afterRelease pkts p).left = p.remaining := by
  cases p <;> rfl

theorem inCall_afterRelease (pkts : List (Fin P.size)) (p : Producer (Fin P.size)) :
    (afterRelease pkts p).InCall := by
  cases p with
  | idle => exact trivial
  | _ => exact nofun

/-- When `dequeue_burst` returns, the steps that are still to come are those of the handler loop and of
`free_burst`. -/
theorem afterBurst_left_le {c : Consumer (Fin P.size)} {xs : List (Fin P.size)}
    (hc : c.Within burstSize.toNat) (hxs : xs.length ≤ burstSize.toNat) :
    (afterBurst c xs).InCall ∧ (afterBurst c xs).left ≤ c.remaining + 68 := by
  have hsize : burstSize.toNat = 32 := rfl
  cases c with
  | idle =>
      cases xs with
      | nil => exact ⟨trivial, Nat.zero_le _⟩
      | cons x xs =>
          refine ⟨hxs, ?_⟩
          simp only [afterBurst, left, Consumer.remaining]
          omega
  | loadTail call => exact ⟨⟨nofun, hc⟩, le_rfl⟩
  | loadHead call t => exact ⟨⟨nofun, hc⟩, le_rfl⟩
  | read t cnt got => exact ⟨⟨nofun, hc⟩, le_rfl⟩

end Worker

namespace BatchProcessor

theorem remaining_of_full {pkt : Fin P.size} {p : Producer (Fin P.size)} {r : SpscRing (Fin P.size) R}
    (hin : p.Inside (.enqueue pkt)) (hidle : (p.next r).2.1 = .idle) (hnone : (p.next r).2.2 = []) :
    p.remaining = 3 := by
  cases p with
  | idle => exact absurd hin id
  | loadHead call => cases hidle
  | loadTail call h =>
      obtain rfl : call = .enqueue pkt := hin
      rfl
  | write call h cnt i =>
      have hcnt : cnt.toNat = 1 := hin.2
      simp only [Producer.next] at hidle hnone
      split_ifs at hidle hnone with hi
      rw [hcnt] at hnone
      cases hnone

/-- **A step of the sender** inside a call. -/
theorem left_senderStep {s : BatchProcessor R P} (h : s.sender.InCall) :
    s.senderStep.sender.InCall ∧
      (s.sender ≠ .idle → s.senderStep.sender.left + 1 ≤ s.sender.left) := by
  cases hs : s.sender with
  | idle =>
      have hstep : s.senderStep.sender = .idle := by
        simp only [senderStep, hs]
      rw [hstep]
      exact ⟨trivial, fun hne => absurd rfl hne⟩
  | alloc c =>
      have hstep : s.senderStep.sender = .afterAlloc (c.next s.pool.freeRing).2.1 := by
        simp only [senderStep, hs]
      rw [hs] at h
      rw [hstep, Sender.left_afterAlloc]
      exact ⟨Sender.inCall_afterAlloc _, fun _ => Consumer.remaining_next_lt h _⟩
  | send pkt p =>
      rw [hs] at h
      have hlt := Producer.remaining_next_lt h.ne_idle s.ring
      have hstep : s.senderStep.sender = .afterSend pkt (p.next s.ring).2.1 (p.next s.ring).2.2 := by
        simp only [senderStep, hs]
      rw [hstep]
      rcases Inv.next_enqueue (r := s.ring) h with ⟨hin, hd⟩ | ⟨hidle, hd⟩ | ⟨hidle, hd⟩
      · rw [Sender.afterSend_inside hin]
        exact ⟨hin, fun _ => Nat.add_le_add_right hlt 2⟩
      · have hremaining := remaining_of_full h hidle hd
        rw [hidle, hd]
        exact ⟨rfl, fun _ => by simp only [Sender.left, hremaining]; exact le_rfl⟩
      · rw [hidle, hd]
        exact ⟨trivial, fun _ => Nat.succ_pos _⟩
  | drop pkt p =>
      rw [hs] at h
      have hlt := Producer.remaining_next_lt h.ne_idle s.pool.freeRing
      have hstep : s.senderStep.sender = .afterDrop pkt (p.next s.pool.freeRing).2.1 := by
        simp only [senderStep, hs]
      rw [hstep, Sender.left_afterDrop]
      refine ⟨?_, fun _ => hlt⟩
      rcases Inv.next_enqueue (r := s.pool.freeRing) h with ⟨hin, -⟩ | ⟨hidle, -⟩ | ⟨hidle, -⟩
      · rw [Sender.afterDrop_inside hin]
        exact hin
      · rw [hidle]
        exact trivial
      · rw [hidle]
        exact trivial

/-- **A step of the worker** inside a call. -/
theorem left_workerStep (handler : Packet → Packet) {s : BatchProcessor R P} (h : s.worker.InCall) :
    (s.workerStep handler).worker.InCall ∧
      (s.worker ≠ .idle → (s.workerStep handler).worker.left + 1 ≤ s.worker.left) := by
  cases hs : s.worker with
  | idle =>
      have hstep : (s.workerStep handler).worker = .idle := by
        simp only [workerStep, hs]
      rw [hstep]
      exact ⟨trivial, fun hne => absurd rfl hne⟩
  | burst c =>
      rw [hs] at h
      have hstep : (s.workerStep handler).worker = .afterBurst (c.next s.ring).2.1 (c.next s.ring).2.2 := by
        simp only [workerStep, hs]
      rw [hstep]
      obtain ⟨hwithin, hlen⟩ := Consumer.Within.next h.2 s.ring
      obtain ⟨hin, hle⟩ := Worker.afterBurst_left_le hwithin hlen
      have hlt := Consumer.remaining_next_lt h.1 s.ring
      refine ⟨hin, fun _ => ?_⟩
      show _ + 1 ≤ c.remaining + 68
      omega
  | handle pkts i =>
      rw [hs] at h
      have hlen : pkts.length ≤ 32 := h
      simp only [workerStep, hs]
      cases hi : pkts[i]? with
      | some pkt =>
          have hlt : i < pkts.length := (List.getElem?_eq_some_iff.mp hi).1
          refine ⟨h, fun _ => ?_⟩
          simp only [Worker.left]
          omega
      | none =>
          refine ⟨by simp [Worker.InCall], fun _ => ?_⟩
          simp only [Worker.left, Producer.remaining, releaseCall_count (show pkts.length < 2 ^ 64 by omega)]
          omega
  | release pkts p =>
      have hstep : (s.workerStep handler).worker = .afterRelease pkts (p.next s.pool.freeRing).2.1 := by
        simp only [workerStep, hs]
      rw [hs] at h
      rw [hstep, Worker.left_afterRelease]
      exact ⟨Worker.inCall_afterRelease _ _, fun _ => Producer.remaining_next_lt h _⟩

/-! ### Whole runs -/

def Action.isAlloc : Action P → Bool
  | .callAlloc => true
  | _ => false

def Action.isProcess : Action P → Bool
  | .callProcess => true
  | _ => false

def Action.isWorker : Action P → Bool
  | .worker => true
  | _ => false

/-- The action is one of the processing thread. -/
def Action.ofWorker (a : Action P) : Bool := a.isWorker || a.isProcess

/-- A thread takes steps of its own only inside a call. -/
def Busy (s : BatchProcessor R P) : Action P → Prop
  | .sender => s.sender ≠ .idle
  | .worker => s.worker ≠ .idle
  | _ => True

instance (s : BatchProcessor R P) : (a : Action P) → Decidable (s.Busy a)
  | .sender => inferInstanceAs (Decidable (_ ≠ _))
  | .worker => inferInstanceAs (Decidable (_ ≠ _))
  | .callAlloc | .callSend _ | .fill _ _ | .callProcess => isTrue trivial

/-- `step` without the steps of an idle thread. -/
def busyStep (handler : Packet → Packet) (s : BatchProcessor R P) (a : Action P) :
    Option (BatchProcessor R P) :=
  if s.Busy a then s.step handler a else none

theorem busyStep_eq_some {handler : Packet → Packet} {s s' : BatchProcessor R P} {a : Action P} :
    s.busyStep handler a = some s' ↔ s.Busy a ∧ s.step handler a = some s' := by
  unfold busyStep
  split_ifs with h
  · exact (and_iff_right h).symm
  · exact iff_of_false nofun (fun hs => h hs.1)

/-- Both threads are in an orderly state. -/
def InCalls (s : BatchProcessor R P) : Prop := s.sender.InCall ∧ s.worker.InCall

section step

variable {handler : Packet → Packet} {s s' : BatchProcessor R P} {a : Action P}

theorem senderStep_worker (s : BatchProcessor R P) : s.senderStep.worker = s.worker := by
  unfold senderStep
  split <;> rfl

/-- **A step takes what it costs from what is left**, up to what a call puts in. -/
theorem left_step (h : s.InCalls) (hstep : s.busyStep handler a = some s') :
    s'.InCalls ∧
      s'.sender.left + a.isSender.toNat ≤ s.sender.left + (4 * a.isAlloc.toNat + 6 * a.isSend.toNat) ∧
      s'.worker.left + a.isWorker.toNat ≤ s.worker.left + 103 * a.isProcess.toNat := by
  obtain ⟨hbusy, hstep⟩ := busyStep_eq_some.mp hstep
  obtain ⟨hsender, hworker⟩ := h
  cases a with
  | sender =>
      obtain rfl := Option.some.inj hstep
      obtain ⟨hin, hleft⟩ := left_senderStep hsender
      refine ⟨⟨hin, ?_⟩, hleft hbusy, ?_⟩
      · rw [senderStep_worker]
        exact hworker
      · rw [senderStep_worker]
        exact le_rfl
  | worker =>
      obtain rfl := Option.some.inj hstep
      obtain ⟨hin, hleft⟩ := left_workerStep handler hworker
      have heq := (workerStep_sender handler s).1
      refine ⟨⟨?_, hin⟩, ?_, hleft hbusy⟩
      · rw [heq]
        exact hsender
      · rw [heq]
        exact le_rfl
  | callAlloc =>
      simp only [step] at hstep
      split at hstep
      case h_1 hidle =>
        obtain rfl := Option.some.inj hstep
        exact ⟨⟨by simp [Sender.InCall], hworker⟩, Nat.le_add_left _ _, le_rfl⟩
      case h_2 => cases hstep
  | callSend pkt =>
      simp only [step] at hstep
      split at hstep
      case h_1 hidle =>
        split_ifs at hstep
        obtain rfl := Option.some.inj hstep
        exact ⟨⟨rfl, hworker⟩, Nat.le_add_left _ _, le_rfl⟩
      case h_2 => cases hstep
  | fill pkt contents =>
      simp only [step] at hstep
      split at hstep
      case h_1 =>
        split_ifs at hstep
        obtain rfl := Option.some.inj hstep
        exact ⟨⟨hsender, hworker⟩, le_rfl, le_rfl⟩
      case h_2 => cases hstep
  | callProcess =>
      simp only [step] at hstep
      split at hstep
      case h_1 hidle =>
        obtain rfl := Option.some.inj hstep
        exact ⟨⟨hsender, by simp, le_rfl⟩, le_rfl, Nat.le_add_left _ _⟩
      case h_2 => cases hstep

end step

theorem InCalls.run {handler : Packet → Packet} {s s' : BatchProcessor R P} {as : List (Action P)}
    (h : s.InCalls) (hrun : Runs.run (busyStep handler) s as = some s') : s'.InCalls :=
  Runs.run_invariant (fun _ _ _ hs hstep => (left_step hs hstep).1) h hrun

/-- The steps of the sending thread in a run against the calls that it made. -/
theorem InCalls.sender_steps_le {handler : Packet → Packet} {s s' : BatchProcessor R P}
    {as : List (Action P)} (h : s.InCalls) (hrun : Runs.run (busyStep handler) s as = some s') :
    s'.sender.left + as.countP Action.isSender ≤
      s.sender.left + (4 * as.countP Action.isAlloc + 6 * as.countP Action.isSend) := by
  have hsteps := Runs.run_potential (μ := fun s : BatchProcessor R P => s.sender.left)
    (fun _ _ _ hs hstep => (left_step hs hstep).1) (fun _ _ _ hs hstep => (left_step hs hstep).2.1) h hrun
  simpa only [List.sum_map_add, List.sum_map_mul_left, Runs.sum_map_toNat] using hsteps

theorem InCalls.worker_steps_le {handler : Packet → Packet} {s s' : BatchProcessor R P}
    {as : List (Action P)} (h : s.InCalls) (hrun : Runs.run (busyStep handler) s as = some s') :
    s'.worker.left + as.countP Action.isWorker ≤ s.worker.left + 103 * as.countP Action.isProcess := by
  have hsteps := Runs.run_potential (μ := fun s : BatchProcessor R P => s.worker.left)
    (fun _ _ _ hs hstep => (left_step hs hstep).1) (fun _ _ _ hs hstep => (left_step hs hstep).2.2) h hrun
  simpa only [List.sum_map_mul_left, Runs.sum_map_toNat] using hsteps

/-! ### One call -/

/-- Until its next call the sending thread takes at most `n` steps, whatever the other thread does
meanwhile, and after `n` of them it is outside of a call. -/
def SenderReturnsWithin (handler : Packet → Packet) (n : ℕ) (s : BatchProcessor R P) : Prop :=
  ∀ bs s', Runs.run (busyStep handler) s bs = some s' →
    (∀ b ∈ bs, b.isAlloc = false ∧ b.isSend = false) →
    bs.countP Action.isSender ≤ n ∧ (bs.countP Action.isSender = n → s'.sender = .idle)

/-- The same of the processing thread. -/
def WorkerReturnsWithin (handler : Packet → Packet) (n : ℕ) (s : BatchProcessor R P) : Prop :=
  ∀ bs s', Runs.run (busyStep handler) s bs = some s' → (∀ b ∈ bs, b.isProcess = false) →
    bs.countP Action.isWorker ≤ n ∧ (bs.countP Action.isWorker = n → s'.worker = .idle)

section call

variable {handler : Packet → Packet} {s s' : BatchProcessor R P}

/-- A thread returns within the steps that are left. -/
theorem InCalls.senderReturnsWithin (h : s.InCalls) : s.SenderReturnsWithin handler s.sender.left := by
  intro bs s' hrun hcalls
  have hsteps := h.sender_steps_le hrun
  rw [List.countP_eq_zero.mpr fun b hb => Bool.eq_false_iff.mp (hcalls b hb).1,
    List.countP_eq_zero.mpr fun b hb => Bool.eq_false_iff.mp (hcalls b hb).2] at hsteps
  exact ⟨by omega, fun hall => (h.run hrun).1.idle_of_left (by omega)⟩

theorem InCalls.workerReturnsWithin (h : s.InCalls) : s.WorkerReturnsWithin handler s.worker.left := by
  intro bs s' hrun hcalls
  have hsteps := h.worker_steps_le hrun
  rw [List.countP_eq_zero.mpr fun b hb => Bool.eq_false_iff.mp (hcalls b hb)] at hsteps
  exact ⟨by omega, fun hall => (h.run hrun).2.idle_of_left (by omega)⟩

/-- What is left right after a call. -/
theorem left_callAlloc (h : s.busyStep handler .callAlloc = some s') : s'.sender.left = 4 := by
  have hstep := (busyStep_eq_some.mp h).2
  simp only [step] at hstep
  split at hstep
  case h_1 =>
    obtain rfl := Option.some.inj hstep
    rfl
  case h_2 => cases hstep

theorem left_callSend {pkt : Fin P.size} (h : s.busyStep handler (.callSend pkt) = some s') :
    s'.sender.left = 6 := by
  have hstep := (busyStep_eq_some.mp h).2
  simp only [step] at hstep
  split at hstep
  case h_1 =>
    split_ifs at hstep
    obtain rfl := Option.some.inj hstep
    rfl
  case h_2 => cases hstep

theorem left_callProcess (h : s.busyStep handler .callProcess = some s') : s'.worker.left = 103 := by
  have hstep := (busyStep_eq_some.mp h).2
  simp only [step] at hstep
  split at hstep
  case h_1 =>
    obtain rfl := Option.some.inj hstep
    rfl
  case h_2 => cases hstep

end call

/-! ### A sender that has stopped -/

/-- The call takes as many of the packets `q` as a burst has, or all of them. -/
def TakesBurst (q : List (Fin P.size)) : Consumer (Fin P.size) → Prop
  | .idle => False
  | .loadTail call => call = .dequeueBurst burstSize
  | .loadHead call _ => call = .dequeueBurst burstSize
  | .read _ cnt _ => cnt.toNat = min burstSize.toNat q.length

/-- What is in the ring after `k` calls of `process_burst`, if `q₀` was in it; the last call may not
have taken its burst yet. -/
def Leaves (q₀ : List (Fin P.size)) (k : ℕ) (q : List (Fin P.size)) : Worker P → Prop
  | .burst c => ∃ j, k = j + 1 ∧ q = q₀.drop (burstSize.toNat * j) ∧ TakesBurst q c
  | _ => q = q₀.drop (burstSize.toNat * k)

/-- The sender has stopped with `q₀` in the ring. -/
structure Draining (q₀ : List (Fin P.size)) (k : ℕ) (s : BatchProcessor R P) : Prop where
  sender : s.sender = .idle
  slots : ∃ q f, s.Ok q f
  leaves : Leaves q₀ k s.ring.contents s.worker

theorem not_racing_of_idle {s : BatchProcessor R P} (h : s.sender = .idle) : ¬ s.Racing .worker := by
  rintro ⟨-, hne⟩
  rw [h] at hne
  exact hne rfl

theorem Leaves.drop {q₀ q : List (Fin P.size)} {j : ℕ} (h : q = q₀.drop (burstSize.toNat * j)) :
    q.drop burstSize.toNat = q₀.drop (burstSize.toNat * (j + 1)) := by
  rw [h, List.drop_drop, Nat.mul_succ]

/-- **A step inside `dequeue_burst`** while the sender is idle. -/
theorem leaves_burst {q₀ q : List (Fin P.size)} {k : ℕ} {r : SpscRing (Fin P.size) R}
    {c : Consumer (Fin P.size)} (hinv : Inv r .idle c q) (h : Leaves q₀ k r.contents (.burst c)) :
    Leaves q₀ k (c.next r).1.contents (.afterBurst (c.next r).2.1 (c.next r).2.2) := by
  obtain ⟨rest, hq, hnext⟩ := hinv.next_consumer
  have hcontents := hinv.represents.contents_eq
  have hrest := hnext.represents.contents_eq
  rw [hcontents] at h
  obtain ⟨j, rfl, hj, htakes⟩ := h
  rw [hrest]
  cases c with
  | idle => exact absurd htakes id
  | loadTail call =>
      obtain rfl : q = rest := hq
      exact ⟨j, rfl, hj, htakes⟩
  | loadHead call t =>
      obtain rfl : call = .dequeueBurst burstSize := htakes
      obtain rfl : t = r.tail := hinv.consumer
      obtain rfl : q = rest := hq
      refine ⟨j, rfl, hj, ?_⟩
      show (if burstSize < r.head - r.tail then burstSize else r.head - r.tail).toNat = _
      rw [toNat_clamp, hinv.represents.toNat_sub]
  | read t cnt got =>
      obtain ⟨-, hcnt, hgot, -⟩ := hinv.consumer
      have htakes : cnt.toNat = min burstSize.toNat q.length := htakes
      simp only [Consumer.next] at hq ⊢
      split_ifs at hq ⊢ with hlt
      · obtain rfl : q = rest := hq
        exact ⟨j, rfl, hj, htakes⟩
      · have hq : q = got ++ rest := hq
        have hlen : got.length = min burstSize.toNat q.length := by omega
        have hdrop : rest = q.drop burstSize.toNat := by
          rcases le_total burstSize.toNat q.length with hle | hle
          · rw [min_eq_left hle] at hlen
            rw [hq, ← hlen, List.drop_left]
          · have hall := congrArg List.length hq
            rw [List.length_append] at hall
            rw [List.drop_eq_nil_of_le hle]
            exact List.eq_nil_of_length_eq_zero (by omega)
        have hleaves : rest = q₀.drop (burstSize.toNat * (j + 1)) := hdrop.trans (Leaves.drop hj)
        cases got with
        | nil => exact hleaves
        | cons x xs => exact hleaves

namespace Draining

variable {handler : Packet → Packet} {q₀ : List (Fin P.size)} {k : ℕ} {s s' : BatchProcessor R P}

theorem workerStep (h : s.Draining q₀ k) : (s.workerStep handler).Draining q₀ k := by
  obtain ⟨q, f, hok⟩ := h.slots
  refine ⟨(workerStep_sender handler s).1.trans h.sender,
    hok.workerStep (not_racing_of_idle h.sender) handler, ?_⟩
  have hleaves := h.leaves
  cases hs : s.worker with
  | idle =>
      rw [hs] at hleaves
      simp only [BatchProcessor.workerStep, hs]
      exact hleaves
  | burst c =>
      have hinv := hok.packets
      rw [h.sender, hs] at hinv
      rw [hs] at hleaves
      simp only [BatchProcessor.workerStep, hs]
      exact leaves_burst hinv hleaves
  | handle pkts i =>
      rw [hs] at hleaves
      simp only [BatchProcessor.workerStep, hs]
      cases pkts[i]? <;> exact hleaves
  | release pkts p =>
      rw [hs] at hleaves
      simp only [BatchProcessor.workerStep, hs]
      cases (p.next s.pool.freeRing).2.1 <;> exact hleaves

theorem step (h : s.Draining q₀ k) {a : Action P} (ha : a.ofWorker = true)
    (hstep : s.busyStep handler a = some s') : s'.Draining q₀ (k + a.isProcess.toNat) := by
  obtain ⟨-, hstep⟩ := busyStep_eq_some.mp hstep
  cases a with
  | worker =>
      obtain rfl := Option.some.inj hstep
      exact h.workerStep
  | callProcess =>
      simp only [BatchProcessor.step] at hstep
      split at hstep
      case h_1 hidle =>
        obtain rfl := Option.some.inj hstep
        obtain ⟨q, f, hok⟩ := h.slots
        have hleaves := h.leaves
        rw [hidle] at hleaves
        exact ⟨h.sender, ⟨q, f, hok.callProcess hidle⟩, k, rfl, hleaves, rfl⟩
      case h_2 => cases hstep
  | callAlloc => cases ha
  | callSend pkt => cases ha
  | fill pkt contents => cases ha
  | sender => cases ha

theorem run {bs : List (Action P)} (h : s.Draining q₀ k) (hbs : ∀ a ∈ bs, a.ofWorker = true)
    (hrun : Runs.run (busyStep handler) s bs = some s') :
    s'.Draining q₀ (k + bs.countP Action.isProcess) := by
  induction bs generalizing s k with
  | nil =>
      obtain rfl := Option.some.inj hrun
      exact h
  | cons a bs ih =>
      obtain ⟨ha, hbs⟩ := List.forall_mem_cons.mp hbs
      obtain ⟨t, ht, hrun⟩ := Runs.run_cons_eq_some.mp hrun
      have hrest := ih (h.step ha ht) hbs hrun
      have hcount : k + (a :: bs).countP Action.isProcess =
          k + a.isProcess.toNat + bs.countP Action.isProcess := by
        rw [List.countP_cons, Nat.add_assoc, Nat.add_comm (a.isProcess.toNat)]
        cases a.isProcess <;> rfl
      rw [hcount]
      exact hrest

end Draining

/-- A run of `busyStep` is one of `step`. -/
theorem run_of_busy {handler : Packet → Packet} {s s' : BatchProcessor R P} {as : List (Action P)}
    (h : Runs.run (busyStep handler) s as = some s') : Runs.run (step handler) s as = some s' := by
  induction as generalizing s with
  | nil => exact h
  | cons a as ih =>
      obtain ⟨t, ht, hrun⟩ := Runs.run_cons_eq_some.mp h
      exact Runs.run_cons_eq_some.mpr ⟨t, (busyStep_eq_some.mp ht).2, ih hrun⟩

/-- **No call waits, and a processor whose sender has stopped is drained.**  In every state that a run
reaches, whatever the interleaving so far, a thread inside a call can take its next step, and a call made
there returns within its own steps, whatever the other thread does meanwhile: within 4 for
`alloc_packet`, 6 for `send` and 103 for `process_burst`.  If the enqueues of the free list did not race
and no call is in progress, then after as many further calls of `process_burst` as the ring holds bursts,
the ring is empty and all slots that the sender does not hold are in the free list. -/
theorem batchProcessor_wait_free (R P : Capacity) (handler : Packet → Packet)
    (ringData : Fin R.size → Fin P.size) (poolData : Fin P.size → Fin P.size)
    (storage : Fin P.size → Packet) (as : List (Action P)) (s : BatchProcessor R P)
    (hrun : Runs.run (busyStep handler) (init ringData poolData storage) as = some s) :
    (s.sender ≠ .idle → (s.busyStep handler .sender).isSome) ∧
    (s.worker ≠ .idle → (s.busyStep handler .worker).isSome) ∧
    (∀ s', s.busyStep handler .callAlloc = some s' → s'.SenderReturnsWithin handler 4) ∧
    (∀ pkt s', s.busyStep handler (.callSend pkt) = some s' → s'.SenderReturnsWithin handler 6) ∧
    (∀ s', s.busyStep handler .callProcess = some s' → s'.WorkerReturnsWithin handler 103) ∧
    (Runs.Meets (step handler) (fun s a => ¬ s.Racing a) (init ringData poolData storage) as →
      s.Quiescent → ∀ bs s', Runs.run (busyStep handler) s bs = some s' →
        (∀ a ∈ bs, a.ofWorker = true) → s'.worker = .idle →
        s.ring.contents.length ≤ 32 * bs.countP Action.isProcess →
        s'.ring.contents = [] ∧ (s'.pool.freeRing.contents ++ s'.held).Perm (List.finRange P.size)) := by
  have hcalls : s.InCalls := InCalls.run (s := init ringData poolData storage) ⟨trivial, trivial⟩ hrun
  refine ⟨fun hne => ?_, fun hne => ?_, fun s' hcall => ?_, fun pkt s' hcall => ?_, fun s' hcall => ?_,
    fun hmeets hquiet bs s' hbs hof hidle hlen => ?_⟩
  · exact Option.isSome_iff_exists.mpr ⟨_, busyStep_eq_some.mpr ⟨hne, rfl⟩⟩
  · exact Option.isSome_iff_exists.mpr ⟨_, busyStep_eq_some.mpr ⟨hne, rfl⟩⟩
  · exact left_callAlloc hcall ▸ (left_step hcalls hcall).1.senderReturnsWithin
  · exact left_callSend hcall ▸ (left_step hcalls hcall).1.senderReturnsWithin
  · exact left_callProcess hcall ▸ (left_step hcalls hcall).1.workerReturnsWithin
  have hslots : ∃ q f, s.Ok q f := Runs.run_invariant_of_meets (Ok.step handler) as _ s
    ⟨_, _, Ok.init ringData poolData storage⟩ hmeets (run_of_busy hrun)
  have hstart : s.Draining s.ring.contents 0 := by
    refine ⟨hquiet.1, hslots, ?_⟩
    rw [hquiet.2]
    rfl
  have hend := hstart.run hof hbs
  have hleaves := hend.leaves
  rw [hidle, Nat.zero_add] at hleaves
  have hempty : s'.ring.contents = [] := hleaves.trans (List.drop_eq_nil_of_le hlen)
  obtain ⟨q, f, hok⟩ := hend.slots
  have hperm := hok.quiescent ⟨hend.sender, hidle⟩
  rw [hempty, List.append_nil] at hperm
  exact ⟨hempty, hperm⟩

/-- Two packets are allocated and sent, and the second one is dropped: the calls take as many steps as
they can. -/
def twoSends : List (Action fourSlots) :=
  allocSteps ++ allocSteps ++
    (List.zipWith (fun pkt n => .callSend pkt :: List.replicate n .sender) (List.finRange 4) [4, 6]).flatten

/-- One call of `process_burst`, with the packet in the ring. -/
def oneBurst : List (Action fourSlots) := .callProcess :: List.replicate 10 .worker

/-- The second `send` is dropped within its six steps, and one burst drains the processor. -/
theorem batchProcessor_wait_free_drop :
    ∃ s s₁ s₂ s₃ : BatchProcessor oneSlot fourSlots,
      Runs.run (busyStep id) fresh (twoSends.take 15) = some s ∧
      s.busyStep id (.callSend 1) = some s₁ ∧ s₁.SenderReturnsWithin id 6 ∧
      Runs.run (busyStep id) s₁ (List.replicate 6 .sender) = some s₂ ∧ s₂.sender = .idle ∧
      s₂.stats.pktsDropped = 1 ∧ s₂.ring.contents = [0] ∧
      Runs.run (busyStep id) s₂ oneBurst = some s₃ ∧ s₃.ring.contents = [] ∧
      (s₃.pool.freeRing.contents ++ s₃.held).Perm (List.finRange fourSlots.size) := by
  have hmeets : Runs.Meets (step id) (fun s a => ¬ s.Racing a) fresh twoSends := by decide +kernel
  obtain ⟨s₂, hs₂, hquiet, hdropped, hring, hburst⟩ : ∃ s : BatchProcessor oneSlot fourSlots,
      Runs.run (busyStep id) fresh twoSends = some s ∧ s.Quiescent ∧ s.stats.pktsDropped = 1 ∧
      s.ring.contents = [0] ∧
      ((Runs.run (busyStep id) s oneBurst).any fun s' => decide (s'.worker = .idle)) = true :=
    Runs.exists_run_of_any (by decide +kernel)
  obtain ⟨s₃, hs₃, hidle⟩ := Runs.exists_run_of_any hburst
  have hsplit : twoSends = twoSends.take 15 ++ (.callSend 1 :: List.replicate 6 .sender) := rfl
  obtain ⟨s, hs, hcall⟩ := Runs.run_append_eq_some.mp (hsplit ▸ hs₂)
  obtain ⟨s₁, hs₁, hsteps⟩ := Runs.run_cons_eq_some.mp hcall
  obtain ⟨-, -, -, hsend, -⟩ := batchProcessor_wait_free oneSlot fourSlots id (fun _ => 0) (fun _ => 0)
    (fun _ => blankPacket) (twoSends.take 15) s hs
  obtain ⟨-, -, -, -, -, hdrain⟩ := batchProcessor_wait_free oneSlot fourSlots id (fun _ => 0) (fun _ => 0)
    (fun _ => blankPacket) twoSends s₂ hs₂
  have hreturns := hsend 1 s₁ hs₁
  have hof : ∀ a ∈ oneBurst, a.ofWorker = true := by
    intro a ha
    rcases List.mem_cons.mp ha with rfl | ha
    · rfl
    · rw [List.eq_of_mem_replicate ha]
      rfl
  have hcalls : ∀ b ∈ List.replicate 6 (Action.sender (P := fourSlots)), b.isAlloc = false ∧ b.isSend = false := by
    intro b hb
    rw [List.eq_of_mem_replicate hb]
    exact ⟨rfl, rfl⟩
  obtain ⟨hempty, hperm⟩ := hdrain hmeets hquiet oneBurst s₃ hs₃ hof hidle (by rw [hring]; decide)
  exact ⟨s, s₁, s₂, s₃, hs, hs₁, hreturns, hsteps, (hreturns _ s₂ hsteps hcalls).2 rfl, hdropped, hring,
    hs₃, hempty, hperm⟩

end BatchProcessor

end EbpfMonitor
