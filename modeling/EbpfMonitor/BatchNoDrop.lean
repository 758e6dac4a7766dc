import EbpfMonitor.BatchProcessor

/-! # A pool no larger than the ring never drops a packet

With `PoolSize <= RingSize`, as in the defaults 512 and 1024 of `packet_processor.h`, the full-ring
branch of `send` is dead code under every interleaving of the two threads.  Every slot is in one
place (`BatchProcessor.Ok`), so the packets between the counters of `ring_`, including those
the worker has copied but not yet given up, and the packet in the sender's hand are at most
`PoolSize` together, and the test against a tail that may already be out of date finds room.

`Sends` is the processor with the results its `send` calls have returned.  `send_never_drops`
says that every result is `true`, that every call returns after four steps of its thread, and
that the sender never gets into `pool_.free`: the worker is the only producer of the free list. -/

namespace EbpfMonitor

open SpscRing

variable {R P : Capacity}

/-! ### Results of `send` -/

/-- The number of elementary steps that the operation still takes at most. -/
def SpscRing.Producer.remaining {T : Type} : Producer T → ℕ
  | .idle => 0
  | .loadHead call => call.count + 3
  | .loadTail call _ => call.count + 2
  | .write _ _ cnt i => cnt.toNat - i + 1

theorem SpscRing.EnqCall.claim_le_count {T : Type} {cap : Capacity} {call : EnqCall T} {h t cnt : SizeT}
    (hc : call.claim cap h t = some cnt) : cnt.toNat ≤ call.count := by
  cases call with
  | enqueue x =>
      simp only [EnqCall.claim] at hc
      split_ifs at hc
      obtain rfl := Option.some.inj hc
      exact le_rfl
  | enqueueBurst items n =>
      obtain rfl := Option.some.inj hc
      rw [Circular.toNat_clamp]
      exact min_le_left _ _

/-- A producer inside a call is one step closer to its end. -/
theorem SpscRing.Producer.remaining_next_lt {T : Type} {cap : Capacity} {p : Producer T} (hp : p ≠ .idle)
    (r : SpscRing T cap) : (p.next r).2.1.remaining < p.remaining := by
  cases p with
  | idle => exact absurd rfl hp
  | loadHead call => exact Nat.lt_succ_self _
  | loadTail call h =>
      simp only [Producer.next]
      cases hc : call.claim cap h r.tail with
      | none => exact Nat.succ_pos _
      | some cnt =>
          have hle := EnqCall.claim_le_count hc
          simp only [remaining]
          omega
  | write call h cnt i =>
      simp only [Producer.next]
      split_ifs with hi
      · simp only [remaining]
        omega
      · exact Nat.succ_pos _

theorem SpscRing.Producer.remaining_pos {T : Type} {p : Producer T} (hp : p ≠ .idle) : 0 < p.remaining := by
  cases p with
  | idle => exact absurd rfl hp
  | _ => exact Nat.succ_pos _

theorem SpscRing.Producer.Inside.ne_idle {T : Type} {p : Producer T} {call : EnqCall T}
    (hp : p.Inside call) : p ≠ .idle := by
  rintro rfl
  exact hp

theorem SpscRing.Producer.remaining_enqueue_le {T : Type} {p : Producer T} {x : T}
    (hp : p.Inside (.enqueue x)) : p.remaining ≤ 4 := by
  cases p with
  | idle => exact absurd hp id
  | loadHead c =>
      obtain rfl : c = .enqueue x := hp
      exact le_refl _
  | loadTail c hd =>
      obtain rfl : c = .enqueue x := hp
      exact Nat.le_succ _
  | write c hd cnt i =>
      have hcnt : cnt.toNat = 1 := by
        obtain ⟨rfl, hcnt⟩ := hp
        exact hcnt
      simp only [remaining]
      omega

namespace BatchProcessor

/-- What the sender's next step returns from `send`, if it ends a call of it. -/
def sendReturns (s : BatchProcessor R P) : List Bool :=
  match s.sender with
  | .send _ p =>
      match p.next s.ring with
      | (_, .idle, _ :: _) => [true]
      | _ => []
  | .drop _ p =>
      match p.next s.pool.freeRing with
      | (_, .idle, _) => [false]
      | _ => []
  | _ => []

def Action.isSend : Action P → Bool
  | .callSend _ => true
  | _ => false

def Action.isSender : Action P → Bool
  | .sender => true
  | _ => false

/-- A processor, the number of `send` calls made, and the results of those that have returned. -/
structure Sends (R P : Capacity) where
  proc : BatchProcessor R P
  called : ℕ
  returned : List Bool

namespace Sends

def init (ringData : Fin R.size → Fin P.size) (poolData : Fin P.size → Fin P.size)
    (storage : Fin P.size → Packet) : Sends R P :=
  ⟨BatchProcessor.init ringData poolData storage, 0, []⟩

def step (handler : Packet → Packet) (s : Sends R P) (a : Action P) : Option (Sends R P) :=
  (s.proc.step handler a).map (fun proc =>
    { proc := proc
      called := s.called + a.isSend.toNat
      returned := s.returned ++ (if a.isSender then s.proc.sendReturns else []) })

end Sends

/-! ### One step -/

theorem workerStep_sender (handler : Packet → Packet) (s : BatchProcessor R P) :
    (s.workerStep handler).sender = s.sender ∧
      (s.workerStep handler).stats.pktsDropped = s.stats.pktsDropped := by
  unfold workerStep
  split
  · exact ⟨rfl, rfl⟩
  · exact ⟨rfl, rfl⟩
  · split <;> exact ⟨rfl, rfl⟩
  · exact ⟨rfl, rfl⟩

/-- **A step inside `send`** when the pool is no larger than the ring: the call goes on and is one
step closer to its end, or it returns `true`. -/
theorem Ok.send_goes_on {s : BatchProcessor R P} {q f : List (Fin P.size)} (h : s.Ok q f)
    (hsize : P.size ≤ R.size) {pkt : Fin P.size} {p : Producer (Fin P.size)}
    (hs : s.sender = .send pkt p) :
    s.senderStep.stats.pktsDropped = s.stats.pktsDropped ∧
      ((∃ p', s.senderStep.sender = .send pkt p' ∧ p'.remaining < p.remaining ∧ s.sendReturns = []) ∨
        (s.senderStep.sender = .idle ∧ s.sendReturns = [true])) := by
  have hlen := h.length_places
  have hpk := h.packets
  have hin := h.sender
  simp only [hs, Sender.onRing, Sender.carries, Sender.Consistent, List.length_singleton] at hlen hpk hin
  have hfits : q.length + (EnqCall.enqueue pkt).count ≤ R.size := by
    show q.length + 1 ≤ R.size
    omega
  have hless := Producer.remaining_next_lt hin.ne_idle s.ring
  have hnext := hpk.next_of_fits hin hfits
  simp only [BatchProcessor.senderStep, sendReturns, hs]
  generalize p.next s.ring = n at hless hnext
  obtain ⟨ring, p', xs⟩ := n
  rcases hnext with ⟨hin', hxs⟩ | ⟨hidle, hxs⟩
  · obtain rfl : xs = [] := hxs
    cases p' with
    | idle => exact absurd hin' id
    | _ => exact ⟨rfl, Or.inl ⟨_, rfl, hless, rfl⟩⟩
  · obtain rfl : p' = .idle := hidle
    obtain rfl : xs = [pkt] := hxs
    exact ⟨rfl, Or.inr ⟨rfl, rfl⟩⟩

/-! ### Whole runs -/

namespace Sends

/-- The number of calls of `send` in progress. -/
def inSend : Sender P → ℕ
  | .send _ _ => 1
  | .drop _ _ => 1
  | _ => 0

/-- The slots are conserved, and no `send` has met a full ring. -/
structure NoDrop (s : Sends R P) : Prop where
  slots : ∃ q f, s.proc.Ok q f
  not_drop : ∀ pkt p, s.proc.sender ≠ .drop pkt p
  dropped : s.proc.stats.pktsDropped = 0
  accepted : ∀ b ∈ s.returned, b = true
  counted : s.called = s.returned.length + inSend s.proc.sender

namespace NoDrop

variable {s s' : Sends R P} {handler : Packet → Packet}

theorem init (ringData : Fin R.size → Fin P.size) (poolData : Fin P.size → Fin P.size)
    (storage : Fin P.size → Packet) : (Sends.init (R := R) ringData poolData storage).NoDrop where
  slots := ⟨_, _, BatchProcessor.Ok.init ringData poolData storage⟩
  not_drop := nofun
  dropped := rfl
  accepted := nofun
  counted := rfl

/-- Without a drop in progress the two enqueues of the free list cannot race. -/
theorem not_racing (h : s.NoDrop) (a : Action P) : ¬ s.proc.Racing a := by
  have hfreer : s.proc.sender.freer = .idle := by
    cases hs : s.proc.sender with
    | drop pkt p => exact absurd hs (h.not_drop pkt p)
    | _ => rfl
  have henters : s.proc.sender.entersFree = false := by
    cases hs : s.proc.sender with
    | drop pkt p => exact absurd hs (h.not_drop pkt p)
    | _ => rfl
  cases a with
  | sender =>
      rintro ⟨hr, _⟩
      rw [henters] at hr
      cases hr
  | worker => exact fun hr => hr.2 hfreer
  | _ => exact id

theorem step_sender (h : s.NoDrop) (hsize : P.size ≤ R.size) :
    NoDrop { proc := s.proc.senderStep, called := s.called, returned := s.returned ++ s.proc.sendReturns } := by
  obtain ⟨q, f, hok⟩ := h.slots
  have hslots := hok.senderStep (h.not_racing .sender)
  have hcounted := h.counted
  cases hs : s.proc.sender with
  | idle =>
      have hstep : s.proc.senderStep = s.proc := by simp only [senderStep, hs]
      have hret : s.proc.sendReturns = [] := by simp only [sendReturns, hs]
      rw [hstep, hret, List.append_nil]
      exact h
  | alloc c =>
      have hret : s.proc.sendReturns = [] := by simp only [sendReturns, hs]
      have hs' : s.proc.senderStep.sender = .afterAlloc (c.next s.proc.pool.freeRing).2.1 := by
        simp only [senderStep, hs]
      have hdropped : s.proc.senderStep.stats.pktsDropped = s.proc.stats.pktsDropped := by
        simp only [senderStep, hs]
      rw [hret, List.append_nil]
      refine ⟨hslots, ?_, hdropped.trans h.dropped, h.accepted, ?_⟩
      · intro pkt p
        rw [hs']
        cases (c.next s.proc.pool.freeRing).2.1 <;>
          (intro hdrop; cases hdrop)
      · rw [hs', hcounted, hs]
        cases (c.next s.proc.pool.freeRing).2.1 <;> rfl
  | drop pkt p => exact absurd hs (h.not_drop pkt p)
  | send pkt p =>
      obtain ⟨hdropped, ⟨p', hs', _, hret⟩ | ⟨hs', hret⟩⟩ := hok.send_goes_on hsize hs
      · rw [hret, List.append_nil]
        refine ⟨hslots, ?_, hdropped.trans h.dropped, h.accepted, ?_⟩
        · intro pkt p hdrop
          rw [hs'] at hdrop
          cases hdrop
        · rw [hs', hcounted, hs]
          rfl
      · rw [hret]
        refine ⟨hslots, ?_, hdropped.trans h.dropped, ?_, ?_⟩
        · intro pkt p hdrop
          rw [hs'] at hdrop
          cases hdrop
        · simpa using h.accepted
        · rw [hs', hcounted, hs, List.length_append]
          rfl

/-- A step that ends no `send` keeps the record if it counts the `send` it starts. -/
theorem of_other (h : s.NoDrop) {proc : BatchProcessor R P} {a : Action P} (ha : a.isSender = false)
    (hslots : ∃ q f, proc.Ok q f) (hnot : ∀ pkt p, proc.sender ≠ .drop pkt p)
    (hdropped : proc.stats.pktsDropped = s.proc.stats.pktsDropped)
    (hsender : inSend proc.sender = inSend s.proc.sender + a.isSend.toNat) :
    NoDrop { proc := proc, called := s.called + a.isSend.toNat,
             returned := s.returned ++ (if a.isSender then s.proc.sendReturns else []) } := by
  have hreturned : s.returned ++ (if a.isSender then s.proc.sendReturns else []) = s.returned := by
    rw [ha, if_neg Bool.false_ne_true, List.append_nil]
  rw [hreturned]
  have hcounted := h.counted
  refine ⟨hslots, hnot, hdropped.trans h.dropped, h.accepted, ?_⟩
  show s.called + a.isSend.toNat = s.returned.length + inSend proc.sender
  omega

theorem step (h : s.NoDrop) (hsize : P.size ≤ R.size) {a : Action P}
    (hs : s.step handler a = some s') : s'.NoDrop := by
  obtain ⟨proc, hproc, rfl⟩ := Option.map_eq_some_iff.mp hs
  have hslots := BatchProcessor.Ok.step handler s.proc a proc h.slots (h.not_racing a) hproc
  cases a with
  | sender =>
      obtain rfl := Option.some.inj hproc
      exact h.step_sender hsize
  | worker =>
      obtain rfl := Option.some.inj hproc
      obtain ⟨hsender, hdropped⟩ := workerStep_sender handler s.proc
      exact h.of_other rfl hslots (hsender ▸ h.not_drop) hdropped (congrArg inSend hsender)
  | callAlloc =>
      simp only [BatchProcessor.step] at hproc
      split at hproc
      case h_1 hidle =>
        obtain rfl := Option.some.inj hproc
        refine h.of_other rfl hslots ?_ rfl (by rw [hidle]; rfl)
        intro pkt p hdrop
        cases hdrop
      case h_2 => cases hproc
  | callSend pkt =>
      simp only [BatchProcessor.step] at hproc
      split at hproc
      case h_1 hidle =>
        split_ifs at hproc
        obtain rfl := Option.some.inj hproc
        refine h.of_other rfl hslots ?_ rfl (by rw [hidle]; rfl)
        intro pkt p hdrop
        cases hdrop
      case h_2 => cases hproc
  | fill pkt contents =>
      simp only [BatchProcessor.step] at hproc
      split at hproc
      case h_1 =>
        split_ifs at hproc
        obtain rfl := Option.some.inj hproc
        exact h.of_other rfl hslots h.not_drop rfl rfl
      case h_2 => cases hproc
  | callProcess =>
      simp only [BatchProcessor.step] at hproc
      split at hproc
      case h_1 =>
        obtain rfl := Option.some.inj hproc
        exact h.of_other rfl hslots h.not_drop rfl rfl
      case h_2 => cases hproc

theorem run (h : s.NoDrop) (hsize : P.size ≤ R.size) {as : List (Action P)}
    (hrun : Runs.run (Sends.step handler) s as = some s') : s'.NoDrop :=
  Runs.run_invariant (fun _ _ _ h hs => NoDrop.step h hsize hs) h hrun

/-- A thread inside `send` gets no new call and is moved by its own steps only. -/
theorem sender_of_other {proc proc' : BatchProcessor R P} {a : Action P} {pkt : Fin P.size}
    {p : Producer (Fin P.size)} (hs : proc.sender = .send pkt p) (ha : a.isSender = false)
    (hstep : proc.step handler a = some proc') : proc'.sender = .send pkt p := by
  cases a with
  | sender => cases ha
  | worker =>
      obtain rfl := Option.some.inj hstep
      exact (workerStep_sender handler proc).1.trans hs
  | callProcess =>
      simp only [BatchProcessor.step] at hstep
      split at hstep
      case h_1 =>
        obtain rfl := Option.some.inj hstep
        exact hs
      case h_2 => cases hstep
  | callAlloc => simp [BatchProcessor.step, hs] at hstep
  | callSend pkt => simp [BatchProcessor.step, hs] at hstep
  | fill pkt contents => simp [BatchProcessor.step, hs] at hstep

/-- **Every call returns**: of the first `c` calls all have returned, or all but the one in
progress, which needs no more steps of its thread than the schedule has. -/
theorem returns (hsize : P.size ≤ R.size) {c : ℕ} : ∀ (as : List (Action P)) (s : Sends R P),
    s.NoDrop → Runs.run (Sends.step handler) s as = some s' →
    (c ≤ s.returned.length ∨ c ≤ s.returned.length + 1 ∧
      ∃ pkt p, s.proc.sender = .send pkt p ∧ p.remaining ≤ as.countP Action.isSender) →
    c ≤ s'.returned.length := by
  intro as
  induction as with
  | nil =>
      intro s h hrun hc
      obtain rfl := Option.some.inj hrun
      rcases hc with hc | ⟨_, pkt, p, hs, hle⟩
      · exact hc
      · obtain ⟨q, f, hok⟩ := h.slots
        have hin := hok.sender
        rw [hs] at hin
        exact absurd hle (Nat.not_le.mpr (Producer.remaining_pos hin.ne_idle))
  | cons a as ih =>
      intro s h hrun hc
      obtain ⟨t, ht, hrun'⟩ := Runs.run_cons_eq_some.mp hrun
      have h' := h.step hsize ht
      obtain ⟨proc, hproc, rfl⟩ := Option.map_eq_some_iff.mp ht
      refine ih _ h' hrun' ?_
      rcases hc with hc | ⟨hc, pkt, p, hs, hle⟩
      · refine Or.inl (hc.trans ?_)
        rw [List.length_append]
        exact Nat.le_add_right _ _
      · cases ha : a.isSender with
        | false =>
            refine Or.inr ⟨?_, pkt, p, sender_of_other hs ha hproc, ?_⟩
            · simpa [ha] using hc
            · simpa [List.countP_cons, ha] using hle
        | true =>
            cases a with
            | sender =>
                obtain rfl := Option.some.inj hproc
                obtain ⟨q, f, hok⟩ := h.slots
                obtain ⟨_, ⟨p', hs', hlt, hret⟩ | ⟨_, hret⟩⟩ := hok.send_goes_on hsize hs
                · refine Or.inr ⟨?_, pkt, p', hs', ?_⟩
                  · simpa [hret] using hc
                  · rw [List.countP_cons, if_pos ha] at hle
                    omega
                · refine Or.inl ?_
                  simpa [hret, ha] using hc
            | _ => cases ha

end NoDrop

end Sends

/-- **No packet is dropped if the pool is no larger than the ring.**  In every state that any
schedule of the two threads reaches: every `send` that has returned has returned `true`,
`pkts_dropped` is zero, the sender is not inside `pool_.free`, and every `send` called so far
has returned after at most four further steps of its thread. -/
theorem send_never_drops (R P : Capacity) (hsize : P.size ≤ R.size) (handler : Packet → Packet)
    (ringData : Fin R.size → Fin P.size) (poolData : Fin P.size → Fin P.size)
    (storage : Fin P.size → Packet) (as : List (Action P)) (s : Sends R P)
    (hrun : Runs.run (Sends.step handler) (Sends.init ringData poolData storage) as = some s) :
    (∀ b ∈ s.returned, b = true) ∧ s.proc.stats.pktsDropped = 0 ∧
      (∀ pkt p, s.proc.sender ≠ .drop pkt p) ∧
      ∀ (bs : List (Action P)) (s' : Sends R P), Runs.run (Sends.step handler) s bs = some s' →
        4 ≤ bs.countP Action.isSender → s.called ≤ s'.returned.length := by
  have h := (Sends.NoDrop.init ringData poolData storage).run hsize hrun
  refine ⟨h.accepted, h.dropped, h.not_drop, ?_⟩
  intro bs s' hrun' hsteps
  refine Sends.NoDrop.returns hsize bs s h hrun' ?_
  have hcounted := h.counted
  cases hs : s.proc.sender with
  | send pkt p =>
      obtain ⟨q, f, hok⟩ := h.slots
      have hin := hok.sender
      rw [hs] at hin hcounted
      exact Or.inr ⟨hcounted.le, pkt, p, rfl, (Producer.remaining_enqueue_le hin).trans hsteps⟩
  | drop pkt p => exact absurd hs (h.not_drop pkt p)
  | idle =>
      rw [hs] at hcounted
      exact Or.inl hcounted.le
  | alloc c =>
      rw [hs] at hcounted
      exact Or.inl hcounted.le

/-- The second `send` is at its test while the worker has read the first packet and not yet given
up its place in the ring. -/
def sendDuringBurst : List (Action fourSlots) :=
  allocSteps ++ allocSteps ++ (.callSend 0 :: List.replicate 6 .sender) ++
    [.callProcess, .worker, .worker, .worker, .callSend 1, .sender]

theorem send_never_drops_during_burst :
    ∃ s : Sends fourSlots fourSlots,
      Runs.run (Sends.step id) (Sends.init (fun _ => 0) (fun _ => 0) (fun _ => blankPacket))
        sendDuringBurst = some s ∧ s.called = 2 ∧ s.returned = [true] ∧
      s.proc.stats.pktsDropped = 0 ∧
      ∀ (bs : List (Action fourSlots)) (s' : Sends fourSlots fourSlots),
        Runs.run (Sends.step id) s bs = some s' → 4 ≤ bs.countP Action.isSender → 2 ≤ s'.returned.length := by
  obtain ⟨s, hs, hcalled, hreturned⟩ : ∃ s : Sends fourSlots fourSlots,
      Runs.run (Sends.step id) (Sends.init (fun _ => 0) (fun _ => 0) (fun _ => blankPacket))
        sendDuringBurst = some s ∧ s.called = 2 ∧ s.returned = [true] :=
    Runs.exists_run_of_any (by decide +kernel)
  obtain ⟨_, hdropped, _, hreturns⟩ := send_never_drops fourSlots fourSlots (le_refl _) id (fun _ => 0)
    (fun _ => 0) (fun _ => blankPacket) sendDuringBurst s hs
  rw [hcalled] at hreturns
  exact ⟨s, hs, hcalled, hreturned, hdropped, hreturns⟩

end BatchProcessor

end EbpfMonitor
