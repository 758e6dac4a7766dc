import EbpfMonitor.SpscInterleaving
import EbpfMonitor.MemoryPool

/-! # `BatchProcessor` with a sending and a processing thread

The embedding of `src/dpdk_sim/packet_processor.h` at the grain of `SpscInterleaving.lean`:
one thread runs `alloc_packet` and `send`, the other `process_burst`, and every access to
the counters and slots of the two rings is a step of its own.

* **Rings.** `ring_` carries packets from the sender to the worker.  The free list of the
  pool carries slots the other way: the sender dequeues from it in `alloc_packet`, the worker
  enqueues to it in `free_burst`.
* **The drop path.** When `ring_` is full, `send` returns the packet with `pool_.free`, an
  *enqueue* on the free list by the thread that is its consumer.  The free list then has two
  producers, and `spsc_ring.h` allows one.

`Racing` names the steps at which the two enqueues of the free list come to overlap.
`slots_conserved` shows that without such a step every slot is, at every quiescent moment, in
exactly one of the free list, the packet ring and the sender's hands; `slot_lost_in_race` is
a schedule with such a step after which a slot is gone for good.

The invariant `Ok` uses `Inv` twice, once for each ring: the view of a ring is its memory with
the part of each thread's program counter that works on it. -/

namespace EbpfMonitor

open SpscRing

/-! ### Data -/

/-- `Packet`. -/
structure Packet where
  srcIp : BitVec 32
  dstIp : BitVec 32
  srcPort : BitVec 16
  dstPort : BitVec 16
  proto : BitVec 8
  len : BitVec 32
  timestampNs : BitVec 64
  data : Fin 64 → BitVec 8

/-- `BURST_SIZE`. -/
def burstSize : SizeT := 32

/-- `ProcessorStats`. -/
structure ProcessorStats where
  pktsProcessed : BitVec 64
  pktsDropped : BitVec 64
  bytesProcessed : BitVec 64
  bursts : BitVec 64

/-! ### A ring with two enqueuing threads -/

/-- A producer as the other users of the ring see it: before its load of `head_` it has
not touched the ring. -/
def SpscRing.Producer.engaged {T : Type} : Producer T → Producer T
  | .loadHead _ => .idle
  | p => p

instance {T : Type} : (p : Producer T) → Decidable (p = .idle)
  | .idle => isTrue rfl
  | .loadHead _ => isFalse nofun
  | .loadTail _ _ => isFalse nofun
  | .write _ _ _ _ => isFalse nofun

theorem SpscRing.Inv.engaged {T : Type} {cap : Capacity} {r : SpscRing T cap} {p : Producer T}
    {c : Consumer T} {q : List T} (h : Inv r p c q) : Inv r p.engaged c q := by
  cases p with
  | loadHead call => exact ⟨h.room, h.head_eq, h.cells, trivial, h.consumer⟩
  | _ => exact h

theorem SpscRing.Inv.of_engaged {T : Type} {cap : Capacity} {r : SpscRing T cap} {p : Producer T}
    {c : Consumer T} {q : List T} (h : Inv r p.engaged c q) : Inv r p c q := by
  cases p with
  | loadHead call => exact h.start_producer call
  | _ => exact h

/-- Of two threads that enqueue on the ring at most one is in the middle of it. -/
def SpscRing.OneProducer {T : Type} {cap : Capacity} (r : SpscRing T cap) (p p' : Producer T)
    (c : Consumer T) (q : List T) : Prop :=
  (p' = .idle ∧ Inv r p c q) ∨ (p = .idle ∧ Inv r p' c q)

namespace SpscRing.OneProducer

variable {T : Type} {cap : Capacity} {r : SpscRing T cap} {p p' : Producer T} {c : Consumer T}
  {q : List T}

theorem symm (h : OneProducer r p p' c q) : OneProducer r p' p c q := Or.symm h

theorem inv_of_idle (h : OneProducer r p p' c q) (hp' : p' = .idle) : Inv r p c q := by
  rcases h with ⟨_, hi⟩ | ⟨hp, hi⟩
  · exact hi
  · rw [hp, ← hp']
    exact hi

/-- A thread inside its enqueue is the only one in the middle, if it does not load `head_` while
the other is. -/
theorem inv_of_inside (h : OneProducer r p.engaged p' c q) {call : EnqCall T} (hp : p.Inside call)
    (henter : ∀ call', p = .loadHead call' → p' = .idle) : p' = .idle ∧ Inv r p c q := by
  have hp' : p' = .idle := by
    rcases h with ⟨hp', _⟩ | ⟨hidle, _⟩
    · exact hp'
    · cases p with
      | loadHead call' => exact henter call' rfl
      | idle => exact absurd hp id
      | _ => cases hidle
  exact ⟨hp', (h.inv_of_idle hp').of_engaged⟩

end SpscRing.OneProducer

/-! ### The two threads -/

/-- Program counter of the sending thread. -/
inductive Sender (P : Capacity) where
  | idle
  /-- inside `pool_.alloc()`, a dequeue on the free list -/
  | alloc (c : Consumer (Fin P.size))
  /-- inside `ring_.enqueue(pkt)` -/
  | send (pkt : Fin P.size) (p : Producer (Fin P.size))
  /-- inside `pool_.free(pkt)`, an enqueue on the free list -/
  | drop (pkt : Fin P.size) (p : Producer (Fin P.size))

/-- Program counter of the processing thread. -/
inductive Worker (P : Capacity) where
  | idle
  /-- inside `ring_.dequeue_burst` -/
  | burst (c : Consumer (Fin P.size))
  /-- in the handler loop, at index `i` -/
  | handle (pkts : List (Fin P.size)) (i : ℕ)
  /-- inside `pool_.free_burst`, an enqueue on the free list -/
  | release (pkts : List (Fin P.size)) (p : Producer (Fin P.size))

/-- The call `pool_.free_burst(burst.data(), n)`. -/
def releaseCall {P : Capacity} (pkts : List (Fin P.size)) : EnqCall (Fin P.size) :=
  .enqueueBurst (fun i => pkts.getD i 0) (BitVec.ofNat 64 pkts.length)

namespace Sender

variable {P : Capacity}

instance : (s : Sender P) → Decidable (s = idle)
  | idle => isTrue rfl
  | alloc _ => isFalse nofun
  | send _ _ => isFalse nofun
  | drop _ _ => isFalse nofun

/-- The program counter after a step inside `pool_.alloc()`. -/
def afterAlloc : Consumer (Fin P.size) → Sender P
  | .idle => idle
  | c => alloc c

/-- The program counter after a step inside `ring_.enqueue(pkt)`; the call that returns
without having accepted the packet leads to `pool_.free(pkt)`. -/
def afterSend (pkt : Fin P.size) : Producer (Fin P.size) → List (Fin P.size) → Sender P
  | .idle, [] => drop pkt (.loadHead (.enqueue pkt))
  | .idle, _ => idle
  | p, _ => send pkt p

/-- The program counter after a step inside `pool_.free(pkt)`. -/
def afterDrop (pkt : Fin P.size) : Producer (Fin P.size) → Sender P
  | .idle => idle
  | p => drop pkt p

/-- What the thread does on `ring_`. -/
def onRing : Sender P → Producer (Fin P.size)
  | send _ p => p
  | _ => .idle

/-- What the thread does as the consumer of the free list. -/
def onPool : Sender P → Consumer (Fin P.size)
  | alloc c => c
  | _ => .idle

/-- The enqueue on the free list the thread is in the middle of. -/
def freer : Sender P → Producer (Fin P.size)
  | drop _ p => p.engaged
  | _ => .idle

/-- The next step loads `head_` of the free list for an enqueue. -/
def entersFree : Sender P → Bool
  | drop _ (.loadHead _) => true
  | _ => false

/-- The packet that has left the sender's hands and is in no ring yet. -/
def carries : Sender P → List (Fin P.size)
  | send pkt _ => [pkt]
  | drop pkt _ => [pkt]
  | _ => []

/-- The ring operations in progress are about the packet in hand. -/
def Consistent : Sender P → Prop
  | send pkt p => p.Inside (.enqueue pkt)
  | drop pkt p => p.Inside (.enqueue pkt)
  | _ => True

section after

variable (c : Consumer (Fin P.size))

@[simp] theorem afterAlloc_onRing : (afterAlloc c).onRing = .idle := by cases c <;> rfl
@[simp] theorem afterAlloc_onPool : (afterAlloc c).onPool = c := by cases c <;> rfl
@[simp] theorem afterAlloc_freer : (afterAlloc c).freer = .idle := by cases c <;> rfl
@[simp] theorem afterAlloc_carries : (afterAlloc c).carries = [] := by cases c <;> rfl
theorem afterAlloc_consistent : (afterAlloc c).Consistent := by cases c <;> trivial

theorem afterSend_inside {pkt : Fin P.size} {p : Producer (Fin P.size)} {xs : List (Fin P.size)}
    {call : EnqCall (Fin P.size)} (h : p.Inside call) : afterSend pkt p xs = send pkt p := by
  cases p with
  | idle => exact absurd h id
  | _ => rfl

theorem afterDrop_inside {pkt : Fin P.size} {p : Producer (Fin P.size)}
    {call : EnqCall (Fin P.size)} (h : p.Inside call) : afterDrop pkt p = drop pkt p := by
  cases p with
  | idle => exact absurd h id
  | _ => rfl

end after

end Sender

namespace Worker

variable {P : Capacity}

instance : (w : Worker P) → Decidable (w = idle)
  | idle => isTrue rfl
  | burst _ => isFalse nofun
  | handle _ _ => isFalse nofun
  | release _ _ => isFalse nofun

/-- The program counter after a step inside `ring_.dequeue_burst`; `process_burst` returns
at once when it got nothing. -/
def afterBurst : Consumer (Fin P.size) → List (Fin P.size) → Worker P
  | .idle, [] => idle
  | .idle, pkts => handle pkts 0
  | c, _ => burst c

/-- The program counter after a step inside `pool_.free_burst`. -/
def afterRelease (pkts : List (Fin P.size)) : Producer (Fin P.size) → Worker P
  | .idle => idle
  | p => release pkts p

def onRing : Worker P → Consumer (Fin P.size)
  | burst c => c
  | _ => .idle

/-- The enqueue on the free list the thread is in the middle of. -/
def freer : Worker P → Producer (Fin P.size)
  | release _ p => p.engaged
  | _ => .idle

def entersFree : Worker P → Bool
  | release _ (.loadHead _) => true
  | _ => false

/-- The packets taken out of `ring_` and not yet returned to the pool. -/
def carries : Worker P → List (Fin P.size)
  | handle pkts _ => pkts
  | release pkts _ => pkts
  | _ => []

def Consistent : Worker P → Prop
  | release pkts p => p.Inside (releaseCall pkts)
  | _ => True

section after

variable (c : Consumer (Fin P.size)) (xs : List (Fin P.size))

@[simp] theorem afterBurst_onRing : (afterBurst c xs).onRing = c := by cases c <;> cases xs <;> rfl
@[simp] theorem afterBurst_freer : (afterBurst c xs).freer = .idle := by
  cases c <;> cases xs <;> rfl
theorem afterBurst_consistent : (afterBurst c xs).Consistent := by cases c <;> cases xs <;> trivial

/-- What a step inside `dequeue_burst` returns is what `process_burst` then carries. -/
theorem afterBurst_carries {R : Capacity} (r : SpscRing (Fin P.size) R) :
    (afterBurst (c.next r).2.1 (c.next r).2.2).carries = (c.next r).2.2 := by
  cases c with
  | idle => rfl
  | loadTail call => rfl
  | loadHead call t =>
      simp only [Consumer.next]
      cases call.claim t r.head <;> rfl
  | read t cnt got =>
      simp only [Consumer.next]
      split_ifs
      · rfl
      · cases got <;> rfl

theorem afterRelease_inside {pkts : List (Fin P.size)} {p : Producer (Fin P.size)}
    {call : EnqCall (Fin P.size)} (h : p.Inside call) : afterRelease pkts p = release pkts p := by
  cases p with
  | idle => exact absurd h id
  | _ => rfl

end after

end Worker

/-! ### The system -/

/-- `BatchProcessor<RingSize, PoolSize>` with its two threads and the packets the sender
holds; `storage` is the contents of the pool's blocks. -/
structure BatchProcessor (R P : Capacity) where
  ring : SpscRing (Fin P.size) R
  pool : MemoryPool P
  storage : Fin P.size → Packet
  stats : ProcessorStats
  sender : Sender P
  worker : Worker P
  held : List (Fin P.size)

namespace BatchProcessor

variable {R P : Capacity}

/-- What the scheduler may do next.  `fill` is the sender writing into a packet it holds. -/
inductive Action (P : Capacity) where
  | callAlloc
  | callSend (pkt : Fin P.size)
  | fill (pkt : Fin P.size) (contents : Packet)
  | sender
  | callProcess
  | worker

/-- A fresh processor: all slots in the free list, no call in progress. -/
def init (ringData : Fin R.size → Fin P.size) (poolData : Fin P.size → Fin P.size)
    (storage : Fin P.size → Packet) : BatchProcessor R P :=
  ⟨SpscRing.init 0 ringData, MemoryPool.construct poolData, storage, ⟨0, 0, 0, 0⟩, .idle, .idle, []⟩

/-- One elementary step of the sending thread. -/
def senderStep (s : BatchProcessor R P) : BatchProcessor R P :=
  match s.sender with
  | .idle => s
  | .alloc c =>
      let n := c.next s.pool.freeRing
      { s with
        pool := ⟨n.1, s.pool.totalAllocs + BitVec.ofNat 64 n.2.2.length⟩
        held := n.2.2 ++ s.held
        sender := .afterAlloc n.2.1 }
  | .send pkt p =>
      let n := p.next s.ring
      let dropped := match n.2.1, n.2.2 with
        | .idle, [] => s.stats.pktsDropped + 1
        | _, _ => s.stats.pktsDropped
      { s with
        ring := n.1
        stats := { s.stats with pktsDropped := dropped }
        sender := .afterSend pkt n.2.1 n.2.2 }
  | .drop pkt p =>
      let n := p.next s.pool.freeRing
      { s with pool := { s.pool with freeRing := n.1 }, sender := .afterDrop pkt n.2.1 }

/-- One elementary step of the processing thread. -/
def workerStep (handler : Packet → Packet) (s : BatchProcessor R P) : BatchProcessor R P :=
  match s.worker with
  | .idle => s
  | .burst c =>
      let n := c.next s.ring
      { s with ring := n.1, worker := .afterBurst n.2.1 n.2.2 }
  | .handle pkts i =>
      match pkts[i]? with
      | some pkt =>
          let packet := handler (s.storage pkt)
          { s with
            storage := Function.update s.storage pkt packet
            stats := { s.stats with bytesProcessed := s.stats.bytesProcessed + packet.len.setWidth 64 }
            worker := .handle pkts (i + 1) }
      | none =>
          { s with
            stats := { s.stats with
              pktsProcessed := s.stats.pktsProcessed + BitVec.ofNat 64 pkts.length
              bursts := s.stats.bursts + 1 }
            worker := .release pkts (.loadHead (releaseCall pkts)) }
  | .release pkts p =>
      let n := p.next s.pool.freeRing
      { s with pool := { s.pool with freeRing := n.1 }, worker := .afterRelease pkts n.2.1 }

/-- The interleaving of the two threads.  A call starts in an idle thread, and only a packet
that is held can be filled or sent. -/
def step (handler : Packet → Packet) (s : BatchProcessor R P) : Action P → Option (BatchProcessor R P)
  | .callAlloc =>
      match s.sender with
      | .idle => some { s with sender := .alloc (.loadTail .dequeue) }
      | _ => none
  | .callSend pkt =>
      match s.sender with
      | .idle =>
          if pkt ∈ s.held then
            some { s with held := s.held.erase pkt, sender := .send pkt (.loadHead (.enqueue pkt)) }
          else none
      | _ => none
  | .fill pkt contents =>
      match s.sender with
      | .idle =>
          if pkt ∈ s.held then some { s with storage := Function.update s.storage pkt contents } else none
      | _ => none
  | .sender => some s.senderStep
  | .callProcess =>
      match s.worker with
      | .idle => some { s with worker := .burst (.loadTail (.dequeueBurst burstSize)) }
      | _ => none
  | .worker => some (s.workerStep handler)

/-- No call is in progress. -/
def Quiescent (s : BatchProcessor R P) : Prop := s.sender = .idle ∧ s.worker = .idle

instance (s : BatchProcessor R P) : Decidable s.Quiescent := inferInstanceAs (Decidable (_ ∧ _))

/-- The step makes one thread load `head_` of the free list for an enqueue while the other
thread is in the middle of its own enqueue there. -/
def Racing (s : BatchProcessor R P) : Action P → Prop
  | .sender => s.sender.entersFree = true ∧ s.worker.freer ≠ .idle
  | .worker => s.worker.entersFree = true ∧ s.sender.freer ≠ .idle
  | _ => False

instance (s : BatchProcessor R P) : (a : Action P) → Decidable (s.Racing a)
  | .sender => inferInstanceAs (Decidable (_ ∧ _))
  | .worker => inferInstanceAs (Decidable (_ ∧ _))
  | .callAlloc | .callSend _ | .fill _ _ | .callProcess => isFalse id

/-! ### The invariant -/

/-- Every place a slot can be: the free list `f`, the packet ring `q`, the sender's hands and
the calls in progress. -/
def places (s : BatchProcessor R P) (q f : List (Fin P.size)) : List (Fin P.size) :=
  f ++ q ++ s.held ++ s.sender.carries ++ s.worker.carries

/-- The packet ring holds `q` and the free list `f`, at most one thread is in the middle of
an enqueue on the free list, and every slot is in one place. -/
structure Ok (s : BatchProcessor R P) (q f : List (Fin P.size)) : Prop where
  packets : Inv s.ring s.sender.onRing s.worker.onRing q
  free : OneProducer s.pool.freeRing s.sender.freer s.worker.freer s.sender.onPool f
  sender : s.sender.Consistent
  worker : s.worker.Consistent
  conserved : ∀ x, (s.places q f).count x = 1

theorem perm_finRange_of_count {n : ℕ} {l : List (Fin n)} (h : ∀ x, l.count x = 1) :
    l.Perm (List.finRange n) := by
  rw [List.perm_iff_count]
  intro x
  rw [h x, List.count_eq_one_of_mem (List.nodup_finRange n) (List.mem_finRange x)]

theorem count_erase_add {α : Type} [DecidableEq α] {l : List α} {a : α} (h : a ∈ l) (x : α) :
    (l.erase a).count x + [a].count x = l.count x := by
  rw [(List.perm_cons_erase h).count_eq x, List.count_cons, List.count_cons, List.count_nil,
    Nat.zero_add]

theorem releaseCall_count {pkts : List (Fin P.size)} (h : pkts.length < 2 ^ 64) :
    (releaseCall pkts).count = pkts.length := by
  simp only [releaseCall, EnqCall.count, BitVec.toNat_ofNat]
  exact Nat.mod_eq_of_lt h

theorem releaseCall_items {pkts : List (Fin P.size)} (h : pkts.length < 2 ^ 64) :
    (releaseCall pkts).items = pkts := by
  unfold EnqCall.items
  apply List.ext_getElem
  · simp [releaseCall_count h]
  · intro i h1 h2
    simp [releaseCall, EnqCall.item, h2]

namespace Ok

variable {s : BatchProcessor R P} {q f : List (Fin P.size)}

theorem length_places (h : s.Ok q f) : f.length + q.length + s.held.length +
    s.sender.carries.length + s.worker.carries.length = P.size := by
  have := (perm_finRange_of_count h.conserved).length_eq
  simp only [places, List.length_append, List.length_finRange] at this
  exact this

theorem init (ringData : Fin R.size → Fin P.size) (poolData : Fin P.size → Fin P.size)
    (storage : Fin P.size → Packet) :
    (BatchProcessor.init (R := R) ringData poolData storage).Ok [] (List.finRange P.size) where
  packets := Inv.init 0 ringData
  free := Or.inl ⟨rfl, Inv.of_represents (MemoryPool.represents_construct poolData)⟩
  sender := trivial
  worker := trivial
  conserved := by
    intro x
    simp [places, BatchProcessor.init, Sender.carries, Worker.carries]

/-- The slots of a call in progress fit into the free list. -/
theorem sender_fits (h : s.Ok q f) : f.length + s.sender.carries.length ≤ P.size := by
  have := h.length_places
  omega

theorem worker_fits (h : s.Ok q f) : f.length + s.worker.carries.length ≤ P.size := by
  have := h.length_places
  omega

/-- Inside `pool_.free`, without a race, the sender is the only producer of the free list. -/
theorem free_of_drop (h : s.Ok q f) {pkt : Fin P.size} {p : Producer (Fin P.size)}
    (hs : s.sender = .drop pkt p) (hrace : ¬ s.Racing .sender) :
    s.worker.freer = .idle ∧ Inv s.pool.freeRing p .idle f := by
  have hfree := h.free
  have hse := h.sender
  simp only [hs, Sender.freer, Sender.onPool, Sender.Consistent] at hfree hse
  refine hfree.inv_of_inside hse ?_
  rintro call rfl
  by_contra hne
  exact hrace ⟨by rw [hs]; rfl, hne⟩

/-- Inside `pool_.free_burst`, without a race, the worker is the only producer. -/
theorem free_of_release (h : s.Ok q f) {pkts : List (Fin P.size)} {p : Producer (Fin P.size)}
    (hs : s.worker = .release pkts p) (hrace : ¬ s.Racing .worker) :
    s.sender.freer = .idle ∧ Inv s.pool.freeRing p s.sender.onPool f := by
  have hfree := h.free.symm
  have hwk := h.worker
  simp only [hs, Worker.freer, Worker.Consistent] at hfree hwk
  refine hfree.inv_of_inside hwk ?_
  rintro call rfl
  by_contra hne
  exact hrace ⟨by rw [hs]; rfl, hne⟩

/-! ### Steps of the sender -/

theorem sender_alloc (h : s.Ok q f) {c : Consumer (Fin P.size)} (hs : s.sender = .alloc c) :
    ∃ f', s.senderStep.Ok q f' := by
  have hview := h.free.symm.inv_of_idle (by rw [hs]; rfl)
  obtain ⟨hpk, _, _, hwk, hco⟩ := h
  simp only [places, hs, Sender.onRing, Sender.onPool, Sender.carries] at hpk hview hco
  obtain ⟨rest, rfl, hinv⟩ := hview.next_consumer
  simp only [BatchProcessor.senderStep, hs]
  refine ⟨rest, ?_, Or.inr ⟨Sender.afterAlloc_freer _, ?_⟩, Sender.afterAlloc_consistent _, hwk, ?_⟩
  · rw [Sender.afterAlloc_onRing]
    exact hpk
  · rw [Sender.afterAlloc_onPool]
    exact hinv
  · intro x
    have := hco x
    simp only [places, List.count_append, Sender.afterAlloc_carries] at this ⊢
    omega

theorem sender_send (h : s.Ok q f) {pkt : Fin P.size} {p : Producer (Fin P.size)}
    (hs : s.sender = .send pkt p) : ∃ q', s.senderStep.Ok q' f := by
  have hview := h.free.symm.inv_of_idle (by rw [hs]; rfl)
  obtain ⟨hpk, _, hse, hwk, hco⟩ := h
  simp only [places, hs, Sender.onRing, Sender.onPool, Sender.carries, Sender.Consistent]
    at hpk hview hco hse
  have hnext := hpk.next_producer
  have hcases := Inv.next_enqueue (r := s.ring) hse
  simp only [BatchProcessor.senderStep, hs]
  refine ⟨q ++ (p.next s.ring).2.2, ?_⟩
  rcases hcases with ⟨hin, hd⟩ | ⟨hidle, hd⟩ | ⟨hidle, hd⟩
  · rw [Sender.afterSend_inside hin]
    refine ⟨hnext, Or.inr ⟨rfl, hview⟩, hin, hwk, ?_⟩
    intro x
    have := hco x
    simp only [places, List.count_append, Sender.carries, hd, List.count_nil] at this ⊢
    omega
  · -- `ring_` is full: on to `pool_.free`
    rw [hidle, hd] at hnext ⊢
    refine ⟨hnext, Or.inr ⟨rfl, hview⟩, rfl, hwk, ?_⟩
    intro x
    have := hco x
    simp only [places, List.count_append, Sender.carries, Sender.afterSend, List.count_nil] at this ⊢
    omega
  · rw [hidle, hd] at hnext ⊢
    refine ⟨hnext, Or.inr ⟨rfl, hview⟩, trivial, hwk, ?_⟩
    intro x
    have := hco x
    simp only [places, List.count_append, Sender.carries, Sender.afterSend, List.count_nil] at this ⊢
    omega

theorem sender_drop (h : s.Ok q f) {pkt : Fin P.size} {p : Producer (Fin P.size)}
    (hs : s.sender = .drop pkt p) (hrace : ¬ s.Racing .sender) : ∃ f', s.senderStep.Ok q f' := by
  obtain ⟨hw, hview⟩ := h.free_of_drop hs hrace
  have hfits := h.sender_fits
  obtain ⟨hpk, _, hse, hwk, hco⟩ := h
  simp only [places, hs, Sender.onRing, Sender.carries, Sender.Consistent] at hpk hco hse hfits
  have hnext := hview.next_producer
  simp only [BatchProcessor.senderStep, hs]
  refine ⟨f ++ (p.next s.pool.freeRing).2.2, ?_⟩
  rcases hview.next_of_fits hse hfits with ⟨hin, hd⟩ | ⟨hidle, hd⟩
  · rw [Sender.afterDrop_inside hin]
    refine ⟨hpk, Or.inl ⟨hw, hnext.engaged⟩, hin, hwk, ?_⟩
    intro x
    have := hco x
    simp only [places, List.count_append, Sender.carries, hd, List.count_nil] at this ⊢
    omega
  · rw [hidle, hd] at hnext ⊢
    refine ⟨hpk, Or.inl ⟨hw, hnext⟩, trivial, hwk, ?_⟩
    intro x
    have := hco x
    have hitems : EnqCall.items (.enqueue pkt) = [pkt] := rfl
    simp only [places, List.count_append, Sender.carries, Sender.afterDrop, hitems,
      List.count_nil] at this ⊢
    omega

theorem senderStep (h : s.Ok q f) (hrace : ¬ s.Racing .sender) : ∃ q' f', s.senderStep.Ok q' f' := by
  cases hs : s.sender with
  | idle =>
      refine ⟨q, f, ?_⟩
      simpa only [BatchProcessor.senderStep, hs] using h
  | alloc c => exact ⟨q, h.sender_alloc hs⟩
  | send pkt p =>
      obtain ⟨q', h'⟩ := h.sender_send hs
      exact ⟨q', f, h'⟩
  | drop pkt p => exact ⟨q, h.sender_drop hs hrace⟩

/-! ### Steps of the worker -/

theorem worker_burst (h : s.Ok q f) {c : Consumer (Fin P.size)} (hs : s.worker = .burst c)
    (handler : Packet → Packet) : ∃ q', (s.workerStep handler).Ok q' f := by
  have hview := h.free.inv_of_idle (by rw [hs]; rfl)
  obtain ⟨hpk, _, hse, _, hco⟩ := h
  simp only [places, hs, Worker.onRing, Worker.carries] at hpk hco
  obtain ⟨rest, rfl, hinv⟩ := hpk.next_consumer
  simp only [BatchProcessor.workerStep, hs]
  refine ⟨rest, ?_, Or.inl ⟨Worker.afterBurst_freer _ _, hview⟩, hse,
    Worker.afterBurst_consistent _ _, ?_⟩
  · rw [Worker.afterBurst_onRing]
    exact hinv
  · intro x
    have := hco x
    simp only [places, List.count_append, List.count_nil, Worker.afterBurst_carries] at this ⊢
    omega

theorem worker_handle (h : s.Ok q f) {pkts : List (Fin P.size)} {i : ℕ}
    (hs : s.worker = .handle pkts i) (handler : Packet → Packet) :
    (s.workerStep handler).Ok q f := by
  have hview := h.free.inv_of_idle (by rw [hs]; rfl)
  obtain ⟨hpk, _, hse, _, hco⟩ := h
  simp only [places, hs, Worker.onRing, Worker.carries] at hpk hco
  simp only [BatchProcessor.workerStep, hs]
  cases pkts[i]? with
  | some pkt => exact ⟨hpk, Or.inl ⟨rfl, hview⟩, hse, trivial, hco⟩
  | none => exact ⟨hpk, Or.inl ⟨rfl, hview⟩, hse, rfl, hco⟩

theorem worker_release (h : s.Ok q f) {pkts : List (Fin P.size)} {p : Producer (Fin P.size)}
    (hs : s.worker = .release pkts p) (hrace : ¬ s.Racing .worker) (handler : Packet → Packet) :
    ∃ f', (s.workerStep handler).Ok q f' := by
  obtain ⟨hw, hview⟩ := h.free_of_release hs hrace
  have hfits := h.worker_fits
  obtain ⟨hpk, _, hse, hwk, hco⟩ := h
  simp only [places, hs, Worker.onRing, Worker.carries, Worker.Consistent] at hpk hco hwk hfits
  have hlen : pkts.length < 2 ^ 64 := by
    have := P.size_le
    omega
  have hitems := releaseCall_items hlen
  have hnext := hview.next_producer
  simp only [BatchProcessor.workerStep, hs]
  refine ⟨f ++ (p.next s.pool.freeRing).2.2, ?_⟩
  rcases hview.next_of_fits hwk (by rwa [releaseCall_count hlen]) with ⟨hin, hd⟩ | ⟨hidle, hd⟩
  · rw [Worker.afterRelease_inside hin]
    refine ⟨hpk, Or.inr ⟨hw, hnext.engaged⟩, hse, hin, ?_⟩
    intro x
    have := hco x
    simp only [places, List.count_append, Worker.carries, hd, List.count_nil] at this ⊢
    omega
  · rw [hidle, hd] at hnext ⊢
    refine ⟨hpk, Or.inr ⟨hw, hnext⟩, hse, trivial, ?_⟩
    intro x
    have := hco x
    simp only [places, List.count_append, Worker.carries, Worker.afterRelease, hitems,
      List.count_nil] at this ⊢
    omega

theorem workerStep (h : s.Ok q f) (hrace : ¬ s.Racing .worker) (handler : Packet → Packet) :
    ∃ q' f', (s.workerStep handler).Ok q' f' := by
  cases hs : s.worker with
  | idle =>
      refine ⟨q, f, ?_⟩
      simpa only [BatchProcessor.workerStep, hs] using h
  | burst c =>
      obtain ⟨q', h'⟩ := h.worker_burst hs handler
      exact ⟨q', f, h'⟩
  | handle pkts i => exact ⟨q, f, h.worker_handle hs handler⟩
  | release pkts p => exact ⟨q, h.worker_release hs hrace handler⟩

/-! ### Calls -/

theorem callAlloc (h : s.Ok q f) (hs : s.sender = .idle) :
    Ok { s with sender := .alloc (.loadTail .dequeue) } q f := by
  have hview := h.free.symm.inv_of_idle (by rw [hs]; rfl)
  obtain ⟨hpk, _, _, hwk, hco⟩ := h
  simp only [places, hs, Sender.onRing, Sender.onPool, Sender.carries] at hpk hco hview
  exact ⟨hpk, Or.inr ⟨rfl, hview.start_consumer _⟩, trivial, hwk, hco⟩

theorem callSend (h : s.Ok q f) (hs : s.sender = .idle) {pkt : Fin P.size} (hp : pkt ∈ s.held) :
    Ok { s with held := s.held.erase pkt, sender := .send pkt (.loadHead (.enqueue pkt)) } q f := by
  have hview := h.free.symm.inv_of_idle (by rw [hs]; rfl)
  obtain ⟨hpk, _, _, hwk, hco⟩ := h
  simp only [places, hs, Sender.onRing, Sender.onPool, Sender.carries] at hpk hco hview
  refine ⟨hpk.start_producer _, Or.inr ⟨rfl, hview⟩, rfl, hwk, ?_⟩
  intro x
  have := hco x
  have herase := count_erase_add hp x
  simp only [places, List.count_append, List.count_nil, Sender.carries] at this ⊢
  omega

theorem callProcess (h : s.Ok q f) (hs : s.worker = .idle) :
    Ok { s with worker := .burst (.loadTail (.dequeueBurst burstSize)) } q f := by
  have hview := h.free.inv_of_idle (by rw [hs]; rfl)
  obtain ⟨hpk, _, hse, _, hco⟩ := h
  simp only [places, hs, Worker.onRing, Worker.carries] at hpk hco
  exact ⟨hpk.start_consumer _, Or.inl ⟨rfl, hview⟩, hse, trivial, hco⟩

theorem step (handler : Packet → Packet) (s : BatchProcessor R P) (a : Action P)
    (s' : BatchProcessor R P) (h : ∃ q f, s.Ok q f) (hrace : ¬ s.Racing a)
    (hstep : s.step handler a = some s') : ∃ q f, s'.Ok q f := by
  obtain ⟨q, f, h⟩ := h
  cases a with
  | sender =>
      obtain rfl := Option.some.inj hstep
      exact h.senderStep hrace
  | worker =>
      obtain rfl := Option.some.inj hstep
      exact h.workerStep hrace handler
  | callAlloc =>
      simp only [BatchProcessor.step] at hstep
      split at hstep
      case h_1 hs =>
        obtain rfl := Option.some.inj hstep
        exact ⟨q, f, h.callAlloc hs⟩
      case h_2 => cases hstep
  | callSend pkt =>
      simp only [BatchProcessor.step] at hstep
      split at hstep
      case h_1 hs =>
        split_ifs at hstep with hp
        obtain rfl := Option.some.inj hstep
        exact ⟨q, f, h.callSend hs hp⟩
      case h_2 => cases hstep
  | fill pkt contents =>
      simp only [BatchProcessor.step] at hstep
      split at hstep
      case h_1 =>
        split_ifs at hstep with hp
        obtain rfl := Option.some.inj hstep
        exact ⟨q, f, h.packets, h.free, h.sender, h.worker, h.conserved⟩
      case h_2 => cases hstep
  | callProcess =>
      simp only [BatchProcessor.step] at hstep
      split at hstep
      case h_1 hs =>
        obtain rfl := Option.some.inj hstep
        exact ⟨q, f, h.callProcess hs⟩
      case h_2 => cases hstep

/-- With no call in progress every slot is in one of the two rings or in the sender's hands. -/
theorem quiescent (h : s.Ok q f) (hq : s.Quiescent) :
    (s.pool.freeRing.contents ++ s.ring.contents ++ s.held).Perm (List.finRange P.size) := by
  have hfree := (h.free.symm.inv_of_idle (by rw [hq.1]; rfl)).represents.contents_eq
  have hperm := perm_finRange_of_count h.conserved
  simp only [places, hq.1, hq.2, Sender.carries, Worker.carries, List.append_nil] at hperm
  rw [hfree, h.packets.represents.contents_eq]
  exact hperm

end Ok

/-! ### Conservation of slots -/

/-- **Slots are conserved** in every run in which the two enqueues of the free list never
overlap. -/
theorem slots_conserved (R P : Capacity) (handler : Packet → Packet)
    (ringData : Fin R.size → Fin P.size) (poolData : Fin P.size → Fin P.size)
    (storage : Fin P.size → Packet) (as : List (Action P)) (s : BatchProcessor R P)
    (hrace : Runs.Meets (BatchProcessor.step handler) (fun t a => ¬ t.Racing a)
      (BatchProcessor.init ringData poolData storage) as)
    (hrun : Runs.run (BatchProcessor.step handler) (BatchProcessor.init ringData poolData storage) as
      = some s)
    (hq : s.Quiescent) :
    (s.pool.freeRing.contents ++ s.ring.contents ++ s.held).Perm (List.finRange P.size) := by
  obtain ⟨q, f, hok⟩ := Runs.run_invariant_of_meets (Ok.step handler) as _ s
    ⟨_, _, Ok.init ringData poolData storage⟩ hrace hrun
  exact hok.quiescent hq

/-! ### A run with and a run without the race

One slot in `ring_` and four in the pool. -/

abbrev oneSlot : Capacity := Capacity.ofPow 0 (by norm_num)

abbrev fourSlots : Capacity := Capacity.ofPow 2 (by norm_num)

def blankPacket : Packet := ⟨0, 0, 0, 0, 0, 64, 0, fun _ => 0⟩

def fresh : BatchProcessor oneSlot fourSlots := init (fun _ => 0) (fun _ => 0) (fun _ => blankPacket)

/-- `alloc_packet` without interruption. -/
def allocSteps : List (Action fourSlots) := .callAlloc :: List.replicate 4 .sender

/-- `send(pkt)` without interruption, up to the return of `ring_.enqueue` when that succeeds
and up to the end of `pool_.free` when it does not. -/
def sendSteps (pkt : Fin 4) : List (Action fourSlots) := .callSend pkt :: List.replicate 6 .sender

/-- Slot 0 is sent and processed up to `free_burst`, slot 1 fills the ring again. -/
def untilRelease : List (Action fourSlots) :=
  allocSteps ++ allocSteps ++ allocSteps ++ sendSteps 0 ++ (.callProcess :: List.replicate 6 .worker) ++
    sendSteps 1

/-- `free_burst` of slot 0 has loaded `head_` when the drop of slot 2 loads it too. -/
def raceSchedule : List (Action fourSlots) :=
  untilRelease ++ [.worker] ++ sendSteps 2 ++ List.replicate 3 .worker

/-- The drop of slot 2 ends before `free_burst` of slot 0 loads `head_`. -/
def orderedSchedule : List (Action fourSlots) :=
  untilRelease ++ sendSteps 2 ++ List.replicate 4 .worker

theorem slots_conserved_ordered :
    ∃ s : BatchProcessor oneSlot fourSlots,
      Runs.Meets (BatchProcessor.step id) (fun t a => ¬ t.Racing a) fresh orderedSchedule ∧
      Runs.run (BatchProcessor.step id) fresh orderedSchedule = some s ∧ s.Quiescent ∧
      s.stats.pktsDropped = 1 ∧ s.stats.pktsProcessed = 1 ∧
      (s.pool.freeRing.contents ++ s.ring.contents ++ s.held).Perm (List.finRange fourSlots.size) := by
  have hrace : Runs.Meets (BatchProcessor.step id) (fun t a => ¬ t.Racing a) fresh orderedSchedule := by
    decide +kernel
  obtain ⟨s, hs, hq, hd, hp⟩ : ∃ s : BatchProcessor oneSlot fourSlots,
      Runs.run (BatchProcessor.step id) fresh orderedSchedule = some s ∧ s.Quiescent ∧
      s.stats.pktsDropped = 1 ∧ s.stats.pktsProcessed = 1 :=
    Runs.exists_run_of_any (by decide +kernel)
  exact ⟨s, hrace, hs, hq, hd, hp,
    slots_conserved oneSlot fourSlots id (fun _ => 0) (fun _ => 0) (fun _ => blankPacket)
      orderedSchedule s hrace hs hq⟩

/-- **A lost slot**: after the race no call is in progress and only three of the four slots are
left. -/
theorem slot_lost_in_race :
    ∃ s : BatchProcessor oneSlot fourSlots,
      Runs.run (BatchProcessor.step id) fresh raceSchedule = some s ∧ s.Quiescent ∧
      s.pool.freeRing.contents = [3, 0] ∧ s.ring.contents = [1] ∧ s.held = [] ∧
      ¬ (s.pool.freeRing.contents ++ s.ring.contents ++ s.held).Perm (List.finRange fourSlots.size) :=
  Runs.exists_run_of_any (by decide +kernel)

end BatchProcessor

end EbpfMonitor
