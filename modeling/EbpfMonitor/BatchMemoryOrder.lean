import EbpfMonitor.BatchProcessor
import EbpfMonitor.SpscCircuit

/-! # `BatchProcessor` and the memory orders of its rings

The two threads of `BatchProcessor.lean` on the memory of `Lib/ReleaseAcquire.lean`: a thread may see
old values of the counters the other thread moves, and what is plain memory in the source, the slots
of the two rings and the packets of the pool, is accessed with race detection.

The slots circulate: the sender takes them from the free list and passes them on in `ring_`, the
worker takes them from `ring_` and passes them back.  With `PoolSize <= RingSize` this is a `Circuit`,
and `batchProcessor_race_free` reads off what that means: no access of a ring slot or a packet is a
data race, although packets are handed over without a lock; `send` never finds the ring full, although
it may see an old `tail_`; and no slot is lost.

The counters of `ProcessorStats` are not in the memory: each is written by one thread. -/

namespace EbpfMonitor

open SpscRing ReleaseAcquire

namespace BatchProcessor

variable {R P : Capacity}

/-! ### The memory -/

inductive Party where
  | sender
  | worker
deriving DecidableEq

/-- The atomic counters of `ring_` and of the pool's free list. -/
inductive Location where
  | ringHead
  | ringTail
  | freeHead
  | freeTail
deriving DecidableEq

/-- The plain memory. -/
inductive Cell (R P : Capacity) where
  | ringSlot (d : Fin R.size)
  | freeSlot (d : Fin P.size)
  | packet (pkt : Fin P.size)
deriving DecidableEq

def Location.owner : Location → Party
  | ringHead => .sender
  | ringTail => .worker
  | freeHead => .worker
  | freeTail => .sender

def ringSite (R P : Capacity) : Site R Party Location (Cell R P) where
  producer := .sender
  consumer := .worker
  head := .ringHead
  tail := .ringTail
  slot := .ringSlot
  head_ne_tail := nofun
  slot_injective _ _ h := Cell.ringSlot.inj h

def freeSite (R P : Capacity) : Site P Party Location (Cell R P) where
  producer := .worker
  consumer := .sender
  head := .freeHead
  tail := .freeTail
  slot := .freeSlot
  head_ne_tail := nofun
  slot_injective _ _ h := Cell.freeSlot.inj h

/-- The free list as `pool_.free` uses it in `send`: the sender is its producer too. -/
def dropSite (R P : Capacity) : Site P Party Location (Cell R P) :=
  { freeSite R P with producer := .sender }

/-! ### The threads -/

/-- `BatchProcessor<RingSize, PoolSize>` with its two threads on the weak memory. -/
structure WeakProcessor (R P : Capacity) where
  memory : Memory Party Location SizeT (Cell R P)
  ringData : Fin R.size → Fin P.size
  freeData : Fin P.size → Fin P.size
  totalAllocs : SizeT
  storage : Fin P.size → Packet
  stats : ProcessorStats
  sender : Sender P
  worker : Worker P
  held : List (Fin P.size)

/-- What the scheduler may do next; `k` is the store from which a load reads. -/
inductive WeakAction (P : Capacity) where
  | callAlloc
  | callSend (pkt : Fin P.size)
  | fill (pkt : Fin P.size) (contents : Packet)
  | sender (k : ℕ)
  | callProcess
  | worker (k : ℕ)

namespace WeakProcessor

/-- The constructors run before the threads start. -/
def init (ringData : Fin R.size → Fin P.size) (poolData : Fin P.size → Fin P.size)
    (storage : Fin P.size → Packet) : WeakProcessor R P :=
  let ring : SpscRing (Fin P.size) R := SpscRing.init 0 ringData
  let pool := MemoryPool.construct poolData
  { memory := Memory.init (fun
      | .ringHead => ring.head
      | .ringTail => ring.tail
      | .freeHead => pool.freeRing.head
      | .freeTail => pool.freeRing.tail)
    ringData := ring.data
    freeData := pool.freeRing.data
    totalAllocs := pool.totalAllocs
    storage := storage
    stats := ⟨0, 0, 0, 0⟩
    sender := .idle
    worker := .idle
    held := [] }

/-- One elementary step of the sending thread. -/
def senderStep (s : WeakProcessor R P) (k : ℕ) : Option (WeakProcessor R P) :=
  match s.sender with
  | .idle => some s
  | .alloc c =>
      (c.nextAt (freeSite R P) s.memory s.freeData k).map (fun (m, c', xs) =>
        { s with
          memory := m
          totalAllocs := s.totalAllocs + BitVec.ofNat 64 xs.length
          held := xs ++ s.held
          sender := .afterAlloc c' })
  | .send pkt p =>
      (p.nextAt (ringSite R P) s.memory s.ringData k).map (fun (m, data, p', xs) =>
        let dropped := match p', xs with
          | .idle, [] => s.stats.pktsDropped + 1
          | _, _ => s.stats.pktsDropped
        { s with
          memory := m
          ringData := data
          stats := { s.stats with pktsDropped := dropped }
          sender := .afterSend pkt p' xs })
  | .drop pkt p =>
      (p.nextAt (dropSite R P) s.memory s.freeData k).map (fun (m, data, p', _) =>
        { s with memory := m, freeData := data, sender := .afterDrop pkt p' })

/-- One elementary step of the processing thread. -/
def workerStep (handler : Packet → Packet) (s : WeakProcessor R P) (k : ℕ) :
    Option (WeakProcessor R P) :=
  match s.worker with
  | .idle => some s
  | .burst c =>
      (c.nextAt (ringSite R P) s.memory s.ringData k).map (fun (m, c', xs) =>
        { s with memory := m, worker := .afterBurst c' xs })
  | .handle pkts i =>
      match pkts[i]? with
      | some pkt =>
          let packet := handler (s.storage pkt)
          some { s with
            memory := (s.memory.read .worker (.packet pkt)).write .worker (.packet pkt)
            storage := Function.update s.storage pkt packet
            stats := { s.stats with bytesProcessed := s.stats.bytesProcessed + packet.len.setWidth 64 }
            worker := .handle pkts (i + 1) }
      | none =>
          some { s with
            stats := { s.stats with
              pktsProcessed := s.stats.pktsProcessed + BitVec.ofNat 64 pkts.length
              bursts := s.stats.bursts + 1 }
            worker := .release pkts (.loadHead (releaseCall pkts)) }
  | .release pkts p =>
      (p.nextAt (freeSite R P) s.memory s.freeData k).map (fun (m, data, p', _) =>
        { s with memory := m, freeData := data, worker := .afterRelease pkts p' })

def step (handler : Packet → Packet) (s : WeakProcessor R P) :
    WeakAction P → Option (WeakProcessor R P)
  | .callAlloc =>
      match s.sender with
      | .idle => some { s with sender := .alloc (.loadTail .dequeue) }
      | _ => none
  | .callSend pkt =>
      match s.sender with
      | .idle =>
          if s.held.contains pkt then
            some { s with held := s.held.erase pkt, sender := .send pkt (.loadHead (.enqueue pkt)) }
          else none
      | _ => none
  | .fill pkt contents =>
      match s.sender with
      | .idle =>
          if s.held.contains pkt then
            some { s with
              memory := s.memory.write .sender (.packet pkt)
              storage := Function.update s.storage pkt contents }
          else none
      | _ => none
  | .sender k => s.senderStep k
  | .callProcess =>
      match s.worker with
      | .idle => some { s with worker := .burst (.loadTail (.dequeueBurst burstSize)) }
      | _ => none
  | .worker k => s.workerStep handler k

/-- The plain location that the next step of the thread writes. -/
def writesNext (s : WeakProcessor R P) : Party → Option (Cell R P)
  | .sender =>
      match s.sender with
      | .send _ p => (p.writesNext R).map .ringSlot
      | .drop _ p => (p.writesNext P).map .freeSlot
      | _ => none
  | .worker =>
      match s.worker with
      | .handle pkts i => pkts[i]?.map .packet
      | .release _ p => (p.writesNext P).map .freeSlot
      | _ => none

/-- The plain location that the next step of the thread reads. -/
def readsNext (s : WeakProcessor R P) : Party → Option (Cell R P)
  | .sender =>
      match s.sender with
      | .alloc c => (c.readsNext P).map .freeSlot
      | _ => none
  | .worker =>
      match s.worker with
      | .burst c => (c.readsNext R).map .ringSlot
      | .handle pkts i => pkts[i]?.map .packet
      | _ => none

/-- The packets in `ring_`, by the last values stored to its counters. -/
def inRing (s : WeakProcessor R P) : List (Fin P.size) :=
  (lastRing (ringSite R P) s.memory s.ringData).contents

/-- The slots in the free list. -/
def inPool (s : WeakProcessor R P) : List (Fin P.size) :=
  (lastRing (freeSite R P) s.memory s.freeData).contents

end WeakProcessor

end BatchProcessor

/-! ### The circuit of the slots -/

/-- What the worker does as the producer of the free list. -/
def Worker.onFree {P : Capacity} : Worker P → Producer (Fin P.size)
  | release _ p => p
  | _ => .idle

/-- The sender is not in the drop path. -/
def Sender.Keeps {P : Capacity} : Sender P → Prop
  | send pkt p => p.Inside (.enqueue pkt)
  | drop _ _ => False
  | _ => True

theorem Sender.Keeps.ne_drop {P : Capacity} {s : Sender P} (h : s.Keeps) (pkt : Fin P.size)
    (p : Producer (Fin P.size)) : s ≠ .drop pkt p := by
  rintro rfl
  exact h

theorem Worker.afterBurst_onFree {P : Capacity} (c : Consumer (Fin P.size)) (xs : List (Fin P.size)) :
    (Worker.afterBurst c xs).onFree = .idle := by
  cases c <;> cases xs <;> rfl

theorem Sender.afterAlloc_keeps {P : Capacity} (c : Consumer (Fin P.size)) :
    (Sender.afterAlloc c).Keeps := by
  cases c <;> trivial

namespace BatchProcessor

variable {R P : Capacity}

/-- From the sender to the worker. -/
def ringLane (R P : Capacity) : Lane (Fin P.size) R Party Location (Cell R P) :=
  { ringSite R P with start := 0, base := 0, back := .freeTail, cell := .packet }

/-- From the worker to the sender: at the start all slots are in the free list. -/
def freeLane (R P : Capacity) (start : SizeT) : Lane (Fin P.size) P Party Location (Cell R P) :=
  { freeSite R P with start := start, base := P.size, back := .ringTail, cell := .packet }

theorem circuit (start : SizeT) : Circuit Location.owner (ringLane R P) (freeLane R P start) where
  owned := ⟨rfl, rfl, nofun⟩
  owned_back := ⟨rfl, rfl, nofun⟩
  consumer_eq := rfl
  producer_eq := rfl
  threads i := by cases i <;> simp [ringLane, ringSite]
  back_eq := rfl
  back_back_eq := rfl
  cell_eq := rfl
  cell_injective _ _ h := Cell.packet.inj h
  head_ne := nofun
  tail_ne := nofun
  slot_ne _ _ := nofun
  slot_ne_cell _ _ := nofun
  slot_back_ne_cell _ _ := nofun

namespace WeakProcessor

/-- The traffic of the two rings is what the threads do. -/
structure Matches (s : WeakProcessor R P) (t : Traffic (Fin P.size) R Party)
    (o : Traffic (Fin P.size) P Party) : Prop where
  ringData : t.data = s.ringData
  sends : t.producer = s.sender.onRing
  bursts : t.consumer = s.worker.onRing
  freeData : o.data = s.freeData
  frees : o.producer = s.worker.onFree
  allocs : o.consumer = s.sender.onPool

/-- The slots circulate, the sender's in its hands and calls, the worker's in its call. -/
structure Ok (start : SizeT) (s : WeakProcessor R P) : Prop where
  circuit : ∃ t o, Circuit.Ok Location.owner (ringLane R P) (freeLane R P start)
    (List.finRange P.size) s.memory t o (s.held ++ s.sender.carries) s.worker.carries ∧ s.Matches t o
  sender : s.sender.Keeps
  worker : s.worker.Consistent
  dropped : s.stats.pktsDropped = 0

namespace Ok

variable {start : SizeT} {s : WeakProcessor R P} {k : ℕ}

theorem init (ringData : Fin R.size → Fin P.size) (poolData : Fin P.size → Fin P.size)
    (storage : Fin P.size → Packet) :
    (WeakProcessor.init ringData poolData storage).Ok (MemoryPool.construct poolData).freeRing.tail where
  circuit := by
    have hring : Represents (SpscRing.init 0 ringData) [] := represents_init 0 ringData
    have hfree := MemoryPool.represents_construct poolData
    refine ⟨Traffic.init (SpscRing.init 0 ringData) [],
      Traffic.init (MemoryPool.construct poolData).freeRing (List.finRange P.size),
      ⟨Memory.Coherent.init _, ?_, ?_, ?_⟩, ⟨rfl, rfl, rfl, rfl, rfl, rfl⟩⟩
    · exact Lane.Sound.init (ringLane R P) hring rfl rfl _ rfl rfl _ _
    · exact Lane.Sound.init (freeLane R P _) hfree rfl (List.length_finRange) _ rfl rfl _ _
    · simp [Traffic.transit, Traffic.init, WeakProcessor.init, Sender.carries, Worker.carries]
  sender := trivial
  worker := trivial
  dropped := rfl

/-! ### Steps of the sender -/

theorem callAlloc (h : s.Ok start) (hs : s.sender = .idle) :
    Ok start { s with sender := .alloc (.loadTail .dequeue) } := by
  obtain ⟨⟨t, o, hok, hmatch⟩, -, hwk, hd⟩ := h
  have hpool : o.consumer = .idle := by rw [hmatch.allocs, hs]; rfl
  have hsync := hok.back.synced
  rw [hpool] at hsync
  have hcall := (hok.symm.call (hsync.move_consumer (hsync.inv.start_consumer .dequeue) hsync.avail rfl)).symm
  rw [hs] at hcall
  exact ⟨⟨t, _, hcall, ⟨hmatch.ringData, by rw [hmatch.sends, hs]; rfl, hmatch.bursts, hmatch.freeData,
    hmatch.frees, rfl⟩⟩, trivial, hwk, hd⟩

theorem callSend (h : s.Ok start) (hs : s.sender = .idle) {pkt : Fin P.size} (hp : pkt ∈ s.held) :
    Ok start { s with held := s.held.erase pkt, sender := .send pkt (.loadHead (.enqueue pkt)) } := by
  obtain ⟨⟨t, o, hok, hmatch⟩, -, hwk, hd⟩ := h
  have hring : t.producer = .idle := by rw [hmatch.sends, hs]; rfl
  have hsync := hok.forth.synced
  rw [hring] at hsync
  have hcall := hok.call (hsync.move_producer (hsync.inv.start_producer (.enqueue pkt)) hsync.room rfl)
  have hperm : (s.held ++ s.sender.carries).Perm (s.held.erase pkt ++ [pkt]) := by
    rw [hs]
    simpa [Sender.carries] using (List.perm_cons_erase hp).trans (List.perm_append_singleton _ _).symm
  exact ⟨⟨_, o, hcall.perm hperm, ⟨hmatch.ringData, rfl, hmatch.bursts, hmatch.freeData, hmatch.frees,
    by rw [hmatch.allocs, hs]; rfl⟩⟩, rfl, hwk, hd⟩

theorem fill (h : s.Ok start) {pkt : Fin P.size} (hp : pkt ∈ s.held) (contents : Packet) :
    Ok start { s with
      memory := s.memory.write .sender (.packet pkt)
      storage := Function.update s.storage pkt contents } := by
  obtain ⟨⟨t, o, hok, hmatch⟩, hse, hwk, hd⟩ := h
  refine ⟨⟨t, o, ?_, ⟨hmatch.ringData, hmatch.sends, hmatch.bursts, hmatch.freeData, hmatch.frees,
    hmatch.allocs⟩⟩, hse, hwk, hd⟩
  exact hok.access (BatchProcessor.circuit start) (List.nodup_finRange _) (List.mem_append_left _ hp)
    (hok.coherent.write _ _) (Memory.Acts.write _ _ _)

theorem sender_alloc (h : s.Ok start) {c c' : Consumer (Fin P.size)} (hs : s.sender = .alloc c)
    {m' : Memory Party Location SizeT (Cell R P)} {xs : List (Fin P.size)} (total : SizeT)
    (hstep : c.nextAt (freeSite R P) s.memory s.freeData k = some (m', c', xs)) :
    Ok start { s with
      memory := m', totalAllocs := total, held := xs ++ s.held, sender := .afterAlloc c' } := by
  obtain ⟨⟨t, o, hok, hmatch⟩, -, hwk, hd⟩ := h
  have hpool : o.consumer = c := by rw [hmatch.allocs, hs]; rfl
  rw [← hpool, ← hmatch.freeData] at hstep
  have hperm : (xs ++ s.held ++ (Sender.afterAlloc c').carries).Perm
      (xs ++ (s.held ++ s.sender.carries)) := by
    rw [Sender.afterAlloc_carries, hs]
    simp [Sender.carries]
  obtain ⟨tpos', hok'⟩ := hok.symm.next_consumer (BatchProcessor.circuit start).symm hstep hperm
  exact ⟨⟨t, _, hok'.symm, ⟨hmatch.ringData, by rw [hmatch.sends, hs, Sender.afterAlloc_onRing]; rfl,
    hmatch.bursts, hmatch.freeData, hmatch.frees, (Sender.afterAlloc_onPool _).symm⟩⟩,
    Sender.afterAlloc_keeps _, hwk, hd⟩

/-- **A step of `send` never finds the ring full.** -/
theorem sender_send (h : s.Ok start) (hsize : P.size ≤ R.size) {pkt : Fin P.size}
    {p p' : Producer (Fin P.size)} (hs : s.sender = .send pkt p)
    {m' : Memory Party Location SizeT (Cell R P)} {data' : Fin R.size → Fin P.size}
    {xs : List (Fin P.size)}
    (hstep : p.nextAt (ringSite R P) s.memory s.ringData k = some (m', data', p', xs)) :
    s.senderStep k = some { s with
      memory := m', ringData := data', sender := .afterSend pkt p' xs } ∧
    Ok start { s with memory := m', ringData := data', sender := .afterSend pkt p' xs } := by
  obtain ⟨⟨t, o, hok, hmatch⟩, hse, hwk, hd⟩ := h
  have hring : t.producer = p := by rw [hmatch.sends, hs]; rfl
  have hpool : o.consumer = .idle := by rw [hmatch.allocs, hs]; rfl
  have hin : p.Inside (.enqueue pkt) := by simpa [hs, Sender.Keeps] using hse
  have hstep' := hstep
  rw [← hring, ← hmatch.ringData] at hstep'
  have hfit : t.items.length + (EnqCall.enqueue pkt).count ≤
      t.tpos (s.memory.seen .sender .ringTail) + R.size := by
    have hroom := hok.room (BatchProcessor.circuit start)
    rw [hs] at hroom
    simp only [Sender.carries, List.length_append, List.length_singleton, ringLane, freeLane, ringSite]
      at hroom
    simp only [EnqCall.count]
    omega
  rcases hok.forth.synced.nextAt_of_fits (BatchProcessor.circuit start).owned hok.coherent
    (hring ▸ hin) hfit hstep' with ⟨hin', rfl⟩ | ⟨rfl, rfl⟩
  · obtain ⟨hpos', hok'⟩ := hok.next_producer (BatchProcessor.circuit start) hstep' (List.Perm.refl _)
    rw [Sender.afterSend_inside hin']
    rw [hs] at hok'
    refine ⟨?_, ⟨_, o, hok', ⟨rfl, rfl, hmatch.bursts, hmatch.freeData, hmatch.frees, hpool⟩⟩, hin', hwk, hd⟩
    simp only [senderStep, hs, hstep, Option.map_some, Sender.afterSend_inside hin']
    cases p' with
    | idle => exact absurd hin' id
    | _ => rfl
  · have hperm : (s.held ++ s.sender.carries).Perm ([pkt] ++ s.held) := by
      rw [hs]
      exact List.perm_append_comm
    obtain ⟨hpos', hok'⟩ := hok.next_producer (BatchProcessor.circuit start) hstep' hperm
    rw [← List.append_nil s.held] at hok'
    refine ⟨?_, ⟨_, o, hok', ⟨rfl, rfl, hmatch.bursts, hmatch.freeData, hmatch.frees, hpool⟩⟩, trivial, hwk,
      hd⟩
    simp only [senderStep, hs, hstep, Option.map_some]
    rfl

theorem senderStep (h : s.Ok start) (hsize : P.size ≤ R.size) {s' : WeakProcessor R P}
    (hstep : s.senderStep k = some s') : s'.Ok start := by
  cases hs : s.sender with
  | idle =>
      obtain rfl := by simpa [WeakProcessor.senderStep, hs] using hstep
      exact h
  | alloc c =>
      simp only [WeakProcessor.senderStep, hs] at hstep
      obtain ⟨⟨m', c', xs⟩, hnext, rfl⟩ := Option.map_eq_some_iff.mp hstep
      exact h.sender_alloc hs _ hnext
  | send pkt p =>
      have hsend := hstep
      simp only [WeakProcessor.senderStep, hs] at hsend
      obtain ⟨⟨m', data', p', xs⟩, hnext, -⟩ := Option.map_eq_some_iff.mp hsend
      obtain ⟨heq, hok⟩ := h.sender_send hsize hs hnext
      obtain rfl := Option.some.inj (heq.symm.trans hstep)
      exact hok
  | drop pkt p => exact absurd hs (h.sender.ne_drop pkt p)

/-! ### Steps of the worker -/

theorem callProcess (h : s.Ok start) (hs : s.worker = .idle) :
    Ok start { s with worker := .burst (.loadTail (.dequeueBurst burstSize)) } := by
  obtain ⟨⟨t, o, hok, hmatch⟩, hse, -, hd⟩ := h
  have hring : t.consumer = .idle := by rw [hmatch.bursts, hs]; rfl
  have hsync := hok.forth.synced
  rw [hring] at hsync
  have hcall := hok.call
    (hsync.move_consumer (hsync.inv.start_consumer (.dequeueBurst burstSize)) hsync.avail rfl)
  rw [hs] at hcall
  exact ⟨⟨_, o, hcall, ⟨hmatch.ringData, hmatch.sends, rfl, hmatch.freeData, by rw [hmatch.frees, hs]; rfl,
    hmatch.allocs⟩⟩, hse, trivial, hd⟩

theorem worker_burst (h : s.Ok start) {c c' : Consumer (Fin P.size)} (hs : s.worker = .burst c)
    {m' : Memory Party Location SizeT (Cell R P)} {xs : List (Fin P.size)}
    (hstep : c.nextAt (ringSite R P) s.memory s.ringData k = some (m', c', xs)) :
    Ok start { s with memory := m', worker := .afterBurst c' xs } := by
  obtain ⟨⟨t, o, hok, hmatch⟩, hse, -, hd⟩ := h
  have hring : t.consumer = c := by rw [hmatch.bursts, hs]; rfl
  have hcarries : (Worker.afterBurst c' xs).carries = xs := by
    rcases Consumer.nextAt_returns hstep with rfl | rfl
    · cases c' <;> rfl
    · cases xs <;> rfl
  rw [← hring, ← hmatch.ringData] at hstep
  have hperm : (Worker.afterBurst c' xs).carries.Perm (xs ++ s.worker.carries) := by
    rw [hcarries, hs]
    simp [Worker.carries]
  obtain ⟨tpos', hok'⟩ := hok.next_consumer (BatchProcessor.circuit start) hstep hperm
  exact ⟨⟨_, o, hok', ⟨hmatch.ringData, hmatch.sends, (Worker.afterBurst_onRing _ _).symm, hmatch.freeData,
    by rw [hmatch.frees, hs, Worker.afterBurst_onFree]; rfl, hmatch.allocs⟩⟩, hse,
    Worker.afterBurst_consistent _ _, hd⟩

/-- The handler reads and writes a packet. -/
theorem worker_handle (h : s.Ok start) {pkts : List (Fin P.size)} {i : ℕ} {pkt : Fin P.size}
    (hs : s.worker = .handle pkts i) (hp : pkts[i]? = some pkt) (storage : Fin P.size → Packet)
    (bytes : BitVec 64) :
    Ok start { s with
      memory := (s.memory.read .worker (.packet pkt)).write .worker (.packet pkt)
      storage := storage
      stats := { s.stats with bytesProcessed := bytes }
      worker := .handle pkts (i + 1) } := by
  obtain ⟨⟨t, o, hok, hmatch⟩, hse, -, hd⟩ := h
  have hmem : pkt ∈ s.worker.carries := by
    rw [hs]
    exact List.mem_of_getElem? hp
  have hcirc := (BatchProcessor.circuit (R := R) (P := P) start).symm
  have hread := hok.symm.access hcirc (List.nodup_finRange _) hmem (hok.coherent.read _ _)
    (Memory.Acts.read _ Party.worker _)
  have hwrite := hread.access hcirc (List.nodup_finRange _) hmem (hread.coherent.write _ _)
    (Memory.Acts.write _ Party.worker _)
  rw [hs] at hwrite
  exact ⟨⟨t, o, hwrite.symm, ⟨hmatch.ringData, hmatch.sends, by rw [hmatch.bursts, hs]; rfl,
    hmatch.freeData, by rw [hmatch.frees, hs]; rfl, hmatch.allocs⟩⟩, hse, trivial, hd⟩

theorem worker_handled (h : s.Ok start) {pkts : List (Fin P.size)} {i : ℕ}
    (hs : s.worker = .handle pkts i) (processed bursts : BitVec 64) :
    Ok start { s with
      stats := { s.stats with pktsProcessed := processed, bursts := bursts }
      worker := .release pkts (.loadHead (releaseCall pkts)) } := by
  obtain ⟨⟨t, o, hok, hmatch⟩, hse, -, hd⟩ := h
  have hfree : o.producer = .idle := by rw [hmatch.frees, hs]; rfl
  have hsync := hok.back.synced
  rw [hfree] at hsync
  have hcall := (hok.symm.call
    (hsync.move_producer (hsync.inv.start_producer (releaseCall pkts)) hsync.room rfl)).symm
  rw [hs] at hcall
  exact ⟨⟨t, _, hcall, ⟨hmatch.ringData, hmatch.sends, by rw [hmatch.bursts, hs]; rfl, hmatch.freeData, rfl,
    hmatch.allocs⟩⟩, hse, rfl, hd⟩

/-- **A step of `free_burst`**: all packets fit. -/
theorem worker_release (h : s.Ok start) {pkts : List (Fin P.size)} {p p' : Producer (Fin P.size)}
    (hs : s.worker = .release pkts p) {m' : Memory Party Location SizeT (Cell R P)}
    {data' : Fin P.size → Fin P.size} {xs : List (Fin P.size)}
    (hstep : p.nextAt (freeSite R P) s.memory s.freeData k = some (m', data', p', xs)) :
    Ok start { s with memory := m', freeData := data', worker := .afterRelease pkts p' } := by
  obtain ⟨⟨t, o, hok, hmatch⟩, hse, hwk, hd⟩ := h
  have hcirc := (BatchProcessor.circuit (R := R) (P := P) start).symm
  have hfree : o.producer = p := by rw [hmatch.frees, hs]; rfl
  have hring : t.consumer = .idle := by rw [hmatch.bursts, hs]; rfl
  have hin : p.Inside (releaseCall pkts) := by simpa [hs, Worker.Consistent] using hwk
  rw [← hfree, ← hmatch.freeData] at hstep
  have hlen : pkts.length < 2 ^ 64 := by
    have htotal := hok.conserved.length_eq
    rw [hs] at htotal
    simp only [List.length_append, Worker.carries, List.length_finRange] at htotal
    have hcap := P.size_le
    omega
  have hfit : o.items.length + (releaseCall pkts).count ≤
      o.tpos (s.memory.seen .worker .freeTail) + P.size := by
    have hroom := hok.symm.room hcirc
    rw [hs] at hroom
    simp only [Worker.carries, ringLane, freeLane, freeSite] at hroom
    rw [releaseCall_count hlen]
    omega
  rcases hok.back.synced.nextAt_of_fits hcirc.owned hok.coherent (hfree ▸ hin) hfit hstep with
    ⟨hin', rfl⟩ | ⟨rfl, rfl⟩
  · obtain ⟨hpos', hok'⟩ := hok.symm.next_producer hcirc hstep (List.Perm.refl _)
    rw [Worker.afterRelease_inside hin']
    rw [hs] at hok'
    exact ⟨⟨t, _, hok'.symm, ⟨hmatch.ringData, hmatch.sends, hring, rfl, rfl, hmatch.allocs⟩⟩, hse, hin', hd⟩
  · have hperm : s.worker.carries.Perm ((releaseCall pkts).items ++ []) := by
      rw [hs, releaseCall_items hlen, List.append_nil]
      exact List.Perm.refl _
    obtain ⟨hpos', hok'⟩ := hok.symm.next_producer hcirc hstep hperm
    exact ⟨⟨t, _, hok'.symm, ⟨hmatch.ringData, hmatch.sends, hring, rfl, rfl, hmatch.allocs⟩⟩, hse, trivial,
      hd⟩

theorem workerStep (h : s.Ok start) (handler : Packet → Packet) {s' : WeakProcessor R P}
    (hstep : s.workerStep handler k = some s') : s'.Ok start := by
  cases hs : s.worker with
  | idle =>
      obtain rfl := by simpa [WeakProcessor.workerStep, hs] using hstep
      exact h
  | burst c =>
      simp only [WeakProcessor.workerStep, hs] at hstep
      obtain ⟨⟨m', c', xs⟩, hnext, rfl⟩ := Option.map_eq_some_iff.mp hstep
      exact h.worker_burst hs hnext
  | handle pkts i =>
      simp only [WeakProcessor.workerStep, hs] at hstep
      cases hp : pkts[i]? with
      | some pkt =>
          rw [hp] at hstep
          obtain rfl := Option.some.inj hstep
          exact h.worker_handle hs hp _ _
      | none =>
          rw [hp] at hstep
          obtain rfl := Option.some.inj hstep
          exact h.worker_handled hs _ _
  | release pkts p =>
      simp only [WeakProcessor.workerStep, hs] at hstep
      obtain ⟨⟨m', data', p', xs⟩, hnext, rfl⟩ := Option.map_eq_some_iff.mp hstep
      exact h.worker_release hs hnext

theorem step (hsize : P.size ≤ R.size) (handler : Packet → Packet) (s : WeakProcessor R P)
    (a : WeakAction P) (s' : WeakProcessor R P) (h : s.Ok start)
    (hstep : s.step handler a = some s') : s'.Ok start := by
  cases a with
  | sender k => exact h.senderStep hsize hstep
  | worker k => exact h.workerStep handler hstep
  | callAlloc =>
      simp only [WeakProcessor.step] at hstep
      split at hstep
      case h_1 hs =>
        obtain rfl := Option.some.inj hstep
        exact h.callAlloc hs
      case h_2 => cases hstep
  | callSend pkt =>
      simp only [WeakProcessor.step] at hstep
      split at hstep
      case h_1 hs =>
        split_ifs at hstep with hp
        obtain rfl := Option.some.inj hstep
        exact h.callSend hs (List.contains_iff_mem.mp hp)
      case h_2 => cases hstep
  | fill pkt contents =>
      simp only [WeakProcessor.step] at hstep
      split at hstep
      case h_1 =>
        split_ifs at hstep with hp
        obtain rfl := Option.some.inj hstep
        exact h.fill (List.contains_iff_mem.mp hp) contents
      case h_2 => cases hstep
  | callProcess =>
      simp only [WeakProcessor.step] at hstep
      split at hstep
      case h_1 hs =>
        obtain rfl := Option.some.inj hstep
        exact h.callProcess hs
      case h_2 => cases hstep

/-! ### What the invariant gives -/

theorem writable (h : s.Ok start) {i : Party} {d : Cell R P} (hd : s.writesNext i = some d) :
    s.memory.Writable i d := by
  obtain ⟨⟨t, o, hok, hmatch⟩, hse, -, -⟩ := h
  have hcirc : Circuit Location.owner (ringLane R P) (freeLane R P start) := BatchProcessor.circuit start
  cases i with
  | sender =>
      cases hs : s.sender with
      | idle => simp [writesNext, hs] at hd
      | alloc c => simp [writesNext, hs] at hd
      | send pkt p =>
          simp only [writesNext, hs] at hd
          obtain ⟨d', hd', rfl⟩ := Option.map_eq_some_iff.mp hd
          refine hok.forth.synced.writable hcirc.owned hok.coherent ?_
          rw [hmatch.sends, hs]
          exact hd'
      | drop pkt p => exact absurd hs (hse.ne_drop pkt p)
  | worker =>
      cases hs : s.worker with
      | idle => simp [writesNext, hs] at hd
      | burst c => simp [writesNext, hs] at hd
      | handle pkts i =>
          simp only [writesNext, hs] at hd
          obtain ⟨pkt, hpkt, rfl⟩ := Option.map_eq_some_iff.mp hd
          refine hok.symm.writable_cell hcirc.symm ?_
          rw [hs]
          exact List.mem_of_getElem? hpkt
      | release pkts p =>
          simp only [writesNext, hs] at hd
          obtain ⟨d', hd', rfl⟩ := Option.map_eq_some_iff.mp hd
          refine hok.back.synced.writable hcirc.owned_back hok.coherent ?_
          rw [hmatch.frees, hs]
          exact hd'

theorem readable (h : s.Ok start) {i : Party} {d : Cell R P} (hd : s.readsNext i = some d) :
    s.memory.Readable i d := by
  have hwritable : ∀ e, s.writesNext .worker = some e → s.memory.Writable .worker e := fun e => h.writable
  obtain ⟨⟨t, o, hok, hmatch⟩, -, -, -⟩ := h
  cases i with
  | sender =>
      cases hs : s.sender with
      | alloc c =>
          simp only [readsNext, hs] at hd
          obtain ⟨d', hd', rfl⟩ := Option.map_eq_some_iff.mp hd
          refine hok.back.synced.readable hok.coherent ?_
          rw [hmatch.allocs, hs]
          exact hd'
      | _ => simp [readsNext, hs] at hd
  | worker =>
      cases hs : s.worker with
      | burst c =>
          simp only [readsNext, hs] at hd
          obtain ⟨d', hd', rfl⟩ := Option.map_eq_some_iff.mp hd
          refine hok.forth.synced.readable hok.coherent ?_
          rw [hmatch.bursts, hs]
          exact hd'
      | handle pkts i =>
          simp only [readsNext, hs] at hd
          intro j
          exact (hwritable d (by simpa only [writesNext, hs] using hd) j).1
      | _ => simp [readsNext, hs] at hd

/-- With no call in progress every slot is in one of the two rings or in the sender's hands. -/
theorem conserved (h : s.Ok start) (hse : s.sender = .idle) (hwk : s.worker = .idle) :
    (s.inPool ++ s.inRing ++ s.held).Perm (List.finRange P.size) := by
  obtain ⟨⟨t, o, hok, hmatch⟩, -, -, -⟩ := h
  have hcirc : Circuit Location.owner (ringLane R P) (freeLane R P start) := BatchProcessor.circuit start
  have hring : s.inRing = t.transit := by
    rw [inRing, ← hmatch.ringData]
    exact hok.forth.synced.contents_lastRing hcirc.owned hok.coherent
  have hfree : s.inPool = o.transit := by
    rw [inPool, ← hmatch.freeData]
    exact hok.back.synced.contents_lastRing hcirc.owned_back hok.coherent
  have hconserved := hok.conserved
  rw [hse, hwk] at hconserved
  simp only [Sender.carries, Worker.carries, List.append_nil] at hconserved
  rw [hring, hfree, List.append_assoc]
  exact List.perm_append_comm.trans hconserved

end Ok

/-- **A pool no larger than the ring is handed around without a race, a loss or a drop** with the
memory orders of the source.  In every state that any schedule of the two threads reaches, whatever
old values their loads return: the next access of a thread to a slot of a ring or to a packet in the
handler is ordered after all conflicting accesses, and so is any use of a packet that the sender holds;
`send` has dropped nothing and is not in `pool_.free`; and with no call in progress every slot is in
the free list, in `ring_` or in the sender's hands. -/
theorem batchProcessor_race_free (R P : Capacity) (hsize : P.size ≤ R.size)
    (handler : Packet → Packet) (ringData : Fin R.size → Fin P.size)
    (poolData : Fin P.size → Fin P.size) (storage : Fin P.size → Packet)
    (schedule : List (WeakAction P)) (s : WeakProcessor R P)
    (h : Runs.run (step handler) (init ringData poolData storage) schedule = some s) :
    (∀ i d, s.writesNext i = some d → s.memory.Writable i d) ∧
      (∀ i d, s.readsNext i = some d → s.memory.Readable i d) ∧
      (∀ pkt ∈ s.held, s.memory.Writable .sender (.packet pkt)) ∧
      s.stats.pktsDropped = 0 ∧ (∀ pkt p, s.sender ≠ .drop pkt p) ∧
      (s.sender = .idle → s.worker = .idle →
        (s.inPool ++ s.inRing ++ s.held).Perm (List.finRange P.size)) := by
  have hok := Runs.run_invariant (Ok.step hsize handler) (Ok.init ringData poolData storage) h
  refine ⟨fun i d => hok.writable, fun i d => hok.readable, fun pkt hpkt => ?_, hok.dropped,
    hok.sender.ne_drop, hok.conserved⟩
  obtain ⟨t, o, hcirc, -⟩ := hok.circuit
  exact hcirc.writable_cell (BatchProcessor.circuit _) (List.mem_append_left _ hpkt)

def firstSlot : Fin twoSlots.size := ⟨0, twoSlots.size_pos⟩

/-- The sender takes both slots and sends the first; the worker's first burst reads an old `head_` and
finds nothing, its second handles the packet and frees it; the sender's next `alloc_packet` reads an
old `head_` of the free list and fails, the one after it gets the first slot again. -/
def roundTrip : List (WeakAction twoSlots) :=
  [.callAlloc, .sender 0, .sender 0, .sender 0, .sender 0, .callAlloc, .sender 1, .sender 0, .sender 0,
    .sender 0, .fill firstSlot blankPacket, .callSend firstSlot, .sender 0, .sender 0, .sender 0, .sender 0,
    .callProcess, .worker 0, .worker 0, .worker 0, .callProcess, .worker 1, .worker 1, .worker 0, .worker 0,
    .worker 0, .worker 0, .worker 0, .worker 2, .worker 0, .worker 0, .callAlloc, .sender 2, .sender 0,
    .callAlloc, .sender 2, .sender 1, .sender 0, .sender 0]

theorem batchProcessor_race_free_roundTrip :
    ∃ s : WeakProcessor twoSlots twoSlots,
      Runs.run (step id) (init (fun _ => firstSlot) (fun _ => firstSlot) (fun _ => blankPacket)) roundTrip =
        some s ∧
      s.stats.pktsProcessed = 1 ∧ s.memory.writes (.packet firstSlot) .worker = 3 ∧
      s.memory.Writable .sender (.packet firstSlot) ∧
      (s.inPool ++ s.inRing ++ s.held).Perm (List.finRange twoSlots.size) := by
  obtain ⟨s, hs, hp, hw, hheld, hse, hwk⟩ : ∃ s : WeakProcessor twoSlots twoSlots,
      Runs.run (step id) (init (fun _ => firstSlot) (fun _ => firstSlot) (fun _ => blankPacket)) roundTrip =
        some s ∧
      s.stats.pktsProcessed = 1 ∧ s.memory.writes (.packet firstSlot) .worker = 3 ∧ firstSlot ∈ s.held ∧
      s.sender = .idle ∧ s.worker = .idle := Runs.exists_run_of_any (by decide +kernel)
  obtain ⟨-, -, hwritable, -, -, hconserved⟩ :=
    batchProcessor_race_free twoSlots twoSlots (le_refl _) id _ _ _ roundTrip s hs
  exact ⟨s, hs, hp, hw, hwritable _ hheld, hconserved hse hwk⟩

end WeakProcessor

end BatchProcessor

end EbpfMonitor
