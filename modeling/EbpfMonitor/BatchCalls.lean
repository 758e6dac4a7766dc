import EbpfMonitor.BatchProcessor

/-! # `BatchProcessor`, one call at a time

The calls `alloc_packet`, `send` and `process_burst` of `src/dpdk_sim/packet_processor.h` as
whole operations, for a caller that makes them one after the other.

* **Handler.**  `handler_` may keep state of its own and rewrite the packet it is given: it is
  a function of all the calls made to it before, the packet's address and its contents.
* **Histories.**  `Session` is a processor with the record of what happened: every `send` with
  the contents of the packet and the result, every call of the handler with the packet before
  and after it, and every result of `process_burst`.  Between its calls the caller may write
  into packets it holds.

`Session.Sound` collects what the statistics, the two rings and the record have to say about
each other, and `batchProcessor_accounts` proves it for every history.

`run_allocPacket`, `run_send` and `run_processBurst` connect the whole calls with the elementary
steps of `BatchProcessor.lean`: they are what the threads do when nobody interrupts them. -/

namespace EbpfMonitor

open SpscRing

/-! ### The handler loop -/

/-- One call of the handler: the packet's address, and its contents before and after. -/
structure Invocation (P : Capacity) where
  pkt : Fin P.size
  before : Packet
  after : Packet

/-- `PacketHandler`; the first argument are the earlier calls, oldest first. -/
abbrev Handler (P : Capacity) := List (Invocation P) → Fin P.size → Packet → Packet

/-- What the loop of `process_burst` changes. -/
structure HandlerLoop (P : Capacity) where
  log : List (Invocation P)
  storage : Fin P.size → Packet
  bytes : BitVec 64

namespace HandlerLoop

variable {P : Capacity}

/-- One round: call the handler, then add the packet's length. -/
def round (handler : Handler P) (l : HandlerLoop P) (pkt : Fin P.size) : HandlerLoop P :=
  let packet := handler l.log pkt (l.storage pkt)
  { log := l.log ++ [⟨pkt, l.storage pkt, packet⟩]
    storage := Function.update l.storage pkt packet
    bytes := l.bytes + packet.len.setWidth 64 }

def run (handler : Handler P) (l : HandlerLoop P) (pkts : List (Fin P.size)) : HandlerLoop P :=
  pkts.foldl (round handler) l

/-- The sum of the lengths of the packets as the handler left them. -/
def bytesAfter (log : List (Invocation P)) : ℕ := (log.map (fun i => i.after.len.toNat)).sum

/-- The record is one of calls of this handler. -/
def Called (handler : Handler P) (log : List (Invocation P)) : Prop :=
  ∀ pre i post, log = pre ++ i :: post → i.after = handler pre i.pkt i.before

theorem called_concat {handler : Handler P} {log : List (Invocation P)} (h : Called handler log)
    (pkt : Fin P.size) (packet : Packet) :
    Called handler (log ++ [⟨pkt, packet, handler log pkt packet⟩]) := by
  intro pre i post hsplit
  rcases List.eq_nil_or_concat post with rfl | ⟨post, last, rfl⟩
  · obtain ⟨rfl, hi⟩ := List.append_inj' hsplit rfl
    obtain rfl := List.singleton_inj.mp hi
    rfl
  · rw [List.concat_eq_append, ← List.cons_append, ← List.append_assoc] at hsplit
    exact h pre i post (List.append_inj' hsplit rfl).1

theorem bytesAfter_append (xs ys : List (Invocation P)) :
    bytesAfter (xs ++ ys) = bytesAfter xs + bytesAfter ys := by
  simp [bytesAfter]

/-- **The loop** calls the handler once for each packet, in order. -/
theorem run_spec (handler : Handler P) (pkts : List (Fin P.size)) (l : HandlerLoop P)
    (hnodup : pkts.Nodup) (hcalled : Called handler l.log) :
    ∃ calls, (run handler l pkts).log = l.log ++ calls ∧
      calls.map (fun i => (i.pkt, i.before)) = pkts.map (fun p => (p, l.storage p)) ∧
      (∀ p ∉ pkts, (run handler l pkts).storage p = l.storage p) ∧
      (run handler l pkts).bytes = l.bytes + BitVec.ofNat 64 (bytesAfter calls) ∧
      Called handler (run handler l pkts).log := by
  induction pkts generalizing l with
  | nil => exact ⟨[], by simp [run], rfl, fun _ _ => rfl, by simp [run, bytesAfter], hcalled⟩
  | cons pkt pkts ih =>
      obtain ⟨hpkt, hrest⟩ := List.nodup_cons.mp hnodup
      obtain ⟨calls, hlog, hcalls, hstorage, hbytes, hcalled'⟩ :=
        ih (round handler l pkt) hrest (called_concat hcalled pkt (l.storage pkt))
      refine ⟨⟨pkt, l.storage pkt, handler l.log pkt (l.storage pkt)⟩ :: calls, ?_, ?_, ?_, ?_, hcalled'⟩
      · show (run handler (round handler l pkt) pkts).log = _
        rw [hlog]
        simp [round]
      · rw [List.map_cons, hcalls, List.map_cons]
        congr 1
        apply List.map_congr_left
        intro p hp
        have hne : p ≠ pkt := fun he => hpkt (he ▸ hp)
        simp [round, Function.update_of_ne hne]
      · intro p hp
        obtain ⟨hne, hp'⟩ := not_or.mp (fun h => hp (List.mem_cons.mpr h))
        show (run handler (round handler l pkt) pkts).storage p = _
        rw [hstorage p hp']
        exact Function.update_of_ne hne _ _
      · show (run handler (round handler l pkt) pkts).bytes = _
        rw [hbytes, show bytesAfter (⟨pkt, l.storage pkt, handler l.log pkt (l.storage pkt)⟩ :: calls) =
          (handler l.log pkt (l.storage pkt)).len.toNat + bytesAfter calls by simp [bytesAfter],
          BitVec.ofNat_add, BitVec.ofNat_toNat, ← BitVec.add_assoc]
        rfl

end HandlerLoop

namespace BatchProcessor

variable {R P : Capacity}

/-! ### Whole calls -/

def allocPacket (s : BatchProcessor R P) : Option (Fin P.size) × BatchProcessor R P :=
  let r := s.pool.alloc
  (r.1, { s with pool := r.2, held := r.1.toList ++ s.held })

/-- `send(pkt)`; the caller gives the packet up whatever the result. -/
def send (s : BatchProcessor R P) (pkt : Fin P.size) : Bool × BatchProcessor R P :=
  match s.ring.enqueue pkt with
  | (false, ring) =>
      (false,
        { s with
          ring := ring
          stats := { s.stats with pktsDropped := s.stats.pktsDropped + 1 }
          pool := s.pool.free pkt
          held := s.held.erase pkt })
  | (true, ring) => (true, { s with ring := ring, held := s.held.erase pkt })

/-- The part of `process_burst` after `dequeue_burst`, for the `n` packets `pkts`: the calls of the
handler so far, and the processor. -/
def handleBurst (handler : Handler P) (log : List (Invocation P)) (s : BatchProcessor R P)
    (pkts : List (Fin P.size)) (n : SizeT) : List (Invocation P) × BatchProcessor R P :=
  let loop := HandlerLoop.run handler ⟨log, s.storage, s.stats.bytesProcessed⟩ pkts
  (loop.log,
    { s with
      storage := loop.storage
      stats := { s.stats with
        bytesProcessed := loop.bytes
        pktsProcessed := s.stats.pktsProcessed + n
        bursts := s.stats.bursts + 1 }
      pool := s.pool.freeBurst (fun i => pkts.getD i 0) n })

/-- `process_burst()`: the result, the calls of the handler so far, and the processor. -/
def processBurst (handler : Handler P) (log : List (Invocation P)) (s : BatchProcessor R P) :
    SizeT × List (Invocation P) × BatchProcessor R P :=
  let burst := s.ring.dequeueBurst burstSize
  let n := burst.1.1
  let s := { s with ring := burst.2 }
  if n = 0 then (0, log, s) else (n, s.handleBurst handler log burst.1.2 n)

/-! ### Whole calls as uninterrupted runs -/

section uninterrupted

/-- A thread that executes the steps `next` of a ring operation as the action `a` of a system, and
is left alone until the operation returns. -/
theorem run_of_solo {σ ι Q T : Type} {cap : Capacity} {step : σ → ι → Option σ} {a : ι}
    {next : SpscRing T cap → Q → SpscRing T cap × Q × List T} {idle : Q}
    (hidle : ∀ r, next r idle = (r, idle, []))
    (hsilent : ∀ r p, (next r p).2.1 ≠ idle → (next r p).2.2 = [])
    (inside : SpscRing T cap → Q → σ) (after : SpscRing T cap → List T → σ)
    (hgo : ∀ r p, (next r p).2.1 ≠ idle →
      step (inside r p) a = some (inside (next r p).1 (next r p).2.1))
    (hret : ∀ r p, (next r p).2.1 = idle → step (inside r p) a = some (after (next r p).1 (next r p).2.2)) :
    ∀ (k : ℕ) (r : SpscRing T cap) (p : Q) (r' : SpscRing T cap) (xs : List T),
      solo next k r p = (r', idle, xs) →
        ∃ n, Runs.run step (inside r p) (List.replicate n a) = some (after r' xs)
  | 0, r, p, r', xs, h => by
      obtain ⟨rfl, rfl, rfl⟩ : r = r' ∧ p = idle ∧ [] = xs := by simpa [solo] using h
      have hstep := hret r p (by rw [hidle])
      rw [hidle] at hstep
      exact ⟨1, Runs.run_cons_eq_some.mpr ⟨_, hstep, rfl⟩⟩
  | k + 1, r, p, r', xs, h => by
      by_cases hp : (next r p).2.1 = idle
      · have hrest : ∀ k, solo next k (next r p).1 idle = ((next r p).1, idle, []) := by
          intro k
          induction k with
          | zero => rfl
          | succ k ih => rw [solo, hidle, ih]; rfl
        simp only [solo, hp, hrest, List.append_nil, Prod.mk.injEq, true_and] at h
        obtain ⟨rfl, rfl⟩ := h
        exact ⟨1, Runs.run_cons_eq_some.mpr ⟨_, hret r p hp, rfl⟩⟩
      · simp only [solo, hsilent r p hp, List.nil_append] at h
        obtain ⟨n, hn⟩ := run_of_solo hidle hsilent inside after hgo hret k _ _ r' xs h
        exact ⟨n + 1, Runs.run_cons_eq_some.mpr ⟨_, hgo r p hp, hn⟩⟩

/-- A ring operation hands over its items when it returns, not before. -/
theorem producer_silent {T : Type} {cap : Capacity} (r : SpscRing T cap) (p : Producer T)
    (h : (p.next r).2.1 ≠ .idle) : (p.next r).2.2 = [] := by
  cases p with
  | idle => rfl
  | loadHead call => rfl
  | loadTail call hd =>
      simp only [Producer.next]
      cases call.claim cap hd r.tail <;> rfl
  | write call hd cnt i =>
      simp only [Producer.next] at h ⊢
      split_ifs at h ⊢
      · rfl
      · exact absurd rfl h

theorem consumer_silent {T : Type} {cap : Capacity} (r : SpscRing T cap) (c : Consumer T)
    (h : (c.next r).2.1 ≠ .idle) : (c.next r).2.2 = [] := by
  cases c with
  | idle => rfl
  | loadTail call => rfl
  | loadHead call t =>
      simp only [Consumer.next]
      cases call.claim t r.head <;> rfl
  | read t cnt got =>
      simp only [Consumer.next] at h ⊢
      split_ifs at h ⊢
      · rfl
      · exact absurd rfl h

variable (f : Packet → Packet) (s : BatchProcessor R P)

/-- Inside `pool_.alloc()`. -/
theorem run_alloc (k : ℕ) (free free' : SpscRing (Fin P.size) P) (c : Consumer (Fin P.size))
    (xs : List (Fin P.size)) (h : solo Consumer.next k free c = (free', .idle, xs)) :
    ∃ n, Runs.run (step f) { s with pool := ⟨free, s.pool.totalAllocs⟩, sender := .alloc c }
        (List.replicate n .sender) =
      some { s with
        pool := ⟨free', s.pool.totalAllocs + BitVec.ofNat 64 xs.length⟩
        held := xs ++ s.held
        sender := .idle } := by
  refine run_of_solo (fun _ => rfl) consumer_silent
    (fun r c => { s with pool := ⟨r, s.pool.totalAllocs⟩, sender := .alloc c })
    (fun r xs => { s with
      pool := ⟨r, s.pool.totalAllocs + BitVec.ofNat 64 xs.length⟩, held := xs ++ s.held, sender := .idle })
    ?_ ?_ k free c free' xs h
  · intro r c hc
    have hafter : Sender.afterAlloc (c.next r).2.1 = .alloc (c.next r).2.1 := by
      generalize (c.next r).2.1 = c' at hc
      cases c' <;> first | rfl | exact absurd rfl hc
    simp [step, senderStep, hafter, consumer_silent r c hc]
  · intro r c hc
    simp [step, senderStep, hc, Sender.afterAlloc]

/-- Inside `pool_.free(pkt)`. -/
theorem run_drop (pkt : Fin P.size) (k : ℕ) (free free' : SpscRing (Fin P.size) P)
    (p : Producer (Fin P.size)) (xs : List (Fin P.size))
    (h : solo Producer.next k free p = (free', .idle, xs)) :
    ∃ n, Runs.run (step f) { s with pool := ⟨free, s.pool.totalAllocs⟩, sender := .drop pkt p }
        (List.replicate n .sender) =
      some { s with pool := ⟨free', s.pool.totalAllocs⟩, sender := .idle } := by
  refine run_of_solo (fun _ => rfl) producer_silent
    (fun r p => { s with pool := ⟨r, s.pool.totalAllocs⟩, sender := .drop pkt p })
    (fun r _ => { s with pool := ⟨r, s.pool.totalAllocs⟩, sender := .idle }) ?_ ?_ k free p free' xs h
  · intro r p hp
    have hafter : Sender.afterDrop pkt (p.next r).2.1 = .drop pkt (p.next r).2.1 := by
      generalize (p.next r).2.1 = p' at hp
      cases p' <;> first | rfl | exact absurd rfl hp
    simp [step, senderStep, hafter]
  · intro r p hp
    simp [step, senderStep, hp, Sender.afterDrop]

/-- Inside `ring_.enqueue(pkt)`. -/
theorem run_enqueue (pkt : Fin P.size) (k : ℕ) (ring ring' : SpscRing (Fin P.size) R)
    (p : Producer (Fin P.size)) (xs : List (Fin P.size))
    (h : solo Producer.next k ring p = (ring', .idle, xs)) :
    ∃ n, Runs.run (step f) { s with ring := ring, sender := .send pkt p } (List.replicate n .sender) =
      some { s with
        ring := ring'
        stats := { s.stats with
          pktsDropped := if xs = [] then s.stats.pktsDropped + 1 else s.stats.pktsDropped }
        sender := .afterSend pkt .idle xs } := by
  refine run_of_solo (fun _ => rfl) producer_silent
    (fun r p => { s with ring := r, sender := .send pkt p })
    (fun r xs => { s with
      ring := r
      stats := { s.stats with
        pktsDropped := if xs = [] then s.stats.pktsDropped + 1 else s.stats.pktsDropped }
      sender := .afterSend pkt .idle xs }) ?_ ?_ k ring p ring' xs h
  · intro r p hp
    have hsilent := producer_silent r p hp
    simp only [step, senderStep, hsilent]
    generalize (p.next r).2.1 = p' at hp
    cases p' <;> first | rfl | exact absurd rfl hp
  · intro r p hp
    simp only [step, senderStep, hp]
    cases (p.next r).2.2 <;> rfl

/-- Inside `ring_.dequeue_burst`. -/
theorem run_dequeueBurst (k : ℕ) (ring ring' : SpscRing (Fin P.size) R) (c : Consumer (Fin P.size))
    (xs : List (Fin P.size)) (h : solo Consumer.next k ring c = (ring', .idle, xs)) :
    ∃ n, Runs.run (step f) { s with ring := ring, worker := .burst c } (List.replicate n .worker) =
      some { s with ring := ring', worker := .afterBurst .idle xs } := by
  refine run_of_solo (fun _ => rfl) consumer_silent
    (fun r c => { s with ring := r, worker := .burst c })
    (fun r xs => { s with ring := r, worker := .afterBurst .idle xs }) ?_ ?_ k ring c ring' xs h
  · intro r c hc
    simp only [step, workerStep]
    generalize (c.next r).2.1 = c' at hc
    cases c' <;> first | rfl | exact absurd rfl hc
  · intro r c hc
    simp [step, workerStep, hc]

/-- Inside `pool_.free_burst`. -/
theorem run_release (pkts : List (Fin P.size)) (k : ℕ) (free free' : SpscRing (Fin P.size) P)
    (p : Producer (Fin P.size)) (xs : List (Fin P.size))
    (h : solo Producer.next k free p = (free', .idle, xs)) :
    ∃ n, Runs.run (step f) { s with pool := ⟨free, s.pool.totalAllocs⟩, worker := .release pkts p }
        (List.replicate n .worker) =
      some { s with pool := ⟨free', s.pool.totalAllocs⟩, worker := .idle } := by
  refine run_of_solo (fun _ => rfl) producer_silent
    (fun r p => { s with pool := ⟨r, s.pool.totalAllocs⟩, worker := .release pkts p })
    (fun r _ => { s with pool := ⟨r, s.pool.totalAllocs⟩, worker := .idle }) ?_ ?_ k free p free' xs h
  · intro r p hp
    simp only [step, workerStep]
    generalize (p.next r).2.1 = p' at hp
    cases p' <;> first | rfl | exact absurd rfl hp
  · intro r p hp
    simp [step, workerStep, hp, Worker.afterRelease]

/-- The handler loop. -/
theorem run_handle (rest : List (Fin P.size)) : ∀ (done : List (Fin P.size)) (l : HandlerLoop P),
    Runs.run (step f)
        { s with
          storage := l.storage
          stats := { s.stats with bytesProcessed := l.bytes }
          worker := .handle (done ++ rest) done.length }
        (List.replicate (rest.length + 1) .worker) =
      some { s with
        storage := (HandlerLoop.run (fun _ _ => f) l rest).storage
        stats := { s.stats with
          bytesProcessed := (HandlerLoop.run (fun _ _ => f) l rest).bytes
          pktsProcessed := s.stats.pktsProcessed + BitVec.ofNat 64 (done ++ rest).length
          bursts := s.stats.bursts + 1 }
        worker := .release (done ++ rest) (.loadHead (releaseCall (done ++ rest))) } := by
  induction rest with
  | nil =>
      intro done l
      have hend : (done ++ [])[done.length]? = none := by simp
      simp only [List.length_nil, Nat.zero_add, List.replicate_one, Runs.run, step, workerStep, hend,
        Option.bind_some]
      rfl
  | cons pkt rest ih =>
      intro done l
      have hpkt : (done ++ pkt :: rest)[done.length]? = some pkt := by simp
      have hih := ih (done ++ [pkt]) (HandlerLoop.round (fun _ _ => f) l pkt)
      rw [List.append_assoc, List.singleton_append, List.length_append, List.length_singleton] at hih
      rw [List.length_cons, List.replicate_succ, Runs.run_cons_eq_some]
      refine ⟨_, ?_, hih⟩
      simp only [step, workerStep, hpkt]
      rfl

/-- **`alloc_packet` is what the sender does** when it is not interrupted. -/
theorem run_allocPacket (hs : s.sender = .idle) :
    ∃ n, Runs.run (step f) s (.callAlloc :: List.replicate n .sender) = some s.allocPacket.2 := by
  obtain ⟨k, hk⟩ := Consumer.solo_dequeue s.pool.freeRing
  obtain ⟨n, hn⟩ := run_alloc f s k _ _ _ _ hk
  refine ⟨n, Runs.run_cons_eq_some.mpr ⟨_, by simp only [step, hs], hn.trans ?_⟩⟩
  rw [← hs]
  unfold allocPacket MemoryPool.alloc
  rcases s.pool.freeRing.dequeue with ⟨_ | obj, ring⟩ <;> simp

/-- **`send` is what the sender does** when it is not interrupted. -/
theorem run_send (hs : s.sender = .idle) {pkt : Fin P.size} (hp : pkt ∈ s.held) :
    ∃ n, Runs.run (step f) s (.callSend pkt :: List.replicate n .sender) = some (s.send pkt).2 := by
  have hcall : step f s (.callSend pkt) =
      some { s with held := s.held.erase pkt, sender := .send pkt (.loadHead (.enqueue pkt)) } := by
    simp only [step, hs, if_pos hp]
  obtain ⟨k, hk⟩ := Producer.solo_enqueue s.ring pkt
  obtain ⟨n, hn⟩ := run_enqueue f { s with held := s.held.erase pkt } pkt k _ _ _ _ hk
  cases hacc : (s.ring.enqueue pkt).1 with
  | true =>
      refine ⟨n, Runs.run_cons_eq_some.mpr ⟨_, hcall, hn.trans ?_⟩⟩
      unfold send
      rw [show s.ring.enqueue pkt = (true, (s.ring.enqueue pkt).2) from Prod.ext hacc rfl]
      simp [Sender.afterSend, ← hs]
  | false =>
      -- the call goes on with `pool_.free`
      obtain ⟨k', hk'⟩ := Producer.solo_enqueue s.pool.freeRing pkt
      obtain ⟨m, hm⟩ := run_drop f
        { s with
          ring := (s.ring.enqueue pkt).2
          stats := { s.stats with pktsDropped := s.stats.pktsDropped + 1 }
          held := s.held.erase pkt } pkt k' _ _ _ _ hk'
      rw [hacc] at hn
      have hrun := Runs.run_append hn hm
      rw [← List.replicate_add] at hrun
      refine ⟨n + m, Runs.run_cons_eq_some.mpr ⟨_, hcall, hrun.trans ?_⟩⟩
      unfold send
      rw [show s.ring.enqueue pkt = (false, (s.ring.enqueue pkt).2) from Prod.ext hacc rfl]
      simp [MemoryPool.free, ← hs]

/-- **`process_burst` is what the worker does** when it is not interrupted, for a handler that does
not look at its earlier calls. -/
theorem run_processBurst (hs : s.worker = .idle) (log : List (Invocation P)) :
    ∃ n, Runs.run (step f) s (.callProcess :: List.replicate n .worker) =
      some (s.processBurst (fun _ _ => f) log).2.2 := by
  have hcall : step f s .callProcess =
      some { s with worker := .burst (.loadTail (.dequeueBurst burstSize)) } := by
    simp only [step, hs]
  obtain ⟨k, hk⟩ := Consumer.solo_dequeueBurst s.ring burstSize
  obtain ⟨n, hn⟩ := run_dequeueBurst f s k _ _ _ _ hk
  have hlen : (s.ring.dequeueBurst burstSize).1.2.length =
      (s.ring.dequeueBurst burstSize).1.1.toNat := by
    simp [SpscRing.dequeueBurst, readItems]
  unfold processBurst
  generalize s.ring.dequeueBurst burstSize = burst at hn hlen
  obtain ⟨⟨cnt, pkts⟩, ring⟩ := burst
  obtain rfl : BitVec.ofNat 64 pkts.length = cnt := by
    rw [show pkts.length = cnt.toNat from hlen, BitVec.ofNat_toNat, BitVec.setWidth_eq]
  cases hp : pkts with
  | nil =>
      subst hp
      refine ⟨n, Runs.run_cons_eq_some.mpr ⟨_, hcall, hn.trans ?_⟩⟩
      simp [Worker.afterBurst, ← hs]
  | cons pkt rest =>
      rw [← hp]
      have hne : BitVec.ofNat 64 pkts.length ≠ 0 := by
        intro hz
        have hzero : pkts.length = 0 := hlen.trans (congrArg BitVec.toNat hz)
        rw [hp] at hzero
        cases hzero
      obtain ⟨k', hk'⟩ := Producer.solo_enqueueBurst s.pool.freeRing (fun i => pkts.getD i 0)
        (BitVec.ofNat 64 pkts.length)
      have hhandle := run_handle f { s with ring := ring } pkts []
        ⟨log, s.storage, s.stats.bytesProcessed⟩
      obtain ⟨m, hm⟩ := run_release f
        { s with
          ring := ring
          storage := (HandlerLoop.run (fun _ _ => f) ⟨log, s.storage, s.stats.bytesProcessed⟩ pkts).storage
          stats := { s.stats with
            bytesProcessed :=
              (HandlerLoop.run (fun _ _ => f) ⟨log, s.storage, s.stats.bytesProcessed⟩ pkts).bytes
            pktsProcessed := s.stats.pktsProcessed + BitVec.ofNat 64 pkts.length
            bursts := s.stats.bursts + 1 } } pkts k' _ _ _ _ hk'
      have hafter : Worker.afterBurst .idle pkts = .handle pkts 0 := by
        rw [hp]
        rfl
      rw [hafter] at hn
      have hrun := Runs.run_append (Runs.run_append hn hhandle) hm
      rw [← List.replicate_add, ← List.replicate_add] at hrun
      refine ⟨_, Runs.run_cons_eq_some.mpr ⟨_, hcall, hrun.trans ?_⟩⟩
      rw [if_neg hne]
      simp only [handleBurst, MemoryPool.freeBurst, ← hs]

end uninterrupted

/-! ### Histories of calls -/

/-- A `send`: the packet, its contents at that time, and the result. -/
structure Sent (P : Capacity) where
  pkt : Fin P.size
  contents : Packet
  accepted : Bool

/-- A processor and what has happened to it. -/
structure Session (R P : Capacity) where
  proc : BatchProcessor R P
  sent : List (Sent P)
  handled : List (Invocation P)
  results : List SizeT

/-- What the caller does; `fill` is a write into a packet it holds. -/
inductive Call (P : Capacity) where
  | alloc
  | fill (pkt : Fin P.size) (contents : Packet)
  | send (pkt : Fin P.size)
  | process

namespace Session

def start (ringData : Fin R.size → Fin P.size) (poolData : Fin P.size → Fin P.size)
    (storage : Fin P.size → Packet) : Session R P :=
  ⟨BatchProcessor.init ringData poolData storage, [], [], []⟩

/-- Play a call; a packet that is not held cannot be written or sent. -/
def step (handler : Handler P) (s : Session R P) : Call P → Option (Session R P)
  | .alloc => some { s with proc := s.proc.allocPacket.2 }
  | .fill pkt contents =>
      if s.proc.held.contains pkt then
        some { s with proc := { s.proc with storage := Function.update s.proc.storage pkt contents } }
      else none
  | .send pkt =>
      if s.proc.held.contains pkt then
        let r := s.proc.send pkt
        some { s with proc := r.2, sent := s.sent ++ [⟨pkt, s.proc.storage pkt, r.1⟩] }
      else none
  | .process =>
      let r := s.proc.processBurst handler s.handled
      some { s with proc := r.2.2, handled := r.2.1, results := s.results ++ [r.1] }

/-- The packets that were accepted, with their contents when they were sent. -/
def accepted (s : Session R P) : List (Fin P.size × Packet) :=
  (s.sent.filter (·.accepted)).map (fun x => (x.pkt, x.contents))

/-- The number of packets that were dropped. -/
def dropped (s : Session R P) : ℕ := s.sent.countP (fun x => !x.accepted)

/-- The packets the handler was called on, as it found them. -/
def processed (s : Session R P) : List (Fin P.size × Packet) :=
  s.handled.map (fun i => (i.pkt, i.before))

/-- The packets in `ring_`. -/
def queued (s : Session R P) : List (Fin P.size × Packet) :=
  s.proc.ring.contents.map (fun p => (p, s.proc.storage p))

theorem accepted_concat (s : Session R P) (proc : BatchProcessor R P) (x : Sent P) :
    accepted { s with proc := proc, sent := s.sent ++ [x] } =
      s.accepted ++ (if x.accepted then [(x.pkt, x.contents)] else []) := by
  cases hx : x.accepted <;> simp [accepted, hx]

theorem dropped_concat (s : Session R P) (proc : BatchProcessor R P) (x : Sent P) :
    dropped { s with proc := proc, sent := s.sent ++ [x] } = s.dropped + (!x.accepted).toNat := by
  cases hx : x.accepted <;> simp [dropped, hx]

/-! ### The invariant -/

/-- The packet ring holds `q`, the free list holds `f`, and the record explains both. -/
structure Ok (handler : Handler P) (s : Session R P) (q f : List (Fin P.size)) : Prop where
  ring : Represents s.proc.ring q
  free : Represents s.proc.pool.freeRing f
  partition : (f ++ q ++ s.proc.held).Perm (List.finRange P.size)
  order : s.accepted = s.processed ++ q.map (fun p => (p, s.proc.storage p))
  called : HandlerLoop.Called handler s.handled
  pktsDropped : s.proc.stats.pktsDropped = BitVec.ofNat 64 s.dropped
  pktsProcessed : s.proc.stats.pktsProcessed = BitVec.ofNat 64 s.handled.length
  bytes : s.proc.stats.bytesProcessed = BitVec.ofNat 64 (HandlerLoop.bytesAfter s.handled)
  bursts : s.proc.stats.bursts = BitVec.ofNat 64 (s.results.countP (· ≠ 0))

namespace Ok

variable {handler : Handler P} {s : Session R P} {q f : List (Fin P.size)}

theorem start (ringData : Fin R.size → Fin P.size) (poolData : Fin P.size → Fin P.size)
    (storage : Fin P.size → Packet) :
    Ok handler (Session.start (R := R) ringData poolData storage) [] (List.finRange P.size) where
  ring := represents_init 0 ringData
  free := MemoryPool.represents_construct poolData
  partition := by simp [Session.start, BatchProcessor.init]
  order := rfl
  called := by
    intro pre i post h
    simp [Session.start] at h
  pktsDropped := rfl
  pktsProcessed := rfl
  bytes := rfl
  bursts := rfl

theorem length_add (h : s.Ok handler q f) : f.length + q.length + s.proc.held.length = P.size := by
  have := h.partition.length_eq
  simp only [List.length_append, List.length_finRange] at this
  exact this

theorem nodup (h : s.Ok handler q f) : (f ++ q ++ s.proc.held).Nodup :=
  h.partition.nodup_iff.mpr (List.nodup_finRange _)

theorem nodup_queue (h : s.Ok handler q f) : q.Nodup :=
  (List.Nodup.of_append_left h.nodup).of_append_right

/-- A packet the caller holds is not in the packet ring. -/
theorem not_mem_queue (h : s.Ok handler q f) {p : Fin P.size} (hp : p ∈ s.proc.held) : p ∉ q :=
  fun hq => List.disjoint_of_nodup_append h.nodup (List.mem_append_right f hq) hp

/-- A packet given up by the caller moves to one of the rings. -/
theorem partition_give (h : s.Ok handler q f) {p : Fin P.size} (hp : p ∈ s.proc.held)
    {q' f' : List (Fin P.size)} (hmove : (f' ++ q').Perm (f ++ q ++ [p])) :
    (f' ++ q' ++ s.proc.held.erase p).Perm (List.finRange P.size) := by
  refine (hmove.append_right _).trans (List.Perm.trans ?_ h.partition)
  rw [List.append_assoc]
  exact (List.perm_cons_erase hp).symm.append_left _

theorem alloc (h : s.Ok handler q f) :
    ∃ f', Ok handler { s with proc := s.proc.allocPacket.2 } q f' := by
  cases f with
  | nil =>
      refine ⟨[], ?_⟩
      unfold allocPacket
      rw [MemoryPool.alloc_nil h.free]
      exact ⟨h.ring, h.free, h.partition, h.order, h.called, h.pktsDropped, h.pktsProcessed, h.bytes,
        h.bursts⟩
  | cons x f =>
      obtain ⟨hx, hfree, _⟩ := MemoryPool.alloc_cons h.free
      refine ⟨f, h.ring, hfree, ?_, h.order, h.called, h.pktsDropped, h.pktsProcessed, h.bytes, h.bursts⟩
      show (f ++ q ++ (s.proc.pool.alloc.1.toList ++ s.proc.held)).Perm _
      rw [hx]
      exact List.perm_middle.trans h.partition

/-- A write into a packet the caller holds does not touch what is queued. -/
theorem fill (h : s.Ok handler q f) {pkt : Fin P.size} (hp : pkt ∈ s.proc.held) (contents : Packet) :
    Ok handler
      { s with proc := { s.proc with storage := Function.update s.proc.storage pkt contents } } q f := by
  refine ⟨h.ring, h.free, h.partition, ?_, h.called, h.pktsDropped, h.pktsProcessed, h.bytes, h.bursts⟩
  have hqueue : q.map (fun p => (p, Function.update s.proc.storage pkt contents p)) =
      q.map (fun p => (p, s.proc.storage p)) := by
    apply List.map_congr_left
    intro p hq
    have hne : p ≠ pkt := fun he => h.not_mem_queue hp (he ▸ hq)
    rw [Function.update_of_ne hne]
  show s.accepted = s.processed ++ q.map (fun p => (p, Function.update s.proc.storage pkt contents p))
  rw [hqueue]
  exact h.order

/-- **A call of `send`** queues the packet, or drops it and returns its slot to the pool. -/
theorem send (h : s.Ok handler q f) {pkt : Fin P.size} (hp : pkt ∈ s.proc.held) :
    ((s.proc.send pkt).1 = true ∧
      Ok handler
        { s with proc := (s.proc.send pkt).2, sent := s.sent ++ [⟨pkt, s.proc.storage pkt, true⟩] }
        (q ++ [pkt]) f) ∨
    ((s.proc.send pkt).1 = false ∧
      Ok handler
        { s with proc := (s.proc.send pkt).2, sent := s.sent ++ [⟨pkt, s.proc.storage pkt, false⟩] }
        q (f ++ [pkt])) := by
  have hlen := h.length_add
  have hpos := List.length_pos_of_mem hp
  rcases Nat.lt_or_ge q.length R.size with hroom | hfull
  · obtain ⟨hacc, hring⟩ := h.ring.enqueue_room hroom pkt
    have hsend : s.proc.send pkt = (true,
        { s.proc with ring := (s.proc.ring.enqueue pkt).2, held := s.proc.held.erase pkt }) := by
      unfold BatchProcessor.send
      rw [show s.proc.ring.enqueue pkt = (true, (s.proc.ring.enqueue pkt).2) from Prod.ext hacc rfl]
    rw [hsend]
    refine Or.inl ⟨rfl, hring, h.free, h.partition_give hp (by simp), ?_, h.called, ?_,
      h.pktsProcessed, h.bytes, h.bursts⟩
    · rw [accepted_concat, h.order, List.map_append, ← List.append_assoc]
      rfl
    · rw [dropped_concat]
      exact h.pktsDropped
  · have hfull : q.length = R.size := le_antisymm h.ring.length_le hfull
    obtain ⟨_, hfree⟩ := h.free.enqueue_room (by omega) pkt
    have hsend : s.proc.send pkt = (false,
        { s.proc with
          stats := { s.proc.stats with pktsDropped := s.proc.stats.pktsDropped + 1 }
          pool := s.proc.pool.free pkt
          held := s.proc.held.erase pkt }) := by
      unfold BatchProcessor.send
      rw [h.ring.enqueue_full hfull]
    rw [hsend]
    refine Or.inr ⟨rfl, h.ring, hfree, h.partition_give hp ?_, ?_, h.called, ?_, h.pktsProcessed,
      h.bytes, h.bursts⟩
    · rw [List.append_assoc, List.append_assoc]
      exact List.perm_append_comm.append_left f
    · rw [accepted_concat]
      exact (List.append_nil _).trans h.order
    · rw [dropped_concat, BitVec.ofNat_add, ← h.pktsDropped]
      rfl

/-- `free_burst` of packets that fit appends them to the free list. -/
theorem freeBurst_represents {pool : MemoryPool P} (h : Represents pool.freeRing f)
    {pkts : List (Fin P.size)} (hfit : f.length + pkts.length ≤ P.size) :
    Represents (pool.freeBurst (fun i => pkts.getD i 0) (BitVec.ofNat 64 pkts.length)).freeRing
      (f ++ pkts) := by
  have hlen : pkts.length < 2 ^ 64 := by
    have := P.size_le
    omega
  have hburst := (h.enqueueBurst (fun i => pkts.getD i 0) (BitVec.ofNat 64 pkts.length)).2
  rw [min_eq_left (by rw [BitVec.toNat_ofNat, Nat.mod_eq_of_lt hlen]; omega)] at hburst
  have hitems : (List.range (BitVec.ofNat 64 pkts.length).toNat).map (fun i => pkts.getD i 0) = pkts :=
    releaseCall_items hlen
  rw [hitems] at hburst
  exact hburst

/-- The packets `pkts` that `dequeue_burst` took from the front of the queue are handled in order
and their slots go to the end of the free list. -/
theorem handleBurst {pkts rest : List (Fin P.size)} (h : s.Ok handler (pkts ++ rest) f)
    {ring : SpscRing (Fin P.size) R} (hring : Represents ring rest) {n : SizeT} (hn : n ≠ 0)
    (hlen : n = BitVec.ofNat 64 pkts.length) :
    ∃ calls, (BatchProcessor.handleBurst handler s.handled { s.proc with ring := ring } pkts n).1 =
        s.handled ++ calls ∧ calls.map (·.pkt) = pkts ∧
      Ok handler
        { s with
          proc := (BatchProcessor.handleBurst handler s.handled { s.proc with ring := ring } pkts n).2
          handled := (BatchProcessor.handleBurst handler s.handled { s.proc with ring := ring } pkts n).1
          results := s.results ++ [n] } rest (f ++ pkts) := by
  obtain ⟨hnodup, _, hdisj⟩ := List.nodup_append.mp h.nodup_queue
  obtain ⟨calls, hlog, hcalls, hstorage, hbytes, hcalled⟩ := HandlerLoop.run_spec handler pkts
    ⟨s.handled, s.proc.storage, s.proc.stats.bytesProcessed⟩ hnodup h.called
  have hslots : calls.map (·.pkt) = pkts := by
    have := congrArg (List.map Prod.fst) hcalls
    simpa [Function.comp_def] using this
  generalize hrun : HandlerLoop.run handler ⟨s.handled, s.proc.storage, s.proc.stats.bytesProcessed⟩
    pkts = loop at hlog hstorage hbytes hcalled
  have hres : BatchProcessor.handleBurst handler s.handled { s.proc with ring := ring } pkts n =
      (loop.log,
        { s.proc with
          ring := ring
          storage := loop.storage
          stats := { s.proc.stats with
            bytesProcessed := loop.bytes
            pktsProcessed := s.proc.stats.pktsProcessed + n
            bursts := s.proc.stats.bursts + 1 }
          pool := s.proc.pool.freeBurst (fun i => pkts.getD i 0) n }) := by
    rw [← hrun]
    rfl
  rw [hres]
  refine ⟨calls, hlog, hslots, hring, ?_, ?_, ?_, hcalled, h.pktsDropped, ?_, ?_, ?_⟩
  · have hfit := h.length_add
    rw [List.length_append] at hfit
    rw [hlen]
    exact freeBurst_represents h.free (by omega)
  · have hperm := h.partition
    rw [← List.append_assoc] at hperm
    exact hperm
  · -- the loop has written into `pkts` only
    have hrest : rest.map (fun p => (p, loop.storage p)) = rest.map (fun p => (p, s.proc.storage p)) := by
      apply List.map_congr_left
      intro p hp
      rw [hstorage p (fun hpkts => hdisj p hpkts p hp rfl)]
    have horder := h.order
    rw [List.map_append, ← hcalls, ← List.append_assoc] at horder
    show s.accepted = loop.log.map _ ++ rest.map (fun p => (p, loop.storage p))
    rw [hrest, hlog, List.map_append]
    exact horder
  · rw [hlog, List.length_append, BitVec.ofNat_add, ← h.pktsProcessed, hlen, ← hslots, List.length_map]
  · rw [hbytes, hlog, HandlerLoop.bytesAfter_append, BitVec.ofNat_add, ← h.bytes]
  · rw [List.countP_append, BitVec.ofNat_add, ← h.bursts, List.countP_singleton,
      if_pos (decide_eq_true hn)]
    rfl

/-- **A call of `process_burst`** hands the first 32 packets, or as many as there are, to the
handler and returns their slots to the pool. -/
theorem process (h : s.Ok handler q f) :
    ∃ calls, (s.proc.processBurst handler s.handled).2.1 = s.handled ++ calls ∧
      calls.map (·.pkt) = q.take 32 ∧
      (s.proc.processBurst handler s.handled).1.toNat = min 32 q.length ∧
      Ok handler
        { s with
          proc := (s.proc.processBurst handler s.handled).2.2
          handled := (s.proc.processBurst handler s.handled).2.1
          results := s.results ++ [(s.proc.processBurst handler s.handled).1] }
        (q.drop 32) (f ++ q.take 32) := by
  obtain ⟨hcnt, hitems, hring⟩ := h.ring.dequeueBurst burstSize
  rw [show burstSize.toNat = 32 from rfl] at hcnt hitems hring
  rw [← List.take_take, List.take_length] at hitems
  have hdrop : q.drop (min 32 q.length) = q.drop 32 := by
    rcases Nat.le_total 32 q.length with hle | hle
    · rw [min_eq_left hle]
    · rw [min_eq_right hle, List.drop_length, List.drop_eq_nil_of_le hle]
  rw [hdrop] at hring
  unfold BatchProcessor.processBurst
  by_cases hz : (s.proc.ring.dequeueBurst burstSize).1.1 = 0
  · -- nothing was queued
    have hq : q = [] := by
      rw [hz] at hcnt
      change 0 = min 32 q.length at hcnt
      exact List.eq_nil_of_length_eq_zero (by omega)
    subst hq
    simp only [hz, if_true]
    refine ⟨[], by simp, rfl, rfl, hring, by simpa using h.free, by simpa using h.partition, h.order,
      h.called, h.pktsDropped, h.pktsProcessed, h.bytes, ?_⟩
    rw [List.countP_append]
    exact h.bursts
  · have hlen : (s.proc.ring.dequeueBurst burstSize).1.1 = BitVec.ofNat 64 (q.take 32).length := by
      rw [List.length_take, ← hcnt, BitVec.ofNat_toNat, BitVec.setWidth_eq]
    have hsplit : s.Ok handler (q.take 32 ++ q.drop 32) f := by
      rw [List.take_append_drop]
      exact h
    obtain ⟨calls, hlog, hslots, hok⟩ := hsplit.handleBurst hring hz hlen
    simp only [hz, if_false, hitems]
    exact ⟨calls, hlog, hslots, hcnt, hok⟩

theorem step (h : ∃ q f, s.Ok handler q f) {call : Call P} {s' : Session R P}
    (hs : s.step handler call = some s') : ∃ q f, s'.Ok handler q f := by
  obtain ⟨q, f, h⟩ := h
  cases call with
  | alloc =>
      obtain rfl := Option.some.inj hs
      exact ⟨q, h.alloc⟩
  | fill pkt contents =>
      simp only [Session.step] at hs
      split_ifs at hs with hp
      obtain rfl := Option.some.inj hs
      exact ⟨q, f, h.fill (List.contains_iff_mem.mp hp) contents⟩
  | send pkt =>
      simp only [Session.step] at hs
      split_ifs at hs with hp
      obtain rfl := Option.some.inj hs
      rcases h.send (List.contains_iff_mem.mp hp) with ⟨hr, hok⟩ | ⟨hr, hok⟩
      · rw [hr]
        exact ⟨_, _, hok⟩
      · rw [hr]
        exact ⟨_, _, hok⟩
  | process =>
      obtain rfl := Option.some.inj hs
      obtain ⟨_, _, _, _, hok⟩ := h.process
      exact ⟨_, _, hok⟩

end Ok

/-! ### What the statistics say -/

/-- The record of a session, the statistics and the rings agree. -/
structure Sound (handler : Handler P) (s : Session R P) : Prop where
  /-- The accepted packets were handed to the handler in the order they were sent, each once and
  with the contents it was sent with, or are still queued. -/
  in_order : s.accepted = s.processed ++ s.queued
  called : HandlerLoop.Called handler s.handled
  pktsProcessed : s.proc.stats.pktsProcessed = BitVec.ofNat 64 s.handled.length
  pktsDropped : s.proc.stats.pktsDropped = BitVec.ofNat 64 s.dropped
  /-- Every packet sent was processed or dropped or is queued. -/
  sends : s.sent.length = s.handled.length + s.dropped + s.proc.ring.size.toNat
  /-- The same with the counters, as long as they cannot have wrapped. -/
  sends_counted : s.sent.length < 2 ^ 64 → s.sent.length =
    s.proc.stats.pktsProcessed.toNat + s.proc.stats.pktsDropped.toNat + s.proc.ring.size.toNat
  bytesProcessed : s.proc.stats.bytesProcessed = BitVec.ofNat 64 (HandlerLoop.bytesAfter s.handled)
  bursts : s.proc.stats.bursts = BitVec.ofNat 64 (s.results.countP (· ≠ 0))
  /-- The next `process_burst` handles `min 32 queued` packets, and their slots are then back in
  the pool. -/
  burst : ∃ calls, (s.proc.processBurst handler s.handled).2.1 = s.handled ++ calls ∧
    (s.proc.processBurst handler s.handled).1.toNat = calls.length ∧
    calls.length = min 32 s.proc.ring.size.toNat ∧
    ∀ i ∈ calls, i.pkt ∈ (s.proc.processBurst handler s.handled).2.2.pool.freeRing.contents
  /-- The slot of a packet that the next `send` drops is then back in the pool. -/
  drop : ∀ pkt ∈ s.proc.held, (s.proc.send pkt).1 = false →
    pkt ∈ (s.proc.send pkt).2.pool.freeRing.contents
  slots : (s.proc.pool.freeRing.contents ++ s.proc.ring.contents ++ s.proc.held).Perm
    (List.finRange P.size)
  slots_add : s.proc.pool.available.toNat + s.proc.ring.size.toNat + s.proc.held.length = P.size

theorem length_sent (s : Session R P) : s.sent.length = s.accepted.length + s.dropped := by
  rw [accepted, List.length_map, ← List.countP_eq_length_filter, dropped,
    List.length_eq_countP_add_countP (fun x => x.accepted)]
  simp

theorem Ok.sound {handler : Handler P} {s : Session R P} {q f : List (Fin P.size)}
    (h : s.Ok handler q f) : s.Sound handler := by
  have hsize := h.ring.toNat_size
  have hsends : s.sent.length = s.handled.length + s.dropped + s.proc.ring.size.toNat := by
    have hacc := congrArg List.length h.order
    rw [List.length_append, List.length_map, processed, List.length_map] at hacc
    rw [length_sent, hsize]
    omega
  refine ⟨?_, h.called, h.pktsProcessed, h.pktsDropped, hsends, ?_, h.bytes, h.bursts, ?_, ?_, ?_, ?_⟩
  · rw [queued, h.ring.contents_eq]
    exact h.order
  · intro hlt
    rw [h.pktsProcessed, h.pktsDropped, BitVec.toNat_ofNat, BitVec.toNat_ofNat,
      Nat.mod_eq_of_lt (by omega), Nat.mod_eq_of_lt (by omega)]
    exact hsends
  · obtain ⟨calls, hlog, hslots, hresult, hok⟩ := h.process
    have hlen : calls.length = min 32 q.length := by
      rw [← List.length_take, ← hslots, List.length_map]
    refine ⟨calls, hlog, hresult.trans hlen.symm, by rw [hsize, hlen], fun i hi => ?_⟩
    rw [hok.free.contents_eq, ← hslots]
    exact List.mem_append_right f (List.mem_map_of_mem hi)
  · intro pkt hp hdrop
    rcases h.send hp with ⟨hr, _⟩ | ⟨_, hok⟩
    · rw [hr] at hdrop
      cases hdrop
    · rw [hok.free.contents_eq]
      exact List.mem_append_right f List.mem_cons_self
  · rw [h.free.contents_eq, h.ring.contents_eq]
    exact h.partition
  · rw [MemoryPool.toNat_available h.free, hsize]
    exact h.length_add

end Session

/-- **Every accepted packet is processed once, in order, and the statistics add up**, for all ring
and pool sizes, every handler and every history of calls. -/
theorem batchProcessor_accounts (R P : Capacity) (handler : Handler P)
    (ringData : Fin R.size → Fin P.size) (poolData : Fin P.size → Fin P.size)
    (storage : Fin P.size → Packet) (calls : List (Call P)) (s : Session R P)
    (h : Runs.run (Session.step handler) (Session.start ringData poolData storage) calls = some s) :
    s.Sound handler := by
  obtain ⟨q, f, hok⟩ := Runs.run_invariant (P := fun s : Session R P => ∃ q f, s.Ok handler q f)
    (fun _ _ _ hok hs => Session.Ok.step hok hs) ⟨_, _, Session.Ok.start ringData poolData storage⟩ h
  exact hok.sound

/-- One slot in `ring_`: the second packet is dropped, the first one is processed and its slot
used again. -/
def dropAndProcess : List (Call fourSlots) :=
  [.alloc, .alloc, .send 0, .send 1, .process, .process, .alloc, .fill 2 ⟨0, 0, 0, 0, 6, 100, 0, fun _ => 0⟩,
    .send 2]

/-- A handler that doubles the length of the first packet it sees. -/
def doubleFirst : Handler fourSlots :=
  fun log _ packet => if log.isEmpty then { packet with len := packet.len + packet.len } else packet

theorem batchProcessor_accounts_drop :
    ∃ s : Session oneSlot fourSlots,
      Runs.run (Session.step doubleFirst)
        (Session.start (fun _ => 0) (fun _ => 0) (fun _ => blankPacket)) dropAndProcess = some s ∧
      s.Sound doubleFirst ∧ s.sent.length = 3 ∧ s.dropped = 1 ∧ s.handled.length = 1 ∧
      s.proc.stats.bytesProcessed = 128 ∧ s.proc.ring.contents = [2] := by
  obtain ⟨s, hs, hsent, hdropped, hhandled, hbytes, hqueue⟩ : ∃ s : Session oneSlot fourSlots,
      Runs.run (Session.step doubleFirst)
        (Session.start (fun _ => 0) (fun _ => 0) (fun _ => blankPacket)) dropAndProcess = some s ∧
      s.sent.length = 3 ∧ s.dropped = 1 ∧ s.handled.length = 1 ∧
      s.proc.stats.bytesProcessed = 128 ∧ s.proc.ring.contents = [2] :=
    Runs.exists_run_of_any (by decide +kernel)
  exact ⟨s, hs, batchProcessor_accounts oneSlot fourSlots doubleFirst (fun _ => 0) (fun _ => 0)
    (fun _ => blankPacket) dropAndProcess s hs, hsent, hdropped, hhandled, hbytes, hqueue⟩

end BatchProcessor

end EbpfMonitor
