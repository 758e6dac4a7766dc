import EbpfMonitor.Lib.Runs
import EbpfMonitor.SpscRing

/-! # `SpscRing` with a producer and a consumer thread

The operations of `spsc_ring.h` cut at their accesses to shared memory: load the own index,
load the other index, write or read one slot, store the own index.  `Producer` and
`Consumer` are the program counters of the two sides with the values they hold in
registers, `Producer.next` and `Consumer.next` execute one elementary step, and `step`
interleaves the two threads in any order (`Action`).

A side never looks at the other index again after it has loaded it, so it works with a
stale view while the other side moves on.  `Inv r p c q` is the invariant that survives
this: `q` are the published items, the cells behind the tail hold `q` followed by what the
producer has already written, the slots the producer has claimed still fit behind `q`, and
the items the consumer has claimed are still in front of it.  It mentions no start value:
the counters may have wrapped any number of times.

`Producer.solo_enqueueBurst` and its siblings connect the cut operations with the ones of
`SpscRing.lean`: a call that runs without interruption does what the whole operation does. -/

namespace EbpfMonitor
namespace SpscRing

open Circular

variable {T : Type} {cap : Capacity}

/-! ### The producer -/

/-- A call of the producer side. -/
inductive EnqCall (T : Type) where
  | enqueue (item : T)
  | enqueueBurst (items : ℕ → T) (n : SizeT)

namespace EnqCall

/-- The item number `i` of a call. -/
def item : EnqCall T → ℕ → T
  | enqueue x, _ => x
  | enqueueBurst items _, i => items i

/-- What the call computes from the two indices: the number of slots it fills, or `none`
when `enqueue` returns `false`. -/
def claim (cap : Capacity) : EnqCall T → SizeT → SizeT → Option SizeT
  | enqueue _, h, t => if h - t ≥ cap.val then none else some 1
  | enqueueBurst _ n, h, t =>
      let free := cap.val - (h - t)
      some (if n < free then n else free)

/-- The number of items of a call. -/
def count : EnqCall T → ℕ
  | enqueue _ => 1
  | enqueueBurst _ n => n.toNat

/-- The items of a call. -/
def items (call : EnqCall T) : List T := (List.range call.count).map call.item

end EnqCall

/-- Program counter of the producer, with the registers live at that point. -/
inductive Producer (T : Type) where
  | idle
  | loadHead (call : EnqCall T)
  | loadTail (call : EnqCall T) (h : SizeT)
  | write (call : EnqCall T) (h cnt : SizeT) (i : ℕ)

namespace Producer

/-- One elementary step of the producer: the ring, the program counter, and the items whose
acceptance the step completes (none unless the call returns). -/
def next (r : SpscRing T cap) : Producer T → SpscRing T cap × Producer T × List T
  | idle => (r, idle, [])
  | loadHead call => (r, loadTail call r.head, [])
  | loadTail call h =>
      match call.claim cap h r.tail with
      | none => (r, idle, [])
      | some cnt => (r, write call h cnt 0, [])
  | write call h cnt i =>
      if i < cnt.toNat then
        ({ r with data := Function.update r.data (cap.slot (h + BitVec.ofNat 64 i)) (call.item i) },
          write call h cnt (i + 1), [])
      else ({ r with head := h + cnt }, idle, (List.range cnt.toNat).map call.item)

/-- The number of slots the call in progress has claimed. -/
def claimed : Producer T → ℕ
  | write _ _ cnt _ => cnt.toNat
  | _ => 0

/-- The items of the call in progress that have reached their slots. -/
def written : Producer T → List T
  | write call _ _ i => (List.range i).map call.item
  | _ => []

@[simp] theorem written_idle : (idle : Producer T).written = [] := rfl

/-- The items the call in progress has accepted. -/
def accepted : Producer T → List T
  | write call _ cnt _ => (List.range cnt.toNat).map call.item
  | _ => []

/-- The slots the call in progress still has to write. -/
def pendingWrites (cap : Capacity) : Producer T → List (Fin cap.size)
  | write _ h cnt i => (List.range' i (cnt.toNat - i)).map (fun j => cap.slot (h + BitVec.ofNat 64 j))
  | _ => []

/-- The registers agree with the ring: only the producer moves `head_`. -/
def Consistent (r : SpscRing T cap) : Producer T → Prop
  | loadTail _ h => h = r.head
  | write _ h cnt i => h = r.head ∧ i ≤ cnt.toNat
  | _ => True

/-- The thread is inside `call`; once slots are claimed, there is one for every item. -/
def Inside (call : EnqCall T) : Producer T → Prop
  | idle => False
  | loadHead c => c = call
  | loadTail c _ => c = call
  | write c _ cnt _ => c = call ∧ cnt.toNat = call.count

end Producer

/-! ### The consumer -/

/-- A call of the consumer side. -/
inductive DeqCall where
  | dequeue
  | dequeueBurst (n : SizeT)

/-- What the call computes from the two indices: the number of items it takes, or `none`
when `dequeue` returns `false`. -/
def DeqCall.claim : DeqCall → SizeT → SizeT → Option SizeT
  | dequeue, t, h => if t = h then none else some 1
  | dequeueBurst n, t, h =>
      let avail := h - t
      some (if n < avail then n else avail)

/-- Program counter of the consumer; `got` are the items read so far. -/
inductive Consumer (T : Type) where
  | idle
  | loadTail (call : DeqCall)
  | loadHead (call : DeqCall) (t : SizeT)
  | read (t cnt : SizeT) (got : List T)

namespace Consumer

/-- One elementary step of the consumer: the ring, the program counter, and the items the
call returns when the step completes it. -/
def next (r : SpscRing T cap) : Consumer T → SpscRing T cap × Consumer T × List T
  | idle => (r, idle, [])
  | loadTail call => (r, loadHead call r.tail, [])
  | loadHead call t =>
      match call.claim t r.head with
      | none => (r, idle, [])
      | some cnt => (r, read t cnt [], [])
  | read t cnt got =>
      if got.length < cnt.toNat then
        (r, read t cnt (got ++ [r.data (cap.slot (t + BitVec.ofNat 64 got.length))]), [])
      else ({ r with tail := t + cnt }, idle, got)

/-- The slots the call in progress still has to read. -/
def pendingReads (cap : Capacity) : Consumer T → List (Fin cap.size)
  | read t cnt got =>
      (List.range' got.length (cnt.toNat - got.length)).map (fun j => cap.slot (t + BitVec.ofNat 64 j))
  | _ => []

/-- The registers agree with the ring, the claimed items are still in front of the queue
and the ones already read are its first items. -/
def Consistent (r : SpscRing T cap) (q : List T) : Consumer T → Prop
  | loadHead _ t => t = r.tail
  | read t cnt got =>
      t = r.tail ∧ cnt.toNat ≤ q.length ∧ got.length ≤ cnt.toNat ∧ got = q.take got.length
  | _ => True

end Consumer

/-! ### The invariant of the two threads -/

/-- The ring shared by a producer at `p` and a consumer at `c`, with published items `q`. -/
structure Inv (r : SpscRing T cap) (p : Producer T) (c : Consumer T) (q : List T) : Prop where
  room : q.length + p.claimed ≤ cap.size
  head_eq : r.head = r.tail + BitVec.ofNat 64 q.length
  cells : Holds r.data r.tail.toNat (q ++ p.written)
  producer : p.Consistent r
  consumer : c.Consistent r q

namespace Inv

variable {r : SpscRing T cap} {p : Producer T} {c : Consumer T} {q : List T}

theorem represents (h : Inv r p c q) : Represents r q where
  length_le := by
    have := h.room
    omega
  head_eq := h.head_eq
  cells := h.cells.left

theorem init (start : SizeT) (data : Fin cap.size → T) :
    Inv (SpscRing.init start data) .idle .idle [] where
  room := Nat.zero_le _
  head_eq := (represents_init start data).head_eq
  cells := Holds.nil _ _
  producer := trivial
  consumer := trivial

theorem of_represents (h : Represents r q) : Inv r .idle .idle q where
  room := h.length_le
  head_eq := h.head_eq
  cells := by simpa using h.cells
  producer := trivial
  consumer := trivial

/-- Starting a call changes nothing shared. -/
theorem start_producer (h : Inv r .idle c q) (call : EnqCall T) : Inv r (.loadHead call) c q :=
  ⟨h.room, h.head_eq, h.cells, trivial, h.consumer⟩

theorem start_consumer (h : Inv r p .idle q) (call : DeqCall) : Inv r p (.loadTail call) q :=
  ⟨h.room, h.head_eq, h.cells, h.producer, trivial⟩

/-- A claim made with the current tail fits behind the published items. -/
theorem claim_le (h : Represents r q) {call : EnqCall T} {cnt : SizeT}
    (hc : call.claim cap r.head r.tail = some cnt) : q.length + cnt.toNat ≤ cap.size := by
  have hle := h.length_le
  cases call with
  | enqueue x =>
      simp only [EnqCall.claim] at hc
      split_ifs at hc with hfull
      obtain rfl := Option.some.inj hc
      have hne : q.length ≠ cap.size := fun he => hfull (h.cap_le_sub_iff.mpr he)
      show q.length + 1 ≤ cap.size
      omega
  | enqueueBurst items n =>
      obtain rfl := Option.some.inj hc
      rw [toNat_clamp, h.toNat_room]
      omega

/-- A claim made with the current head is a number of published items. -/
theorem claim_le_length (h : Represents r q) {call : DeqCall} {cnt : SizeT}
    (hc : call.claim r.tail r.head = some cnt) : cnt.toNat ≤ q.length := by
  cases call with
  | dequeue =>
      simp only [DeqCall.claim] at hc
      split_ifs at hc with hempty
      obtain rfl := Option.some.inj hc
      have hne : q ≠ [] := fun he => hempty (h.head_eq_tail_iff.mpr he)
      exact List.length_pos_iff.mpr hne
  | dequeueBurst n =>
      obtain rfl := Option.some.inj hc
      rw [toNat_clamp, h.toNat_sub]
      exact min_le_right _ _

/-- **A producer step** appends to the published items what it completes. -/
theorem next_producer (h : Inv r p c q) :
    Inv (p.next r).1 (p.next r).2.1 c (q ++ (p.next r).2.2) := by
  cases p with
  | idle => simpa [Producer.next] using h
  | loadHead call =>
      rw [Producer.next, List.append_nil]
      exact ⟨h.room, h.head_eq, h.cells, rfl, h.consumer⟩
  | loadTail call hd =>
      obtain rfl : hd = r.head := h.producer
      simp only [Producer.next]
      cases hc : call.claim cap r.head r.tail with
      | none =>
          rw [List.append_nil]
          exact ⟨h.room, h.head_eq, h.cells, trivial, h.consumer⟩
      | some cnt =>
          rw [List.append_nil]
          exact ⟨claim_le h.represents hc, h.head_eq, h.cells, ⟨rfl, Nat.zero_le _⟩, h.consumer⟩
  | write call hd cnt i =>
      obtain ⟨rfl, hi⟩ := h.producer
      have hroom : q.length + cnt.toNat ≤ cap.size := h.room
      simp only [Producer.next]
      by_cases hlt : i < cnt.toNat
      · rw [if_pos hlt, List.append_nil]
        refine ⟨hroom, h.head_eq, ?_, ⟨rfl, hlt⟩, ?_⟩
        · -- the slot written is the first one behind everything the ring already holds
          have hp := h.cells.push (by simp [Producer.written]; omega) (call.item i)
          have hslot : cap.slot (r.head + BitVec.ofNat 64 i) = Fin.ofNat cap.size (r.tail.toNat +
              (q ++ (Producer.write call r.head cnt i).written).length) := by
            rw [Capacity.slot_add, cell_eq_iff]
            simpa [Producer.written, Nat.add_assoc] using h.represents.head_modEq.add_right i
          rw [← hslot, List.append_assoc] at hp
          simpa [Producer.written, List.range_succ] using hp
        · have hcons := h.consumer
          cases c <;> exact hcons
      · obtain rfl : i = cnt.toNat := by omega
        rw [if_neg hlt]
        have hpub := h.represents.publish h.cells (by simp [Producer.written]; omega)
        simp only [Producer.written, List.length_map, List.length_range, BitVec.ofNat_toNat,
          BitVec.setWidth_eq] at hpub
        refine ⟨hpub.length_le, hpub.head_eq, ?_, trivial, ?_⟩
        · simpa using hpub.cells
        · have hcons := h.consumer
          cases c with
          | read t n got =>
              obtain ⟨h1, h2, h3, h4⟩ := hcons
              refine ⟨h1, h2.trans (by simp), h3, ?_⟩
              rw [List.take_append_of_le_length (h3.trans h2)]
              exact h4
          | idle => trivial
          | loadTail call => trivial
          | loadHead call t => exact hcons

/-- **A consumer step** removes from the front of the published items what it returns. -/
theorem next_consumer (h : Inv r p c q) :
    ∃ rest, q = (c.next r).2.2 ++ rest ∧ Inv (c.next r).1 p (c.next r).2.1 rest := by
  cases c with
  | idle => exact ⟨q, rfl, h⟩
  | loadTail call => exact ⟨q, rfl, h.room, h.head_eq, h.cells, h.producer, rfl⟩
  | loadHead call t =>
      obtain rfl : t = r.tail := h.consumer
      simp only [Consumer.next]
      cases hc : call.claim r.tail r.head with
      | none => exact ⟨q, rfl, h.room, h.head_eq, h.cells, h.producer, trivial⟩
      | some cnt =>
          exact ⟨q, rfl, h.room, h.head_eq, h.cells, h.producer, rfl, claim_le_length h.represents hc,
            Nat.zero_le _, rfl⟩
  | read t cnt got =>
      obtain ⟨rfl, hcnt, hgot, htake⟩ := h.consumer
      simp only [Consumer.next]
      by_cases hlt : got.length < cnt.toNat
      · rw [if_pos hlt]
        refine ⟨q, rfl, h.room, h.head_eq, h.cells, h.producer, rfl, hcnt, ?_, ?_⟩
        · rw [List.length_append, List.length_singleton]
          omega
        · have hq : got.length < q.length := lt_of_lt_of_le hlt hcnt
          have hcell := h.cells.left got.length hq
          rw [Capacity.slot_add, hcell, List.length_append, List.length_singleton,
            List.take_add_one, ← htake, List.getElem?_eq_getElem hq]
          rfl
      · rw [if_neg hlt]
        have hlen : got.length = cnt.toNat := by omega
        have hsplit : q = got ++ q.drop got.length := by
          nth_rewrite 1 [htake]
          exact (List.take_append_drop _ _).symm
        refine ⟨q.drop got.length, hsplit, ?_⟩
        have hrel : Represents r (got ++ q.drop got.length) := hsplit ▸ h.represents
        have hrel' := hrel.release
        rw [hlen, BitVec.ofNat_toNat, BitVec.setWidth_eq] at hrel'
        have hcells : Holds r.data r.tail.toNat (got ++ (q.drop got.length ++ p.written)) := by
          rw [← List.append_assoc, ← hsplit]
          exact h.cells
        refine ⟨?_, hlen ▸ hrel'.head_eq, ?_, ?_, trivial⟩
        · have := h.room
          rw [List.length_drop]
          omega
        · refine hcells.right.of_modEq ?_
          rw [hlen]
          simpa using toNat_add_ofNat_modEq cap.size_dvd r.tail cnt.toNat
        · have hprod := h.producer
          cases p <;> exact hprod

/-- A call whose items fit behind the published ones claims a slot for each of them. -/
theorem claim_of_fits (h : Represents r q) {call : EnqCall T}
    (hfit : q.length + call.count ≤ cap.size) :
    ∃ cnt, call.claim cap r.head r.tail = some cnt ∧ cnt.toNat = call.count := by
  cases call with
  | enqueue x =>
      have hlt : q.length + 1 ≤ cap.size := hfit
      refine ⟨1, if_neg (fun he => ?_), rfl⟩
      have := h.cap_le_sub_iff.mp he
      omega
  | enqueueBurst items n =>
      have hle : q.length + n.toNat ≤ cap.size := hfit
      refine ⟨_, rfl, ?_⟩
      rw [toNat_clamp, h.toNat_room]
      show min n.toNat _ = n.toNat
      omega

/-- One step inside a call whose items fit: it goes on, or returns having accepted all. -/
theorem next_of_fits (h : Inv r p c q) {call : EnqCall T} (hp : p.Inside call)
    (hfit : q.length + call.count ≤ cap.size) :
    ((p.next r).2.1.Inside call ∧ (p.next r).2.2 = []) ∨
      ((p.next r).2.1 = .idle ∧ (p.next r).2.2 = call.items) := by
  cases p with
  | idle => exact absurd hp id
  | loadHead c => exact Or.inl ⟨hp, rfl⟩
  | loadTail c hd =>
      obtain rfl : hd = r.head := h.producer
      obtain rfl : c = call := hp
      obtain ⟨cnt, hc, hcnt⟩ := claim_of_fits h.represents hfit
      simp only [Producer.next, hc]
      exact Or.inl ⟨⟨rfl, hcnt⟩, trivial⟩
  | write c hd cnt i =>
      obtain ⟨rfl, hcnt⟩ := hp
      simp only [Producer.next]
      split_ifs with hi
      · exact Or.inl ⟨⟨rfl, hcnt⟩, rfl⟩
      · rw [hcnt]
        exact Or.inr ⟨rfl, rfl⟩

/-- One step inside an `enqueue`: it goes on, finds the ring full, or has accepted its item. -/
theorem next_enqueue {x : T} (hp : p.Inside (.enqueue x)) :
    ((p.next r).2.1.Inside (.enqueue x) ∧ (p.next r).2.2 = []) ∨
      ((p.next r).2.1 = .idle ∧ (p.next r).2.2 = []) ∨
      ((p.next r).2.1 = .idle ∧ (p.next r).2.2 = [x]) := by
  cases p with
  | idle => exact absurd hp id
  | loadHead c => exact Or.inl ⟨hp, rfl⟩
  | loadTail c hd =>
      obtain rfl : c = .enqueue x := hp
      simp only [Producer.next, EnqCall.claim]
      split_ifs with hfull
      · exact Or.inr (Or.inl ⟨rfl, rfl⟩)
      · exact Or.inl ⟨⟨rfl, rfl⟩, rfl⟩
  | write c hd cnt i =>
      obtain ⟨rfl, hcnt⟩ := hp
      simp only [Producer.next]
      split_ifs with hi
      · exact Or.inl ⟨⟨rfl, hcnt⟩, rfl⟩
      · rw [hcnt]
        exact Or.inr (Or.inr ⟨rfl, rfl⟩)

/-- What the producer still has to write is nowhere the consumer still has to read. -/
theorem pending_disjoint (h : Inv r p c q) : List.Disjoint (p.pendingWrites cap) (c.pendingReads cap) := by
  cases p with
  | write call hd cnt i =>
      cases c with
      | read t n got =>
          obtain ⟨rfl, hi⟩ := h.producer
          obtain ⟨rfl, hn, hgot, _⟩ := h.consumer
          have hroom : q.length + cnt.toNat ≤ cap.size := h.room
          intro x hw hr
          simp only [Producer.pendingWrites, Consumer.pendingReads, List.mem_map, List.mem_range'_1]
            at hw hr
          obtain ⟨j, hj, rfl⟩ := hw
          obtain ⟨k, hk, hkj⟩ := hr
          rw [Capacity.slot_add, Capacity.slot_add,
            (cell_eq_iff _ _).mpr (h.represents.head_modEq.add_right j)] at hkj
          exact cell_ne (by omega) (by omega) hkj
      | _ => exact List.disjoint_nil_right _
  | _ => exact List.disjoint_nil_left _

end Inv

/-! ### Uninterrupted calls -/

/-- `k` elementary steps of one thread with nobody in between, collecting what they
complete. -/
def solo {P : Type} (next : SpscRing T cap → P → SpscRing T cap × P × List T) :
    ℕ → SpscRing T cap → P → SpscRing T cap × P × List T
  | 0, r, p => (r, p, [])
  | k + 1, r, p =>
      let n := next r p
      let m := solo next k n.1 n.2.1
      (m.1, m.2.1, n.2.2 ++ m.2.2)

/-- The remaining writes of a call and its publishing store. -/
theorem Producer.solo_write (r : SpscRing T cap) (call : EnqCall T) (cnt : SizeT) :
    ∀ k i, i + k = cnt.toNat →
      solo Producer.next (k + 1) { r with data := writeItems r.data r.head call.item i }
          (.write call r.head cnt i) =
        ({ r with data := writeItems r.data r.head call.item cnt.toNat, head := r.head + cnt }, .idle,
          (List.range cnt.toNat).map call.item)
  | 0, i, hi => by
      obtain rfl : i = cnt.toNat := by omega
      simp [solo, Producer.next]
  | k + 1, i, hi => by
      have ih := Producer.solo_write r call cnt k (i + 1) (by omega)
      have hlt : i < cnt.toNat := by omega
      rw [solo, Producer.next, if_pos hlt]
      simpa [writeItems] using ih

/-- An uninterrupted `enqueue` is the operation `SpscRing.enqueue`. -/
theorem Producer.solo_enqueue (r : SpscRing T cap) (item : T) :
    ∃ k, solo Producer.next k r (.loadHead (.enqueue item)) =
      ((r.enqueue item).2, .idle, if (r.enqueue item).1 then [item] else []) := by
  by_cases hfull : r.head - r.tail ≥ cap.val
  · refine ⟨2, ?_⟩
    simp [solo, Producer.next, EnqCall.claim, SpscRing.enqueue, hfull]
  · refine ⟨4, ?_⟩
    have hw := Producer.solo_write r (.enqueue item) 1 1 0 rfl
    rw [solo, Producer.next, solo, Producer.next, EnqCall.claim, if_neg hfull]
    simp only [List.nil_append]
    rw [SpscRing.enqueue, if_neg hfull]
    simpa [writeItems, EnqCall.item] using hw

/-- An uninterrupted `enqueue_burst` is the operation `SpscRing.enqueueBurst`. -/
theorem Producer.solo_enqueueBurst (r : SpscRing T cap) (items : ℕ → T) (n : SizeT) :
    ∃ k, solo Producer.next k r (.loadHead (.enqueueBurst items n)) =
      ((r.enqueueBurst items n).2, .idle,
        (List.range (r.enqueueBurst items n).1.toNat).map items) := by
  refine ⟨(r.enqueueBurst items n).1.toNat + 1 + 1 + 1, ?_⟩
  have hw := Producer.solo_write r (.enqueueBurst items n) (r.enqueueBurst items n).1
    (r.enqueueBurst items n).1.toNat 0 (Nat.zero_add _)
  rw [solo, Producer.next, solo, Producer.next, EnqCall.claim]
  exact hw

/-- The remaining reads of a call and the store that gives the slots up. -/
theorem Consumer.solo_read (r : SpscRing T cap) (cnt : SizeT) :
    ∀ k i, i + k = cnt.toNat →
      solo Consumer.next (k + 1) r (.read r.tail cnt (readItems r.data r.tail i)) =
        ({ r with tail := r.tail + cnt }, .idle, readItems r.data r.tail cnt.toNat)
  | 0, i, hi => by
      obtain rfl : i = cnt.toNat := by omega
      simp [solo, Consumer.next, readItems]
  | k + 1, i, hi => by
      have ih := Consumer.solo_read r cnt k (i + 1) (by omega)
      have hlen : (readItems r.data r.tail i).length = i := by simp [readItems]
      have hsucc : readItems r.data r.tail (i + 1) =
          readItems r.data r.tail i ++ [r.data (cap.slot (r.tail + BitVec.ofNat 64 i))] := by
        simp [readItems, List.range_succ]
      rw [solo, Consumer.next, hlen, if_pos (by omega), ← hsucc]
      simpa using ih

/-- An uninterrupted `dequeue` is the operation `SpscRing.dequeue`. -/
theorem Consumer.solo_dequeue (r : SpscRing T cap) :
    ∃ k, solo Consumer.next k r (.loadTail .dequeue) =
      (r.dequeue.2, .idle, r.dequeue.1.toList) := by
  by_cases hempty : r.tail = r.head
  · refine ⟨2, ?_⟩
    simp [solo, Consumer.next, DeqCall.claim, SpscRing.dequeue, hempty]
  · refine ⟨4, ?_⟩
    have hr := Consumer.solo_read r 1 1 0 rfl
    rw [solo, Consumer.next, solo, Consumer.next, DeqCall.claim, if_neg hempty]
    simp only [List.nil_append]
    rw [SpscRing.dequeue, if_neg hempty]
    simpa [readItems] using hr

/-- An uninterrupted `dequeue_burst` is the operation `SpscRing.dequeueBurst`. -/
theorem Consumer.solo_dequeueBurst (r : SpscRing T cap) (n : SizeT) :
    ∃ k, solo Consumer.next k r (.loadTail (.dequeueBurst n)) =
      ((r.dequeueBurst n).2, .idle, (r.dequeueBurst n).1.2) := by
  refine ⟨(r.dequeueBurst n).1.1.toNat + 1 + 1 + 1, ?_⟩
  have hr := Consumer.solo_read r (r.dequeueBurst n).1.1 (r.dequeueBurst n).1.1.toNat 0 (Nat.zero_add _)
  rw [solo, Consumer.next, solo, Consumer.next, DeqCall.claim]
  exact hr

/-! ### The interleaved system -/

/-- The shared ring, the two threads, and what their completed calls have accepted and
returned so far. -/
structure State (T : Type) (cap : Capacity) where
  ring : SpscRing T cap
  producer : Producer T
  consumer : Consumer T
  enqueued : List T
  dequeued : List T

/-- What the scheduler may do next: let a thread that is idle start a call, or let a thread
execute its next elementary step. -/
inductive Action (T : Type) where
  | callEnqueue (call : EnqCall T)
  | producer
  | callDequeue (call : DeqCall)
  | consumer

namespace State

/-- Both counters start at `start`, no call is in progress. -/
def init (start : SizeT) (data : Fin cap.size → T) : State T cap :=
  ⟨SpscRing.init start data, .idle, .idle, [], []⟩

def step (s : State T cap) : Action T → Option (State T cap)
  | .callEnqueue call =>
      match s.producer with
      | .idle => some { s with producer := .loadHead call }
      | _ => none
  | .producer =>
      let n := s.producer.next s.ring
      some { s with ring := n.1, producer := n.2.1, enqueued := s.enqueued ++ n.2.2 }
  | .callDequeue call =>
      match s.consumer with
      | .idle => some { s with consumer := .loadTail call }
      | _ => none
  | .consumer =>
      let n := s.consumer.next s.ring
      some { s with ring := n.1, consumer := n.2.1, dequeued := s.dequeued ++ n.2.2 }

/-- The items enqueued are the items dequeued followed by the ones in the ring. -/
def Ok (s : State T cap) : Prop :=
  ∃ q, s.enqueued = s.dequeued ++ q ∧ Inv s.ring s.producer s.consumer q

theorem ok_init (start : SizeT) (data : Fin cap.size → T) : (init start data).Ok :=
  ⟨[], rfl, Inv.init start data⟩

theorem ok_step (s : State T cap) (a : Action T) (s' : State T cap) (h : s.Ok)
    (hs : s.step a = some s') : s'.Ok := by
  obtain ⟨q, hq, hinv⟩ := h
  cases a with
  | callEnqueue call =>
      simp only [step] at hs
      split at hs
      · next hp =>
          obtain rfl := Option.some.inj hs
          exact ⟨q, hq, (hp ▸ hinv).start_producer call⟩
      · cases hs
  | producer =>
      obtain rfl := Option.some.inj hs
      refine ⟨q ++ (s.producer.next s.ring).2.2, ?_, hinv.next_producer⟩
      show s.enqueued ++ _ = s.dequeued ++ _
      rw [hq, List.append_assoc]
  | callDequeue call =>
      simp only [step] at hs
      split at hs
      · next hc =>
          obtain rfl := Option.some.inj hs
          exact ⟨q, hq, (hc ▸ hinv).start_consumer call⟩
      · cases hs
  | consumer =>
      obtain rfl := Option.some.inj hs
      obtain ⟨rest, hrest, hinv'⟩ := hinv.next_consumer
      refine ⟨rest, ?_, hinv'⟩
      show s.enqueued = s.dequeued ++ _ ++ rest
      rw [hq, List.append_assoc, ← hrest]

end State

/-- **The ring is a FIFO under every interleaving.**  In every state that any schedule of
the two threads reaches, from any common start value of the counters: the occupancy is at
most the capacity, no slot still to be written is a slot still to be read, and what the
completed dequeues returned is a prefix of what the enqueues accepted. -/
theorem spscRing_fifo_interleaved (cap : Capacity) (start : SizeT) (data : Fin cap.size → T)
    (schedule : List (Action T)) (s : State T cap)
    (h : Runs.run State.step (State.init start data) schedule = some s) :
    (s.ring.head - s.ring.tail).toNat ≤ cap.size ∧
      List.Disjoint (s.producer.pendingWrites cap) (s.consumer.pendingReads cap) ∧
      s.dequeued <+: s.enqueued ++ s.producer.accepted := by
  obtain ⟨q, hq, hinv⟩ := Runs.run_invariant State.ok_step (State.ok_init start data) h
  refine ⟨?_, hinv.pending_disjoint, ?_⟩
  · rw [hinv.represents.toNat_sub]
    exact hinv.represents.length_le
  · rw [hq, List.append_assoc]
    exact List.prefix_append _ _

/-- A ring of two slots. -/
def twoSlots : Capacity := Capacity.ofPow 1 Capacity.one_lt_width

/-- A burst of two that wraps both the counter and the mask, overtaken by a dequeue that
has read its item but not yet given up the slot. -/
def overlapSchedule : List (Action ℕ) :=
  [.callEnqueue (.enqueueBurst (fun i => i + 7) 2), .producer, .producer, .producer, .producer,
    .producer, .callDequeue .dequeue, .consumer, .callEnqueue (.enqueue 9), .producer, .consumer,
    .consumer, .consumer, .producer, .callDequeue (.dequeueBurst 5), .consumer, .consumer]

theorem spscRing_fifo_overlap :
    ∃ s : State ℕ twoSlots,
      Runs.run State.step (State.init (-1) (fun _ => 0)) overlapSchedule = some s ∧
      s.producer.pendingWrites twoSlots = [1] ∧ s.consumer.pendingReads twoSlots = [0] ∧
      ((s.ring.head - s.ring.tail).toNat ≤ twoSlots.size ∧
        List.Disjoint (s.producer.pendingWrites twoSlots) (s.consumer.pendingReads twoSlots) ∧
        s.dequeued <+: s.enqueued ++ s.producer.accepted) ∧ s.dequeued = [7] := by
  obtain ⟨s, hs, hw, hr, hd⟩ : ∃ s : State ℕ twoSlots,
      Runs.run State.step (State.init (-1) (fun _ => 0)) overlapSchedule = some s ∧
      s.producer.pendingWrites twoSlots = [1] ∧ s.consumer.pendingReads twoSlots = [0] ∧
      s.dequeued = [7] := ⟨_, rfl, by decide, by decide, by decide⟩
  exact ⟨s, hs, hw, hr, spscRing_fifo_interleaved twoSlots (-1) _ overlapSchedule s hs, hd⟩

end SpscRing
end EbpfMonitor
