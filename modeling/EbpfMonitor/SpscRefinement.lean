import EbpfMonitor.Lib.Runs
import EbpfMonitor.SpscRing

/-! # `SpscRing` refines a bounded queue

`BoundedQueue` says what the ring is for, in terms of lists: a queue of at most `cap` items
with single and burst operations.  `Call` is the interface of `SpscRing`; `SpscRing.exec` plays
a call on the ring of the source and `BoundedQueue.exec` plays it on a list, both answering
with a `Ret`.  The simulation relation is `SpscRing.Represents`; `exec_simulates` is one
call and `spscRing_refines_boundedQueue` every list of calls, from every start value of the
two counters, so that the point where `head_` has wrapped and `tail_` has not is covered. -/

namespace EbpfMonitor

variable {T : Type}

/-! ### The interface -/

namespace SpscRing

/-- A call of the public interface of `SpscRing`. -/
inductive Call (T : Type) where
  | enqueue (item : T)
  | dequeue
  | enqueueBurst (items : ℕ → T) (n : SizeT)
  | dequeueBurst (n : SizeT)
  | size
  | empty
  | full

/-- What a call returns, with the items it hands out. -/
inductive Ret (T : Type) where
  | bool (b : Bool)
  | item (x : Option T)
  | count (n : ℕ)
  | items (n : ℕ) (xs : List T)
deriving DecidableEq

end SpscRing

open SpscRing

/-! ### The abstract queue -/

namespace BoundedQueue

variable (cap : ℕ)

def enqueue (q : List T) (item : T) : Bool × List T :=
  if q.length < cap then (true, q ++ [item]) else (false, q)

def dequeue : List T → Option T × List T
  | [] => (none, [])
  | x :: q => (some x, q)

/-- The number of items a burst of `n` can add to `q`. -/
def accepts (q : List T) (n : ℕ) : ℕ := min n (cap - q.length)

def enqueueBurst (q : List T) (items : ℕ → T) (n : ℕ) : ℕ × List T :=
  (accepts cap q n, q ++ (List.range (accepts cap q n)).map items)

def dequeueBurst (q : List T) (n : ℕ) : (ℕ × List T) × List T :=
  ((min n q.length, q.take (min n q.length)), q.drop (min n q.length))

/-- A call of the ring's interface, played on the abstract queue. -/
def exec (q : List T) : Call T → Ret T × List T
  | .enqueue item => (.bool (enqueue cap q item).1, (enqueue cap q item).2)
  | .dequeue => (.item (dequeue q).1, (dequeue q).2)
  | .enqueueBurst items n =>
      (.count (enqueueBurst cap q items n.toNat).1, (enqueueBurst cap q items n.toNat).2)
  | .dequeueBurst n =>
      (.items (dequeueBurst q n.toNat).1.1 (dequeueBurst q n.toNat).1.2, (dequeueBurst q n.toNat).2)
  | .size => (.count q.length, q)
  | .empty => (.bool (decide (q = [])), q)
  | .full => (.bool (decide (q.length = cap)), q)

end BoundedQueue

/-! ### The ring -/

namespace SpscRing

variable {cap : Capacity}

/-- A call of the interface, played on the ring. -/
def exec (r : SpscRing T cap) : Call T → Ret T × SpscRing T cap
  | .enqueue item => (.bool (r.enqueue item).1, (r.enqueue item).2)
  | .dequeue => (.item r.dequeue.1, r.dequeue.2)
  | .enqueueBurst items n => (.count (r.enqueueBurst items n).1.toNat, (r.enqueueBurst items n).2)
  | .dequeueBurst n =>
      (.items (r.dequeueBurst n).1.1.toNat (r.dequeueBurst n).1.2, (r.dequeueBurst n).2)
  | .size => (.count r.size.toNat, r)
  | .empty => (.bool r.empty, r)
  | .full => (.bool r.full, r)

end SpscRing

/-! ### The simulation -/

section simulation

variable {cap : Capacity} {r : SpscRing T cap} {q : List T}

theorem enqueue_simulates (h : Represents r q) (item : T) :
    (r.enqueue item).1 = (BoundedQueue.enqueue cap.size q item).1 ∧
      Represents (r.enqueue item).2 (BoundedQueue.enqueue cap.size q item).2 := by
  unfold BoundedQueue.enqueue
  by_cases hf : q.length < cap.size
  · rw [if_pos hf]
    exact h.enqueue_room hf item
  · rw [if_neg hf, h.enqueue_full (le_antisymm h.length_le (Nat.le_of_not_lt hf)) item]
    exact ⟨rfl, h⟩

theorem dequeue_simulates (h : Represents r q) :
    r.dequeue.1 = (BoundedQueue.dequeue q).1 ∧ Represents r.dequeue.2 (BoundedQueue.dequeue q).2 := by
  cases q with
  | nil =>
      rw [h.dequeue_nil]
      exact ⟨rfl, h⟩
  | cons x q => exact h.dequeue_cons

theorem empty_simulates (h : Represents r q) : r.empty = decide (q = []) := by
  have hs := h.toNat_size
  apply Bool.eq_iff_iff.mpr
  unfold SpscRing.empty
  rw [beq_iff_eq, decide_eq_true_iff, ← List.length_eq_zero_iff, ← hs]
  constructor
  · intro h0
    rw [h0]
    rfl
  · intro h0
    exact BitVec.eq_of_toNat_eq h0

theorem full_simulates (h : Represents r q) : r.full = decide (q.length = cap.size) :=
  decide_eq_decide.mpr h.cap_le_sub_iff

/-- One call: equal results, and the relation is kept. -/
theorem exec_simulates (c : Call T) (h : Represents r q) :
    (r.exec c).1 = (BoundedQueue.exec cap.size q c).1 ∧
      Represents (r.exec c).2 (BoundedQueue.exec cap.size q c).2 := by
  cases c with
  | enqueue item =>
      obtain ⟨h1, h2⟩ := enqueue_simulates h item
      exact ⟨congrArg Ret.bool h1, h2⟩
  | dequeue =>
      obtain ⟨h1, h2⟩ := dequeue_simulates h
      exact ⟨congrArg Ret.item h1, h2⟩
  | enqueueBurst items n =>
      obtain ⟨h1, h2⟩ := h.enqueueBurst items n
      exact ⟨congrArg Ret.count h1, h2⟩
  | dequeueBurst n =>
      obtain ⟨h1, h2, h3⟩ := h.dequeueBurst n
      exact ⟨congrArg₂ Ret.items h1 h2, h3⟩
  | size => exact ⟨congrArg Ret.count h.toNat_size, h⟩
  | empty => exact ⟨congrArg Ret.bool (empty_simulates h), h⟩
  | full => exact ⟨congrArg Ret.bool (full_simulates h), h⟩

end simulation

/-- **Refinement.**  For every capacity, every common start value of the counters, every
initial contents of the slots and every list of calls, the ring returns what the bounded
queue returns, and afterwards holds what the bounded queue holds. -/
theorem spscRing_refines_boundedQueue (cap : Capacity) (start : SizeT) (data : Fin cap.size → T)
    (calls : List (Call T)) :
    (Runs.execAll SpscRing.exec (SpscRing.init start data) calls).1 =
        (Runs.execAll (BoundedQueue.exec cap.size) [] calls).1 ∧
      (Runs.execAll SpscRing.exec (SpscRing.init start data) calls).2.contents =
        (Runs.execAll (BoundedQueue.exec cap.size) [] calls).2 := by
  obtain ⟨hres, hrep⟩ := Runs.execAll_simulation (fun _ _ c h => exec_simulates c h) calls
    (SpscRing.init start data) [] (represents_init start data)
  exact ⟨hres, hrep.contents_eq⟩

end EbpfMonitor
