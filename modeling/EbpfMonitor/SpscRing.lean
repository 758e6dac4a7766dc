import Mathlib.Tactic.NormNum
import EbpfMonitor.Lib.Circular

/-! # The lock-free ring `SpscRing`

The embedding of `src/dpdk_sim/spsc_ring.h`, one operation at a time.

* **Words.** `std::size_t` is `BitVec 64` (`SizeT`), so `h - t`, `h + 1` and `h & MASK` are
  the wrapping operations of the source.
* **Capacity.** The template argument together with its `static_assert`; as a non-zero
  `size_t` it is one of the powers `1, 2, …, 2 ^ 63` (`Capacity.exists_pow`).
* **Slots.** `data_` is a function on `Fin Capacity`; the only way to name a slot is
  `Capacity.slot`, which masks a counter.
* **Items.** The array argument `const T* items` of `enqueue_burst` is a function of the
  index, and `dequeue_burst` returns the list of the items it stores through its pointer.

`Represents r q` relates the ring to the queue of the items between its two counters.
Every operation has one specification lemma against it (`Represents.enqueue` and so on);
what is built over the ring uses these lemmas and never unfolds an operation. -/

namespace EbpfMonitor

open Circular

/-- `std::size_t`. -/
abbrev SizeT := BitVec 64

/-! ### Capacities -/

/-- A template argument `Capacity` that passes
`static_assert((Capacity & (Capacity - 1)) == 0)` and is not zero. -/
structure Capacity where
  val : SizeT
  ne_zero : val ≠ 0
  pow2 : val &&& (val - 1) = 0

namespace Capacity

variable (cap : Capacity)

/-- The capacity as a number. -/
def size : ℕ := cap.val.toNat

/-- `MASK = Capacity - 1`. -/
def mask : SizeT := cap.val - 1

theorem size_pos : 0 < cap.size := by
  have h : cap.val.toNat ≠ 0 := fun h => cap.ne_zero (BitVec.eq_of_toNat_eq (by simpa using h))
  unfold size
  omega

instance : NeZero cap.size := ⟨cap.size_pos.ne'⟩

theorem toNat_mask : cap.mask.toNat = cap.size - 1 := by
  have := cap.size_pos
  unfold mask size at *
  bv_omega

/-- The `static_assert` leaves exactly the powers of two. -/
theorem exists_pow : ∃ k, k < 64 ∧ cap.size = 2 ^ k := by
  have hand : cap.size &&& (cap.size - 1) = 0 := by
    have h := congrArg BitVec.toNat cap.pow2
    rw [BitVec.toNat_and] at h
    rw [← toNat_mask]
    exact h
  obtain ⟨k, hk⟩ := (Nat.and_sub_one_eq_zero_iff_isPowerOfTwo cap.size_pos.ne').mp hand
  have hlt : cap.size < 2 ^ 64 := cap.val.isLt
  exact ⟨k, (Nat.pow_lt_pow_iff_right (by norm_num)).mp (hk ▸ hlt), hk⟩

theorem size_le : cap.size ≤ 2 ^ 63 := by
  obtain ⟨k, hk, hs⟩ := cap.exists_pow
  rw [hs]
  exact Nat.pow_le_pow_right (by norm_num) (by omega)

theorem size_dvd : cap.size ∣ 2 ^ 64 := by
  obtain ⟨k, hk, hs⟩ := cap.exists_pow
  rw [hs]
  exact Nat.pow_dvd_pow 2 hk.le

theorem toNat_and_mask_lt (x : SizeT) : (x &&& cap.mask).toNat < cap.size := by
  obtain ⟨k, _, hs⟩ := cap.exists_pow
  rw [toNat_and_mask (hs ▸ cap.toNat_mask) x, hs]
  exact Nat.mod_lt _ (Nat.two_pow_pos k)

/-- The slot `x & MASK` of a counter value. -/
def slot (x : SizeT) : Fin cap.size := ⟨(x &&& cap.mask).toNat, cap.toNat_and_mask_lt x⟩

theorem slot_eq (x : SizeT) : cap.slot x = Fin.ofNat cap.size x.toNat := by
  obtain ⟨k, _, hs⟩ := cap.exists_pow
  apply Fin.ext
  show (x &&& cap.mask).toNat = x.toNat % cap.size
  rw [toNat_and_mask (hs ▸ cap.toNat_mask) x, hs]

/-- The slot `i` places after the counter `x`. -/
theorem slot_add (x : SizeT) (i : ℕ) :
    cap.slot (x + BitVec.ofNat 64 i) = Fin.ofNat cap.size (x.toNat + i) := by
  rw [slot_eq, cell_eq_iff]
  exact toNat_add_ofNat_modEq cap.size_dvd x i

theorem one_lt_width : 1 < 64 := by norm_num

/-- The capacity `2 ^ k`. -/
def ofPow (k : ℕ) (hk : k < 64) : Capacity where
  val := BitVec.ofNat 64 (2 ^ k)
  ne_zero := by
    intro h
    have h1 := congrArg BitVec.toNat h
    have h2 : 2 ^ k < 2 ^ 64 := Nat.pow_lt_pow_right (by norm_num) hk
    rw [BitVec.toNat_ofNat, Nat.mod_eq_of_lt h2] at h1
    exact absurd h1 (Nat.two_pow_pos k).ne'
  pow2 := by
    have h2 : 2 ^ k < 2 ^ 64 := Nat.pow_lt_pow_right (by norm_num) hk
    have h3 := Nat.two_pow_pos k
    have hm : (BitVec.ofNat 64 (2 ^ k) - 1).toNat = 2 ^ k - 1 := by bv_omega
    apply BitVec.eq_of_toNat_eq
    rw [toNat_and_mask hm, BitVec.toNat_ofNat, Nat.mod_eq_of_lt h2, Nat.mod_self]
    rfl

end Capacity

/-! ### The ring and its operations -/

/-- `SpscRing<T, Capacity>`: the two free-running counters and the slots. -/
structure SpscRing (T : Type) (cap : Capacity) where
  head : SizeT
  tail : SizeT
  data : Fin cap.size → T

namespace SpscRing

variable {T : Type} {cap : Capacity}

/-- A ring whose counters both start at `start`. -/
def init (start : SizeT) (data : Fin cap.size → T) : SpscRing T cap := ⟨start, start, data⟩

/-- `enqueue(item)`. -/
def enqueue (r : SpscRing T cap) (item : T) : Bool × SpscRing T cap :=
  let h := r.head
  let t := r.tail
  if h - t ≥ cap.val then (false, r)
  else (true, { r with data := Function.update r.data (cap.slot h) item, head := h + 1 })

/-- `dequeue(item)`: the item, or `none` for the result `false`. -/
def dequeue (r : SpscRing T cap) : Option T × SpscRing T cap :=
  let t := r.tail
  let h := r.head
  if t = h then (none, r)
  else (some (r.data (cap.slot t)), { r with tail := t + 1 })

/-- The copy loop of `enqueue_burst`: `data_[(h + i) & MASK] = items[i]` for `i < n`. -/
def writeItems (data : Fin cap.size → T) (h : SizeT) (items : ℕ → T) : ℕ → Fin cap.size → T
  | 0 => data
  | i + 1 => Function.update (writeItems data h items i) (cap.slot (h + BitVec.ofNat 64 i)) (items i)

/-- The copy loop of `dequeue_burst`: `items[i] = data_[(t + i) & MASK]` for `i < n`. -/
def readItems (data : Fin cap.size → T) (t : SizeT) (n : ℕ) : List T :=
  (List.range n).map (fun i => data (cap.slot (t + BitVec.ofNat 64 i)))

/-- `enqueue_burst(items, n)`. -/
def enqueueBurst (r : SpscRing T cap) (items : ℕ → T) (n : SizeT) : SizeT × SpscRing T cap :=
  let h := r.head
  let t := r.tail
  let free := cap.val - (h - t)
  let cnt := if n < free then n else free
  (cnt, { r with data := writeItems r.data h items cnt.toNat, head := h + cnt })

/-- `dequeue_burst(items, n)`: the count and the items stored. -/
def dequeueBurst (r : SpscRing T cap) (n : SizeT) : (SizeT × List T) × SpscRing T cap :=
  let t := r.tail
  let h := r.head
  let avail := h - t
  let cnt := if n < avail then n else avail
  ((cnt, readItems r.data t cnt.toNat), { r with tail := t + cnt })

def size (r : SpscRing T cap) : SizeT := r.head - r.tail
def empty (r : SpscRing T cap) : Bool := r.size == 0
def full (r : SpscRing T cap) : Bool := decide (r.size ≥ cap.val)

/-- The items between the two counters, oldest first. -/
def contents (r : SpscRing T cap) : List T := readItems r.data r.tail r.size.toNat

/-! ### The queue a ring represents -/

/-- `q` is the queue of the items between the two counters. -/
structure Represents (r : SpscRing T cap) (q : List T) : Prop where
  length_le : q.length ≤ cap.size
  head_eq : r.head = r.tail + BitVec.ofNat 64 q.length
  cells : Holds r.data r.tail.toNat q

theorem represents_init (start : SizeT) (data : Fin cap.size → T) :
    Represents (init start data) [] where
  length_le := Nat.zero_le _
  head_eq := by simp [init]
  cells := Holds.nil _ _

theorem readItems_eq (data : Fin cap.size → T) (t : SizeT) {q : List T}
    (h : Holds data t.toNat q) {n : ℕ} (hn : n ≤ q.length) : readItems data t n = q.take n := by
  unfold readItems
  simp only [Capacity.slot_add]
  exact h.read hn

/-- The copy loop of `enqueue_burst` appends to a window that has room for it. -/
theorem writeItems_holds {data : Fin cap.size → T} {base : ℕ} {q : List T} (h : SizeT)
    (items : ℕ → T) (hq : Holds data base q) (hh : h.toNat ≡ base + q.length [MOD cap.size]) :
    ∀ n, q.length + n ≤ cap.size →
      Holds (writeItems data h items n) base (q ++ (List.range n).map items)
  | 0, _ => by simpa [writeItems] using hq
  | n + 1, hn => by
      have ih := writeItems_holds h items hq hh n (by omega)
      have hslot : cap.slot (h + BitVec.ofNat 64 n) =
          Fin.ofNat cap.size (base + (q ++ (List.range n).map items).length) := by
        rw [Capacity.slot_add, cell_eq_iff]
        simpa [Nat.add_assoc] using hh.add_right n
      have hp := ih.push (by simp; omega) (items n)
      rw [← hslot] at hp
      rw [List.range_succ, List.map_append, ← List.append_assoc]
      exact hp

namespace Represents

variable {r : SpscRing T cap} {q : List T}

theorem length_lt (h : Represents r q) : q.length < 2 ^ 64 :=
  lt_of_le_of_lt h.length_le (lt_of_le_of_lt cap.size_le (by norm_num))

theorem toNat_sub (h : Represents r q) : (r.head - r.tail).toNat = q.length := by
  rw [h.head_eq]
  exact toNat_add_ofNat_sub h.length_lt

theorem head_modEq (h : Represents r q) : r.head.toNat ≡ r.tail.toNat + q.length [MOD cap.size] := by
  rw [h.head_eq]
  exact toNat_add_ofNat_modEq cap.size_dvd _ _

theorem toNat_size (h : Represents r q) : r.size.toNat = q.length := h.toNat_sub

theorem contents_eq (h : Represents r q) : r.contents = q := by
  unfold contents
  rw [h.toNat_size, readItems_eq _ _ h.cells le_rfl, List.take_length]

theorem head_eq_tail_iff (h : Represents r q) : r.tail = r.head ↔ q = [] := by
  constructor
  · intro he
    have := h.toNat_sub
    rw [he, BitVec.sub_self] at this
    exact List.eq_nil_of_length_eq_zero this.symm
  · rintro rfl
    rw [h.head_eq]
    simp

theorem cap_le_sub_iff (h : Represents r q) : r.head - r.tail ≥ cap.val ↔ q.length = cap.size := by
  have hle := h.length_le
  rw [ge_iff_le, BitVec.le_def, h.toNat_sub]
  unfold Capacity.size at *
  omega

/-- The room computed as `Capacity - (h - t)` is the number of free slots. -/
theorem toNat_room (h : Represents r q) : (cap.val - (r.head - r.tail)).toNat = cap.size - q.length := by
  have h1 := h.toNat_sub
  have h2 := h.length_le
  unfold Capacity.size at *
  bv_omega

/-- The publishing store `head_ = h + n` after `n` items were written behind the queue. -/
theorem publish (h : Represents r q) {data : Fin cap.size → T} {xs : List T}
    (hd : Holds data r.tail.toNat (q ++ xs)) (hlen : (q ++ xs).length ≤ cap.size) :
    Represents { r with data := data, head := r.head + BitVec.ofNat 64 xs.length } (q ++ xs) where
  length_le := hlen
  head_eq := by
    show r.head + BitVec.ofNat 64 xs.length = _
    rw [h.head_eq, List.length_append, BitVec.ofNat_add, BitVec.add_assoc]
  cells := hd

/-- The store `tail_ = t + n` that gives up the first `n` items. -/
theorem release {xs ys : List T} (h : Represents r (xs ++ ys)) :
    Represents { r with tail := r.tail + BitVec.ofNat 64 xs.length } ys where
  length_le := by
    have := h.length_le
    rw [List.length_append] at this
    omega
  head_eq := by
    show r.head = r.tail + BitVec.ofNat 64 xs.length + BitVec.ofNat 64 ys.length
    rw [h.head_eq, List.length_append, BitVec.ofNat_add, BitVec.add_assoc]
  cells := h.cells.right.of_modEq (toNat_add_ofNat_modEq cap.size_dvd _ _)

theorem release_cons {x : T} (h : Represents r (x :: q)) :
    Represents { r with tail := r.tail + 1 } q :=
  @release T cap r [x] q h

theorem enqueue_full (h : Represents r q) (hf : q.length = cap.size) (item : T) :
    r.enqueue item = (false, r) := by
  unfold SpscRing.enqueue
  rw [if_pos (h.cap_le_sub_iff.mpr hf)]

theorem enqueue_room (h : Represents r q) (hf : q.length < cap.size) (item : T) :
    (r.enqueue item).1 = true ∧ Represents (r.enqueue item).2 (q ++ [item]) := by
  unfold SpscRing.enqueue
  rw [if_neg (fun he => absurd (h.cap_le_sub_iff.mp he) hf.ne)]
  refine ⟨rfl, ?_⟩
  have hp := h.cells.push hf item
  rw [← (cell_eq_iff _ _).mpr h.head_modEq, ← Capacity.slot_eq] at hp
  exact h.publish hp (by simp; omega)

theorem dequeue_nil (h : Represents r []) : r.dequeue = (none, r) := by
  unfold SpscRing.dequeue
  rw [if_pos (h.head_eq_tail_iff.mpr rfl)]

theorem dequeue_cons {x : T} (h : Represents r (x :: q)) :
    r.dequeue.1 = some x ∧ Represents r.dequeue.2 q := by
  unfold SpscRing.dequeue
  rw [if_neg (fun he => absurd (h.head_eq_tail_iff.mp he) (List.cons_ne_nil _ _))]
  refine ⟨?_, h.release_cons⟩
  have := h.cells 0 (by simp)
  rw [Nat.add_zero, ← Capacity.slot_eq] at this
  exact congrArg some this

/-- `enqueue_burst` accepts the first `min n (Capacity - |q|)` items. -/
theorem enqueueBurst (h : Represents r q) (items : ℕ → T) (n : SizeT) :
    (r.enqueueBurst items n).1.toNat = min n.toNat (cap.size - q.length) ∧
      Represents (r.enqueueBurst items n).2
        (q ++ (List.range (min n.toNat (cap.size - q.length))).map items) := by
  have hle := h.length_le
  have hcnt : (r.enqueueBurst items n).1.toNat = min n.toNat (cap.size - q.length) := by
    rw [← h.toNat_room]
    exact toNat_clamp _ _
  refine ⟨hcnt, ?_⟩
  have hw := writeItems_holds r.head items h.cells h.head_modEq
    (min n.toNat (cap.size - q.length)) (by omega)
  have hp := h.publish hw (by simp; omega)
  rw [← hcnt] at hp ⊢
  simpa [SpscRing.enqueueBurst] using hp

/-- `dequeue_burst` returns the first `min n |q|` items. -/
theorem dequeueBurst (h : Represents r q) (n : SizeT) :
    (r.dequeueBurst n).1.1.toNat = min n.toNat q.length ∧
      (r.dequeueBurst n).1.2 = q.take (min n.toNat q.length) ∧
      Represents (r.dequeueBurst n).2 (q.drop (min n.toNat q.length)) := by
  have hcnt : (r.dequeueBurst n).1.1.toNat = min n.toNat q.length := by
    rw [← h.toNat_sub]
    exact toNat_clamp _ _
  refine ⟨hcnt, ?_, ?_⟩
  · rw [← hcnt]
    exact readItems_eq _ _ h.cells (hcnt.le.trans (min_le_right _ _))
  · rw [← List.take_append_drop (min n.toNat q.length) q] at h
    have hr := h.release
    rw [List.length_take, min_eq_left (min_le_right _ _), ← hcnt] at hr
    rw [← hcnt]
    simpa [SpscRing.dequeueBurst] using hr

end Represents

end SpscRing

end EbpfMonitor
