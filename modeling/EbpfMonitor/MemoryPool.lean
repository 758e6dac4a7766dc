import Mathlib.Data.List.Perm.Subperm
import Mathlib.Data.List.FinRange
import EbpfMonitor.Lib.Runs
import EbpfMonitor.SpscRing

/-! # The object pool `MemoryPool`

The embedding of `src/dpdk_sim/memory_pool.h`.  A pointer `&storage_[i]` is the number `i`
of its block, an element of `Fin PoolSize`; `nullptr` is `none`.  The pool throws the
results of its internal `enqueue` and `enqueue_burst` calls away, on the strength of the
remark that the free list cannot be full.

`Client` is a pool together with the slots its user holds; `Client.step` plays a call and
is enabled only when the user frees slots it holds, each once.  The invariant is
`Client.Ok`: the free list and the held slots are together a permutation of all slots.
From it follow the promises collected in `Client.Sound`, which `memoryPool_sound` proves
for every history of calls; the discarded results are among them. -/

namespace EbpfMonitor

open SpscRing

/-- `MemoryPool<T, PoolSize>`: the free list and the allocation counter. -/
structure MemoryPool (P : Capacity) where
  freeRing : SpscRing (Fin P.size) P
  totalAllocs : SizeT

namespace MemoryPool

variable {P : Capacity}

/-! ### Operations -/

/-- The free list after the first `n` rounds of the constructor's loop. -/
def populate (data : Fin P.size → Fin P.size) : ℕ → SpscRing (Fin P.size) P
  | 0 => SpscRing.init 0 data
  | i + 1 => ((populate data i).enqueue (Fin.ofNat P.size i)).2

/-- `MemoryPool()`. -/
def construct (data : Fin P.size → Fin P.size) : MemoryPool P := ⟨populate data P.size, 0⟩

/-- `alloc()`. -/
def alloc (p : MemoryPool P) : Option (Fin P.size) × MemoryPool P :=
  match p.freeRing.dequeue with
  | (some obj, ring) => (some obj, ⟨ring, p.totalAllocs + 1⟩)
  | (none, ring) => (none, { p with freeRing := ring })

/-- `free(obj)`. -/
def free (p : MemoryPool P) (obj : Fin P.size) : MemoryPool P :=
  { p with freeRing := (p.freeRing.enqueue obj).2 }

/-- The loop of `alloc_burst`, for at most `k` further rounds: the objects stored. -/
def allocLoop : ℕ → MemoryPool P → List (Fin P.size) × MemoryPool P
  | 0, p => ([], p)
  | k + 1, p =>
      match p.freeRing.dequeue with
      | (none, ring) => ([], { p with freeRing := ring })
      | (some obj, ring) =>
          let rest := allocLoop k ⟨ring, p.totalAllocs + 1⟩
          (obj :: rest.1, rest.2)

/-- `alloc_burst(objs, n)`: the objects stored; their number is the count returned. -/
def allocBurst (p : MemoryPool P) (n : SizeT) : List (Fin P.size) × MemoryPool P :=
  allocLoop n.toNat p

/-- `free_burst(objs, n)`. -/
def freeBurst (p : MemoryPool P) (objs : ℕ → Fin P.size) (n : SizeT) : MemoryPool P :=
  { p with freeRing := (p.freeRing.enqueueBurst objs n).2 }

def available (p : MemoryPool P) : SizeT := p.freeRing.size
def inUse (p : MemoryPool P) : SizeT := P.val - p.available

/-! ### Specifications against the free list -/

section specs

variable {p : MemoryPool P} {q : List (Fin P.size)}

/-- The constructor's loop fills the free list in order, and no round fails. -/
theorem represents_populate (data : Fin P.size → Fin P.size) :
    ∀ n ≤ P.size, Represents (populate data n) ((List.range n).map (Fin.ofNat P.size))
  | 0, _ => represents_init 0 data
  | n + 1, hn => by
      have ih := represents_populate data n (by omega)
      rw [List.range_succ, List.map_append]
      exact (ih.enqueue_room (by simp; omega) (Fin.ofNat P.size n)).2

theorem populate_enqueue (data : Fin P.size → Fin P.size) {i : ℕ} (hi : i < P.size) :
    ((populate data i).enqueue (Fin.ofNat P.size i)).1 = true :=
  ((represents_populate data i hi.le).enqueue_room (by simpa using hi) _).1

theorem map_ofNat_range : (List.range P.size).map (Fin.ofNat P.size) = List.finRange P.size := by
  apply List.ext_getElem
  · simp
  · intro i h1 h2
    simp only [List.length_map, List.length_range] at h1
    apply Fin.ext
    simp [Nat.mod_eq_of_lt h1]

theorem represents_construct (data : Fin P.size → Fin P.size) :
    Represents (construct data).freeRing (List.finRange P.size) := by
  rw [← map_ofNat_range]
  exact represents_populate data P.size le_rfl

theorem alloc_nil (h : Represents p.freeRing []) : p.alloc = (none, p) := by
  unfold alloc
  rw [h.dequeue_nil]

theorem alloc_cons {x : Fin P.size} (h : Represents p.freeRing (x :: q)) :
    p.alloc.1 = some x ∧ Represents p.alloc.2.freeRing q ∧
      p.alloc.2.totalAllocs = p.totalAllocs + 1 := by
  obtain ⟨h1, h2⟩ := h.dequeue_cons
  have he : p.freeRing.dequeue = (some x, p.freeRing.dequeue.2) := Prod.ext h1 rfl
  unfold alloc
  rw [he]
  exact ⟨rfl, h2, rfl⟩

/-- The loop of `alloc_burst` takes from the front of the free list until it is empty. -/
theorem allocLoop_spec : ∀ (k : ℕ) (p : MemoryPool P) (q : List (Fin P.size)),
    Represents p.freeRing q →
      (allocLoop k p).1 = q.take k ∧ Represents (allocLoop k p).2.freeRing (q.drop k) ∧
        (allocLoop k p).2.totalAllocs = p.totalAllocs + BitVec.ofNat 64 (q.take k).length
  | 0, p, q, h => by simpa [allocLoop] using h
  | k + 1, p, [], h => by
      unfold allocLoop
      rw [h.dequeue_nil]
      simpa using h
  | k + 1, p, x :: q, h => by
      obtain ⟨h1, h2⟩ := h.dequeue_cons
      have he : p.freeRing.dequeue = (some x, p.freeRing.dequeue.2) := Prod.ext h1 rfl
      obtain ⟨i1, i2, i3⟩ := allocLoop_spec k ⟨p.freeRing.dequeue.2, p.totalAllocs + 1⟩ q h2
      unfold allocLoop
      rw [he]
      refine ⟨congrArg (x :: ·) i1, i2, ?_⟩
      rw [i3, List.take_succ_cons, List.length_cons, Nat.add_comm, BitVec.ofNat_add, BitVec.add_assoc]
      rfl

theorem toNat_available (h : Represents p.freeRing q) : p.available.toNat = q.length := h.toNat_size

theorem toNat_inUse (h : Represents p.freeRing q) : p.inUse.toNat = P.size - q.length := h.toNat_room

end specs

/-! ### A pool and its user -/

/-- A call of the pool's interface. -/
inductive Call (P : Capacity) where
  | alloc
  | free (obj : Fin P.size)
  | allocBurst (n : SizeT)
  | freeBurst (objs : ℕ → Fin P.size) (n : SizeT)

/-- The pool, the slots its user holds, and the number of slots ever handed out. -/
structure Client (P : Capacity) where
  pool : MemoryPool P
  held : List (Fin P.size)
  handedOut : ℕ

/-- The first `n` pointers of an array. -/
def pointers (objs : ℕ → Fin P.size) (n : SizeT) : List (Fin P.size) := (List.range n.toNat).map objs

namespace Client

def init (data : Fin P.size → Fin P.size) : Client P := ⟨construct data, [], 0⟩

/-- The user frees slots it holds, each once. -/
def MayFree (c : Client P) (ps : List (Fin P.size)) : Prop := ps.Nodup ∧ ∀ p ∈ ps, p ∈ c.held

instance (c : Client P) (ps : List (Fin P.size)) : Decidable (c.MayFree ps) :=
  inferInstanceAs (Decidable (_ ∧ _))

/-- Play a call; a call that frees something the user does not hold is not enabled. -/
def step (c : Client P) : Call P → Option (Client P)
  | .alloc =>
      let r := c.pool.alloc
      some ⟨r.2, r.1.toList ++ c.held, c.handedOut + r.1.toList.length⟩
  | .free obj =>
      if c.MayFree [obj] then some { c with pool := c.pool.free obj, held := c.held.diff [obj] } else none
  | .allocBurst n =>
      let r := c.pool.allocBurst n
      some ⟨r.2, r.1 ++ c.held, c.handedOut + r.1.length⟩
  | .freeBurst objs n =>
      if c.MayFree (pointers objs n) then
        some { c with pool := c.pool.freeBurst objs n, held := c.held.diff (pointers objs n) }
      else none

/-- The free list `q` and the held slots partition the slots. -/
structure Ok (c : Client P) (q : List (Fin P.size)) : Prop where
  ring : Represents c.pool.freeRing q
  partition : (q ++ c.held).Perm (List.finRange P.size)
  allocs : c.pool.totalAllocs = BitVec.ofNat 64 c.handedOut

namespace Ok

variable {c : Client P} {q : List (Fin P.size)}

theorem init (data : Fin P.size → Fin P.size) : (Client.init data).Ok (List.finRange P.size) where
  ring := represents_construct data
  partition := by simp [Client.init]
  allocs := rfl

theorem length_add (h : c.Ok q) : q.length + c.held.length = P.size := by
  have := h.partition.length_eq
  simpa using this

theorem nodup (h : c.Ok q) : (q ++ c.held).Nodup := h.partition.nodup_iff.mpr (List.nodup_finRange _)

theorem not_held (h : c.Ok q) {p : Fin P.size} (hp : p ∈ q) : p ∉ c.held :=
  fun hp' => List.disjoint_of_nodup_append h.nodup hp hp'

/-- The slots a well-behaved user frees fit into the free list. -/
theorem mayFree_length_le (h : c.Ok q) {ps : List (Fin P.size)} (hps : c.MayFree ps) :
    q.length + ps.length ≤ P.size := by
  have h1 := (List.subperm_of_subset hps.1 hps.2).length_le
  have h2 := h.length_add
  omega

/-- Freed slots move from the held ones to the end of the free list. -/
theorem partition_free (h : c.Ok q) {ps : List (Fin P.size)} (hps : c.MayFree ps) :
    (q ++ ps ++ c.held.diff ps).Perm (List.finRange P.size) := by
  have hsub := List.subperm_of_subset hps.1 hps.2
  have hperm : (ps ++ c.held.diff ps).Perm c.held :=
    List.subperm_append_diff_self_of_count_le (fun x _ => hsub.count_le x)
  rw [List.append_assoc]
  exact (hperm.append_left q).trans h.partition

theorem enqueue_held (h : c.Ok q) {p : Fin P.size} (hp : p ∈ c.held) :
    (c.pool.freeRing.enqueue p).1 = true ∧
      Represents (c.pool.freeRing.enqueue p).2 (q ++ [p]) := by
  have hfree : c.MayFree [p] := ⟨List.nodup_singleton p, by simpa using hp⟩
  exact h.ring.enqueue_room (h.mayFree_length_le hfree) p

theorem enqueueBurst_held (h : c.Ok q) {objs : ℕ → Fin P.size} {n : SizeT}
    (hps : c.MayFree (pointers objs n)) :
    (c.pool.freeRing.enqueueBurst objs n).1 = n ∧
      Represents (c.pool.freeRing.enqueueBurst objs n).2 (q ++ pointers objs n) := by
  have hlen := h.mayFree_length_le hps
  rw [pointers, List.length_map, List.length_range] at hlen
  obtain ⟨h1, h2⟩ := h.ring.enqueueBurst objs n
  rw [min_eq_left (by omega)] at h1 h2
  exact ⟨BitVec.eq_of_toNat_eq h1, h2⟩

/-- **One call** keeps the partition. -/
theorem step (h : c.Ok q) {call : Call P} {c' : Client P} (hs : c.step call = some c') :
    ∃ q', c'.Ok q' := by
  cases call with
  | alloc =>
      obtain rfl := Option.some.inj hs
      cases q with
      | nil =>
          rw [alloc_nil h.ring]
          exact ⟨[], h.ring, h.partition, h.allocs⟩
      | cons x q =>
          obtain ⟨h1, h2, h3⟩ := alloc_cons h.ring
          refine ⟨q, h2, ?_, ?_⟩
          · rw [h1]
            exact List.perm_middle.trans h.partition
          · rw [h3, h1, h.allocs]
            exact (BitVec.ofNat_add _ _).symm
  | free obj =>
      simp only [Client.step] at hs
      split_ifs at hs with hfree
      obtain rfl := Option.some.inj hs
      have hmem : obj ∈ c.held := hfree.2 obj List.mem_cons_self
      exact ⟨q ++ [obj], (h.enqueue_held hmem).2, h.partition_free hfree, h.allocs⟩
  | allocBurst n =>
      obtain rfl := Option.some.inj hs
      obtain ⟨h1, h2, h3⟩ := allocLoop_spec n.toNat c.pool q h.ring
      refine ⟨q.drop n.toNat, h2, ?_, ?_⟩
      · show (q.drop n.toNat ++ ((allocLoop n.toNat c.pool).1 ++ c.held)).Perm _
        rw [h1, ← List.append_assoc]
        have hswap : (q.drop n.toNat ++ q.take n.toNat).Perm q := by
          nth_rewrite 3 [← List.take_append_drop n.toNat q]
          exact List.perm_append_comm
        exact (hswap.append_right _).trans h.partition
      · show (allocLoop n.toNat c.pool).2.totalAllocs =
          BitVec.ofNat 64 (c.handedOut + (allocLoop n.toNat c.pool).1.length)
        rw [h3, h1, h.allocs, BitVec.ofNat_add]
  | freeBurst objs n =>
      simp only [Client.step] at hs
      split_ifs at hs with hfree
      obtain rfl := Option.some.inj hs
      exact ⟨q ++ pointers objs n, (h.enqueueBurst_held hfree).2, h.partition_free hfree, h.allocs⟩

end Ok

/-! ### What the pool promises -/

/-- The promises of the pool to a user in the state `c`. -/
structure Sound (c : Client P) : Prop where
  /-- The free list and the held slots partition all slots. -/
  partition : (c.pool.freeRing.contents ++ c.held).Perm (List.finRange P.size)
  /-- `alloc` fails exactly when everything is held. -/
  alloc_none : c.pool.alloc.1 = none ↔ ∀ p, p ∈ c.held
  alloc_fresh : ∀ p, c.pool.alloc.1 = some p → p ∉ c.held
  /-- `alloc_burst(n)` hands out `min n available` different slots, none of them held. -/
  burst_length : ∀ n, (c.pool.allocBurst n).1.length = min n.toNat c.pool.available.toNat
  burst_nodup : ∀ n, (c.pool.allocBurst n).1.Nodup
  burst_fresh : ∀ n, ∀ p ∈ (c.pool.allocBurst n).1, p ∉ c.held
  /-- The results that `free` and `free_burst` discard are full successes. -/
  free_succeeds : ∀ p ∈ c.held, (c.pool.freeRing.enqueue p).1 = true
  freeBurst_succeeds : ∀ objs n, c.MayFree (pointers objs n) →
    (c.pool.freeRing.enqueueBurst objs n).1 = n
  available_add_inUse : c.pool.available.toNat + c.pool.inUse.toNat = P.size
  inUse_eq : c.pool.inUse.toNat = c.held.length
  totalAllocs_eq : c.pool.totalAllocs = BitVec.ofNat 64 c.handedOut

theorem Ok.sound {c : Client P} {q : List (Fin P.size)} (h : c.Ok q) : c.Sound := by
  have hlen := h.length_add
  have hburst : ∀ n : SizeT, (c.pool.allocBurst n).1 = q.take n.toNat :=
    fun n => (allocLoop_spec n.toNat c.pool q h.ring).1
  refine ⟨?_, ?_, ?_, ?_, ?_, ?_, fun p hp => (h.enqueue_held hp).1,
    fun objs n hf => (h.enqueueBurst_held hf).1, ?_, ?_, h.allocs⟩
  · rw [h.ring.contents_eq]
    exact h.partition
  · cases q with
    | nil =>
        rw [alloc_nil h.ring]
        simp only [true_iff]
        intro p
        exact h.partition.mem_iff.mpr (List.mem_finRange p)
    | cons x q =>
        rw [(alloc_cons h.ring).1]
        simp only [reduceCtorEq, false_iff]
        exact fun hall => h.not_held List.mem_cons_self (hall x)
  · intro p hp
    cases q with
    | nil =>
        rw [alloc_nil h.ring] at hp
        cases hp
    | cons x q =>
        rw [(alloc_cons h.ring).1] at hp
        obtain rfl := Option.some.inj hp
        exact h.not_held List.mem_cons_self
  · intro n
    rw [hburst n, List.length_take, toNat_available h.ring]
  · intro n
    rw [hburst n]
    exact (List.take_sublist _ _).nodup (List.Nodup.of_append_left h.nodup)
  · intro n p hp
    rw [hburst n] at hp
    exact h.not_held (List.mem_of_mem_take hp)
  · rw [toNat_available h.ring, toNat_inUse h.ring]
    omega
  · rw [toNat_inUse h.ring]
    omega

end Client

/-- **The pool never hands out a slot twice and never loses one.**  For every pool size,
every round of the constructor's loop succeeds, and after every history of calls in which
the user frees only what it holds the pool keeps its promises. -/
theorem memoryPool_sound (P : Capacity) (data : Fin P.size → Fin P.size) :
    (∀ i < P.size, ((populate data i).enqueue (Fin.ofNat P.size i)).1 = true) ∧
      ∀ (calls : List (Call P)) (c : Client P),
        Runs.run Client.step (Client.init data) calls = some c → c.Sound := by
  refine ⟨fun i hi => populate_enqueue data hi, ?_⟩
  intro calls c h
  obtain ⟨q, hq⟩ := Runs.run_invariant (P := fun c : Client P => ∃ q, c.Ok q)
    (fun _ _ _ ⟨_, hq⟩ hs => hq.step hs) ⟨_, Client.Ok.init data⟩ h
  exact hq.sound

/-- Two slots: exhaust the pool, fail once, return one slot and then both, allocate again. -/
def exhaustAndReturn : List (Call (Capacity.ofPow 1 Capacity.one_lt_width)) :=
  [.alloc, .alloc, .alloc, .free 0, .allocBurst 5, .freeBurst (fun i => if i = 0 then 1 else 0) 2, .alloc]

theorem memoryPool_sound_exhaust :
    ∃ c : Client (Capacity.ofPow 1 Capacity.one_lt_width),
      Runs.run Client.step (Client.init (fun _ => 0)) exhaustAndReturn = some c ∧
      c.Sound ∧ c.held = [1] ∧ c.handedOut = 4 := by
  obtain ⟨c, hc, hheld, hout⟩ : ∃ c : Client (Capacity.ofPow 1 Capacity.one_lt_width),
      Runs.run Client.step (Client.init (fun _ => 0)) exhaustAndReturn = some c ∧
      c.held = [1] ∧ c.handedOut = 4 := ⟨_, rfl, by decide, by decide⟩
  exact ⟨c, hc, (memoryPool_sound _ (fun _ => 0)).2 exhaustAndReturn c hc, hheld, hout⟩

end MemoryPool

end EbpfMonitor
