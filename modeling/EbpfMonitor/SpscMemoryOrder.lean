import EbpfMonitor.Lib.ReleaseAcquire
import EbpfMonitor.SpscInterleaving

/-! # `SpscRing` and its memory orders

`spsc_ring.h` loads its own counter relaxed, the counter of the other side with acquire order, and
stores its own counter with release order; the slots are plain memory.  In
`SpscInterleaving.lean` every load returns the last value stored.  Here the operations run on the
memory of `Lib/ReleaseAcquire.lean`: a load of the other counter may return any value not older
than one the thread has seen, and a slot access that is not ordered after the conflicting accesses
before it is a data race.

* **Sites.**  `Site` says where a ring lives in a memory and which threads use it, so that a
  program can have several rings.
* **Steps.**  `Producer.nextAt` and `Consumer.nextAt` are `Producer.next` and `Consumer.next` with
  the accesses of the source; they coincide when every load reads the last store
  (`Producer.nextAt_latest`).
* **Invariant.**  `Synced` says that the last values of the counters with the slots are a ring in
  the sense of `Inv`, and what the threads know: whoever has read a value of `head_` knows of the
  writes of all items before it, whoever has read a value of `tail_` knows of the reads.

`spscRing_race_free` is the result for one ring: no access of a slot is ever a data race, items
come out in order, and what the producer did before an `enqueue` happens before what the consumer
does after the `dequeue` of that item. -/

namespace EbpfMonitor
namespace SpscRing

open Circular ReleaseAcquire

variable {T : Type} {cap : Capacity} {ι α δ : Type}

/-- Where a ring lives in a memory, and the threads at its two ends. -/
structure Site (cap : Capacity) (ι α δ : Type) where
  producer : ι
  consumer : ι
  head : α
  tail : α
  slot : Fin cap.size → δ
  head_ne_tail : head ≠ tail
  slot_injective : Function.Injective slot

/-- The two ends are different threads, and each stores to its own counter. -/
structure Site.Owned (site : Site cap ι α δ) (owner : α → ι) : Prop where
  head : owner site.head = site.producer
  tail : owner site.tail = site.consumer
  threads_ne : site.producer ≠ site.consumer

/-! ### The accesses of the operations -/

section accesses

variable [DecidableEq ι] [DecidableEq α] [DecidableEq δ]

/-- One elementary step of the producer: `k` is the store from which a load reads. -/
def Producer.nextAt (site : Site cap ι α δ) (m : Memory ι α SizeT δ) (data : Fin cap.size → T) (k : ℕ) :
    Producer T → Option (Memory ι α SizeT δ × (Fin cap.size → T) × Producer T × List T)
  | idle => some (m, data, idle, [])
  | loadHead call =>
      (m.load site.producer site.head .relaxed k).map (fun l => (l.2, data, loadTail call l.1, []))
  | loadTail call h =>
      (m.load site.producer site.tail .acquire k).map (fun l =>
        match call.claim cap h l.1 with
        | none => (l.2, data, idle, [])
        | some cnt => (l.2, data, write call h cnt 0, []))
  | write call h cnt i =>
      if i < cnt.toNat then
        let slot := cap.slot (h + BitVec.ofNat 64 i)
        some (m.write site.producer (site.slot slot), Function.update data slot (call.item i),
          write call h cnt (i + 1), [])
      else
        some (m.store site.producer site.head (h + cnt), data, idle,
          (List.range cnt.toNat).map call.item)

/-- One elementary step of the consumer. -/
def Consumer.nextAt (site : Site cap ι α δ) (m : Memory ι α SizeT δ) (data : Fin cap.size → T) (k : ℕ) :
    Consumer T → Option (Memory ι α SizeT δ × Consumer T × List T)
  | idle => some (m, idle, [])
  | loadTail call =>
      (m.load site.consumer site.tail .relaxed k).map (fun l => (l.2, loadHead call l.1, []))
  | loadHead call t =>
      (m.load site.consumer site.head .acquire k).map (fun l =>
        match call.claim t l.1 with
        | none => (l.2, idle, [])
        | some cnt => (l.2, read t cnt [], []))
  | read t cnt got =>
      if got.length < cnt.toNat then
        let slot := cap.slot (t + BitVec.ofNat 64 got.length)
        some (m.read site.consumer (site.slot slot), read t cnt (got ++ [data slot]), [])
      else some (m.store site.consumer site.tail (t + cnt), idle, got)

variable {owner : α → ι} {site : Site cap ι α δ} {m m' : Memory ι α SizeT δ} {data data' : Fin cap.size → T}
  {p p' : Producer T} {c c' : Consumer T} {k : ℕ} {xs : List T}

/-- A step of the producer stores to `head_` at most, and accesses slots of the ring only. -/
theorem Producer.acts_nextAt (ho : owner site.head = site.producer) (hm : m.Coherent owner)
    (h : p.nextAt site m data k = some (m', data', p', xs)) :
    m.Acts site.producer {site.head} (Set.range site.slot) m' := by
  cases p with
  | idle =>
      obtain ⟨rfl, -⟩ := by simpa [Producer.nextAt] using h
      exact (Memory.Acts.refl _ _).mono (Set.empty_subset _) (Set.empty_subset _)
  | loadHead call =>
      obtain ⟨⟨v, m1⟩, hload, heq⟩ := Option.map_eq_some_iff.mp h
      obtain ⟨rfl, -⟩ := by simpa using heq
      rw [← ho] at hload
      obtain ⟨rfl, -⟩ := hm.load_own hload
      exact (Memory.Acts.refl _ _).mono (Set.empty_subset _) (Set.empty_subset _)
  | loadTail call hd =>
      obtain ⟨⟨v, m1⟩, hload, heq⟩ := Option.map_eq_some_iff.mp h
      have hacts := (Memory.Acts.load_acquire hload).mono (Set.empty_subset {site.head})
        (Set.empty_subset (Set.range site.slot))
      cases hc : call.claim cap hd v with
      | none =>
          obtain ⟨rfl, -⟩ := by simpa [hc] using heq
          exact hacts
      | some cnt =>
          obtain ⟨rfl, -⟩ := by simpa [hc] using heq
          exact hacts
  | write call hd cnt i =>
      by_cases hlt : i < cnt.toNat
      · obtain ⟨rfl, -⟩ := by simpa [Producer.nextAt, hlt] using h
        exact (Memory.Acts.write m _ _).mono (Set.empty_subset _)
          (Set.singleton_subset_iff.mpr (Set.mem_range_self _))
      · obtain ⟨rfl, -⟩ := by simpa [Producer.nextAt, hlt] using h
        exact (Memory.Acts.store (hm.threads _ _).1.le _).mono (le_refl _) (Set.empty_subset _)

/-- A step of the consumer stores to `tail_` at most, and accesses slots of the ring only. -/
theorem Consumer.acts_nextAt (ho : owner site.tail = site.consumer) (hm : m.Coherent owner)
    (h : c.nextAt site m data k = some (m', c', xs)) :
    m.Acts site.consumer {site.tail} (Set.range site.slot) m' := by
  cases c with
  | idle =>
      obtain ⟨rfl, -⟩ := by simpa [Consumer.nextAt] using h
      exact (Memory.Acts.refl _ _).mono (Set.empty_subset _) (Set.empty_subset _)
  | loadTail call =>
      obtain ⟨⟨v, m1⟩, hload, heq⟩ := Option.map_eq_some_iff.mp h
      obtain ⟨rfl, -⟩ := by simpa using heq
      rw [← ho] at hload
      obtain ⟨rfl, -⟩ := hm.load_own hload
      exact (Memory.Acts.refl _ _).mono (Set.empty_subset _) (Set.empty_subset _)
  | loadHead call tl =>
      obtain ⟨⟨v, m1⟩, hload, heq⟩ := Option.map_eq_some_iff.mp h
      have hacts := (Memory.Acts.load_acquire hload).mono (Set.empty_subset {site.tail})
        (Set.empty_subset (Set.range site.slot))
      cases hc : call.claim tl v with
      | none =>
          obtain ⟨rfl, -⟩ := by simpa [hc] using heq
          exact hacts
      | some cnt =>
          obtain ⟨rfl, -⟩ := by simpa [hc] using heq
          exact hacts
  | read tl cnt got =>
      by_cases hlt : got.length < cnt.toNat
      · obtain ⟨rfl, -⟩ := by simpa [Consumer.nextAt, hlt] using h
        exact (Memory.Acts.read m _ _).mono (Set.empty_subset _)
          (Set.singleton_subset_iff.mpr (Set.mem_range_self _))
      · obtain ⟨rfl, -⟩ := by simpa [Consumer.nextAt, hlt] using h
        exact (Memory.Acts.store (hm.threads _ _).1.le _).mono (le_refl _) (Set.empty_subset _)

/-- Items are returned when the call is over. -/
theorem Consumer.nextAt_returns (h : c.nextAt site m data k = some (m', c', xs)) :
    xs = [] ∨ c' = .idle := by
  cases c with
  | idle =>
      obtain ⟨-, rfl, -⟩ := by simpa [Consumer.nextAt] using h
      exact Or.inr rfl
  | loadTail call =>
      obtain ⟨l, -, heq⟩ := Option.map_eq_some_iff.mp h
      obtain ⟨-, -, rfl⟩ := by simpa using heq
      exact Or.inl rfl
  | loadHead call tl =>
      obtain ⟨⟨v, m1⟩, -, heq⟩ := Option.map_eq_some_iff.mp h
      cases hc : call.claim tl v with
      | none =>
          obtain ⟨-, rfl, -⟩ := by simpa [hc] using heq
          exact Or.inr rfl
      | some cnt =>
          obtain ⟨-, -, rfl⟩ := by simpa [hc] using heq
          exact Or.inl rfl
  | read tl cnt got =>
      by_cases hlt : got.length < cnt.toNat
      · obtain ⟨-, -, rfl⟩ := by simpa [Consumer.nextAt, hlt] using h
        exact Or.inl rfl
      · obtain ⟨-, rfl, -⟩ := by simpa [Consumer.nextAt, hlt] using h
        exact Or.inr rfl

end accesses

/-- The ring by the last values stored to its counters. -/
def lastRing (site : Site cap ι α δ) (m : Memory ι α SizeT δ) (data : Fin cap.size → T) :
    SpscRing T cap :=
  ⟨(m.last site.head).getD 0, (m.last site.tail).getD 0, data⟩

/-- The slot the producer's next step writes. -/
def Producer.writesNext (cap : Capacity) : Producer T → Option (Fin cap.size)
  | write _ h cnt i => if i < cnt.toNat then some (cap.slot (h + BitVec.ofNat 64 i)) else none
  | _ => none

/-- The slot the consumer's next step reads. -/
def Consumer.readsNext (cap : Capacity) : Consumer T → Option (Fin cap.size)
  | read t cnt got =>
      if got.length < cnt.toNat then some (cap.slot (t + BitVec.ofNat 64 got.length)) else none
  | _ => none

/-- The number of items the call in progress has claimed. -/
def Consumer.claimed : Consumer T → ℕ
  | read _ cnt _ => cnt.toNat
  | _ => 0

/-- The number of items the call in progress has read. -/
def Consumer.readSoFar : Consumer T → ℕ
  | read _ _ got => got.length
  | _ => 0

/-! ### Counters that may be out of date -/

/-- Counters that are at most the capacity apart always stand for a queue: what is in the slots
between them. -/
theorem represents_of_counters {h t : SizeT} {n : ℕ} (hn : n ≤ cap.size)
    (hh : h = t + BitVec.ofNat 64 n) (data : Fin cap.size → T) :
    Represents ⟨h, t, data⟩ (readItems data t n) where
  length_le := by simpa [readItems] using hn
  head_eq := by simpa [readItems] using hh
  cells := by
    intro i hi
    simp [readItems, Capacity.slot_add]

theorem counters_apart (start : SizeT) {a b : ℕ} (hab : a ≤ b) :
    start + BitVec.ofNat 64 b = start + BitVec.ofNat 64 a + BitVec.ofNat 64 (b - a) := by
  rw [BitVec.add_assoc, ← BitVec.ofNat_add, Nat.add_sub_cancel' hab]

/-- What the producer claims with an old value of `tail_` fits. -/
theorem EnqCall.claim_le_of_stale {call : EnqCall T} {start cnt : SizeT} {h t : ℕ} (hth : t ≤ h)
    (hcap : h ≤ t + cap.size)
    (hc : call.claim cap (start + BitVec.ofNat 64 h) (start + BitVec.ofNat 64 t) = some cnt)
    (data : Fin cap.size → T) : h + cnt.toNat ≤ t + cap.size := by
  have hrep := represents_of_counters (show h - t ≤ cap.size by omega) (counters_apart start hth) data
  have hle := Inv.claim_le hrep hc
  simp only [readItems, List.length_map, List.length_range] at hle
  omega

/-- Items that fit by an old value of `tail_` are all accepted. -/
theorem EnqCall.claim_of_stale {call : EnqCall T} (start : SizeT) {h t : ℕ} (hth : t ≤ h)
    (hfit : h + call.count ≤ t + cap.size) (data : Fin cap.size → T) :
    ∃ cnt, call.claim cap (start + BitVec.ofNat 64 h) (start + BitVec.ofNat 64 t) = some cnt ∧
      cnt.toNat = call.count := by
  have hrep := represents_of_counters (show h - t ≤ cap.size by omega) (counters_apart start hth) data
  refine Inv.claim_of_fits hrep ?_
  simp only [readItems, List.length_map, List.length_range]
  omega

/-- What the consumer claims with an old value of `head_` is there. -/
theorem DeqCall.claim_le_of_stale {call : DeqCall} {start cnt : SizeT} {h t : ℕ} (hth : t ≤ h)
    (hcap : h ≤ t + cap.size)
    (hc : call.claim (start + BitVec.ofNat 64 t) (start + BitVec.ofNat 64 h) = some cnt)
    (data : Fin cap.size → T) : t + cnt.toNat ≤ h := by
  have hrep := represents_of_counters (show h - t ≤ cap.size by omega) (counters_apart start hth) data
  have hle := Inv.claim_le_length hrep hc
  simp only [readItems, List.length_map, List.length_range] at hle
  omega

/-- Positions less than the capacity apart have different slots. -/
theorem slot_ne (start : SizeT) {a b : ℕ} (hab : a < b) (hcap : b < a + cap.size) :
    cap.slot (start + BitVec.ofNat 64 a) ≠ cap.slot (start + BitVec.ofNat 64 b) := by
  rw [Capacity.slot_add, Capacity.slot_add]
  exact cell_ne (by omega) (by omega)

/-! ### What a counter publishes -/

/-- The slot is that of a position from `a` on and before `b`. -/
def Between (cap : Capacity) (start : SizeT) (a b : ℕ) (d : Fin cap.size) : Prop :=
  ∃ n, a ≤ n ∧ n < b ∧ cap.slot (start + BitVec.ofNat 64 n) = d

/-- A counter `x` that thread `i` has moved to position `last`, while it has accessed the slots of
all positions before `reached`; `pos k` is the position of store number `k`, and `stamp` says when
the thread last accessed each slot.  Whoever reads from a store knows of the accesses for all
positions before it. -/
structure Counter (m : Memory ι α SizeT δ) (x : α) (i : ι) (stamp : Fin cap.size → ℕ) (start : SizeT)
    (pos : ℕ → ℕ) (last reached : ℕ) : Prop where
  values : ∀ k (msg : Message ι α SizeT), (m.history x)[k]? = some msg →
    msg.value = start + BitVec.ofNat 64 (pos k)
  mono : ∀ k l, k ≤ l → l < (m.history x).length → pos k ≤ pos l
  last_eq : pos (m.seen i x) = last
  last_le : last ≤ reached
  known : ∀ k (msg : Message ι α SizeT), (m.history x)[k]? = some msg → ∀ d,
    ¬ Between cap start (pos k) reached d → stamp d ≤ msg.clock i

namespace Counter

theorem init [DecidableEq ι] {value : α → SizeT} {start : SizeT} {n : ℕ} (x : α) (i : ι)
    (hx : value x = start + BitVec.ofNat 64 n) :
    Counter (Memory.init value : Memory ι α SizeT δ) x i (fun _ : Fin cap.size => 0) start (fun _ => n) n
      n where
  values k msg hmsg := by
    obtain rfl := List.mem_singleton.mp (List.mem_of_getElem? hmsg)
    exact hx
  mono _ _ _ _ := le_refl _
  last_eq := rfl
  last_le := le_refl _
  known _ _ _ _ _ := Nat.zero_le _

variable {owner : α → ι} {m m' : Memory ι α SizeT δ} {x : α} {i : ι} {stamp : Fin cap.size → ℕ}
  {start : SizeT} {pos : ℕ → ℕ} {last reached k : ℕ}

theorem pos_le (h : Counter m x i stamp start pos last reached) (hx : owner x = i)
    (hm : m.Coherent owner) (hk : k < (m.history x).length) : pos k ≤ last := by
  have howned := hm.owned x
  rw [hx] at howned
  rw [← h.last_eq]
  exact h.mono k _ (by omega) (by omega)

/-- The last value stored is that of the last position. -/
theorem last_value (h : Counter m x i stamp start pos last reached) (hx : owner x = i)
    (hm : m.Coherent owner) :
    m.last x = some (start + BitVec.ofNat 64 last) := by
  obtain ⟨msg, hmsg, -⟩ := hm.exists_seen i x
  have howned := hm.owned x
  rw [hx] at howned
  rw [Memory.last, List.getLast?_eq_getElem?, ← howned, Nat.add_sub_cancel, hmsg, Option.map_some,
    h.values _ msg hmsg, h.last_eq]

/-- A step that does not store to the counter. -/
theorem frame (h : Counter m x i stamp start pos last reached) (hx : owner x = i)
    (hm : m.Coherent owner) (hm' : m'.Coherent owner) (hhist : m'.history x = m.history x) :
    Counter m' x i stamp start pos last reached where
  values := by rw [hhist]; exact h.values
  mono := by rw [hhist]; exact h.mono
  last_eq := by
    have h1 := hm.owned x
    have h2 := hm'.owned x
    rw [hx] at h1 h2
    rw [hhist] at h2
    rw [show m'.seen i x = m.seen i x by omega]
    exact h.last_eq
  last_le := h.last_le
  known := by rw [hhist]; exact h.known

/-- The thread accesses the slot of the next position. -/
theorem access (h : Counter m x i stamp start pos last reached) (hx : owner x = i)
    (hm : m.Coherent owner) (s : ℕ) :
    Counter m x i (Function.update stamp (cap.slot (start + BitVec.ofNat 64 reached)) s) start pos last
      (reached + 1) where
  values := h.values
  mono := h.mono
  last_eq := h.last_eq
  last_le := h.last_le.trans (Nat.le_succ _)
  known := by
    intro k msg hmsg d hd
    have hk := h.pos_le hx hm (List.getElem?_eq_some_iff.mp hmsg).1
    have hlast := h.last_le
    have hne : d ≠ cap.slot (start + BitVec.ofNat 64 reached) := by
      rintro rfl
      exact hd ⟨reached, by omega, Nat.lt_succ_self _, rfl⟩
    rw [Function.update_of_ne hne]
    exact h.known k msg hmsg d (fun ⟨n, hle, hn, hslot⟩ => hd ⟨n, hle, hn.trans (Nat.lt_succ_self _), hslot⟩)

/-- The thread moves the counter to the position it has reached. -/
theorem store [DecidableEq ι] [DecidableEq α] (h : Counter m x i stamp start pos last reached)
    (hx : owner x = i) (hm : m.Coherent owner) (hstamp : ∀ d, stamp d ≤ m.clock i i) :
    Counter (m.store i x (start + BitVec.ofNat 64 reached)) x i stamp start
      (Function.update pos (m.history x).length reached) reached reached where
  values := by
    intro k msg hmsg
    rcases Memory.getElem?_history_store hmsg with ⟨hlt, hmsg⟩ | ⟨rfl, rfl⟩
    · rw [Function.update_of_ne hlt.ne]
      exact h.values k msg hmsg
    · rw [Function.update_self]
  mono := by
    intro k l hkl hl
    rw [Memory.history_store_self, List.length_append, List.length_singleton] at hl
    rcases Nat.lt_or_ge l (m.history x).length with hlt | hge
    · rw [Function.update_of_ne hlt.ne, Function.update_of_ne (by omega)]
      exact h.mono k l hkl hlt
    · obtain rfl : l = (m.history x).length := by omega
      rw [Function.update_self]
      rcases Nat.lt_or_ge k (m.history x).length with hlt | hge
      · rw [Function.update_of_ne hlt.ne]
        exact (h.pos_le hx hm hlt).trans h.last_le
      · obtain rfl : k = (m.history x).length := by omega
        rw [Function.update_self]
  last_eq := by simp
  last_le := le_refl _
  known := by
    intro k msg hmsg d hd
    rcases Memory.getElem?_history_store hmsg with ⟨hlt, hmsg⟩ | ⟨rfl, rfl⟩
    · rw [Function.update_of_ne hlt.ne] at hd
      exact h.known k msg hmsg d hd
    · exact hstamp d

/-- A thread that knows a value of the counter knows of the accesses for the positions before it. -/
theorem stamp_le (h : Counter m x i stamp start pos last reached) (hm : m.Coherent owner) (j : ι)
    {d : Fin cap.size} (hd : ¬ Between cap start (pos (m.seen j x)) reached d) :
    stamp d ≤ m.clock j i := by
  obtain ⟨msg, hmsg, hclock, -⟩ := hm.exists_seen j x
  exact (h.known _ msg hmsg d hd).trans (hclock i)

end Counter

/-! ### The invariant -/

/-- The ring that the last values stored make up, after `enqueued` items went in and `taken` came
out. -/
def latest (start : SizeT) (enqueued taken : ℕ) (data : Fin cap.size → T) : SpscRing T cap :=
  ⟨start + BitVec.ofNat 64 enqueued, start + BitVec.ofNat 64 taken, data⟩

/-- The ring at `site` after the items `items` went in and the first `taken` of them came out.
`hpos k` is the number of items that store number `k` to `head_` has published, `tpos` is the same
for `tail_`, and `published` are the clocks at which the items were published. -/
structure Synced (site : Site cap ι α δ) (m : Memory ι α SizeT δ) (data : Fin cap.size → T)
    (p : Producer T) (c : Consumer T) (start : SizeT) (items : List T) (taken : ℕ)
    (published : List (ι → ℕ)) (hpos tpos : ℕ → ℕ) : Prop where
  inv : Inv (latest start items.length taken data) p c (items.drop taken)
  head : Counter m site.head site.producer (fun d => m.writes (site.slot d) site.producer) start hpos
    items.length (items.length + p.written.length)
  tail : Counter m site.tail site.consumer (fun d => m.reads (site.slot d) site.consumer) start tpos
    taken (taken + c.readSoFar)
  /-- the claim of the producer is good for the value of `tail_` it knows -/
  room : items.length + p.claimed ≤ tpos (m.seen site.producer site.tail) + cap.size
  avail : taken + c.claimed ≤ hpos (m.seen site.consumer site.head)
  no_other_writes : ∀ d i, i ≠ site.producer → m.writes (site.slot d) i = 0
  no_other_reads : ∀ d i, i ≠ site.consumer → m.reads (site.slot d) i = 0
  published_length : published.length = items.length
  published_le : ∀ k (msg : Message ι α SizeT), (m.history site.head)[k]? = some msg →
    ∀ clock ∈ published.take (hpos k), clock ≤ msg.clock

theorem Producer.written_le_claimed {r : SpscRing T cap} {p : Producer T} (h : p.Consistent r) :
    p.written.length ≤ p.claimed := by
  cases p with
  | write call hd n i => simpa [Producer.written, Producer.claimed] using h.2
  | _ => exact le_refl _

theorem Consumer.readSoFar_le_claimed {r : SpscRing T cap} {q : List T} {c : Consumer T}
    (h : c.Consistent r q) : c.readSoFar ≤ c.claimed := by
  cases c with
  | read t n got => exact h.2.2.1
  | _ => exact le_refl _

namespace Synced

variable {site : Site cap ι α δ} {owner : α → ι} {m m' : Memory ι α SizeT δ} {data : Fin cap.size → T}
  {p p' : Producer T} {c c' : Consumer T} {start : SizeT} {items : List T} {taken : ℕ}
  {published : List (ι → ℕ)} {hpos tpos : ℕ → ℕ} {k : ℕ}

theorem taken_le (h : Synced site m data p c start items taken published hpos tpos)
    (ho : site.Owned owner) (hm : m.Coherent owner) : taken + c.claimed ≤ items.length :=
  h.avail.trans (h.head.pos_le ho.head hm (hm.threads site.consumer site.head).1)

/-- The ring holds the items that did not come out yet. -/
theorem contents_lastRing (h : Synced site m data p c start items taken published hpos tpos)
    (ho : site.Owned owner) (hm : m.Coherent owner) :
    (lastRing site m data).contents = items.drop taken := by
  rw [lastRing, h.head.last_value ho.head hm, h.tail.last_value ho.tail hm]
  exact h.inv.represents.contents_eq

/-- A ring that is set up before the threads start. -/
theorem init [DecidableEq ι] (site : Site cap ι α δ) {r : SpscRing T cap} {q : List T}
    (hr : Represents r q) (value : α → SizeT) (hhead : value site.head = r.head)
    (htail : value site.tail = r.tail) :
    Synced site (Memory.init value) r.data .idle .idle r.tail q 0 (List.replicate q.length (fun _ => 0))
      (fun _ => q.length) (fun _ => 0) where
  inv := by
    have hlatest : latest r.tail q.length 0 r.data = r := by
      rw [latest, ← hr.head_eq, BitVec.add_zero]
    rw [hlatest]
    exact Inv.of_represents hr
  head := Counter.init _ _ (hhead.trans hr.head_eq)
  tail := Counter.init _ _ (htail.trans (by simp))
  room := hr.length_le.trans (Nat.le_add_left _ _)
  avail := Nat.zero_le _
  no_other_writes _ _ _ := rfl
  no_other_reads _ _ _ := rfl
  published_length := List.length_replicate
  published_le _ _ _ _ hclock := by
    rw [List.eq_of_mem_replicate (List.mem_of_mem_take hclock)]
    exact fun _ => Nat.zero_le _

/-- A step that leaves the counters and slots of the ring alone. -/
theorem frame (h : Synced site m data p c start items taken published hpos tpos)
    (ho : site.Owned owner) (hm : m.Coherent owner) (hm' : m'.Coherent owner) {i : ι} {A : Set α}
    {D : Set δ} (hacts : m.Acts i A D m') (hheadA : site.head ∉ A) (htailA : site.tail ∉ A)
    (hslot : ∀ d, site.slot d ∉ D) :
    Synced site m' data p c start items taken published hpos tpos := by
  have hhead := hacts.history site.head hheadA
  have htail := hacts.history site.tail htailA
  have hwrites : ∀ d j, m'.writes (site.slot d) j = m.writes (site.slot d) j :=
    fun d j => hacts.writes _ j (Or.inl (hslot d))
  have hreads : ∀ d j, m'.reads (site.slot d) j = m.reads (site.slot d) j :=
    fun d j => hacts.reads _ j (Or.inl (hslot d))
  refine ⟨h.inv, ?_, ?_, ?_, ?_, ?_, ?_, h.published_length, ?_⟩
  · simpa only [hwrites] using h.head.frame ho.head hm hm' hhead
  · simpa only [hreads] using h.tail.frame ho.tail hm hm' htail
  · have hlt := (hm'.threads site.producer site.tail).1
    rw [htail] at hlt
    exact h.room.trans (Nat.add_le_add_right (h.tail.mono _ _ (hacts.seen _ _) hlt) _)
  · have hlt := (hm'.threads site.consumer site.head).1
    rw [hhead] at hlt
    exact h.avail.trans (h.head.mono _ _ (hacts.seen _ _) hlt)
  · simpa only [hwrites] using h.no_other_writes
  · simpa only [hreads] using h.no_other_reads
  · rw [hhead]
    exact h.published_le

/-- The producer moves on without an access. -/
theorem move_producer (h : Synced site m data p c start items taken published hpos tpos)
    (hinv : Inv (latest start items.length taken data) p' c (items.drop taken))
    (hroom : items.length + p'.claimed ≤ tpos (m.seen site.producer site.tail) + cap.size)
    (hwritten : p'.written.length = p.written.length) :
    Synced site m data p' c start items taken published hpos tpos :=
  { h with inv := hinv, room := hroom, head := by rw [hwritten]; exact h.head }

theorem move_consumer (h : Synced site m data p c start items taken published hpos tpos)
    (hinv : Inv (latest start items.length taken data) p c' (items.drop taken))
    (havail : taken + c'.claimed ≤ hpos (m.seen site.consumer site.head))
    (hread : c'.readSoFar = c.readSoFar) :
    Synced site m data p c' start items taken published hpos tpos :=
  { h with inv := hinv, avail := havail, tail := by rw [hread]; exact h.tail }

/-- The test against a value of `tail_` that may be out of date. -/
theorem claim_producer {call : EnqCall T} {hd : SizeT}
    (h : Synced site m data (.loadTail call hd) c start items taken published hpos tpos)
    (ho : site.Owned owner) (hm : m.Coherent owner) {cnt : SizeT}
    (hc : call.claim cap hd (start + BitVec.ofNat 64 (tpos (m.seen site.producer site.tail))) =
      some cnt) : Synced site m data (.write call hd cnt 0) c start items taken published hpos tpos := by
  obtain rfl : hd = start + BitVec.ofNat 64 items.length := h.inv.producer
  have htaken := h.taken_le ho hm
  have hle := h.tail.pos_le ho.tail hm (hm.threads site.producer site.tail).1
  have hroom := EnqCall.claim_le_of_stale (by omega) h.room hc data
  refine h.move_producer ⟨?_, h.inv.head_eq, h.inv.cells, ⟨rfl, Nat.zero_le _⟩, h.inv.consumer⟩ hroom rfl
  show (items.drop taken).length + cnt.toNat ≤ cap.size
  rw [List.length_drop]
  omega

/-- What the consumer claims with a value of `head_` that may be out of date. -/
theorem claim_consumer {call : DeqCall} {tl : SizeT}
    (h : Synced site m data p (.loadHead call tl) start items taken published hpos tpos)
    (ho : site.Owned owner) (hm : m.Coherent owner) {cnt : SizeT}
    (hc : call.claim tl (start + BitVec.ofNat 64 (hpos (m.seen site.consumer site.head))) = some cnt) :
    Synced site m data p (.read tl cnt []) start items taken published hpos tpos := by
  obtain rfl : tl = start + BitVec.ofNat 64 taken := h.inv.consumer
  have hle := h.head.pos_le ho.head hm (hm.threads site.consumer site.head).1
  have hroom := h.inv.represents.length_le
  rw [List.length_drop] at hroom
  have havail := DeqCall.claim_le_of_stale h.avail (by omega) hc data
  refine h.move_consumer ⟨h.inv.room, h.inv.head_eq, h.inv.cells, h.inv.producer, rfl, ?_, Nat.zero_le _,
    rfl⟩ havail rfl
  rw [List.length_drop]
  omega

/-- **The producer's next write is not a race**: the last reader of the slot read it for a position
before the `tail_` that the producer knows. -/
theorem writable (h : Synced site m data p c start items taken published hpos tpos)
    (ho : site.Owned owner) (hm : m.Coherent owner) {d : Fin cap.size}
    (hd : p.writesNext cap = some d) : m.Writable site.producer (site.slot d) := by
  cases p with
  | write call hd' cnt i =>
      obtain ⟨hlt, hslot⟩ := Option.ite_none_right_eq_some.mp hd
      obtain ⟨hhead, -⟩ := h.inv.producer
      obtain rfl : hd' = start + BitVec.ofNat 64 items.length := hhead
      obtain rfl := Option.some.inj hslot
      have htaken := h.taken_le ho hm
      have hroom : items.length + cnt.toNat ≤ tpos (m.seen site.producer site.tail) + cap.size := h.room
      have hread := Consumer.readSoFar_le_claimed h.inv.consumer
      intro j
      constructor
      · by_cases hj : j = site.producer
        · subst hj
          exact (hm.stamped _ _).1
        · rw [h.no_other_writes _ _ hj]
          exact Nat.zero_le _
      · by_cases hj : j = site.consumer
        · subst hj
          refine h.tail.stamp_le hm site.producer ?_
          rintro ⟨n, hle, hn, hslot⟩
          rw [BitVec.add_assoc, ← BitVec.ofNat_add] at hslot
          exact slot_ne start (by omega) (by omega) hslot
        · rw [h.no_other_reads _ _ hj]
          exact Nat.zero_le _
  | _ => cases hd

/-- **The consumer's next read is not a race**: the last write of the slot was for the item it
reads, and the consumer knows of it from `head_`. -/
theorem readable (h : Synced site m data p c start items taken published hpos tpos)
    (hm : m.Coherent owner) {d : Fin cap.size} (hd : c.readsNext cap = some d) :
    m.Readable site.consumer (site.slot d) := by
  cases c with
  | read tl cnt got =>
      obtain ⟨hlt, hslot⟩ := Option.ite_none_right_eq_some.mp hd
      obtain ⟨htail, -⟩ := h.inv.consumer
      obtain rfl : tl = start + BitVec.ofNat 64 taken := htail
      obtain rfl := Option.some.inj hslot
      have havail : taken + cnt.toNat ≤ hpos (m.seen site.consumer site.head) := h.avail
      have hroom := h.inv.room
      have hwritten := Producer.written_le_claimed h.inv.producer
      rw [List.length_drop] at hroom
      intro j
      by_cases hj : j = site.producer
      · subst hj
        refine h.head.stamp_le hm site.consumer ?_
        rintro ⟨n, hle, hn, hslot⟩
        rw [BitVec.add_assoc, ← BitVec.ofNat_add] at hslot
        exact slot_ne start (by omega) (by omega) hslot.symm
      · rw [h.no_other_writes _ _ hj]
        exact Nat.zero_le _
  | _ => cases hd

/-- **Publication**: what the producer did before it published an item is known to the consumer
that has taken the item. -/
theorem published_le_clock (h : Synced site m data p c start items taken published hpos tpos)
    (hm : m.Coherent owner) {clock : ι → ℕ} (hc : clock ∈ published.take (taken + c.claimed)) :
    clock ≤ m.clock site.consumer := by
  obtain ⟨msg, hmsg, hle, -⟩ := hm.exists_seen site.consumer site.head
  exact (h.published_le _ msg hmsg clock (List.take_subset_take_left _ h.avail hc)).trans hle

/-! ### The steps -/

variable [DecidableEq ι] [DecidableEq α] [DecidableEq δ]

omit [DecidableEq α] in
/-- The producer writes the next slot it has claimed. -/
theorem write_slot {call : EnqCall T} {hd cnt : SizeT} {i : ℕ} (hlt : i < cnt.toNat)
    (h : Synced site m data (.write call hd cnt i) c start items taken published hpos tpos)
    (ho : site.Owned owner) (hm : m.Coherent owner) :
    Synced site (m.write site.producer (site.slot (cap.slot (hd + BitVec.ofNat 64 i))))
      (Function.update data (cap.slot (hd + BitVec.ofNat 64 i)) (call.item i))
      (.write call hd cnt (i + 1)) c start items taken published hpos tpos := by
  have hinv := h.inv.next_producer
  simp only [Producer.next, if_pos hlt, List.append_nil] at hinv
  obtain ⟨hhead, -⟩ := h.inv.producer
  obtain rfl : hd = start + BitVec.ofNat 64 items.length := hhead
  have hcoh := hm.write site.producer
    (site.slot (cap.slot (start + BitVec.ofNat 64 items.length + BitVec.ofNat 64 i)))
  refine { h with inv := hinv, room := h.room, head := ?_, tail := h.tail.frame ho.tail hm hcoh rfl,
                  no_other_writes := ?_ }
  · have haccess := (h.head.access ho.head hm (m.clock site.producer site.producer)).frame ho.head hm hcoh rfl
    rw [Memory.writes_write_comp m site.slot_injective]
    simpa [Producer.written, BitVec.ofNat_add, BitVec.add_assoc, Nat.add_assoc] using haccess
  · intro d j hj
    rw [Memory.writes_write_of_ne m hj]
    exact h.no_other_writes d j hj

omit [DecidableEq α] in
/-- The consumer reads the next item it has claimed. -/
theorem read_slot {tl cnt : SizeT} {got : List T} (hlt : got.length < cnt.toNat)
    (h : Synced site m data p (.read tl cnt got) start items taken published hpos tpos)
    (ho : site.Owned owner) (hm : m.Coherent owner) :
    Synced site (m.read site.consumer (site.slot (cap.slot (tl + BitVec.ofNat 64 got.length)))) data p
      (.read tl cnt (got ++ [data (cap.slot (tl + BitVec.ofNat 64 got.length))])) start items taken
      published hpos tpos := by
  obtain ⟨rest, hrest, hinv⟩ := h.inv.next_consumer
  simp only [Consumer.next, if_pos hlt, List.nil_append] at hinv hrest
  rw [← hrest] at hinv
  obtain ⟨htail, -⟩ := h.inv.consumer
  obtain rfl : tl = start + BitVec.ofNat 64 taken := htail
  have hcoh := hm.read site.consumer
    (site.slot (cap.slot (start + BitVec.ofNat 64 taken + BitVec.ofNat 64 got.length)))
  refine { h with inv := hinv, avail := h.avail, head := h.head.frame ho.head hm hcoh rfl, tail := ?_,
                  no_other_reads := ?_ }
  · have haccess := (h.tail.access ho.tail hm (m.clock site.consumer site.consumer)).frame ho.tail hm hcoh rfl
    rw [Memory.reads_read_comp m site.slot_injective]
    simpa [Consumer.readSoFar, BitVec.ofNat_add, BitVec.add_assoc, Nat.add_assoc] using haccess
  · intro d j hj
    rw [Memory.reads_read_of_ne m hj]
    exact h.no_other_reads d j hj

omit [DecidableEq δ] in
/-- The producer publishes the items it has written. -/
theorem publish {call : EnqCall T} {hd cnt : SizeT}
    (h : Synced site m data (.write call hd cnt cnt.toNat) c start items taken published hpos tpos)
    (ho : site.Owned owner) (hm : m.Coherent owner) :
    ∃ hpos', (∀ l < (m.history site.head).length, hpos' l = hpos l) ∧
      Synced site (m.store site.producer site.head (hd + cnt)) data .idle c start
        (items ++ (List.range cnt.toNat).map call.item) taken
        (published ++ List.replicate cnt.toNat (m.clock site.producer)) hpos' tpos := by
  have hinv := h.inv.next_producer
  simp only [Producer.next, if_neg (lt_irrefl _)] at hinv
  obtain ⟨hhead, -⟩ := h.inv.producer
  obtain rfl : hd = start + BitVec.ofNat 64 items.length := hhead
  have hvalue : start + BitVec.ofNat 64 items.length + cnt =
      start + BitVec.ofNat 64 (items.length + cnt.toNat) := by
    rw [BitVec.ofNat_add, BitVec.ofNat_toNat, BitVec.setWidth_eq, BitVec.add_assoc]
  have hcoh : (m.store site.producer site.head (start + BitVec.ofNat 64 items.length + cnt)).Coherent
      owner := ho.head ▸ hm.store site.head _
  have htaken := h.taken_le ho hm
  have hstored := h.head.store ho.head hm (fun d => (hm.stamped _ _).1)
  simp only [Producer.written, List.length_map, List.length_range, ← hvalue] at hstored
  have hold : published.take (hpos (m.seen site.producer site.head)) = published := by
    rw [h.head.last_eq, ← h.published_length, List.take_length]
  refine ⟨Function.update hpos (m.history site.head).length (items.length + cnt.toNat),
    fun l hl => Function.update_of_ne hl.ne _ _, ?_, ?_, ?_, ?_, ?_, h.no_other_writes, h.no_other_reads, ?_, ?_⟩
  · rw [List.drop_append_of_le_length (by omega), latest, List.length_append, List.length_map,
      List.length_range, ← hvalue]
    exact hinv
  · simpa [Memory.store] using hstored
  · exact h.tail.frame ho.tail hm hcoh (Memory.history_store_of_ne _ _ _ _ site.head_ne_tail.symm)
  · have hroom : items.length + cnt.toNat ≤ tpos (m.seen site.producer site.tail) + cap.size := h.room
    simpa [site.head_ne_tail.symm, Producer.claimed] using hroom
  · have hlt := (hm.threads site.consumer site.head).1
    rw [Memory.seen_store_of_ne _ _ _ _ ho.threads_ne.symm, Function.update_of_ne hlt.ne]
    exact h.avail
  · simp [h.published_length]
  · intro k msg hmsg clock hclock
    rcases Memory.getElem?_history_store hmsg with ⟨hlt, hmsg⟩ | ⟨rfl, rfl⟩
    · have hk := h.head.pos_le ho.head hm hlt
      rw [Function.update_of_ne hlt.ne, List.take_append_of_le_length (by rw [h.published_length]; exact hk)]
        at hclock
      exact h.published_le k msg hmsg clock hclock
    · -- the thread knows its own last store, and with it the items published before
      rcases List.mem_append.mp (List.mem_of_mem_take hclock) with hmem | hmem
      · obtain ⟨msg, hmsg, hle, -⟩ := hm.exists_seen site.producer site.head
        exact (h.published_le _ msg hmsg clock (hold.symm ▸ hmem)).trans hle
      · rw [List.eq_of_mem_replicate hmem]

omit [DecidableEq δ] in
/-- The consumer gives up the slots it has read. -/
theorem release {tl cnt : SizeT} {got : List T} (hgot : ¬ got.length < cnt.toNat)
    (h : Synced site m data p (.read tl cnt got) start items taken published hpos tpos)
    (ho : site.Owned owner) (hm : m.Coherent owner) :
    got = (items.drop taken).take got.length ∧
    ∃ tpos', (∀ l < (m.history site.tail).length, tpos' l = tpos l) ∧
      Synced site (m.store site.consumer site.tail (tl + cnt)) data p .idle start items
        (taken + got.length) published hpos tpos' := by
  obtain ⟨rest, hrest, hinv⟩ := h.inv.next_consumer
  simp only [Consumer.next, if_neg hgot] at hinv hrest
  obtain ⟨htail, -, hle, htake⟩ := h.inv.consumer
  obtain rfl : tl = start + BitVec.ofNat 64 taken := htail
  have hlen : got.length = cnt.toNat := by omega
  have hvalue : start + BitVec.ofNat 64 taken + cnt = start + BitVec.ofNat 64 (taken + got.length) := by
    rw [hlen, BitVec.ofNat_add, BitVec.ofNat_toNat, BitVec.setWidth_eq, BitVec.add_assoc]
  have hcoh : (m.store site.consumer site.tail (start + BitVec.ofNat 64 taken + cnt)).Coherent owner :=
    ho.tail ▸ hm.store site.tail _
  have hdrop : items.drop (taken + got.length) = rest := by
    rw [← List.drop_drop, hrest, List.drop_left]
  have hstored := h.tail.store ho.tail hm (fun d => (hm.stamped _ _).2)
  simp only [Consumer.readSoFar, ← hvalue] at hstored
  refine ⟨htake, Function.update tpos (m.history site.tail).length (taken + got.length),
    fun l hl => Function.update_of_ne hl.ne _ _, ?_, ?_, ?_, ?_, ?_, h.no_other_writes, h.no_other_reads, h.published_length, ?_⟩
  · rw [hdrop, latest, ← hvalue]
    exact hinv
  · exact h.head.frame ho.head hm hcoh (Memory.history_store_of_ne _ _ _ _ site.head_ne_tail)
  · exact hstored
  · have hlt := (hm.threads site.producer site.tail).1
    rw [Memory.seen_store_of_ne _ _ _ _ ho.threads_ne, Function.update_of_ne hlt.ne]
    exact h.room
  · have havail : taken + cnt.toNat ≤ hpos (m.seen site.consumer site.head) := h.avail
    rw [← hlen] at havail
    simpa [site.head_ne_tail, Consumer.claimed] using havail
  · rw [Memory.history_store_of_ne _ _ _ _ site.head_ne_tail]
    exact h.published_le

/-- A step inside a call whose items fit, by what the producer knows of `tail_`: it goes on, or
returns having accepted all. -/
theorem nextAt_of_fits {call : EnqCall T} {data' : Fin cap.size → T} {xs : List T}
    (h : Synced site m data p c start items taken published hpos tpos) (ho : site.Owned owner)
    (hm : m.Coherent owner) (hp : p.Inside call)
    (hfit : items.length + call.count ≤ tpos (m.seen site.producer site.tail) + cap.size)
    (hstep : p.nextAt site m data k = some (m', data', p', xs)) :
    (p'.Inside call ∧ xs = []) ∨ (p' = .idle ∧ xs = call.items) := by
  cases p with
  | idle => exact absurd hp id
  | loadHead call' =>
      obtain ⟨⟨v, m1⟩, -, heq⟩ := Option.map_eq_some_iff.mp hstep
      obtain ⟨rfl, rfl, rfl, rfl⟩ := by simpa using heq
      exact Or.inl ⟨hp, rfl⟩
  | loadTail call' hd =>
      obtain rfl : call' = call := hp
      obtain rfl : hd = start + BitVec.ofNat 64 items.length := h.inv.producer
      obtain ⟨⟨v, m1⟩, hload, heq⟩ := Option.map_eq_some_iff.mp hstep
      obtain ⟨hle, msg, hmsg, rfl, -⟩ := Memory.load_acquire_eq_some.mp hload
      have hlt := (List.getElem?_eq_some_iff.mp hmsg).1
      have hmono := h.tail.mono _ k hle hlt
      have hlast := h.tail.pos_le ho.tail hm hlt
      have htaken := h.taken_le ho hm
      obtain ⟨cnt, hc, hcnt⟩ := EnqCall.claim_of_stale start (by omega)
        (show items.length + call'.count ≤ tpos k + cap.size by omega) data
      obtain ⟨rfl, rfl, rfl, rfl⟩ := by simpa [h.tail.values k msg hmsg, hc] using heq
      exact Or.inl ⟨⟨rfl, hcnt⟩, rfl⟩
  | write call' hd cnt i =>
      obtain ⟨rfl, hcnt⟩ := hp
      by_cases hlt : i < cnt.toNat
      · obtain ⟨rfl, rfl, rfl, rfl⟩ := by simpa [Producer.nextAt, hlt] using hstep
        exact Or.inl ⟨⟨rfl, hcnt⟩, rfl⟩
      · obtain ⟨rfl, rfl, rfl, rfl⟩ := by simpa [Producer.nextAt, hlt] using hstep
        rw [hcnt]
        exact Or.inr ⟨rfl, rfl⟩

/-- **A step of the producer**, whatever its loads read from. -/
theorem next_producer {data' : Fin cap.size → T} {xs : List T}
    (h : Synced site m data p c start items taken published hpos tpos) (ho : site.Owned owner)
    (hm : m.Coherent owner) (hstep : p.nextAt site m data k = some (m', data', p', xs)) :
    m'.Coherent owner ∧ ∃ hpos', (∀ l < (m.history site.head).length, hpos' l = hpos l) ∧
      Synced site m' data' p' c start (items ++ xs) taken
        (published ++ List.replicate xs.length (m.clock site.producer)) hpos' tpos := by
  cases p with
  | idle =>
      obtain ⟨rfl, rfl, rfl, rfl⟩ := by simpa [Producer.nextAt] using hstep
      exact ⟨hm, hpos, fun _ _ => rfl, by simpa using h⟩
  | loadHead call =>
      obtain ⟨⟨v, m1⟩, hload, heq⟩ := Option.map_eq_some_iff.mp hstep
      obtain ⟨rfl, rfl, rfl, rfl⟩ := by simpa using heq
      rw [← ho.head] at hload
      obtain ⟨rfl, msg, hmsg, rfl⟩ := hm.load_own hload
      rw [ho.head] at hmsg
      refine ⟨hm, hpos, fun _ _ => rfl, ?_⟩
      rw [h.head.values _ msg hmsg, h.head.last_eq]
      have hnext : Synced site _ data (.loadTail call (start + BitVec.ofNat 64 items.length)) c start items
          taken published hpos tpos :=
        h.move_producer ⟨h.inv.room, h.inv.head_eq, h.inv.cells, rfl, h.inv.consumer⟩ h.room rfl
      simpa using hnext
  | loadTail call hd =>
      obtain ⟨⟨v, m1⟩, hload, heq⟩ := Option.map_eq_some_iff.mp hstep
      have hcoh := hm.load hload
      have hseen := hm.seen_load hload
      obtain ⟨-, msg, hmsg, rfl, -⟩ := Memory.load_acquire_eq_some.mp hload
      have hframe : Synced site m1 data (.loadTail call hd) c start items taken published hpos tpos :=
        h.frame ho hm hcoh (Memory.Acts.load_acquire hload) id id (fun _ => id)
      rw [h.tail.values k msg hmsg, ← hseen] at heq
      cases hc : call.claim cap hd (start + BitVec.ofNat 64 (tpos (m1.seen site.producer site.tail))) with
      | none =>
          obtain ⟨rfl, rfl, rfl, rfl⟩ := by simpa [hc] using heq
          have hnext : Synced site m1 data .idle c start items taken published hpos tpos :=
            hframe.move_producer ⟨h.inv.room, h.inv.head_eq, h.inv.cells, trivial, h.inv.consumer⟩
              hframe.room rfl
          exact ⟨hcoh, hpos, fun _ _ => rfl, by simpa using hnext⟩
      | some cnt =>
          obtain ⟨rfl, rfl, rfl, rfl⟩ := by simpa [hc] using heq
          exact ⟨hcoh, hpos, fun _ _ => rfl, by simpa using hframe.claim_producer ho hcoh hc⟩
  | write call hd cnt i =>
      by_cases hlt : i < cnt.toNat
      · obtain ⟨rfl, rfl, rfl, rfl⟩ := by simpa [Producer.nextAt, hlt] using hstep
        exact ⟨hm.write _ _, hpos, fun _ _ => rfl, by simpa using h.write_slot hlt ho hm⟩
      · obtain ⟨rfl, rfl, rfl, rfl⟩ := by simpa [Producer.nextAt, hlt] using hstep
        obtain rfl : i = cnt.toNat := Nat.le_antisymm h.inv.producer.2 (Nat.le_of_not_lt hlt)
        refine ⟨ho.head ▸ hm.store site.head _, ?_⟩
        simpa using h.publish ho hm

/-- **A step of the consumer**, whatever its loads read from. -/
theorem next_consumer {xs : List T}
    (h : Synced site m data p c start items taken published hpos tpos) (ho : site.Owned owner)
    (hm : m.Coherent owner) (hstep : c.nextAt site m data k = some (m', c', xs)) :
    m'.Coherent owner ∧ xs = (items.drop taken).take xs.length ∧ ∃ tpos',
      (∀ l < (m.history site.tail).length, tpos' l = tpos l) ∧
      Synced site m' data p c' start items (taken + xs.length) published hpos tpos' := by
  cases c with
  | idle =>
      obtain ⟨rfl, rfl, rfl⟩ := by simpa [Consumer.nextAt] using hstep
      exact ⟨hm, rfl, tpos, fun _ _ => rfl, h⟩
  | loadTail call =>
      obtain ⟨⟨v, m1⟩, hload, heq⟩ := Option.map_eq_some_iff.mp hstep
      obtain ⟨rfl, rfl, rfl⟩ := by simpa using heq
      rw [← ho.tail] at hload
      obtain ⟨rfl, msg, hmsg, rfl⟩ := hm.load_own hload
      rw [ho.tail] at hmsg
      refine ⟨hm, rfl, tpos, fun _ _ => rfl, ?_⟩
      rw [h.tail.values _ msg hmsg, h.tail.last_eq]
      exact h.move_consumer ⟨h.inv.room, h.inv.head_eq, h.inv.cells, h.inv.producer, rfl⟩ h.avail rfl
  | loadHead call tl =>
      obtain ⟨⟨v, m1⟩, hload, heq⟩ := Option.map_eq_some_iff.mp hstep
      have hcoh := hm.load hload
      have hseen := hm.seen_load hload
      obtain ⟨-, msg, hmsg, rfl, -⟩ := Memory.load_acquire_eq_some.mp hload
      have hframe : Synced site m1 data p (.loadHead call tl) start items taken published hpos tpos :=
        h.frame ho hm hcoh (Memory.Acts.load_acquire hload) id id (fun _ => id)
      rw [h.head.values k msg hmsg, ← hseen] at heq
      cases hc : call.claim tl (start + BitVec.ofNat 64 (hpos (m1.seen site.consumer site.head))) with
      | none =>
          obtain ⟨rfl, rfl, rfl⟩ := by simpa [hc] using heq
          exact ⟨hcoh, rfl, tpos, fun _ _ => rfl, hframe.move_consumer
            ⟨h.inv.room, h.inv.head_eq, h.inv.cells, h.inv.producer, trivial⟩ hframe.avail rfl⟩
      | some cnt =>
          obtain ⟨rfl, rfl, rfl⟩ := by simpa [hc] using heq
          exact ⟨hcoh, rfl, tpos, fun _ _ => rfl, hframe.claim_consumer ho hcoh hc⟩
  | read tl cnt got =>
      by_cases hlt : got.length < cnt.toNat
      · obtain ⟨rfl, rfl, rfl⟩ := by simpa [Consumer.nextAt, hlt] using hstep
        exact ⟨hm.read _ _, rfl, tpos, fun _ _ => rfl, h.read_slot hlt ho hm⟩
      · obtain ⟨rfl, rfl, rfl⟩ := by simpa [Consumer.nextAt, hlt] using hstep
        exact ⟨ho.tail ▸ hm.store site.tail _, h.release hlt ho hm⟩

/-- **The interleaved step of the producer is one of its steps**: the one whose load reads the last
value stored. -/
theorem exists_nextAt_producer (h : Synced site m data p c start items taken published hpos tpos)
    (ho : site.Owned owner) (hm : m.Coherent owner) :
    let n := p.next (latest start items.length taken data)
    ∃ k m', p.nextAt site m data k = some (m', n.1.data, n.2.1, n.2.2) ∧
      n.1 = latest start (items ++ n.2.2).length taken n.1.data := by
  cases p with
  | idle => exact ⟨0, m, rfl, by simp [Producer.next, latest]⟩
  | loadHead call =>
      obtain ⟨k, msg, m', hmsg, hload⟩ := hm.exists_load site.producer site.head .relaxed
      rw [ho.head] at hmsg
      refine ⟨k, m', ?_, by simp [Producer.next, latest]⟩
      rw [Producer.nextAt, hload, h.head.values _ msg hmsg, h.head.last_eq]
      rfl
  | loadTail call hd =>
      obtain ⟨k, msg, m', hmsg, hload⟩ := hm.exists_load site.producer site.tail .acquire
      rw [ho.tail] at hmsg
      refine ⟨k, m', ?_⟩
      rw [Producer.nextAt, hload, h.tail.values _ msg hmsg, h.tail.last_eq]
      simp only [Producer.next, latest, Option.map_some]
      cases call.claim cap hd (start + BitVec.ofNat 64 taken) <;> exact ⟨rfl, by simp⟩
  | write call hd cnt i =>
      obtain ⟨hhead, -⟩ := h.inv.producer
      obtain rfl : hd = start + BitVec.ofNat 64 items.length := hhead
      simp only [Producer.nextAt, Producer.next]
      by_cases hlt : i < cnt.toNat
      · rw [if_pos hlt, if_pos hlt]
        exact ⟨0, _, rfl, by simp [latest]⟩
      · rw [if_neg hlt, if_neg hlt]
        exact ⟨0, _, rfl, by simp [latest, BitVec.ofNat_add, BitVec.add_assoc]⟩

theorem exists_nextAt_consumer (h : Synced site m data p c start items taken published hpos tpos)
    (ho : site.Owned owner) (hm : m.Coherent owner) :
    let n := c.next (latest start items.length taken data)
    ∃ k m', c.nextAt site m data k = some (m', n.2.1, n.2.2) ∧
      n.1 = latest start items.length (taken + n.2.2.length) data := by
  cases c with
  | idle => exact ⟨0, m, rfl, rfl⟩
  | loadTail call =>
      obtain ⟨k, msg, m', hmsg, hload⟩ := hm.exists_load site.consumer site.tail .relaxed
      rw [ho.tail] at hmsg
      refine ⟨k, m', ?_, rfl⟩
      rw [Consumer.nextAt, hload, h.tail.values _ msg hmsg, h.tail.last_eq]
      rfl
  | loadHead call tl =>
      obtain ⟨k, msg, m', hmsg, hload⟩ := hm.exists_load site.consumer site.head .acquire
      rw [ho.head] at hmsg
      refine ⟨k, m', ?_⟩
      rw [Consumer.nextAt, hload, h.head.values _ msg hmsg, h.head.last_eq]
      simp only [Consumer.next, latest, Option.map_some]
      cases call.claim tl (start + BitVec.ofNat 64 items.length) <;> exact ⟨rfl, rfl⟩
  | read tl cnt got =>
      obtain ⟨htail, -, hgot, -⟩ := h.inv.consumer
      obtain rfl : tl = start + BitVec.ofNat 64 taken := htail
      simp only [Consumer.nextAt, Consumer.next]
      by_cases hlt : got.length < cnt.toNat
      · rw [if_pos hlt, if_pos hlt]
        exact ⟨0, _, rfl, rfl⟩
      · rw [if_neg hlt, if_neg hlt]
        have hlen : got.length = cnt.toNat := by omega
        exact ⟨0, _, rfl, by simp [latest, hlen, BitVec.ofNat_add, BitVec.add_assoc]⟩

end Synced

/-! ### One ring -/

/-- The two threads. -/
inductive Side where
  | producer
  | consumer
deriving DecidableEq

/-- The two counters. -/
inductive Index where
  | head
  | tail
deriving DecidableEq

def Index.owner : Index → Side
  | head => .producer
  | tail => .consumer

/-- A ring that has a memory of its own. -/
def ownSite (cap : Capacity) : Site cap Side Index (Fin cap.size) where
  producer := .producer
  consumer := .consumer
  head := .head
  tail := .tail
  slot := id
  head_ne_tail := nofun
  slot_injective := Function.injective_id

theorem ownSite_owned : (ownSite cap).Owned Index.owner := ⟨rfl, rfl, nofun⟩

/-- The ring and its threads; `published` are the clocks of the producer when it published the
items. -/
structure WeakState (T : Type) (cap : Capacity) where
  memory : Memory Side Index SizeT (Fin cap.size)
  data : Fin cap.size → T
  producer : Producer T
  consumer : Consumer T
  enqueued : List T
  dequeued : List T
  published : List (Side → ℕ)

/-- What the scheduler may do next; `k` is the store from which a load reads. -/
inductive WeakAction (T : Type) where
  | callEnqueue (call : EnqCall T)
  | producer (k : ℕ)
  | callDequeue (call : DeqCall)
  | consumer (k : ℕ)

namespace WeakState

def init (start : SizeT) (data : Fin cap.size → T) : WeakState T cap :=
  ⟨Memory.init (fun _ => start), data, .idle, .idle, [], [], []⟩

def step (s : WeakState T cap) : WeakAction T → Option (WeakState T cap)
  | .callEnqueue call =>
      match s.producer with
      | .idle => some { s with producer := .loadHead call }
      | _ => none
  | .producer k =>
      (s.producer.nextAt (ownSite cap) s.memory s.data k).map (fun (m, data, p, xs) =>
        { s with
          memory := m
          data := data
          producer := p
          enqueued := s.enqueued ++ xs
          published := s.published ++ List.replicate xs.length (s.memory.clock .producer) })
  | .callDequeue call =>
      match s.consumer with
      | .idle => some { s with consumer := .loadTail call }
      | _ => none
  | .consumer k =>
      (s.consumer.nextAt (ownSite cap) s.memory s.data k).map (fun (m, c, xs) =>
        { s with memory := m, consumer := c, dequeued := s.dequeued ++ xs })

/-- The items dequeued are the first of the items enqueued, and the ring holds the others. -/
structure Ok (start : SizeT) (s : WeakState T cap) : Prop where
  coherent : s.memory.Coherent Index.owner
  dequeued : s.dequeued = s.enqueued.take s.dequeued.length
  synced : ∃ hpos tpos, Synced (ownSite cap) s.memory s.data s.producer s.consumer start s.enqueued
    s.dequeued.length s.published hpos tpos

theorem ok_init (start : SizeT) (data : Fin cap.size → T) : (init start data).Ok start :=
  ⟨Memory.Coherent.init _, rfl, _, _,
    Synced.init (ownSite cap) (represents_init start data) (fun _ => start) rfl rfl⟩

theorem ok_step {start : SizeT} (s : WeakState T cap) (a : WeakAction T) (s' : WeakState T cap)
    (h : s.Ok start) (hs : s.step a = some s') : s'.Ok start := by
  obtain ⟨hpos, tpos, hsync⟩ := h.synced
  cases a with
  | callEnqueue call =>
      simp only [step] at hs
      split at hs
      · next hp =>
          obtain rfl := Option.some.inj hs
          rw [hp] at hsync
          exact ⟨h.coherent, h.dequeued, hpos, tpos,
            hsync.move_producer (hsync.inv.start_producer call) hsync.room rfl⟩
      · cases hs
  | producer k =>
      obtain ⟨⟨m, data, p, xs⟩, hnext, rfl⟩ := Option.map_eq_some_iff.mp hs
      obtain ⟨hcoh, hpos', -, hsync'⟩ := hsync.next_producer ownSite_owned h.coherent hnext
      refine ⟨hcoh, ?_, hpos', tpos, hsync'⟩
      have hle : s.dequeued.length ≤ s.enqueued.length := by
        have := hsync.taken_le ownSite_owned h.coherent
        omega
      rw [List.take_append_of_le_length hle]
      exact h.dequeued
  | callDequeue call =>
      simp only [step] at hs
      split at hs
      · next hc =>
          obtain rfl := Option.some.inj hs
          rw [hc] at hsync
          exact ⟨h.coherent, h.dequeued, hpos, tpos,
            hsync.move_consumer (hsync.inv.start_consumer call) hsync.avail rfl⟩
      · cases hs
  | consumer k =>
      obtain ⟨⟨m, c, xs⟩, hnext, rfl⟩ := Option.map_eq_some_iff.mp hs
      obtain ⟨hcoh, hxs, tpos', -, hsync'⟩ := hsync.next_consumer ownSite_owned h.coherent hnext
      refine ⟨hcoh, ?_, hpos, tpos', by rwa [List.length_append]⟩
      rw [List.length_append, List.take_add, ← h.dequeued, ← hxs]

end WeakState

/-- The state of the interleaved system that the last values make up. -/
def WeakState.latest (start : SizeT) (s : WeakState T cap) : State T cap :=
  ⟨SpscRing.latest start s.enqueued.length s.dequeued.length s.data, s.producer, s.consumer, s.enqueued,
    s.dequeued⟩

/-- **Every interleaving of `SpscInterleaving.lean` is a run with these memory orders**: the one in
which every load reads the last value stored. -/
theorem exists_weak_of_interleaved {start : SizeT} {data : Fin cap.size → T} {schedule : List (Action T)}
    {s : State T cap} (h : Runs.run State.step (State.init start data) schedule = some s) :
    ∃ schedule' w, Runs.run WeakState.step (WeakState.init start data) schedule' = some w ∧
      w.latest start = s := by
  refine Runs.run_history (P := fun _ s => ∃ schedule' w,
    Runs.run WeakState.step (WeakState.init start data) schedule' = some w ∧ w.latest start = s) ?_ ?_ h
  · exact ⟨[], _, rfl, by simp [WeakState.latest, WeakState.init, State.init, SpscRing.latest, SpscRing.init]⟩
  rintro as s a s' ⟨schedule', w, hw, rfl⟩ hs
  have hok := Runs.run_invariant WeakState.ok_step (WeakState.ok_init start data) hw
  obtain ⟨hpos, tpos, hsync⟩ := hok.synced
  -- one step of the weak system that leads to the state
  suffices hstep : ∃ b w', w.step b = some w' ∧ w'.latest start = s' by
    obtain ⟨b, w', hb, rfl⟩ := hstep
    exact ⟨schedule' ++ [b], w', Runs.run_concat hw hb, rfl⟩
  cases a with
  | callEnqueue call =>
      cases hp : w.producer with
      | idle =>
          obtain rfl := by simpa [State.step, WeakState.latest, hp] using hs
          exact ⟨.callEnqueue call, _, by rw [WeakState.step, hp], rfl⟩
      | _ => simp [State.step, WeakState.latest, hp] at hs
  | producer =>
      obtain rfl := Option.some.inj hs
      obtain ⟨k, m', hk, hring⟩ := hsync.exists_nextAt_producer ownSite_owned hok.coherent
      refine ⟨.producer k, _, by rw [WeakState.step, hk]; rfl, ?_⟩
      simp only [WeakState.latest]
      rw [← hring]
  | callDequeue call =>
      cases hc : w.consumer with
      | idle =>
          obtain rfl := by simpa [State.step, WeakState.latest, hc] using hs
          exact ⟨.callDequeue call, _, by rw [WeakState.step, hc], rfl⟩
      | _ => simp [State.step, WeakState.latest, hc] at hs
  | consumer =>
      obtain rfl := Option.some.inj hs
      obtain ⟨k, m', hk, hring⟩ := hsync.exists_nextAt_consumer ownSite_owned hok.coherent
      refine ⟨.consumer k, _, by rw [WeakState.step, hk]; rfl, ?_⟩
      simp only [WeakState.latest, List.length_append]
      rw [← hring]

/-- **The ring is free of data races and a FIFO with the memory orders of the source.**  In every
state that any schedule of the two threads reaches, whatever old values the loads of the other
counter return: the next write and the next read of a slot are ordered after all conflicting
accesses, the items dequeued are the first of the items enqueued, at most `Capacity` others are in
the ring, and what the producer did before it published an item is known to the consumer that has
dequeued it. -/
theorem spscRing_race_free (cap : Capacity) (start : SizeT) (data : Fin cap.size → T)
    (schedule : List (WeakAction T)) (s : WeakState T cap)
    (h : Runs.run WeakState.step (WeakState.init start data) schedule = some s) :
    (∀ d, s.producer.writesNext cap = some d → s.memory.Writable .producer d) ∧
      (∀ d, s.consumer.readsNext cap = some d → s.memory.Readable .consumer d) ∧
      s.dequeued <+: s.enqueued ∧ s.enqueued.length ≤ s.dequeued.length + cap.size ∧
      ∀ clock ∈ s.published.take s.dequeued.length, clock ≤ s.memory.clock .consumer := by
  have hok := Runs.run_invariant WeakState.ok_step (WeakState.ok_init start data) h
  obtain ⟨hpos, tpos, hsync⟩ := hok.synced
  refine ⟨fun d hd => hsync.writable ownSite_owned hok.coherent hd,
    fun d hd => hsync.readable hok.coherent hd, ?_, ?_, fun clock hclock => ?_⟩
  · rw [hok.dequeued]
    exact List.take_prefix _ _
  · have hlen := hsync.inv.represents.length_le
    rw [List.length_drop] at hlen
    omega
  · exact hsync.published_le_clock hok.coherent
      (List.take_subset_take_left _ (Nat.le_add_right _ _) hclock)

/-- The producer fills the ring; the consumer first reads a `head_` that is out of date and finds
nothing, then takes one item; the producer then reads a `tail_` that is out of date and finds the
ring full, and is in the middle of its second attempt. -/
def staleSchedule : List (WeakAction ℕ) :=
  [.callEnqueue (.enqueueBurst (fun i => i + 7) 2), .producer 0, .producer 0, .producer 0, .producer 0,
    .producer 0, .callDequeue .dequeue, .consumer 0, .consumer 0, .callDequeue .dequeue, .consumer 0,
    .consumer 1, .consumer 0, .consumer 0, .callEnqueue (.enqueue 9), .producer 1, .producer 0,
    .callEnqueue (.enqueue 9), .producer 1, .producer 1, .callDequeue (.dequeueBurst 5), .consumer 1,
    .consumer 1]

theorem spscRing_race_free_stale :
    ∃ s : WeakState ℕ twoSlots,
      Runs.run WeakState.step (WeakState.init (-1) (fun _ => 0)) staleSchedule = some s ∧
      s.producer.writesNext twoSlots = some 1 ∧ s.memory.Writable .producer 1 ∧
      s.consumer.readsNext twoSlots = some 0 ∧ s.memory.Readable .consumer 0 ∧
      s.enqueued = [7, 8] ∧ s.dequeued = [7] := by
  obtain ⟨s, hs, hw, hr, he, hd⟩ : ∃ s : WeakState ℕ twoSlots,
      Runs.run WeakState.step (WeakState.init (-1) (fun _ => 0)) staleSchedule = some s ∧
      s.producer.writesNext twoSlots = some 1 ∧ s.consumer.readsNext twoSlots = some 0 ∧
      s.enqueued = [7, 8] ∧ s.dequeued = [7] := Runs.exists_run_of_any (by decide +kernel)
  obtain ⟨hwritable, hreadable, -⟩ := spscRing_race_free twoSlots (-1) _ staleSchedule s hs
  exact ⟨s, hs, hw, hwritable _ hw, hr, hreadable _ hr, he, hd⟩

end SpscRing
end EbpfMonitor
