import EbpfMonitor.BatchProcessor
import EbpfMonitor.MetricsText

/-! # A third thread that asks a ring for its size

`size()` loads `head_` and `tail_` one after the other, in the order the compiler chooses.  For the
thread that owns one of the indices this is harmless.  An observer such as the HTTP thread, which
reads `MemoryPool::available()` for `PrometheusMetrics::from_processor`, can be overtaken between
its two loads by both the producer and the consumer.

Along a run `head_` and `tail_` count the items that have been enqueued and dequeued
(`Counters`).  So what the observer computes depends on the moments of its loads only through the
number of items at the first one and the number that came or went until the second.
`observedSize_le_iff` says exactly when it is a possible size. -/

namespace EbpfMonitor

namespace SpscRing

variable {T : Type} {cap : Capacity}

/-! ### The indices count -/

theorem Producer.next_tail (p : Producer T) (r : SpscRing T cap) : (p.next r).1.tail = r.tail := by
  cases p with
  | loadTail call h =>
      simp only [Producer.next]
      cases call.claim cap h r.tail <;> rfl
  | write call h cnt i =>
      simp only [Producer.next]
      split_ifs <;> rfl
  | _ => rfl

theorem Consumer.next_head (c : Consumer T) (r : SpscRing T cap) : (c.next r).1.head = r.head := by
  cases c with
  | loadHead call t =>
      simp only [Consumer.next]
      cases call.claim t r.head <;> rfl
  | read t cnt got =>
      simp only [Consumer.next]
      split_ifs <;> rfl
  | _ => rfl

namespace State

/-- The indices are the numbers of items enqueued and dequeued so far, from the start value on. -/
structure Counters (start : SizeT) (s : State T cap) : Prop where
  head : s.ring.head = start + BitVec.ofNat 64 s.enqueued.length
  tail : s.ring.tail = start + BitVec.ofNat 64 s.dequeued.length

variable {start : SizeT} {s s' : State T cap}

theorem counters_of_tail (h : s.Ok)
    (htail : s.ring.tail = start + BitVec.ofNat 64 s.dequeued.length) : s.Counters start := by
  obtain ⟨q, hq, hinv⟩ := h
  refine ⟨?_, htail⟩
  rw [hinv.head_eq, htail, hq, List.length_append, BitVec.ofNat_add, BitVec.add_assoc]

theorem Counters.step (h : s.Counters start) (hok : s.Ok) {a : Action T}
    (hs : s.step a = some s') : s'.Counters start := by
  apply counters_of_tail (ok_step s a s' hok hs)
  cases a with
  | callEnqueue call =>
      simp only [State.step] at hs
      split at hs
      · obtain rfl := Option.some.inj hs
        exact h.tail
      · cases hs
  | producer =>
      obtain rfl := Option.some.inj hs
      exact (Producer.next_tail _ _).trans h.tail
  | callDequeue call =>
      simp only [State.step] at hs
      split at hs
      · obtain rfl := Option.some.inj hs
        exact h.tail
      · cases hs
  | consumer =>
      obtain rfl := Option.some.inj hs
      obtain ⟨q, -, hinv⟩ := hok
      obtain ⟨rest, hrest, hinv'⟩ := hinv.next_consumer
      -- the head stays and the queue loses its first items, so the tail moves over them
      have hhead := Consumer.next_head s.consumer s.ring
      rw [hinv'.head_eq, hinv.head_eq, hrest, List.length_append, BitVec.ofNat_add,
        ← BitVec.add_assoc] at hhead
      have htail := (BitVec.add_left_inj _).mp hhead
      simp only [List.length_append, BitVec.ofNat_add, ← BitVec.add_assoc]
      rw [htail, h.tail]

theorem counters_of_run {data : Fin cap.size → T} {as : List (Action T)}
    (h : Runs.run State.step (State.init start data) as = some s) : s.Ok ∧ s.Counters start := by
  refine Runs.run_invariant (P := fun t => t.Ok ∧ t.Counters start) ?_
    ⟨ok_init start data, counters_of_tail (ok_init start data) (BitVec.add_zero start).symm⟩ h
  rintro t a t' ⟨hok, hcounters⟩ hs
  exact ⟨ok_step t a t' hok hs, hcounters.step hok hs⟩

/-- Completed calls stay completed. -/
theorem grows_of_step {a : Action T} (hs : s.step a = some s') :
    s.enqueued.length ≤ s'.enqueued.length ∧ s.dequeued.length ≤ s'.dequeued.length := by
  cases a with
  | callEnqueue call =>
      simp only [State.step] at hs
      split at hs
      · obtain rfl := Option.some.inj hs
        exact ⟨le_refl _, le_refl _⟩
      · cases hs
  | producer =>
      obtain rfl := Option.some.inj hs
      exact ⟨(List.sublist_append_left _ _).length_le, le_refl _⟩
  | callDequeue call =>
      simp only [State.step] at hs
      split at hs
      · obtain rfl := Option.some.inj hs
        exact ⟨le_refl _, le_refl _⟩
      · cases hs
  | consumer =>
      obtain rfl := Option.some.inj hs
      exact ⟨le_refl _, (List.sublist_append_left _ _).length_le⟩

theorem grows_of_run {as : List (Action T)} (h : Runs.run State.step s as = some s') :
    s.enqueued.length ≤ s'.enqueued.length ∧ s.dequeued.length ≤ s'.dequeued.length := by
  refine Runs.run_invariant (P := fun t : State T cap =>
    s.enqueued.length ≤ t.enqueued.length ∧ s.dequeued.length ≤ t.dequeued.length) ?_
    ⟨le_refl _, le_refl _⟩ h
  rintro t a t' ⟨henq, hdeq⟩ hs
  obtain ⟨henq', hdeq'⟩ := grows_of_step hs
  exact ⟨henq.trans henq', hdeq.trans hdeq'⟩

end State

/-! ### The observer -/

/-- The order of the two loads in `size()`. -/
inductive LoadOrder where
  | headFirst
  | tailFirst

/-- What `size()` returns when the first load is made in `s₁` and the second in `s₂`. -/
def observedSize (order : LoadOrder) (s₁ s₂ : State T cap) : SizeT :=
  match order with
  | .headFirst => s₁.ring.head - s₂.ring.tail
  | .tailFirst => s₂.ring.head - s₁.ring.tail

/-- The items enqueued between the loads. -/
def added (s₁ s₂ : State T cap) : ℕ := s₂.enqueued.length - s₁.enqueued.length

/-- The items dequeued between the loads. -/
def taken (s₁ s₂ : State T cap) : ℕ := s₂.dequeued.length - s₁.dequeued.length

/-- The other threads have moved the index that is loaded last too far. -/
def Overtaken (order : LoadOrder) (s₁ s₂ : State T cap) : Prop :=
  match order with
  | .headFirst => s₁.ring.size.toNat < taken s₁ s₂
  | .tailFirst => cap.size < s₁.ring.size.toNat + added s₁ s₂

theorem toNat_sub_of_le (start : SizeT) {a b : ℕ} (hle : b ≤ a) (hlt : a - b < 2 ^ 64) :
    (start + BitVec.ofNat 64 a - (start + BitVec.ofNat 64 b)).toNat = a - b := by
  have hsplit : start + BitVec.ofNat 64 a =
      start + BitVec.ofNat 64 b + BitVec.ofNat 64 (a - b) := by
    rw [BitVec.add_assoc, ← BitVec.ofNat_add, Nat.add_sub_cancel' hle]
  rw [hsplit]
  exact Circular.toNat_add_ofNat_sub hlt

theorem toNat_sub_of_lt (start : SizeT) {a b : ℕ} (hlt : a < b) (hb : b - a < 2 ^ 64) :
    (start + BitVec.ofNat 64 a - (start + BitVec.ofNat 64 b)).toNat = 2 ^ 64 - (b - a) := by
  have hsplit : start + BitVec.ofNat 64 b =
      start + BitVec.ofNat 64 a + BitVec.ofNat 64 (b - a) := by
    rw [BitVec.add_assoc, ← BitVec.ofNat_add, Nat.add_sub_cancel' hlt.le]
  rw [hsplit]
  exact Circular.toNat_sub_add_ofNat _ (by omega) hb

/-- The size at one moment is the number of items enqueued and not dequeued. -/
theorem State.Ok.length_enqueued {s : State T cap} (h : s.Ok) :
    s.enqueued.length = s.dequeued.length + s.ring.size.toNat ∧ s.ring.size.toNat ≤ cap.size := by
  obtain ⟨q, hq, hinv⟩ := h
  rw [hinv.represents.toNat_size, hq, List.length_append]
  exact ⟨rfl, hinv.represents.length_le⟩

/-- The head loaded first: the difference goes below zero when more items are taken than there
were. -/
theorem headFirst_le_iff {start : SizeT} {s₁ s₂ : State T cap} (h₁ : s₁.Ok)
    (hc₁ : s₁.Counters start) (hc₂ : s₂.Counters start)
    (hgrow : s₁.dequeued.length ≤ s₂.dequeued.length) (htaken : taken s₁ s₂ < 2 ^ 63) :
    (observedSize .headFirst s₁ s₂).toNat ≤ cap.size ↔ ¬ Overtaken .headFirst s₁ s₂ := by
  obtain ⟨hlength, hle⟩ := h₁.length_enqueued
  have hcap := cap.size_le
  unfold taken at htaken
  simp only [observedSize, Overtaken, taken, hc₁.head, hc₂.tail, Nat.not_lt]
  by_cases hover : s₁.enqueued.length < s₂.dequeued.length
  · rw [toNat_sub_of_lt start hover (by omega)]
    omega
  · rw [toNat_sub_of_le start (by omega) (by omega)]
    omega

/-- The tail loaded first: items that come in between are added to the ones that were there. -/
theorem tailFirst_le_iff {start : SizeT} {s₁ s₂ : State T cap} (h₁ : s₁.Ok)
    (hc₁ : s₁.Counters start) (hc₂ : s₂.Counters start)
    (hgrow : s₁.enqueued.length ≤ s₂.enqueued.length) (hadded : added s₁ s₂ < 2 ^ 63) :
    (observedSize .tailFirst s₁ s₂).toNat ≤ cap.size ↔ ¬ Overtaken .tailFirst s₁ s₂ := by
  obtain ⟨hlength, hle⟩ := h₁.length_enqueued
  have hcap := cap.size_le
  unfold added at hadded
  simp only [observedSize, Overtaken, added, hc₁.tail, hc₂.head, Nat.not_lt]
  rw [toNat_sub_of_le start (by omega) (by omega)]
  omega

/-- `PoolSize - available` is in range when `available` is. -/
theorem toNat_cap_sub_le_iff (v : SizeT) : (cap.val - v).toNat ≤ cap.size ↔ v.toNat ≤ cap.size := by
  have hv := v.isLt
  have hcap := cap.val.isLt
  unfold Capacity.size
  by_cases hle : v.toNat ≤ cap.val.toNat
  · rw [BitVec.toNat_sub_of_le (BitVec.le_def.mpr hle)]
    omega
  · rw [BitVec.toNat_sub, Nat.mod_eq_of_lt (by omega)]
    omega

end SpscRing

/-! ### `from_processor` -/

namespace PrometheusMetrics

open Text Exposition

/-- One metric of `from_processor`: its two comment lines, the value and an empty line. -/
def metric (name help type : Text) (value : BitVec 64) (nowMs : ℕ) : Text :=
  emitHelp name help ++ emitType name type ++ name ++ " ".toList ++ decimal value.toNat ++
    " ".toList ++ decimal nowMs ++ "\n\n".toList

theorem metric_append (name help type : Text) (value : BitVec 64) (nowMs : ℕ) (rest : Text) :
    metric name help type value nowMs ++ rest =
      emitHelp name help ++ (emitType name type ++
        (render name [] value.toNat nowMs ++ '\n' :: '\n' :: rest)) := by
  simp [metric, render]

/-- A metric is read as one sample. -/
theorem parse_metric {name help type : Text} (hname : isName isNameStart isNameChar name = true)
    (hhelp : '\n' ∉ help) (htype : '\n' ∉ type) (value : BitVec 64) (nowMs : ℕ) (rest : Text) :
    parse (metric name help type value nowMs ++ rest) =
      (parse rest).map (counterSample name [] value nowMs :: ·) := by
  have hfeed : '\n' ∉ name := not_mem_of_isName hname (by decide) (by decide)
  rw [metric_append, parse_metadata hfeed hhelp htype, parse_render _ _ hname (by simp), parse_feed]
  rfl

/-- `from_processor`; `available` is what `proc.pool().available()` returned. -/
def fromProcessor (s : ProcessorStats) (available : SizeT) (nowMs : ℕ) : Text :=
  metric "dpdk_sim_packets_processed_total".toList "Total packets processed".toList
      "counter".toList s.pktsProcessed nowMs ++
    metric "dpdk_sim_packets_dropped_total".toList "Total packets dropped (ring full)".toList
      "counter".toList s.pktsDropped nowMs ++
    metric "dpdk_sim_bytes_processed_total".toList "Total bytes processed".toList
      "counter".toList s.bytesProcessed nowMs ++
    metric "dpdk_sim_pool_available".toList "Free objects in memory pool".toList
      "gauge".toList available nowMs

/-- The metrics of `from_processor`. -/
def processorNames : List Text :=
  ["dpdk_sim_packets_processed_total".toList, "dpdk_sim_packets_dropped_total".toList,
    "dpdk_sim_bytes_processed_total".toList, "dpdk_sim_pool_available".toList]

/-- The samples of `from_processor`. -/
def processorSamples (s : ProcessorStats) (available : SizeT) (nowMs : ℕ) : List Sample :=
  List.zipWith (fun name value => counterSample name [] value nowMs) processorNames
    [s.pktsProcessed, s.pktsDropped, s.bytesProcessed, available]

theorem fromProcessor_eq (s : ProcessorStats) (available : SizeT) (nowMs : ℕ) :
    fromProcessor s available nowMs =
      metric "dpdk_sim_packets_processed_total".toList "Total packets processed".toList
        "counter".toList s.pktsProcessed nowMs ++
      (metric "dpdk_sim_packets_dropped_total".toList "Total packets dropped (ring full)".toList
        "counter".toList s.pktsDropped nowMs ++
      (metric "dpdk_sim_bytes_processed_total".toList "Total bytes processed".toList
        "counter".toList s.bytesProcessed nowMs ++
      (metric "dpdk_sim_pool_available".toList "Free objects in memory pool".toList
        "gauge".toList available nowMs ++ []))) := by
  unfold fromProcessor
  rw [List.append_assoc, List.append_assoc, List.append_nil]

theorem parse_fromProcessor (s : ProcessorStats) (available : SizeT) (nowMs : ℕ) :
    parse (fromProcessor s available nowMs) = some (processorSamples s available nowMs) := by
  rw [fromProcessor_eq, parse_metric (by decide) (by decide) (by decide),
    parse_metric (by decide) (by decide) (by decide), parse_metric (by decide) (by decide) (by decide),
    parse_metric (by decide) (by decide) (by decide)]
  rfl

/-- The gauge of the pool is read back as the value `available()` returned. -/
theorem valueOf_available (s : ProcessorStats) (available : SizeT) (nowMs : ℕ) :
    valueOf "dpdk_sim_pool_available".toList (fromProcessor s available nowMs) =
      some (.number (Numeral.ofNat available.toNat)) := by
  unfold valueOf
  rw [samplesIn_of_parse (parse_fromProcessor s available nowMs)]
  rfl

end PrometheusMetrics

namespace SpscRing

variable {T : Type}

open PrometheusMetrics in
/-- **The observed size is at most the capacity exactly when the observer is not overtaken.**  For
every interleaving of a producer and a consumer, both orders of the two loads, and less than 2^63
items moved between them: the value of `size()` is at most the capacity iff, with the head loaded
first, no more items were taken between the loads than there were, and with the tail loaded first,
the items that came in between would still have fitted.  The same holds of `in_use()` of a pool
whose free list is that ring, and of the gauge `from_processor` prints. -/
theorem observedSize_le_iff (cap : Capacity) (start : SizeT) (data : Fin cap.size → T)
    (before between : List (Action T)) (s₁ s₂ : State T cap)
    (h₁ : Runs.run State.step (State.init start data) before = some s₁)
    (h₂ : Runs.run State.step s₁ between = some s₂)
    (htaken : taken s₁ s₂ < 2 ^ 63) (hadded : added s₁ s₂ < 2 ^ 63) (order : LoadOrder) :
    ((observedSize order s₁ s₂).toNat ≤ cap.size ↔ ¬ Overtaken order s₁ s₂) ∧
    ((cap.val - observedSize order s₁ s₂).toNat ≤ cap.size ↔ ¬ Overtaken order s₁ s₂) ∧
    ∀ stats nowMs, (∃ n ≤ cap.size, Exposition.valueOf "dpdk_sim_pool_available".toList
        (fromProcessor stats (observedSize order s₁ s₂) nowMs) = some (.number (Numeral.ofNat n))) ↔
      ¬ Overtaken order s₁ s₂ := by
  obtain ⟨hok₁, hc₁⟩ := State.counters_of_run h₁
  obtain ⟨-, hc₂⟩ := State.counters_of_run (Runs.run_append h₁ h₂)
  obtain ⟨henq, hdeq⟩ := State.grows_of_run h₂
  have hsize : (observedSize order s₁ s₂).toNat ≤ cap.size ↔ ¬ Overtaken order s₁ s₂ := by
    cases order with
    | headFirst => exact headFirst_le_iff hok₁ hc₁ hc₂ hdeq htaken
    | tailFirst => exact tailFirst_le_iff hok₁ hc₁ hc₂ henq hadded
  refine ⟨hsize, (toNat_cap_sub_le_iff _).trans hsize, fun stats nowMs => ?_⟩
  rw [valueOf_available, ← hsize]
  constructor
  · rintro ⟨n, hn, heq⟩
    injection heq with heq
    injection heq with heq
    have hvalue : (observedSize order s₁ s₂).toNat = n := congrArg Numeral.integer heq
    rw [hvalue]
    exact hn
  · intro hle
    exact ⟨_, hle, rfl⟩

/-- An item is enqueued before the loads and taken between them. -/
theorem observedSize_le_one_taken :
    ∃ s₁ s₂ : State ℕ twoSlots,
      Runs.run State.step (State.init 0 (fun _ => 0))
        (.callEnqueue (.enqueue 7) :: List.replicate 4 .producer) = some s₁ ∧
      Runs.run State.step s₁ (.callDequeue .dequeue :: List.replicate 4 .consumer) = some s₂ ∧
      taken s₁ s₂ = 1 ∧ (observedSize .headFirst s₁ s₂).toNat ≤ twoSlots.size := by
  obtain ⟨s₁, s₂, h₁, h₂, htaken, hadded, hsize⟩ : ∃ s₁ s₂ : State ℕ twoSlots,
      Runs.run State.step (State.init 0 (fun _ => 0))
        (.callEnqueue (.enqueue 7) :: List.replicate 4 .producer) = some s₁ ∧
      Runs.run State.step s₁ (.callDequeue .dequeue :: List.replicate 4 .consumer) = some s₂ ∧
      taken s₁ s₂ = 1 ∧ added s₁ s₂ = 0 ∧ s₁.ring.size.toNat = 1 :=
    ⟨_, _, rfl, rfl, by decide, by decide, by decide⟩
  have hiff := observedSize_le_iff twoSlots 0 _ _ _ s₁ s₂ h₁ h₂ (by rw [htaken]; norm_num)
    (by rw [hadded]; norm_num) .headFirst
  refine ⟨s₁, s₂, h₁, h₂, htaken, hiff.1.mpr ?_⟩
  simp only [Overtaken, htaken, hsize]
  exact Nat.lt_irrefl 1

end SpscRing

namespace BatchProcessor

/-- All four slots are allocated. -/
def allocAll : List (Action fourSlots) := allocSteps ++ allocSteps ++ allocSteps ++ allocSteps

/-- One packet is sent, processed and returned to the pool, and its slot is allocated again. -/
def cycle : List (Action fourSlots) :=
  sendSteps ⟨0, Nat.succ_pos 3⟩ ++ (.callProcess :: List.replicate 10 .worker) ++ allocSteps

open PrometheusMetrics in
/-- The HTTP thread reads the counters and loads `head_` of the free list when all slots are allocated,
and loads `tail_` after one slot has come back and gone again: the gauge of a pool of four says
2^64 - 1. -/
theorem available_wraps :
    ∃ s₁ s₂ : BatchProcessor oneSlot fourSlots,
      Runs.run (BatchProcessor.step id) fresh allocAll = some s₁ ∧
      Runs.run (BatchProcessor.step id) s₁ cycle = some s₂ ∧ s₁.Quiescent ∧ s₂.Quiescent ∧
      s₂.stats.pktsDropped = 0 ∧
      Exposition.valueOf "dpdk_sim_pool_available".toList
        (fromProcessor s₁.stats (s₁.pool.freeRing.head - s₂.pool.freeRing.tail) 5) =
          some (.number (Numeral.ofNat 18446744073709551615)) := by
  obtain ⟨s₁, h₁, hq₁, hhead, hnext⟩ :
      ∃ s, Runs.run (BatchProcessor.step id) fresh allocAll = some s ∧ s.Quiescent ∧
        s.pool.freeRing.head = 4 ∧
        (Runs.run (BatchProcessor.step id) s cycle).any (fun t => decide (t.Quiescent ∧
          t.stats.pktsDropped = 0 ∧ t.pool.freeRing.tail = 5)) = true :=
    Runs.exists_run_of_any (by decide +kernel)
  obtain ⟨s₂, h₂, hq₂, hdropped, htail⟩ := Runs.exists_run_of_any hnext
  refine ⟨s₁, s₂, h₁, h₂, hq₁, hq₂, hdropped, ?_⟩
  rw [valueOf_available, hhead, htail]
  rfl

end BatchProcessor

end EbpfMonitor
