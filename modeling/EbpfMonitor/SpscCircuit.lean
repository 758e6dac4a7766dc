import EbpfMonitor.SpscMemoryOrder

/-! # Two rings between two threads

Tokens that circulate between two threads: one ring takes them from the first thread to the second,
another ring takes them back, and a thread may touch the memory that belongs to a token while it has
the token in hand.  This is how `packet_processor.h` uses `ring_` and the free list of its pool.

* `Lane` is one direction, `Traffic` what is on it, and `Lane.Sound` the invariant of one direction.
  It refers to the other direction in two places: the producer has put in no more tokens than it got
  (`count`), and whoever knows a value of its `head_` knows a value of the other `tail_` that is as
  far (`behind`).
* `Circuit.Ok` is the invariant of both.  `Circuit.Ok.room` follows from it: although a thread may
  see an old `tail_`, it never sees one that is so old that a token in its hands does not fit.
* `Circuit.Ok.writable_cell`: the memory of a token in hand can be accessed without a data race,
  however the token came there. -/

namespace EbpfMonitor
namespace SpscRing

open ReleaseAcquire

variable {T : Type} {cap cap' : Capacity} {ι α δ : Type}

/-- One direction of the traffic. -/
structure Lane (T : Type) (cap : Capacity) (ι α δ : Type) extends Site cap ι α δ where
  start : SizeT
  /-- the tokens that the producer has or has put in at the start -/
  base : ℕ
  /-- `tail_` of the ring in the other direction -/
  back : α
  /-- the memory of a token -/
  cell : T → δ

/-- A ring in use, with the items that went in, the number of those that came out, and what the
stores to its counters stand for. -/
structure Traffic (T : Type) (cap : Capacity) (ι : Type) where
  data : Fin cap.size → T
  producer : Producer T
  consumer : Consumer T
  items : List T
  taken : ℕ
  published : List (ι → ℕ)
  hpos : ℕ → ℕ
  tpos : ℕ → ℕ

namespace Traffic

/-- A ring that is set up with the items `q` before the threads start. -/
def init (r : SpscRing T cap) (q : List T) : Traffic T cap ι :=
  ⟨r.data, .idle, .idle, q, 0, List.replicate q.length (fun _ => 0), fun _ => q.length, fun _ => 0⟩

/-- The tokens in the ring. -/
def transit (t : Traffic T cap ι) : List T := t.items.drop t.taken

/-- The tokens in the ring with the clocks at which they were published. -/
def cargo (t : Traffic T cap ι) : List (T × (ι → ℕ)) := t.transit.zip (t.published.drop t.taken)

theorem mem_transit_of_mem_cargo {t : Traffic T cap ι} {e : T × (ι → ℕ)} (h : e ∈ t.cargo) :
    e.1 ∈ t.transit :=
  (List.of_mem_zip h).1

/-- The ring after a step of the producer that published `xs`. -/
def publish (t : Traffic T cap ι) (data : Fin cap.size → T) (p : Producer T) (xs : List T)
    (clock : ι → ℕ) (hpos : ℕ → ℕ) : Traffic T cap ι :=
  { t with
    data := data
    producer := p
    items := t.items ++ xs
    published := t.published ++ List.replicate xs.length clock
    hpos := hpos }

/-- The ring after a step of the consumer that took `n` items. -/
def release (t : Traffic T cap ι) (c : Consumer T) (n : ℕ) (tpos : ℕ → ℕ) : Traffic T cap ι :=
  { t with consumer := c, taken := t.taken + n, tpos := tpos }

section

variable (t : Traffic T cap ι) {xs : List T}

theorem transit_publish (h : t.taken ≤ t.items.length) (data : Fin cap.size → T) (p : Producer T)
    (clock : ι → ℕ) (hpos : ℕ → ℕ) : (t.publish data p xs clock hpos).transit = t.transit ++ xs :=
  List.drop_append_of_le_length h

theorem cargo_publish (h : t.taken ≤ t.items.length) (hlen : t.published.length = t.items.length)
    (data : Fin cap.size → T) (p : Producer T) (clock : ι → ℕ) (hpos : ℕ → ℕ) :
    (t.publish data p xs clock hpos).cargo = t.cargo ++ xs.zip (List.replicate xs.length clock) := by
  rw [cargo, transit_publish t h, cargo]
  simp only [publish]
  rw [List.drop_append_of_le_length (by omega), List.zip_append]
  simp [transit, hlen]

theorem length_le_transit {t : Traffic T cap ι} (h : xs = t.transit.take xs.length) :
    xs.length ≤ t.transit.length := by
  rw [h]
  exact List.length_take_le' _ _

theorem transit_eq_append (h : xs = t.transit.take xs.length) (c : Consumer T) (tpos : ℕ → ℕ) :
    t.transit = xs ++ (t.release c xs.length tpos).transit := by
  simp only [transit, release] at h ⊢
  rw [← List.drop_drop]
  conv_rhs => enter [1]; rw [h]
  exact (List.take_append_drop _ _).symm

theorem cargo_eq_append (h : xs = t.transit.take xs.length)
    (hlen : t.published.length = t.items.length) (c : Consumer T) (tpos : ℕ → ℕ) :
    t.cargo = xs.zip ((t.published.drop t.taken).take xs.length) ++
      (t.release c xs.length tpos).cargo := by
  have hle := length_le_transit h
  rw [cargo, transit_eq_append t h c tpos, cargo]
  simp only [release]
  rw [← List.zip_append, ← List.drop_drop, List.take_append_drop]
  rw [List.length_take, List.length_drop, hlen]
  simp only [transit, List.length_drop] at hle
  omega

end

end Traffic

/-! ### One direction -/

/-- The traffic on lane `a`, with `o` on the lane back; `mine` are the tokens in the hands of the
producer and `theirs` those in the hands of the consumer. -/
structure Lane.Sound (a : Lane T cap ι α δ) (m : Memory ι α SizeT δ) (t : Traffic T cap ι)
    (o : Traffic T cap' ι) (mine theirs : List T) : Prop where
  synced : Synced a.toSite m t.data t.producer t.consumer a.start t.items t.taken t.published t.hpos
    t.tpos
  count : t.items.length + mine.length = a.base + o.taken
  behind : ∀ k (msg : Message ι α SizeT), (m.history a.head)[k]? = some msg →
    t.hpos k ≤ a.base + o.tpos (msg.seen a.back)
  /-- a token in the ring was published after its last use -/
  cargo : ∀ e ∈ t.cargo, m.Covers a.producer (a.cell e.1) e.2
  /-- the consumer of a token knows of its last use -/
  hands : ∀ x ∈ theirs, m.Covers a.producer (a.cell x) (m.clock a.consumer)

namespace Lane.Sound

variable {a : Lane T cap ι α δ} {owner : α → ι} {m m' : Memory ι α SizeT δ} {t : Traffic T cap ι}
  {o o' : Traffic T cap' ι} {mine mine' theirs theirs' : List T} {k : ℕ} {xs : List T}

theorem init [DecidableEq ι] (a : Lane T cap ι α δ) {r : SpscRing T cap} {q : List T}
    (hr : Represents r q) (hstart : r.tail = a.start) (hbase : q.length = a.base) (value : α → SizeT)
    (hhead : value a.head = r.head) (htail : value a.tail = r.tail) (r' : SpscRing T cap')
    (q' : List T) : a.Sound (Memory.init value) (Traffic.init r q) (Traffic.init r' q') [] [] where
  synced := hstart ▸ Synced.init a.toSite hr value hhead htail
  count := hbase
  behind _ _ _ := hbase.le
  cargo _ _ := ⟨Nat.zero_le _, Nat.zero_le _⟩
  hands _ hx := nomatch hx

/-- A step that leaves the ring alone: one on the lane back, or an access to the memory of a token. -/
theorem frame (h : a.Sound m t o mine theirs) (ho : a.toSite.Owned owner) (hm : m.Coherent owner)
    (hm' : m'.Coherent owner) {i : ι} {A : Set α} {D : Set δ} (hacts : m.Acts i A D m')
    (hhead : a.head ∉ A) (htail : a.tail ∉ A) (hslot : ∀ d, a.slot d ∉ D)
    (hcell : ∀ x ∈ t.transit ++ theirs', a.cell x ∉ D ∨ a.producer ≠ i)
    (hback : ∀ l < (m.history a.back).length, o'.tpos l = o.tpos l)
    (hcount : t.items.length + mine'.length = a.base + o'.taken) (htheirs : theirs' ⊆ theirs) :
    a.Sound m' t o' mine' theirs' where
  synced := h.synced.frame ho hm hm' hacts hhead htail hslot
  count := hcount
  behind := by
    intro k msg hmsg
    rw [hacts.history _ hhead] at hmsg
    rw [hback _ (hm.messages _ msg (List.mem_of_getElem? hmsg) a.back).1]
    exact h.behind k msg hmsg
  cargo e he := hacts.covers (hcell _ (List.mem_append_left _ (Traffic.mem_transit_of_mem_cargo he)))
    (h.cargo e he) (le_refl _)
  hands x hx := hacts.covers (hcell x (List.mem_append_right _ hx)) (h.hands x (htheirs hx))
    (hacts.clock _)

/-- The producer or the consumer starts a call. -/
theorem call (h : a.Sound m t o mine theirs) {p : Producer T} {c : Consumer T}
    (hsync : Synced a.toSite m t.data p c a.start t.items t.taken t.published t.hpos t.tpos) :
    a.Sound m { t with producer := p, consumer := c } o mine theirs :=
  ⟨hsync, h.count, h.behind, h.cargo, h.hands⟩

variable [DecidableEq ι] [DecidableEq α] [DecidableEq δ]

/-- A step of the producer. -/
theorem next_producer (h : a.Sound m t o mine theirs) (ho : a.toSite.Owned owner)
    (hm : m.Coherent owner) (hcells : ∀ d x, a.slot d ≠ a.cell x) {data' : Fin cap.size → T}
    {p' : Producer T} (hstep : t.producer.nextAt a.toSite m t.data k = some (m', data', p', xs))
    (hlast : o.tpos (m'.seen a.producer a.back) = o.taken)
    (hmine : mine.length = xs.length + mine'.length) :
    ∃ hpos', a.Sound m' (t.publish data' p' xs (m.clock a.producer) hpos') o mine' theirs := by
  have hacts := Producer.acts_nextAt ho.head hm hstep
  have hcell : ∀ x, a.cell x ∉ Set.range a.slot := fun x ⟨d, hd⟩ => hcells d x hd
  obtain ⟨hm', hpos', hagree, hsync⟩ := h.synced.next_producer ho hm hstep
  have hcount := h.count
  have htaken := h.synced.taken_le ho hm
  refine ⟨hpos', hsync, ?_, ?_, ?_, ?_⟩
  · simp only [Traffic.publish, List.length_append]
    omega
  · intro k msg hmsg
    simp only [Traffic.publish]
    rcases hacts.messages _ k msg hmsg with hold | ⟨rfl, hseen⟩
    · rw [hagree k (List.getElem?_eq_some_iff.mp hold).1]
      exact h.behind k msg hold
    · -- the new store: the producer has seen its own `tail_` on the lane back
      rw [hsync.head.last_eq, hseen, hlast, List.length_append]
      omega
  · intro e he
    rw [Traffic.cargo_publish t (by omega) h.synced.published_length] at he
    rcases List.mem_append.mp he with he | he
    · exact hacts.covers (Or.inl (hcell _)) (h.cargo e he) (le_refl _)
    · rw [List.eq_of_mem_replicate (List.of_mem_zip he).2]
      exact hacts.covers (Or.inl (hcell _)) (hm.stamped _ _) (le_refl _)
  · intro x hx
    exact hacts.covers (Or.inl (hcell _)) (h.hands x hx) (hacts.clock _)

/-- A step of the consumer: it now has in its hands what it took. -/
theorem next_consumer (h : a.Sound m t o mine theirs) (ho : a.toSite.Owned owner)
    (hm : m.Coherent owner) (hcells : ∀ d x, a.slot d ≠ a.cell x) {c' : Consumer T}
    (hstep : t.consumer.nextAt a.toSite m t.data k = some (m', c', xs))
    (htheirs : theirs' ⊆ xs ++ theirs) :
    xs = t.transit.take xs.length ∧
      ∃ tpos', (∀ l < (m.history a.tail).length, tpos' l = t.tpos l) ∧
        a.Sound m' (t.release c' xs.length tpos') o mine theirs' := by
  have hacts := Consumer.acts_nextAt ho.tail hm hstep
  have hcell : ∀ x, a.cell x ∉ Set.range a.slot := fun x ⟨d, hd⟩ => hcells d x hd
  obtain ⟨hm', hxs, tpos', hagree, hsync⟩ := h.synced.next_consumer ho hm hstep
  have hcargo := Traffic.cargo_eq_append t hxs h.synced.published_length c' tpos'
  refine ⟨hxs, tpos', hagree, hsync, h.count, ?_, ?_, ?_⟩
  · intro k msg hmsg
    rw [hacts.history _ a.head_ne_tail] at hmsg
    exact h.behind k msg hmsg
  · intro e he
    exact hacts.covers (Or.inl (hcell _)) (h.cargo e (hcargo ▸ List.mem_append_right _ he)) (le_refl _)
  · intro x hx
    rcases List.mem_append.mp (htheirs hx) with hx | hx
    · -- a token just taken: its publication is known with `head_`
      obtain ⟨e, he, rfl⟩ : ∃ e ∈ xs.zip ((t.published.drop t.taken).take xs.length), e.1 = x := by
        have hlen : xs.length ≤ ((t.published.drop t.taken).take xs.length).length := by
          have hle := Traffic.length_le_transit hxs
          have hpub := h.synced.published_length
          simp only [Traffic.transit, List.length_drop] at hle
          rw [List.length_take, List.length_drop]
          omega
        rw [← List.map_fst_zip hlen] at hx
        exact List.mem_map.mp hx
      have hknown : e.2 ≤ m'.clock a.consumer := by
        refine hsync.published_le_clock hm' (List.take_subset_take_left _ (Nat.le_add_right _ _) ?_)
        rw [List.take_add]
        exact List.mem_append_right _ (List.of_mem_zip he).2
      exact hacts.covers (Or.inl (hcell _)) (h.cargo e (hcargo ▸ List.mem_append_left _ he)) hknown
    · exact hacts.covers (Or.inl (hcell _)) (h.hands x hx) (hacts.clock _)

end Lane.Sound

/-! ### Both directions -/

/-- The lanes `a` and `b` connect the same two threads in opposite directions. -/
structure Circuit (owner : α → ι) (a : Lane T cap ι α δ) (b : Lane T cap' ι α δ) : Prop where
  owned : a.toSite.Owned owner
  owned_back : b.toSite.Owned owner
  consumer_eq : b.consumer = a.producer
  producer_eq : b.producer = a.consumer
  threads : ∀ i, i = a.producer ∨ i = a.consumer
  back_eq : a.back = b.tail
  back_back_eq : b.back = a.tail
  cell_eq : b.cell = a.cell
  cell_injective : Function.Injective a.cell
  head_ne : a.head ≠ b.tail
  tail_ne : a.tail ≠ b.head
  slot_ne : ∀ d e, a.slot d ≠ b.slot e
  slot_ne_cell : ∀ d x, a.slot d ≠ a.cell x
  slot_back_ne_cell : ∀ d x, b.slot d ≠ b.cell x

/-- Both lanes are sound, and every token is in one place. -/
structure Circuit.Ok (owner : α → ι) (a : Lane T cap ι α δ) (b : Lane T cap' ι α δ) (tokens : List T)
    (m : Memory ι α SizeT δ) (t : Traffic T cap ι) (o : Traffic T cap' ι) (mine theirs : List T) :
    Prop where
  coherent : m.Coherent owner
  forth : a.Sound m t o mine theirs
  back : b.Sound m o t theirs mine
  conserved : ((t.transit ++ mine) ++ (o.transit ++ theirs)).Perm tokens

namespace Circuit

variable {owner : α → ι} {a : Lane T cap ι α δ} {b : Lane T cap' ι α δ} {tokens : List T}
  {m m' : Memory ι α SizeT δ} {t : Traffic T cap ι} {o : Traffic T cap' ι}
  {mine mine' theirs theirs' : List T} {k : ℕ} {xs : List T}

theorem symm (hc : Circuit owner a b) : Circuit owner b a where
  owned := hc.owned_back
  owned_back := hc.owned
  consumer_eq := hc.producer_eq.symm
  producer_eq := hc.consumer_eq.symm
  threads i := by
    rw [hc.producer_eq, hc.consumer_eq]
    exact (hc.threads i).symm
  back_eq := hc.back_back_eq
  back_back_eq := hc.back_eq
  cell_eq := hc.cell_eq.symm
  cell_injective := hc.cell_eq ▸ hc.cell_injective
  head_ne := hc.tail_ne.symm
  tail_ne := hc.head_ne.symm
  slot_ne d e := (hc.slot_ne e d).symm
  slot_ne_cell := hc.slot_back_ne_cell
  slot_back_ne_cell := hc.slot_ne_cell

/-- The two `head_` are different locations: they have different owners. -/
theorem heads_ne (hc : Circuit owner a b) : b.head ≠ a.head := by
  intro h
  have howner := hc.owned_back.head
  rw [h, hc.owned.head, hc.producer_eq] at howner
  exact hc.owned.threads_ne howner

theorem tails_ne (hc : Circuit owner a b) : b.tail ≠ a.tail := by
  intro h
  have howner := hc.owned_back.tail
  rw [h, hc.owned.tail, hc.consumer_eq] at howner
  exact hc.owned.threads_ne howner.symm

namespace Ok

theorem symm (h : Ok owner a b tokens m t o mine theirs) : Ok owner b a tokens m o t theirs mine :=
  ⟨h.coherent, h.back, h.forth, List.perm_append_comm.trans h.conserved⟩

/-- The order of the tokens in hand does not matter. -/
theorem perm (h : Ok owner a b tokens m t o mine theirs) (hmine : mine.Perm mine') :
    Ok owner a b tokens m t o mine' theirs where
  coherent := h.coherent
  forth := ⟨h.forth.synced, hmine.length_eq ▸ h.forth.count, h.forth.behind, h.forth.cargo, h.forth.hands⟩
  back := ⟨h.back.synced, h.back.count, h.back.behind, h.back.cargo,
    fun x hx => h.back.hands x (hmine.mem_iff.mpr hx)⟩
  conserved := ((hmine.symm.append_left _).append_right _).trans h.conserved

/-- **A token in hand fits**, by what its holder knows of `tail_`. -/
theorem room (h : Ok owner a b tokens m t o mine theirs) (hc : Circuit owner a b) :
    t.items.length + mine.length ≤ a.base + b.base + t.tpos (m.seen a.producer a.tail) := by
  have hcount := h.forth.count
  have havail := h.back.synced.avail
  obtain ⟨msg, hmsg, -, hview⟩ := h.coherent.exists_seen b.consumer b.head
  have hbehind := h.back.behind _ msg hmsg
  have hmono := h.forth.synced.tail.mono _ _ (hview a.tail) (h.coherent.threads b.consumer a.tail).1
  rw [hc.back_back_eq] at hbehind
  rw [hc.consumer_eq] at havail hbehind hmono
  omega

/-- **A token in hand can be used**: no access to its memory is a data race. -/
theorem writable_cell (h : Ok owner a b tokens m t o mine theirs) (hc : Circuit owner a b) {x : T}
    (hx : x ∈ mine) : m.Writable a.producer (a.cell x) := by
  intro j
  rcases hc.threads j with rfl | rfl
  · exact h.coherent.stamped _ _
  · have hhands := h.back.hands x hx
    rwa [hc.producer_eq, hc.consumer_eq, hc.cell_eq] at hhands

/-- The holder of a token uses its memory. -/
theorem access (h : Ok owner a b tokens m t o mine theirs) (hc : Circuit owner a b)
    (htokens : tokens.Nodup) {x : T} (hx : x ∈ mine) (hm' : m'.Coherent owner)
    (hacts : m.Acts a.producer ∅ {a.cell x} m') : Ok owner a b tokens m' t o mine theirs := by
  -- the token is nowhere else
  have hnodup := (h.conserved.nodup_iff.mpr htokens)
  have helse : ∀ y ∈ t.transit ++ theirs, y ≠ x := by
    rintro y hy rfl
    rw [List.nodup_append, List.nodup_append] at hnodup
    obtain ⟨⟨-, -, hmine⟩, -, hother⟩ := hnodup
    rcases List.mem_append.mp hy with hy | hy
    · exact hmine y hy y hx rfl
    · exact hother y (List.mem_append_right _ hx) y (List.mem_append_right _ hy) rfl
  refine ⟨hm', ?_, ?_, h.conserved⟩
  · refine h.forth.frame hc.owned h.coherent hm' hacts id id (fun d => hc.slot_ne_cell d x)
      (fun y hy => Or.inl (hc.cell_injective.ne (helse y hy))) (fun _ _ => rfl) h.forth.count
      (List.Subset.refl _)
  · refine h.back.frame hc.owned_back h.coherent hm' hacts id id
      (fun d => hc.cell_eq ▸ hc.slot_back_ne_cell d x) (fun y hy => Or.inr ?_) (fun _ _ => rfl)
      h.back.count (List.Subset.refl _)
    rw [hc.producer_eq]
    exact hc.owned.threads_ne.symm

/-- A thread starts a call on lane `a`. -/
theorem call (h : Ok owner a b tokens m t o mine theirs) {p : Producer T} {c : Consumer T}
    (hsync : Synced a.toSite m t.data p c a.start t.items t.taken t.published t.hpos t.tpos) :
    Ok owner a b tokens m { t with producer := p, consumer := c } o mine theirs :=
  ⟨h.coherent, h.forth.call hsync, ⟨h.back.synced, h.back.count, h.back.behind, h.back.cargo, h.back.hands⟩,
    h.conserved⟩

variable [DecidableEq ι] [DecidableEq α] [DecidableEq δ]

/-- **A step of the producer of a lane.** -/
theorem next_producer (h : Ok owner a b tokens m t o mine theirs) (hc : Circuit owner a b)
    {data' : Fin cap.size → T} {p' : Producer T}
    (hstep : t.producer.nextAt a.toSite m t.data k = some (m', data', p', xs))
    (hmine : mine.Perm (xs ++ mine')) :
    ∃ hpos', Ok owner a b tokens m' (t.publish data' p' xs (m.clock a.producer) hpos') o mine' theirs := by
  have hm' := (h.forth.synced.next_producer hc.owned h.coherent hstep).1
  have hacts := Producer.acts_nextAt hc.owned.head h.coherent hstep
  have hlen : mine.length = xs.length + mine'.length := by simpa using hmine.length_eq
  have htaken := h.forth.synced.taken_le hc.owned h.coherent
  have hback : b.Sound m' o t theirs mine' :=
    h.back.frame hc.owned_back h.coherent hm' hacts hc.heads_ne hc.head_ne.symm
      (fun d => fun ⟨e, he⟩ => hc.slot_ne e d he)
      (fun x _ => Or.inl (fun ⟨d, hd⟩ => hc.slot_ne_cell d x (hc.cell_eq ▸ hd))) (fun _ _ => rfl)
      h.back.count (fun x hx => hmine.mem_iff.mpr (List.mem_append_right _ hx))
  have hlast : o.tpos (m'.seen a.producer a.back) = o.taken := by
    have hlast := hback.synced.tail.last_eq
    rwa [hc.consumer_eq, ← hc.back_eq] at hlast
  obtain ⟨hpos', hforth⟩ := h.forth.next_producer hc.owned h.coherent hc.slot_ne_cell hstep hlast hlen
  refine ⟨hpos', hm', hforth, ⟨hback.synced, hback.count, hback.behind, hback.cargo, hback.hands⟩, ?_⟩
  rw [Traffic.transit_publish t (by omega), List.append_assoc t.transit]
  exact ((hmine.symm.append_left _).append_right _).trans h.conserved

/-- **A step of the consumer of a lane.** -/
theorem next_consumer (h : Ok owner a b tokens m t o mine theirs) (hc : Circuit owner a b)
    {c' : Consumer T} (hstep : t.consumer.nextAt a.toSite m t.data k = some (m', c', xs))
    (htheirs : theirs'.Perm (xs ++ theirs)) :
    ∃ tpos', Ok owner a b tokens m' (t.release c' xs.length tpos') o mine theirs' := by
  have hm' := (h.forth.synced.next_consumer hc.owned h.coherent hstep).1
  have hacts := Consumer.acts_nextAt hc.owned.tail h.coherent hstep
  obtain ⟨hxs, tpos', hagree, hforth⟩ :=
    h.forth.next_consumer hc.owned h.coherent hc.slot_ne_cell hstep (fun x hx => htheirs.mem_iff.mp hx)
  have hcount : o.items.length + theirs'.length = b.base + (t.taken + xs.length) := by
    have hcount := h.back.count
    have hlen := htheirs.length_eq
    rw [List.length_append] at hlen
    omega
  refine ⟨tpos', hm', hforth, ?_, ?_⟩
  · exact h.back.frame hc.owned_back h.coherent hm' hacts hc.tail_ne.symm hc.tails_ne
      (fun d => fun ⟨e, he⟩ => hc.slot_ne e d he)
      (fun x _ => Or.inl (fun ⟨d, hd⟩ => hc.slot_ne_cell d x (hc.cell_eq ▸ hd)))
      (by rw [hc.back_back_eq]; exact hagree) hcount (List.Subset.refl _)
  · have hmoved : (o.transit ++ theirs').Perm (xs ++ (o.transit ++ theirs)) :=
      (htheirs.append_left _).trans (List.perm_append_comm_assoc _ _ _)
    refine ((hmoved.append_left _).trans (List.perm_append_comm_assoc _ _ _)).trans ?_
    have hconserved := h.conserved
    rw [t.transit_eq_append hxs c' tpos'] at hconserved
    simpa only [List.append_assoc] using hconserved

end Ok

end Circuit

end SpscRing
end EbpfMonitor
