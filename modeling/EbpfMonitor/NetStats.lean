import EbpfMonitor.Lib.PerCpuMap
import EbpfMonitor.Lib.Runs
import EbpfMonitor.Lib.Tally
import EbpfMonitor.TcpTracer
import Mathlib.Data.List.GetD
import Mathlib.Data.Nat.ModEq

/-! # The packet counters of `net_stats.bpf.c`

`xdp_net_stats` runs once for every packet, on the processor that received it.  It increments
`total_packets`, reads the Ethernet and IP headers as far as the packet reaches, and hands the
protocol and the length to `count_packet`, which looks the protocol up in the per-processor map
`proto_stats` and increments what it finds, or inserts a first value.

On one processor these steps follow each other; the steps of different processors interleave in
any order.  The state records the program counter of every processor and, for the statements
only, the packets handled so far.

Between the steps the counters are behind: a packet that has been classified and not yet written
is owed.  The invariant `Gauge.Ok` balances what the map reads, what is owed and what is due, for
the packets and for the bytes at once, for every protocol that has an entry.  A protocol without
an entry is either still owed everything, or the map was full when it was first written, and the
ignored failure of `bpf_map_update_elem` has lost it. -/

namespace EbpfMonitor.NetStats

/-! ### Packets -/

/-- A packet between `data` and `data_end`; the length is a 32-bit number in the context. -/
structure Frame where
  bytes : List (BitVec 8)
  length_lt : bytes.length < 2 ^ 32

def ethPIp : BitVec 16 := 0x0800
def ethPIpv6 : BitVec 16 := 0x86DD

/-- `sizeof(struct ethhdr)`, `sizeof(struct iphdr)` and `sizeof(struct ipv6hdr)`. -/
def sizeofEthhdr : ℕ := 14
def sizeofIphdr : ℕ := 20
def sizeofIpv6hdr : ℕ := 40

def Frame.byte (f : Frame) (i : ℕ) : BitVec 8 := f.bytes.getD i 0

/-- `eth->h_proto`, bytes 12 and 13 as a little-endian processor loads them. -/
def Frame.hProto (f : Frame) : BitVec 16 := f.byte 13 ++ f.byte 12

/-- `ip->protocol`, byte 9 of the IPv4 header. -/
def Frame.protocol (f : Frame) : BitVec 8 := f.byte (sizeofEthhdr + 9)

/-- `ip6->nexthdr`, byte 6 of the IPv6 header. -/
def Frame.nexthdr (f : Frame) : BitVec 8 := f.byte (sizeofEthhdr + 6)

/-- `data_end - data` as a `u32`. -/
def Frame.pktLen (f : Frame) : BitVec 32 := BitVec.ofNat 32 f.bytes.length

/-- The arguments of the call of `count_packet` that `xdp_net_stats` makes, if it makes one. -/
def Frame.call (f : Frame) : Option (BitVec 8 × BitVec 32) :=
  if sizeofEthhdr > f.bytes.length then none
  else if bswap16 f.hProto = ethPIp then
    if sizeofEthhdr + sizeofIphdr > f.bytes.length then none else some (f.protocol, f.pktLen)
  else if bswap16 f.hProto = ethPIpv6 then
    if sizeofEthhdr + sizeofIpv6hdr > f.bytes.length then none else some (f.nexthdr, f.pktLen)
  else none

/-- The packet is an Ethernet header of the given type, a complete header of `size` bytes whose
byte `offset` is `p`, and any rest. -/
def Carries (type : BitVec 16) (size offset : ℕ) (p : BitVec 8) (bytes : List (BitVec 8)) : Prop :=
  ∃ addresses hi lo header rest, bytes = addresses ++ hi :: lo :: (header ++ rest) ∧
    addresses.length = 12 ∧ hi ++ lo = type ∧ header.length = size ∧ header[offset]? = some p

/-- The packet counts for protocol `p`: a complete IPv4 header with protocol `p`, or a complete
IPv6 header with next header `p`. -/
def CountsAs (p : BitVec 8) (f : Frame) : Prop :=
  Carries 0x0800 20 9 p f.bytes ∨ Carries 0x86DD 40 6 p f.bytes

theorem bswap16_append (a b : BitVec 8) : bswap16 (b ++ a) = a ++ b := by
  apply BitVec.eq_of_toNat_eq
  have ha := a.isLt
  have hb := b.isLt
  rw [toNat_bswap16, BitVec.toNat_append, BitVec.toNat_append,
    ← Nat.shiftLeft_add_eq_or_of_lt ha, ← Nat.shiftLeft_add_eq_or_of_lt hb,
    Nat.shiftLeft_eq, Nat.shiftLeft_eq]
  omega

theorem carries_iff {type : BitVec 16} {size offset : ℕ} (hlt : offset < size) {p : BitVec 8}
    {bytes : List (BitVec 8)} :
    Carries type size offset p bytes ↔ 14 + size ≤ bytes.length ∧
      bytes.getD 12 0 ++ bytes.getD 13 0 = type ∧ bytes.getD (14 + offset) 0 = p := by
  constructor
  · rintro ⟨addresses, hi, lo, header, rest, rfl, haddr, htype, hsize, hp⟩
    have hget : (addresses ++ hi :: lo :: (header ++ rest)).getD (14 + offset) 0 = p := by
      rw [List.getD_eq_getElem?_getD, List.getElem?_append_right (by omega), haddr,
        show 14 + offset - 12 = offset + 1 + 1 by omega, List.getElem?_cons_succ,
        List.getElem?_cons_succ, List.getElem?_append_left (by omega), hp, Option.getD_some]
    refine ⟨?_, ?_, hget⟩
    · simp only [List.length_append, List.length_cons]
      omega
    · simp [List.getD_eq_getElem?_getD, List.getElem?_append_right, haddr, htype]
  · rintro ⟨hlen, htype, hp⟩
    refine ⟨bytes.take 12, bytes.getD 12 0, bytes.getD 13 0, (bytes.drop 14).take size,
      (bytes.drop 14).drop size, ?_, ?_, htype, ?_, ?_⟩
    · rw [List.take_append_drop, List.getD_eq_getElem _ _ (by omega),
        List.getD_eq_getElem _ _ (by omega), ← List.drop_eq_getElem_cons (by omega),
        ← List.drop_eq_getElem_cons (by omega), List.take_append_drop]
    · rw [List.length_take]
      omega
    · rw [List.length_take, List.length_drop]
      omega
    · rw [List.getElem?_take_of_lt hlt, List.getElem?_drop, ← hp,
        List.getD_eq_getElem _ _ (by omega), List.getElem?_eq_getElem (by omega)]

/-- `xdp_net_stats` classifies every packet as the format says. -/
theorem call_eq_some_iff {f : Frame} {p : BitVec 8} {len : BitVec 32} :
    f.call = some (p, len) ↔ CountsAs p f ∧ len = f.pktLen := by
  unfold CountsAs
  rw [carries_iff (by omega), carries_iff (by omega)]
  have hswap : bswap16 f.hProto = f.bytes.getD 12 0 ++ f.bytes.getD 13 0 := bswap16_append _ _
  unfold Frame.call Frame.protocol Frame.nexthdr Frame.byte ethPIp ethPIpv6
    sizeofEthhdr sizeofIphdr sizeofIpv6hdr
  rw [hswap]
  generalize f.bytes.getD 12 0 ++ f.bytes.getD 13 0 = type
  split_ifs with hshort h4 hshort4 h6 hshort6 <;> grind

instance (p : BitVec 8) (f : Frame) : Decidable (CountsAs p f) :=
  decidable_of_iff (f.call = some (p, f.pktLen))
    (call_eq_some_iff.trans (and_iff_left rfl))

/-! ### Steps -/

/-- `struct net_stats_val`. -/
structure NetStatsVal where
  packets : BitVec 64
  bytes : BitVec 64
  deriving DecidableEq

instance : Zero NetStatsVal := ⟨⟨0, 0⟩⟩

/-- `val->packets++; val->bytes += pkt_len`. -/
def NetStatsVal.count (v : NetStatsVal) (pktLen : BitVec 32) : NetStatsVal :=
  ⟨v.packets + 1, v.bytes + pktLen.setWidth 64⟩

/-- Where a processor is: outside the program, or in `count_packet` before the lookup, after it
found a value, after it found none. -/
inductive Pc where
  | idle
  | lookup (proto : BitVec 8) (pktLen : BitVec 32)
  | found (proto : BitVec 8) (pktLen : BitVec 32)
  | missing (proto : BitVec 8) (pktLen : BitVec 32)
  deriving DecidableEq

/-- The call of `count_packet` a processor is in. -/
def Pc.call : Pc → Option (BitVec 8 × BitVec 32)
  | .idle => none
  | .lookup proto pktLen => some (proto, pktLen)
  | .found proto pktLen => some (proto, pktLen)
  | .missing proto pktLen => some (proto, pktLen)

@[simp] theorem Pc.call_idle : Pc.idle.call = none := rfl

/-- The maps, the program counters, and the packets handled so far. -/
structure State (C : Type) where
  protoStats : PerCpuMap C (BitVec 8) NetStatsVal 16
  totalPackets : C → BitVec 64
  pc : C → Pc
  handled : List Frame

inductive Action (C : Type) where
  /-- A packet arrives and is read up to the call of `count_packet`. -/
  | receive (cpu : C) (f : Frame)
  /-- `bpf_map_lookup_elem(&proto_stats, &key)`. -/
  | lookup (cpu : C)
  /-- The increment or the `bpf_map_update_elem` that follows. -/
  | write (cpu : C)

namespace State

variable {C : Type} [DecidableEq C]

omit [DecidableEq C] in
def init : State C := ⟨PerCpuMap.empty, fun _ => 0, fun _ => .idle, []⟩

def goto (s : State C) (c : C) (pc : Pc) : State C := { s with pc := Function.update s.pc c pc }

def receive (s : State C) (c : C) (f : Frame) : State C :=
  { s with
    totalPackets := Function.update s.totalPackets c (s.totalPackets c + 1)
    pc := Function.update s.pc c (match f.call with
      | none => .idle
      | some (proto, pktLen) => .lookup proto pktLen)
    handled := s.handled ++ [f] }

def step (s : State C) : Action C → Option (State C)
  | .receive c f =>
      match s.pc c with
      | .idle => some (s.receive c f)
      | _ => none
  | .lookup c =>
      match s.pc c with
      | .lookup proto pktLen =>
          match s.protoStats.lookup c proto with
          | some _ => some (s.goto c (.found proto pktLen))
          | none => some (s.goto c (.missing proto pktLen))
      | _ => none
  | .write c =>
      match s.pc c with
      | .found proto pktLen =>
          some { s with
            protoStats := s.protoStats.modify c proto (fun v => v.count pktLen)
            pc := Function.update s.pc c .idle }
      | .missing proto pktLen =>
          -- the result of `bpf_map_update_elem` is not looked at
          some { s with
            protoStats := s.protoStats.update c proto ⟨1, pktLen.setWidth 64⟩
            pc := Function.update s.pc c .idle }
      | _ => none

/-- The sum over the processors of `proto_stats[p].packets`. -/
def packets [Fintype C] (s : State C) (p : BitVec 8) : ℕ :=
  ∑ c, (s.protoStats.value p c).packets.toNat

/-- The sum over the processors of `proto_stats[p].bytes`. -/
def bytes [Fintype C] (s : State C) (p : BitVec 8) : ℕ :=
  ∑ c, (s.protoStats.value p c).bytes.toNat

/-- The sum over the processors of `total_packets`. -/
def total [Fintype C] (s : State C) : ℕ := ∑ c, (s.totalPackets c).toNat

end State

/-! ### What should have been counted -/

section Counted

variable {C : Type} {s s' : State C}

/-- The handled packets that count for protocol `p`. -/
def State.ofProtocol (s : State C) (p : BitVec 8) : List Frame :=
  s.handled.filter (fun f => CountsAs p f)

/-- The protocols the packets count for. -/
def protocols (fs : List Frame) : Finset (BitVec 8) :=
  (fs.filterMap (fun f => f.call.map Prod.fst)).toFinset

theorem mem_protocols_iff {fs : List Frame} {p : BitVec 8} :
    p ∈ protocols fs ↔ ∃ f ∈ fs, CountsAs p f := by
  simp only [protocols, List.mem_toFinset, List.mem_filterMap, Option.map_eq_some_iff,
    Prod.exists, exists_and_right, exists_eq_right, call_eq_some_iff]

/-- A packet of protocol `p` has been handled. -/
def Seen (s : State C) (p : BitVec 8) : Prop := ∃ f ∈ s.handled, CountsAs p f

theorem Seen.of_subset {p : BitVec 8} (h : Seen s p) (hsub : s.handled ⊆ s'.handled) : Seen s' p :=
  h.imp (fun _ hf => ⟨hsub hf.1, hf.2⟩)

/-- What a processor remembers from its lookup still holds: no key is ever deleted, and nobody
else writes its value. -/
structure Inv (s : State C) : Prop where
  found : ∀ c p len, s.pc c = .found p len → p ∈ s.protoStats.keys
  missing : ∀ c p len, s.pc c = .missing p len → s.protoStats.value p c = 0
  calls : ∀ c p len, (s.pc c).call = some (p, len) → Seen s p
  keys : ∀ p ∈ s.protoStats.keys, Seen s p

theorem inv_init : Inv (State.init : State C) where
  found := by rintro c p len ⟨⟩
  missing := by rintro c p len ⟨⟩
  calls := by rintro c p len ⟨⟩
  keys := by
    intro p hp
    rw [State.init, PerCpuMap.keys_empty] at hp
    exact absurd hp (Finset.notMem_empty p)

/-- With at most sixteen protocols no entry is refused: each has one, or nothing is due to it. -/
theorem Inv.mem_keys_of_full (h : Inv s) (hcard : (protocols s.handled).card ≤ 16)
    (hfull : s.protoStats.keys.card = 16) {p : BitVec 8} (hp : Seen s p) :
    p ∈ s.protoStats.keys := by
  have hsub : s.protoStats.keys ⊆ protocols s.handled :=
    fun q hq => mem_protocols_iff.mpr (h.keys q hq)
  have heq : s.protoStats.keys = protocols s.handled :=
    Finset.eq_of_subset_of_card_le hsub (by omega)
  rw [heq]
  exact mem_protocols_iff.mpr hp

/-- With more than sixteen protocols one of them has no entry. -/
theorem exists_lost (hcard : 16 < (protocols s.handled).card) :
    ∃ p, s.ofProtocol p ≠ [] ∧ p ∉ s.protoStats.keys := by
  have hless : s.protoStats.keys.card < (protocols s.handled).card :=
    lt_of_le_of_lt s.protoStats.card_keys_le hcard
  obtain ⟨p, hp, hlost⟩ := Finset.exists_mem_notMem_of_card_lt_card hless
  obtain ⟨f, hf, hcounts⟩ := mem_protocols_iff.mp hp
  exact ⟨p, List.ne_nil_of_mem (List.mem_filter.mpr ⟨hf, decide_eq_true hcounts⟩), hlost⟩

/-! ### The balance of a counter -/

/-- One of the two counters of `struct net_stats_val`, and what a packet of a given length adds to
it; counting wraps modulo 2^64. -/
structure Gauge where
  read : NetStatsVal → ℕ
  weight : BitVec 32 → ℕ
  read_zero : read 0 = 0
  read_count_le : ∀ v len, read (v.count len) ≤ read v + weight len
  read_count_modEq : ∀ v len, read (v.count len) ≡ read v + weight len [MOD 2 ^ 64]

namespace Gauge

def packets : Gauge where
  read v := v.packets.toNat
  weight _ := 1
  read_zero := rfl
  read_count_le v _ := by
    rw [NetStatsVal.count, BitVec.toNat_add]
    exact Nat.mod_le _ _
  read_count_modEq v _ := by
    rw [NetStatsVal.count, BitVec.toNat_add]
    exact Nat.mod_modEq _ _

def bytes : Gauge where
  read v := v.bytes.toNat
  weight len := len.toNat
  read_zero := rfl
  read_count_le v len := by
    rw [NetStatsVal.count, BitVec.toNat_add, BitVec.toNat_setWidth_of_le (by omega)]
    exact Nat.mod_le _ _
  read_count_modEq v len := by
    rw [NetStatsVal.count, BitVec.toNat_add, BitVec.toNat_setWidth_of_le (by omega)]
    exact Nat.mod_modEq _ _

variable (g : Gauge)

/-- What a call of `count_packet` adds to the counter of protocol `p`. -/
def cost (p : BitVec 8) : Option (BitVec 8 × BitVec 32) → ℕ
  | none => 0
  | some (q, len) => if q = p then g.weight len else 0

@[simp] theorem cost_none (p : BitVec 8) : g.cost p none = 0 := rfl

theorem cost_self (p : BitVec 8) (len : BitVec 32) : g.cost p (some (p, len)) = g.weight len :=
  if_pos rfl

theorem cost_of_ne {p q : BitVec 8} (h : q ≠ p) (len : BitVec 32) :
    g.cost p (some (q, len)) = 0 := if_neg h

theorem cost_call (p : BitVec 8) (f : Frame) :
    g.cost p f.call = if CountsAs p f then g.weight f.pktLen else 0 := by
  by_cases h : CountsAs p f
  · rw [if_pos h, call_eq_some_iff.mpr ⟨h, rfl⟩, cost_self]
  · rw [if_neg h]
    rcases hcall : f.call with _ | ⟨q, len⟩
    · rfl
    · have hq := (call_eq_some_iff.mp hcall).1
      refine g.cost_of_ne ?_ len
      rintro rfl
      exact h hq

/-- What the handled packets should have added for protocol `p`. -/
def due (s : State C) (p : BitVec 8) : ℕ := (s.handled.map (fun f => g.cost p f.call)).sum

theorem due_eq (s : State C) (p : BitVec 8) :
    g.due s p = ((s.ofProtocol p).map (fun f => g.weight f.pktLen)).sum := by
  rw [due, State.ofProtocol]
  induction s.handled with
  | nil => rfl
  | cons f fs ih =>
      rw [List.map_cons, List.sum_cons, ih, g.cost_call, List.filter_cons]
      by_cases h : CountsAs p f
      · simp [h]
      · simp [h]

theorem due_of_not_seen {p : BitVec 8} (hp : ¬ Seen s p) : g.due s p = 0 := by
  have hnone : s.ofProtocol p = [] := by
    rw [State.ofProtocol, List.filter_eq_nil_iff]
    intro f hf hcounts
    exact hp ⟨f, hf, of_decide_eq_true hcounts⟩
  rw [g.due_eq, hnone]
  rfl

theorem due_packets (p : BitVec 8) : Gauge.packets.due s p = (s.ofProtocol p).length := by
  rw [due_eq]
  simp [Gauge.packets]

theorem due_bytes (p : BitVec 8) :
    Gauge.bytes.due s p = ((s.ofProtocol p).map (fun f => f.bytes.length)).sum := by
  rw [due_eq]
  congr 1
  apply List.map_congr_left
  intro f _
  change (BitVec.ofNat 32 f.bytes.length).toNat = _
  rw [BitVec.toNat_ofNat, Nat.mod_eq_of_lt f.length_lt]

variable [Fintype C]

/-- What the map shows for protocol `p`. -/
def shown (s : State C) (p : BitVec 8) : ℕ := ∑ c, g.read (s.protoStats.value p c)

/-- What the calls still in progress will add for protocol `p`. -/
def owed (s : State C) (p : BitVec 8) : ℕ := ∑ c, g.cost p (s.pc c).call

/-- Shown and owed together make up what is due. -/
def Balanced (s : State C) (p : BitVec 8) : Prop :=
  g.shown s p + g.owed s p ≤ g.due s p ∧ g.shown s p + g.owed s p ≡ g.due s p [MOD 2 ^ 64]

/-- A protocol with an entry is balanced; one without is balanced or has met a full map. -/
structure Ok (s : State C) : Prop where
  held : ∀ p ∈ s.protoStats.keys, g.Balanced s p
  absent : ∀ p, p ∉ s.protoStats.keys → s.protoStats.keys.card = 16 ∨ g.owed s p = g.due s p

/-- Between packets nothing is owed. -/
theorem owed_of_idle (hidle : ∀ c, s.pc c = .idle) (p : BitVec 8) :
    g.owed s p = 0 := by
  apply Finset.sum_eq_zero
  intro c _
  rw [hidle c]
  rfl

variable {g}

theorem shown_of_notMem {p : BitVec 8} (h : p ∉ s.protoStats.keys) : g.shown s p = 0 := by
  apply Finset.sum_eq_zero
  intro c _
  rw [PerCpuMap.value_of_notMem h c, g.read_zero]

theorem ok_init : g.Ok (State.init : State C) where
  held := by
    intro p hp
    rw [State.init, PerCpuMap.keys_empty] at hp
    exact absurd hp (Finset.notMem_empty p)
  absent := by
    intro p _
    right
    exact Finset.sum_eq_zero (fun c _ => rfl)

theorem Ok.balanced_of_accepts (h : g.Ok s) {p : BitVec 8} (hacc : s.protoStats.Accepts p) :
    g.Balanced s p := by
  by_cases hmem : p ∈ s.protoStats.keys
  · exact h.held p hmem
  · have hroom := (PerCpuMap.accepts_iff.mp hacc).resolve_left hmem
    have heq := (h.absent p hmem).resolve_left (by omega)
    rw [Balanced, shown_of_notMem hmem, Nat.zero_add, heq]
    exact ⟨le_refl _, Nat.ModEq.refl _⟩

/-- Between packets, with at most sixteen protocols, each counter shows what is due. -/
theorem Ok.balanced_of_idle (h : g.Ok s) (hinv : Inv s)
    (hidle : ∀ c, s.pc c = .idle) (hcard : (protocols s.handled).card ≤ 16) (p : BitVec 8) :
    g.shown s p ≤ g.due s p ∧ g.shown s p ≡ g.due s p [MOD 2 ^ 64] := by
  have howed := g.owed_of_idle hidle p
  by_cases hmem : p ∈ s.protoStats.keys
  · have hbalanced := h.held p hmem
    rw [Balanced, howed, Nat.add_zero] at hbalanced
    exact hbalanced
  · rw [shown_of_notMem hmem]
    have hdue : g.due s p = 0 := by
      rcases h.absent p hmem with hfull | heq
      · exact g.due_of_not_seen (fun hseen => hmem (hinv.mem_keys_of_full hcard hfull hseen))
      · rw [← heq, howed]
    rw [hdue]
    exact ⟨le_refl _, Nat.ModEq.refl _⟩

end Gauge

end Counted

section Runs

variable {C : Type} [DecidableEq C] {s s' : State C}

/-! ### What a step does -/

/-- What a step can do. -/
inductive Move (s : State C) : State C → Prop
  | receive (c : C) (f : Frame) (hidle : s.pc c = .idle) : Move s (s.receive c f)
  | find (c : C) (p : BitVec 8) (len : BitVec 32) (hpc : s.pc c = .lookup p len)
      (hmem : p ∈ s.protoStats.keys) : Move s (s.goto c (.found p len))
  | miss (c : C) (p : BitVec 8) (len : BitVec 32) (hpc : s.pc c = .lookup p len)
      (hmem : p ∉ s.protoStats.keys) : Move s (s.goto c (.missing p len))
  | increment (c : C) (p : BitVec 8) (len : BitVec 32) (hpc : s.pc c = .found p len) :
      Move s { s with
        protoStats := s.protoStats.modify c p (fun v => v.count len)
        pc := Function.update s.pc c .idle }
  | insert (c : C) (p : BitVec 8) (len : BitVec 32) (hpc : s.pc c = .missing p len) :
      Move s { s with
        protoStats := s.protoStats.update c p ⟨1, len.setWidth 64⟩
        pc := Function.update s.pc c .idle }

theorem move_of_step {a : Action C} (h : s.step a = some s') : Move s s' := by
  cases a with
  | receive c f =>
      simp only [State.step] at h
      split at h
      next hpc =>
        cases h
        exact .receive c f hpc
      next => cases h
  | lookup c =>
      simp only [State.step] at h
      split at h
      next p len hpc =>
        split at h
        next v hv =>
          cases h
          exact .find c p len hpc (PerCpuMap.lookup_isSome_iff.mp (Option.isSome_of_mem hv))
        next hnone =>
          cases h
          refine .miss c p len hpc (fun hmem => ?_)
          rw [PerCpuMap.lookup_eq_some_value hmem c] at hnone
          cases hnone
      next => cases h
  | write c =>
      simp only [State.step] at h
      split at h
      next p len hpc =>
        cases h
        exact .increment c p len hpc
      next p len hpc =>
        cases h
        exact .insert c p len hpc
      next => cases h

/-- The processor `c` ends its call of `count_packet` for `p` with the value `v`. -/
def State.finish (s : State C) (c : C) (p : BitVec 8) (v : NetStatsVal) : State C :=
  { s with protoStats := s.protoStats.update c p v, pc := Function.update s.pc c .idle }

/-- **Both ways out of `count_packet` count the packet** on top of the processor's own value:
after a failed lookup that value is zero still. -/
theorem Inv.finish_of_move (h : Inv s) (hmove : Move s s') :
    (∃ c f, s.pc c = .idle ∧ s' = s.receive c f) ∨
    (∃ c pc, pc.call = (s.pc c).call ∧ s' = s.goto c pc ∧
      (∀ p len, pc = .found p len → p ∈ s.protoStats.keys) ∧
      ∀ p len, pc = .missing p len → p ∉ s.protoStats.keys) ∨
    ∃ c p len, (s.pc c).call = some (p, len) ∧
      s' = s.finish c p ((s.protoStats.value p c).count len) := by
  cases hmove with
  | receive c f hidle => exact Or.inl ⟨c, f, hidle, rfl⟩
  | find c p len hpc hmem =>
      refine Or.inr (Or.inl ⟨c, _, by rw [hpc]; rfl, rfl, ?_, ?_⟩)
      · rintro q len' ⟨⟩
        exact hmem
      · rintro q len' ⟨⟩
  | miss c p len hpc hmem =>
      refine Or.inr (Or.inl ⟨c, _, by rw [hpc]; rfl, rfl, ?_, ?_⟩)
      · rintro q len' ⟨⟩
      · rintro q len' ⟨⟩
        exact hmem
  | increment c p len hpc =>
      refine Or.inr (Or.inr ⟨c, p, len, by rw [hpc]; rfl, ?_⟩)
      rw [PerCpuMap.modify_eq_update (h.found c p len hpc)]
      rfl
  | insert c p len hpc =>
      refine Or.inr (Or.inr ⟨c, p, len, by rw [hpc]; rfl, ?_⟩)
      have hfirst : NetStatsVal.count 0 len = ⟨1, len.setWidth 64⟩ := by
        exact congrArg₂ NetStatsVal.mk (BitVec.zero_add 1) (BitVec.zero_add _)
      rw [h.missing c p len hpc, hfirst]
      rfl

/-- The invariant after a step of one processor: what it remembers now has to hold, and what the
others remember is not disturbed. -/
theorem Inv.of_update (h : Inv s) {c : C} {pc : Pc} (hpc : s'.pc = Function.update s.pc c pc)
    (hkeys : s.protoStats.keys ⊆ s'.protoStats.keys)
    (hvalue : ∀ d p, d ≠ c → s'.protoStats.value p d = s.protoStats.value p d)
    (hhandled : s.handled ⊆ s'.handled)
    (hfound : ∀ p len, pc = .found p len → p ∈ s'.protoStats.keys)
    (hmissing : ∀ p len, pc = .missing p len → s'.protoStats.value p c = 0)
    (hcalls : ∀ p len, pc.call = some (p, len) → Seen s' p)
    (hnew : ∀ p ∈ s'.protoStats.keys, p ∉ s.protoStats.keys → Seen s' p) : Inv s' := by
  have hcases : ∀ d, (d = c ∧ s'.pc d = pc) ∨ (d ≠ c ∧ s'.pc d = s.pc d) := by
    intro d
    rw [hpc]
    by_cases hd : d = c
    · exact Or.inl ⟨hd, hd ▸ Function.update_self ..⟩
    · exact Or.inr ⟨hd, Function.update_of_ne hd ..⟩
  refine ⟨fun d p len hd => ?_, fun d p len hd => ?_, fun d p len hd => ?_, fun p hp => ?_⟩
  · obtain ⟨rfl, heq⟩ | ⟨-, heq⟩ := hcases d
    · exact hfound p len (heq ▸ hd)
    · exact hkeys (h.found d p len (heq ▸ hd))
  · obtain ⟨rfl, heq⟩ | ⟨hne, heq⟩ := hcases d
    · exact hmissing p len (heq ▸ hd)
    · rw [hvalue d p hne]
      exact h.missing d p len (heq ▸ hd)
  · obtain ⟨rfl, heq⟩ | ⟨-, heq⟩ := hcases d
    · exact hcalls p len (heq ▸ hd)
    · exact (h.calls d p len (heq ▸ hd)).of_subset hhandled
  · by_cases hold : p ∈ s.protoStats.keys
    · exact (h.keys p hold).of_subset hhandled
    · exact hnew p hp hold

theorem Inv.receive (h : Inv s) (c : C) (f : Frame) : Inv (s.receive c f) := by
  have hlast : f ∈ (s.receive c f).handled := List.mem_append_right _ (List.mem_singleton.mpr rfl)
  refine h.of_update rfl (fun _ hp => hp) (fun _ _ _ => rfl) (List.subset_append_left _ _)
    (fun p len hpc => ?_) (fun p len hpc => ?_) (fun p len hcall => ?_) (fun p hp hno => absurd hp hno)
  · split at hpc <;> cases hpc
  · split at hpc <;> cases hpc
  · split at hcall
    next => cases hcall
    next q len' hf =>
      cases hcall
      exact ⟨f, hlast, (call_eq_some_iff.mp hf).1⟩

theorem Inv.goto (h : Inv s) {c : C} {pc : Pc} (hcall : pc.call = (s.pc c).call)
    (hfound : ∀ p len, pc = .found p len → p ∈ s.protoStats.keys)
    (hmissing : ∀ p len, pc = .missing p len → p ∉ s.protoStats.keys) : Inv (s.goto c pc) := by
  refine h.of_update rfl (fun _ hp => hp) (fun _ _ _ => rfl) (fun _ hf => hf) hfound
    (fun p len hpc => ?_) (fun p len hpc => ?_) (fun p hp hno => absurd hp hno)
  · exact PerCpuMap.value_of_notMem (hmissing p len hpc) c
  · exact h.calls c p len (hcall ▸ hpc)

theorem Inv.finish (h : Inv s) {c : C} {p : BitVec 8} {len : BitVec 32}
    (hcall : (s.pc c).call = some (p, len)) (v : NetStatsVal) : Inv (s.finish c p v) := by
  refine h.of_update rfl (PerCpuMap.keys_subset_update _ _ _ _) (fun d q hd => ?_) (fun _ hf => hf)
    (fun q len' hpc => ?_) (fun q len' hpc => ?_) (fun q len' hpc => ?_) (fun q hq hno => ?_)
  · rw [State.finish, PerCpuMap.value_update, if_neg (fun hc => hd hc.2)]
  · cases hpc
  · cases hpc
  · cases hpc
  · obtain ⟨rfl, -⟩ := (PerCpuMap.mem_keys_update.mp hq).resolve_left hno
    exact h.calls c q len hcall

theorem Inv.step (h : Inv s) {a : Action C} (hstep : s.step a = some s') : Inv s' := by
  rcases h.finish_of_move (move_of_step hstep) with
    ⟨c, f, -, rfl⟩ | ⟨c, pc, hcall, rfl, hfound, hmissing⟩ | ⟨c, p, len, hcall, rfl⟩
  · exact h.receive c f
  · exact h.goto hcall hfound hmissing
  · exact h.finish hcall _

/-! ### The balance along a run -/

namespace Gauge

variable {g : Gauge}

theorem due_receive (c : C) (f : Frame) (p : BitVec 8) :
    g.due (s.receive c f) p = g.due s p + g.cost p f.call := by
  rw [due, State.receive, List.map_append, List.sum_append, List.map_singleton, List.sum_singleton]
  rfl

variable [Fintype C]

theorem owed_receive {c : C} (hidle : s.pc c = .idle) (f : Frame) (p : BitVec 8) :
    g.owed (s.receive c f) p = g.owed s p + g.cost p f.call := by
  have hsum := sum_add_of_eq_off (f := fun d => g.cost p (s.pc d).call)
    (g := fun d => g.cost p ((s.receive c f).pc d).call) c
    (fun d hd => by simp only [State.receive, Function.update_of_ne hd])
  have hnew : ((s.receive c f).pc c).call = f.call := by
    simp only [State.receive, Function.update_self]
    split
    next hf => rw [hf]; rfl
    next hf => rw [hf]; rfl
  simp only [hidle, Pc.call_idle, cost_none, Nat.add_zero, hnew] at hsum
  exact hsum

theorem owed_goto {c : C} {pc : Pc} (hcall : pc.call = (s.pc c).call) (p : BitVec 8) :
    g.owed (s.goto c pc) p = g.owed s p := by
  apply Finset.sum_congr rfl
  intro d _
  by_cases hd : d = c
  · subst hd
    simp only [State.goto, Function.update_self, hcall]
  · simp only [State.goto, Function.update_of_ne hd]

theorem owed_finish (c : C) (p q : BitVec 8) (v : NetStatsVal) :
    g.owed (s.finish c p v) q + g.cost q (s.pc c).call = g.owed s q := by
  have hsum := sum_add_of_eq_off (f := fun d => g.cost q (s.pc d).call)
    (g := fun d => g.cost q ((s.finish c p v).pc d).call) c
    (fun d hd => by simp only [State.finish, Function.update_of_ne hd])
  have hnew : (s.finish c p v).pc c = .idle := Function.update_self ..
  simp only [hnew, Pc.call_idle, cost_none, Nat.add_zero] at hsum
  exact hsum

theorem shown_finish {p : BitVec 8} (hacc : s.protoStats.Accepts p) (c : C) (v : NetStatsVal) :
    g.shown (s.finish c p v) p + g.read (s.protoStats.value p c) = g.shown s p + g.read v := by
  have hsum := sum_add_of_eq_off (f := fun d => g.read (s.protoStats.value p d))
    (g := fun d => g.read ((s.finish c p v).protoStats.value p d)) c
    (fun d hd => by
      rw [State.finish, PerCpuMap.value_update, if_neg (fun hc => hd hc.2)])
  have hnew : (s.finish c p v).protoStats.value p c = v := by
    rw [State.finish, PerCpuMap.value_update, if_pos ⟨⟨rfl, hacc⟩, rfl⟩]
  rw [hnew] at hsum
  exact hsum

theorem shown_finish_of_ne {p q : BitVec 8} (hne : q ≠ p) (c : C) (v : NetStatsVal) :
    g.shown (s.finish c p v) q = g.shown s q := by
  apply Finset.sum_congr rfl
  intro d _
  rw [State.finish, PerCpuMap.value_update, if_neg (fun hc => hne hc.1.1)]

theorem Ok.receive (h : g.Ok s) {c : C} (hidle : s.pc c = .idle) (f : Frame) :
    g.Ok (s.receive c f) := by
  constructor
  · intro p hp
    obtain ⟨hle, hmod⟩ := h.held p hp
    have hshown : g.shown (s.receive c f) p = g.shown s p := rfl
    rw [Balanced, owed_receive hidle, due_receive, hshown, ← Nat.add_assoc]
    exact ⟨Nat.add_le_add_right hle _, hmod.add_right _⟩
  · intro p hp
    rw [owed_receive hidle, due_receive]
    exact (h.absent p hp).imp_right (fun heq => by rw [heq])

theorem Ok.goto (h : g.Ok s) {c : C} {pc : Pc} (hcall : pc.call = (s.pc c).call) :
    g.Ok (s.goto c pc) := by
  constructor
  · intro p hp
    rw [Balanced, owed_goto hcall]
    exact h.held p hp
  · intro p hp
    rw [owed_goto hcall]
    exact h.absent p hp

/-- **Counting settles what is owed.** -/
theorem Ok.finish_balanced (h : g.Ok s) {c : C} {p : BitVec 8} {len : BitVec 32}
    (hcall : (s.pc c).call = some (p, len)) (hacc : s.protoStats.Accepts p) :
    g.Balanced (s.finish c p ((s.protoStats.value p c).count len)) p := by
  obtain ⟨hle, hmod⟩ := h.balanced_of_accepts hacc
  have hshown := shown_finish (g := g) hacc c ((s.protoStats.value p c).count len)
  have howed := owed_finish (g := g) (s := s) c p p ((s.protoStats.value p c).count len)
  rw [hcall, cost_self] at howed
  have hread := g.read_count_le (s.protoStats.value p c) len
  have hreadMod := g.read_count_modEq (s.protoStats.value p c) len
  have hdue : g.due (s.finish c p ((s.protoStats.value p c).count len)) p = g.due s p := rfl
  refine ⟨by omega, ?_⟩
  have hgrown : g.shown (s.finish c p ((s.protoStats.value p c).count len)) p ≡
      g.shown s p + g.weight len [MOD 2 ^ 64] := by
    apply Nat.ModEq.add_right_cancel' (g.read (s.protoStats.value p c))
    rw [hshown, Nat.add_assoc, Nat.add_comm (g.weight len)]
    exact hreadMod.add_left _
  have hsettled := hgrown.add_right (g.owed (s.finish c p ((s.protoStats.value p c).count len)) p)
  rw [Nat.add_assoc (g.shown s p), Nat.add_comm (g.weight len), howed] at hsettled
  exact hsettled.trans hmod

theorem Ok.finish (h : g.Ok s) {c : C} {p : BitVec 8} {len : BitVec 32}
    (hcall : (s.pc c).call = some (p, len)) :
    g.Ok (s.finish c p ((s.protoStats.value p c).count len)) := by
  have howed_ne : ∀ q, q ≠ p →
      g.owed (s.finish c p ((s.protoStats.value p c).count len)) q = g.owed s q := by
    intro q hq
    have howed := owed_finish (g := g) (s := s) c p q ((s.protoStats.value p c).count len)
    rw [hcall, cost_of_ne g (Ne.symm hq), Nat.add_zero] at howed
    exact howed
  constructor
  · intro q hq
    by_cases hqp : q = p
    · subst hqp
      refine h.finish_balanced hcall ?_
      rcases PerCpuMap.mem_keys_update.mp hq with hold | ⟨-, hacc⟩
      · exact PerCpuMap.accepts_iff.mpr (Or.inl hold)
      · exact hacc
    · rw [Balanced, shown_finish_of_ne hqp, howed_ne q hqp]
      exact h.held q ((PerCpuMap.mem_keys_update.mp hq).resolve_right (fun hc => hqp hc.1))
  · intro q hq
    have hold : q ∉ s.protoStats.keys := fun hmem => hq (PerCpuMap.keys_subset_update _ _ _ _ hmem)
    by_cases hqp : q = p
    · -- the write was refused, so the map was full
      subst hqp
      left
      have hrefused : ¬ s.protoStats.Accepts q :=
        fun hacc => hq (PerCpuMap.mem_keys_update.mpr (Or.inr ⟨rfl, hacc⟩))
      rw [PerCpuMap.accepts_iff, not_or, Nat.not_lt] at hrefused
      exact PerCpuMap.card_keys_update
        (Nat.le_antisymm s.protoStats.card_keys_le hrefused.2) _ _ _
    · rw [howed_ne q hqp]
      exact (h.absent q hold).imp_left (fun hfull => PerCpuMap.card_keys_update hfull _ _ _)

theorem Ok.step (h : g.Ok s) (hinv : Inv s) {a : Action C} (hstep : s.step a = some s') :
    g.Ok s' := by
  rcases hinv.finish_of_move (move_of_step hstep) with
    ⟨c, f, hidle, rfl⟩ | ⟨c, pc, hcall, rfl, -, -⟩ | ⟨c, p, len, hcall, rfl⟩
  · exact h.receive hidle f
  · exact h.goto hcall
  · exact h.finish hcall

end Gauge

/-! ### Exactness -/

variable [Fintype C]

theorem total_receive (c : C) (f : Frame) :
    (s.receive c f).total ≤ s.total + 1 ∧ (s.receive c f).total ≡ s.total + 1 [MOD 2 ^ 64] := by
  have hsum := sum_add_of_eq_off (f := fun d => (s.totalPackets d).toNat)
    (g := fun d => ((s.receive c f).totalPackets d).toNat) c
    (fun d hd => by simp only [State.receive, Function.update_of_ne hd])
  have hnew : ((s.receive c f).totalPackets c).toNat = ((s.totalPackets c).toNat + 1) % 2 ^ 64 := by
    simp only [State.receive, Function.update_self]
    exact BitVec.toNat_add _ _
  rw [hnew] at hsum
  change (s.receive c f).total + (s.totalPackets c).toNat =
    s.total + ((s.totalPackets c).toNat + 1) % 2 ^ 64 at hsum
  have hle := Nat.mod_le ((s.totalPackets c).toNat + 1) (2 ^ 64)
  refine ⟨by omega, ?_⟩
  apply Nat.ModEq.add_right_cancel' (s.totalPackets c).toNat
  rw [hsum, Nat.add_assoc, Nat.add_comm 1]
  exact (Nat.mod_modEq _ _).add_left _

/-- `total_packets` is at every moment the number of packets handled, modulo 2^64. -/
def Totals (s : State C) : Prop :=
  s.total ≤ s.handled.length ∧ s.total ≡ s.handled.length [MOD 2 ^ 64]

theorem Totals.step (h : Totals s) (hinv : Inv s) {a : Action C} (hstep : s.step a = some s') :
    Totals s' := by
  rcases hinv.finish_of_move (move_of_step hstep) with
    ⟨c, f, -, rfl⟩ | ⟨c, pc, -, rfl, -, -⟩ | ⟨c, p, len, -, rfl⟩
  · obtain ⟨hle, hmod⟩ := total_receive (s := s) c f
    have hlength : (s.receive c f).handled.length = s.handled.length + 1 := List.length_append
    rw [Totals, hlength]
    exact ⟨le_trans hle (Nat.add_le_add_right h.1 1), hmod.trans (h.2.add_right 1)⟩
  · exact h
  · exact h

/-- All the invariants hold along every run. -/
theorem invariants_of_run {as : List (Action C)} (hrun : Runs.run State.step .init as = some s) :
    Inv s ∧ Gauge.packets.Ok s ∧ Gauge.bytes.Ok s ∧ Totals s := by
  refine Runs.run_invariant
    (P := fun t : State C => Inv t ∧ Gauge.packets.Ok t ∧ Gauge.bytes.Ok t ∧ Totals t)
    ?_ ⟨inv_init, Gauge.ok_init, Gauge.ok_init, ?_⟩ hrun
  · rintro t a t' ⟨hinv, hpackets, hbytes, htotal⟩ hstep
    exact ⟨hinv.step hstep, hpackets.step hinv hstep, hbytes.step hinv hstep,
      htotal.step hinv hstep⟩
  · have hzero : (State.init : State C).total = 0 := Finset.sum_eq_zero (fun c _ => rfl)
    rw [Totals, hzero]
    exact ⟨Nat.zero_le _, Nat.ModEq.refl _⟩

/-- The counters of protocol `p` are exact: modulo 2^64, hence exactly below that. -/
def Exact (s : State C) (p : BitVec 8) : Prop :=
  s.packets p ≡ (s.ofProtocol p).length [MOD 2 ^ 64] ∧
  ((s.ofProtocol p).length < 2 ^ 64 → s.packets p = (s.ofProtocol p).length) ∧
  s.bytes p ≡ ((s.ofProtocol p).map (fun f => f.bytes.length)).sum [MOD 2 ^ 64]

/-- **The packet statistics are exact up to sixteen protocols.**  Whatever the interleaving, when
no processor is inside the program `total_packets` is the number of packets handled.  If those
carry at most sixteen protocols, every protocol has its exact number of packets and bytes; if they
carry more, some protocol that was received shows nothing at all. -/
theorem netStats_exact (as : List (Action C)) (s : State C)
    (hrun : Runs.run State.step .init as = some s) (hidle : ∀ c, s.pc c = .idle) :
    (s.total ≡ s.handled.length [MOD 2 ^ 64] ∧
      (s.handled.length < 2 ^ 64 → s.total = s.handled.length)) ∧
    ((protocols s.handled).card ≤ 16 → ∀ p, Exact s p) ∧
    (16 < (protocols s.handled).card →
      ∃ p, s.ofProtocol p ≠ [] ∧ s.packets p = 0 ∧ s.bytes p = 0) := by
  obtain ⟨hinv, hpackets, hbytes, htotal⟩ := invariants_of_run hrun
  refine ⟨⟨htotal.2, fun hlt => ?_⟩, fun hcard p => ?_, fun hcard => ?_⟩
  · exact htotal.2.eq_of_lt_of_lt (lt_of_le_of_lt htotal.1 hlt) hlt
  · obtain ⟨hle, hmod⟩ := hpackets.balanced_of_idle hinv hidle hcard p
    have hbytesMod := (hbytes.balanced_of_idle hinv hidle hcard p).2
    rw [Gauge.due_packets] at hle hmod
    rw [Gauge.due_bytes] at hbytesMod
    exact ⟨hmod, fun hlt => hmod.eq_of_lt_of_lt (lt_of_le_of_lt hle hlt) hlt, hbytesMod⟩
  · obtain ⟨p, hreceived, hlost⟩ := exists_lost hcard
    exact ⟨p, hreceived, Gauge.shown_of_notMem (g := .packets) hlost,
      Gauge.shown_of_notMem (g := .bytes) hlost⟩

end Runs

/-! ### Two runs -/

/-- An IPv4 packet of protocol `p` without payload. -/
def ipv4Bytes (p : BitVec 8) : List (BitVec 8) :=
  List.replicate 12 0 ++ 0x08 :: 0x00 :: (List.replicate 9 0 ++ p :: List.replicate 10 0)

theorem length_ipv4Bytes_lt (p : BitVec 8) : (ipv4Bytes p).length < 2 ^ 32 := by
  simp [ipv4Bytes]

def ipv4 (p : BitVec 8) : Frame := ⟨ipv4Bytes p, length_ipv4Bytes_lt p⟩

/-- Two processors look up the same new protocol before either of them writes it. -/
def race : List (Action Bool) :=
  [.receive false (ipv4 6), .receive true (ipv4 6), .lookup false, .lookup true, .write false,
    .write true]

theorem netStats_exact_race : ∃ t, Runs.run State.step .init race = some t ∧
    (∀ c, t.pc c = .idle) ∧ (protocols t.handled).card ≤ 16 ∧
    t.total ≡ t.handled.length [MOD 2 ^ 64] ∧ ∀ p, Exact t p := by
  obtain ⟨t, hrun, hidle, hcard⟩ : ∃ t, Runs.run State.step .init race = some t ∧
      (∀ c, t.pc c = .idle) ∧ (protocols t.handled).card ≤ 16 :=
    Runs.exists_run_of_any (by decide +kernel)
  obtain ⟨htotal, hexact, -⟩ := netStats_exact race t hrun hidle
  exact ⟨t, hrun, hidle, hcard, htotal.1, hexact hcard⟩

/-- One processor receives a packet of each of the protocols 0 to 16. -/
def seventeen : List (Action Unit) :=
  (List.range 17).flatMap
    (fun p => [.receive () (ipv4 (BitVec.ofNat 8 p)), .lookup (), .write ()])

/-- The packet of the seventeenth protocol is lost. -/
theorem netStats_seventeenth_lost : ∃ t, Runs.run State.step .init seventeen = some t ∧
    t.pc () = .idle ∧ t.total = 17 ∧ t.packets 16 = 0 ∧ (t.ofProtocol 16).length = 1 :=
  Runs.exists_run_of_any (by decide +kernel)

end EbpfMonitor.NetStats
