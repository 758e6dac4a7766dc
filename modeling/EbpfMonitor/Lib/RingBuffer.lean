import Mathlib.Data.List.Forall2
import Mathlib.Data.List.ReduceOption
import Mathlib.Logic.Function.Basic

/-! # A ring buffer with reservations

Several producers write records of `len` bytes to a buffer of `size` bytes, one consumer takes them
out.  A producer first reserves the place of its record, which fails when the record does not fit, and
later submits what belongs there; the consumer takes the records in the order of their reservation and
stops at one that is not submitted yet.  This is the ring buffer between BPF programs and user space.

`Holds` relates the buffer to its history: `keys` are the reservations made, in order, each with what
it was made for, `held` the ones not submitted yet, and `out` the records consumed.  It is kept
by the three operations, and says that the records consumed are those of the first reservations, each
what its own reservation was made for (`Holds.delivered`).  `stored` are the records that wait to be
consumed; a submission puts its record before those of later reservations (`Holds.stored_submit`). -/

/-- The records that are reserved and not consumed, and the number of those consumed. -/
structure RingBuffer (ε : Type) where
  consumed : ℕ
  records : List (Option ε)

namespace RingBuffer

variable {ε κ ι : Type}

def empty : RingBuffer ε := ⟨0, []⟩

/-- Reserve a record; the result is the number of the reservation. -/
def reserve (size len : ℕ) (b : RingBuffer ε) : Option (ℕ × RingBuffer ε) :=
  if (b.records.length + 1) * len < size then
    some (b.consumed + b.records.length, { b with records := b.records ++ [none] })
  else none

/-- Submit the record with this number. -/
def submit (b : RingBuffer ε) (ticket : ℕ) (e : ε) : RingBuffer ε :=
  { b with records := b.records.set (ticket - b.consumed) (some e) }

/-- Consume the first record, if it is submitted. -/
def consume (b : RingBuffer ε) : Option (ε × RingBuffer ε) :=
  match b.records with
  | some e :: rest => some (e, ⟨b.consumed + 1, rest⟩)
  | _ => none

/-- The records that are submitted and not consumed. -/
def stored (b : RingBuffer ε) : List ε := b.records.reduceOption

theorem reserve_eq_some {size len ticket : ℕ} {b b' : RingBuffer ε}
    (h : b.reserve size len = some (ticket, b')) :
    ticket = b.consumed + b.records.length ∧ b' = { b with records := b.records ++ [none] } := by
  unfold reserve at h
  split_ifs at h
  obtain ⟨rfl, rfl⟩ := Prod.mk.inj (Option.some.inj h)
  exact ⟨rfl, rfl⟩

/-- A reservation succeeds when there is room for one more record. -/
theorem lt_of_reserve {size len : ℕ} {b : RingBuffer ε} {r : ℕ × RingBuffer ε}
    (h : b.reserve size len = some r) : (b.records.length + 1) * len < size := by
  unfold reserve at h
  split_ifs at h with hfit
  exact hfit

theorem reserve_eq_none {size len : ℕ} {b : RingBuffer ε} (h : b.reserve size len = none) :
    size ≤ (b.records.length + 1) * len := by
  unfold reserve at h
  split_ifs at h with hfit
  exact Nat.le_of_not_lt hfit

theorem consume_eq_some {b b' : RingBuffer ε} {e : ε} (h : b.consume = some (e, b')) :
    ∃ rest, b.records = some e :: rest ∧ b' = ⟨b.consumed + 1, rest⟩ := by
  unfold consume at h
  split at h
  case h_1 e' rest hr =>
    obtain ⟨rfl, rfl⟩ := Prod.mk.inj (Option.some.inj h)
    exact ⟨rest, hr, rfl⟩
  case h_2 => cases h

theorem stored_reserve {size len ticket : ℕ} {b b' : RingBuffer ε}
    (h : b.reserve size len = some (ticket, b')) : b'.stored = b.stored := by
  obtain ⟨-, rfl⟩ := reserve_eq_some h
  unfold stored
  rw [List.reduceOption_append, List.reduceOption_singleton]
  exact List.append_nil _

theorem stored_consume {b b' : RingBuffer ε} {e : ε} (h : b.consume = some (e, b')) :
    b.stored = e :: b'.stored := by
  obtain ⟨rest, hrest, rfl⟩ := consume_eq_some h
  unfold stored
  rw [hrest, List.reduceOption_cons_of_some]

/-! ### The history of a buffer -/

/-- The buffer after the reservations `keys`, of which the producers still hold `held`, and after the
records `out` were consumed; `R c e` says that `e` is a record for a reservation made for `c`. -/
structure Holds (R : κ → ε → Prop) (b : RingBuffer ε) (held : ι → Option (ℕ × κ)) (keys : List κ)
    (out : List ε) : Prop where
  consumed : b.consumed = out.length
  total : out.length + b.records.length = keys.length
  delivered : List.Forall₂ R (keys.take out.length) out
  records : ∀ j e, b.records[j]? = some (some e) → ∃ c, keys[out.length + j]? = some c ∧ R c e
  pending : ∀ i t c, held i = some (t, c) →
    keys[t]? = some c ∧ out.length ≤ t ∧ b.records[t - out.length]? = some none
  unique : ∀ i j t c c', held i = some (t, c) → held j = some (t, c') → i = j

namespace Holds

variable {R : κ → ε → Prop} {b b' : RingBuffer ε} {held : ι → Option (ℕ × κ)} {keys : List κ}
  {out : List ε} {i : ι}

theorem empty : Holds R (RingBuffer.empty : RingBuffer ε) (fun _ : ι => none) [] [] where
  consumed := rfl
  total := rfl
  delivered := List.Forall₂.nil
  records := by simp [RingBuffer.empty]
  pending := nofun
  unique := nofun

/-- The number of a reservation that is held was given out before. -/
theorem held_lt (h : Holds R b held keys out) {t : ℕ} {c : κ} (ht : held i = some (t, c)) :
    t < keys.length :=
  (List.getElem?_eq_some_iff.mp (h.pending i t c ht).1).1

theorem reserve [DecidableEq ι] (h : Holds R b held keys out) {size len ticket : ℕ} (c : κ)
    (hb : b.reserve size len = some (ticket, b')) (i : ι) :
    Holds R b' (Function.update held i (some (ticket, c))) (keys ++ [c]) out := by
  obtain ⟨rfl, rfl⟩ := reserve_eq_some hb
  have hticket : b.consumed + b.records.length = keys.length := by rw [h.consumed, h.total]
  have htotal := h.total
  refine ⟨h.consumed, ?_, ?_, ?_, ?_, ?_⟩
  · simp only [List.length_append, List.length_singleton]
    omega
  · rw [List.take_append_of_le_length (by omega)]
    exact h.delivered
  · intro j e hj
    rcases Nat.lt_or_ge j b.records.length with hlt | hge
    · rw [List.getElem?_append_left hlt] at hj
      obtain ⟨c', hc', hR⟩ := h.records j e hj
      exact ⟨c', by rwa [List.getElem?_append_left (by omega)], hR⟩
    · rw [List.getElem?_append_right hge, List.getElem?_singleton] at hj
      obtain ⟨-, hj⟩ := Option.ite_none_right_eq_some.mp hj
      cases hj
  · intro j t c' hj
    rcases eq_or_ne j i with rfl | hne
    · rw [Function.update_self] at hj
      obtain ⟨rfl, rfl⟩ := Prod.mk.inj (Option.some.inj hj)
      refine ⟨by simp [hticket], by omega, ?_⟩
      rw [List.getElem?_append_right (by omega), List.getElem?_singleton, if_pos (by omega)]
    · rw [Function.update_of_ne hne] at hj
      obtain ⟨hkey, hle, hnone⟩ := h.pending j t c' hj
      have hlt := h.held_lt hj
      exact ⟨by rwa [List.getElem?_append_left hlt], hle, by rwa [List.getElem?_append_left (by omega)]⟩
  · -- the new number is larger than all numbers given out before
    intro j k t c₁ c₂ hj hk
    by_cases hji : j = i <;> by_cases hki : k = i
    · exact hji.trans hki.symm
    · rw [hji, Function.update_self] at hj
      rw [Function.update_of_ne hki] at hk
      obtain ⟨rfl, -⟩ := Prod.mk.inj (Option.some.inj hj)
      have hlt := h.held_lt hk
      omega
    · rw [Function.update_of_ne hji] at hj
      rw [hki, Function.update_self] at hk
      obtain ⟨rfl, -⟩ := Prod.mk.inj (Option.some.inj hk)
      have hlt := h.held_lt hj
      omega
    · rw [Function.update_of_ne hji] at hj
      rw [Function.update_of_ne hki] at hk
      exact h.unique j k t c₁ c₂ hj hk

theorem submit [DecidableEq ι] (h : Holds R b held keys out) {ticket : ℕ} {c : κ} {e : ε}
    (hi : held i = some (ticket, c)) (hR : R c e) :
    Holds R (b.submit ticket e) (Function.update held i none) keys out := by
  obtain ⟨hkey, hle, hnone⟩ := h.pending i ticket c hi
  have hlt := (List.getElem?_eq_some_iff.mp hnone).1
  refine ⟨h.consumed, ?_, h.delivered, ?_, ?_, ?_⟩
  · simp only [RingBuffer.submit, List.length_set]
    exact h.total
  · intro j e' hj
    simp only [RingBuffer.submit, h.consumed] at hj
    rcases eq_or_ne j (ticket - out.length) with rfl | hne
    · rw [List.getElem?_set_self hlt] at hj
      obtain rfl := Option.some.inj (Option.some.inj hj)
      exact ⟨c, by rwa [Nat.add_sub_cancel' hle], hR⟩
    · rw [List.getElem?_set_ne hne.symm] at hj
      exact h.records j e' hj
  · intro j t c' hj
    have hji : j ≠ i := by
      rintro rfl
      rw [Function.update_self] at hj
      cases hj
    rw [Function.update_of_ne hji] at hj
    obtain ⟨hkey', hle', hnone'⟩ := h.pending j t c' hj
    refine ⟨hkey', hle', ?_⟩
    have hne : ticket ≠ t := by
      rintro rfl
      exact hji (h.unique j i ticket c' c hj hi)
    simp only [RingBuffer.submit, h.consumed]
    rw [List.getElem?_set_ne (by omega)]
    exact hnone'
  · intro j k t c₁ c₂ hj hk
    have hne : ∀ l c, Function.update held i none l = some (t, c) → held l = some (t, c) := by
      intro l c hl
      rcases eq_or_ne l i with rfl | hli
      · rw [Function.update_self] at hl
        cases hl
      · rwa [Function.update_of_ne hli] at hl
    exact h.unique j k t c₁ c₂ (hne j c₁ hj) (hne k c₂ hk)

theorem consume (h : Holds R b held keys out) {e : ε} (hb : b.consume = some (e, b')) :
    Holds R b' held keys (out ++ [e]) := by
  obtain ⟨rest, hrest, rfl⟩ := consume_eq_some hb
  have htotal := h.total
  rw [hrest, List.length_cons] at htotal
  obtain ⟨c, hc, hR⟩ := h.records 0 e (by rw [hrest]; rfl)
  rw [Nat.add_zero] at hc
  have hlen : (out ++ [e]).length = out.length + 1 := by simp
  refine ⟨?_, ?_, ?_, ?_, ?_, h.unique⟩
  · rw [hlen, h.consumed]
  · rw [hlen]
    show out.length + 1 + rest.length = keys.length
    omega
  · rw [hlen, List.take_add_one, hc]
    exact List.rel_append h.delivered (List.Forall₂.cons hR List.Forall₂.nil)
  · intro j e' hj
    obtain ⟨c', hc', hR'⟩ := h.records (j + 1) e' (by rw [hrest]; exact hj)
    exact ⟨c', by rw [hlen, Nat.add_assoc, Nat.add_comm 1 j]; exact hc', hR'⟩
  · intro j t c' hj
    obtain ⟨hkey, hle, hnone⟩ := h.pending j t c' hj
    -- the record at the front is submitted, so this one is behind it
    have hne : t ≠ out.length := by
      rintro rfl
      rw [Nat.sub_self, hrest] at hnone
      cases hnone
    refine ⟨hkey, by omega, ?_⟩
    obtain ⟨m, hm⟩ : ∃ m, t - out.length = m + 1 := ⟨t - out.length - 1, by omega⟩
    rw [hm, hrest, List.getElem?_cons_succ] at hnone
    rw [hlen, show t - (out.length + 1) = m by omega]
    exact hnone

/-- The record submitted comes before the stored records of later reservations, and behind the
others. -/
theorem stored_submit (h : Holds R b held keys out) {ticket : ℕ} {c : κ} (e : ε)
    (hi : held i = some (ticket, c)) :
    ∃ xs ys, b.stored = xs ++ ys ∧ (b.submit ticket e).stored = xs ++ e :: ys ∧
      ∀ e' ∈ ys, ∃ t c', ticket < t ∧ keys[t]? = some c' ∧ R c' e' := by
  obtain ⟨-, hle, hnone⟩ := h.pending i ticket c hi
  obtain ⟨hlt, hget⟩ := List.getElem?_eq_some_iff.mp hnone
  have hsplit : b.records =
      b.records.take (ticket - out.length) ++ none :: b.records.drop (ticket - out.length + 1) := by
    rw [← hget, List.getElem_cons_drop, List.take_append_drop]
  refine ⟨(b.records.take (ticket - out.length)).reduceOption,
    (b.records.drop (ticket - out.length + 1)).reduceOption, ?_, ?_, ?_⟩
  · unfold stored
    nth_rewrite 1 [hsplit]
    rw [List.reduceOption_append, List.reduceOption_cons_of_none]
  · simp only [stored, RingBuffer.submit, h.consumed]
    rw [List.set_eq_take_append_cons_drop, if_pos hlt, List.reduceOption_append,
      List.reduceOption_cons_of_some]
  · intro e' he'
    obtain ⟨j, hj⟩ := List.mem_iff_getElem?.mp (List.reduceOption_mem_iff.mp he')
    rw [List.getElem?_drop] at hj
    obtain ⟨c', hc', hR⟩ := h.records _ e' hj
    exact ⟨_, c', by omega, hc', hR⟩

/-- Every record consumed was submitted for some reservation. -/
theorem exists_of_mem (h : Holds R b held keys out) {e : ε} (he : e ∈ out) : ∃ c, R c e := by
  obtain ⟨j, rfl⟩ := List.mem_iff_get.mp he
  have hlen := h.delivered.length_eq
  exact ⟨_, h.delivered.get (by rw [hlen]; exact j.isLt) j.isLt⟩

end Holds

end RingBuffer
