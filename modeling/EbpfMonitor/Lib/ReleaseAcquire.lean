import Mathlib.Data.List.Basic
import Mathlib.Order.Lattice

/-! # Release stores and acquire loads

A memory for threads `ι` that share atomic locations `α`, each written by one thread, and plain
locations `δ`.  It is the view machine of the C++ memory model cut down to what such programs use:
release stores, acquire loads, relaxed loads, and plain reads and writes.

* **Atomic locations** keep all the stores ever made to them (`history`), in order.  A load may
  return any of them that is not older than what its thread has already seen of the location
  (`seen`): a thread can read a value that has long been overwritten.
* **Clocks** say what happens before what.  A thread counts its release stores in its own clock;
  a store carries the clock and the view of its thread, and an acquire load that reads from it
  takes both over.  A relaxed load takes nothing over.
* **Plain locations** are stamped with the clocks of their accesses.  An access is ordered after
  every conflicting one before it when the clock of its thread covers their stamps (`Readable`,
  `Writable`); otherwise it is a data race.  The contents of plain locations are not kept here: in
  a program without races a read returns the last value written.

`Coherent` collects what every program keeps whose threads store to their own locations only: a
thread that knows a store of another one knows everything that happened before it. -/

namespace ReleaseAcquire

variable {ι α β δ : Type}

/-- A release store: its value and what its thread knew. -/
structure Message (ι α β : Type) where
  value : β
  seen : α → ℕ
  clock : ι → ℕ

inductive Order where
  | relaxed
  | acquire

structure Memory (ι α β δ : Type) where
  /-- the stores to each atomic location -/
  history : α → List (Message ι α β)
  /-- the latest store to each location that the thread knows of -/
  seen : ι → α → ℕ
  clock : ι → ι → ℕ
  /-- the last write of each thread, at its own clock; zero stands for none -/
  writes : δ → ι → ℕ
  reads : δ → ι → ℕ

namespace Memory

variable [DecidableEq ι] [DecidableEq α]

/-- All that is initialised happens before the threads start. -/
def init (value : α → β) : Memory ι α β δ where
  history x := [⟨value x, fun _ => 0, fun _ => 0⟩]
  seen _ _ := 0
  clock i := Function.update (fun _ => 0) i 1
  writes _ _ := 0
  reads _ _ := 0

/-- Thread `i` loads `x` and reads from store number `k`; `none` when it must not. -/
def load (m : Memory ι α β δ) (i : ι) (x : α) (order : Order) (k : ℕ) :
    Option (β × Memory ι α β δ) :=
  if k < m.seen i x then none
  else (m.history x)[k]?.map (fun msg =>
    match order with
    | .relaxed =>
        (msg.value, { m with seen := Function.update m.seen i (Function.update (m.seen i) x k) })
    | .acquire =>
        (msg.value, { m with
          seen := Function.update m.seen i (Function.update (m.seen i) x k ⊔ msg.seen)
          clock := Function.update m.clock i (m.clock i ⊔ msg.clock) }))

/-- Thread `i` stores `v` to `x` with release order. -/
def store (m : Memory ι α β δ) (i : ι) (x : α) (v : β) : Memory ι α β δ :=
  let seen := Function.update (m.seen i) x (m.history x).length
  { m with
    history := Function.update m.history x (m.history x ++ [⟨v, seen, m.clock i⟩])
    seen := Function.update m.seen i seen
    clock := Function.update m.clock i (Function.update (m.clock i) i (m.clock i i + 1)) }

def read [DecidableEq δ] (m : Memory ι α β δ) (i : ι) (d : δ) : Memory ι α β δ :=
  { m with reads := Function.update m.reads d (Function.update (m.reads d) i (m.clock i i)) }

def write [DecidableEq δ] (m : Memory ι α β δ) (i : ι) (d : δ) : Memory ι α β δ :=
  { m with writes := Function.update m.writes d (Function.update (m.writes d) i (m.clock i i)) }

/-- The last value stored to a location. -/
def last (m : Memory ι α β δ) (x : α) : Option β := (m.history x).getLast?.map Message.value

/-- A read of `d` by thread `i` comes after all writes. -/
def Readable (m : Memory ι α β δ) (i : ι) (d : δ) : Prop := ∀ j, m.writes d j ≤ m.clock i j

/-- Who has this clock knows of all accesses of thread `j` to `d`. -/
def Covers (m : Memory ι α β δ) (j : ι) (d : δ) (clock : ι → ℕ) : Prop :=
  m.writes d j ≤ clock j ∧ m.reads d j ≤ clock j

/-- A write of `d` by thread `i` comes after all accesses. -/
def Writable (m : Memory ι α β δ) (i : ι) (d : δ) : Prop := ∀ j, m.Covers j d (m.clock i)

/-! ### What the operations do -/

theorem load_relaxed_eq_some {m m' : Memory ι α β δ} {i : ι} {x : α} {k : ℕ} {v : β} :
    m.load i x .relaxed k = some (v, m') ↔ m.seen i x ≤ k ∧ ∃ msg, (m.history x)[k]? = some msg ∧
      v = msg.value ∧
      m' = { m with seen := Function.update m.seen i (Function.update (m.seen i) x k) } := by
  unfold load
  rw [Option.ite_none_left_eq_some, Nat.not_lt, Option.map_eq_some_iff]
  simp only [Prod.mk.injEq, eq_comm]

theorem load_acquire_eq_some {m m' : Memory ι α β δ} {i : ι} {x : α} {k : ℕ} {v : β} :
    m.load i x .acquire k = some (v, m') ↔ m.seen i x ≤ k ∧ ∃ msg, (m.history x)[k]? = some msg ∧
      v = msg.value ∧
      m' = { m with
        seen := Function.update m.seen i (Function.update (m.seen i) x k ⊔ msg.seen)
        clock := Function.update m.clock i (m.clock i ⊔ msg.clock) } := by
  unfold load
  rw [Option.ite_none_left_eq_some, Nat.not_lt, Option.map_eq_some_iff]
  simp only [Prod.mk.injEq, eq_comm]

section access

variable {γ : Type} [DecidableEq γ] [DecidableEq δ] (m : Memory ι α β δ) {i j : ι}

omit [DecidableEq α] in
theorem writes_write_of_ne (h : j ≠ i) (d e : δ) : (m.write i d).writes e j = m.writes e j := by
  by_cases he : e = d
  · subst he
    simp [write, h]
  · simp [write, he]

omit [DecidableEq α] in
theorem reads_read_of_ne (h : j ≠ i) (d e : δ) : (m.read i d).reads e j = m.reads e j := by
  by_cases he : e = d
  · subst he
    simp [read, h]
  · simp [read, he]

omit [DecidableEq α] in
/-- The stamps of an array after one of its cells is written. -/
theorem writes_write_comp {f : γ → δ} (hf : Function.Injective f) (i : ι) (g : γ) :
    (fun x => (m.write i (f g)).writes (f x) i) =
      Function.update (fun x => m.writes (f x) i) g (m.clock i i) := by
  funext x
  by_cases hx : x = g
  · subst hx
    simp [write]
  · simp [write, hf.ne hx, hx]

omit [DecidableEq α] in
theorem reads_read_comp {f : γ → δ} (hf : Function.Injective f) (i : ι) (g : γ) :
    (fun x => (m.read i (f g)).reads (f x) i) =
      Function.update (fun x => m.reads (f x) i) g (m.clock i i) := by
  funext x
  by_cases hx : x = g
  · subst hx
    simp [read]
  · simp [read, hf.ne hx, hx]

end access

section store

variable (m : Memory ι α β δ) (i : ι) (x : α) (v : β)

@[simp] theorem history_store_self : (m.store i x v).history x =
    m.history x ++ [⟨v, Function.update (m.seen i) x (m.history x).length, m.clock i⟩] := by
  simp [store]

@[simp] theorem history_store_of_ne {y : α} (h : y ≠ x) : (m.store i x v).history y = m.history y := by
  simp [store, h]

@[simp] theorem seen_store_self : (m.store i x v).seen i =
    Function.update (m.seen i) x (m.history x).length := by
  simp [store]

@[simp] theorem seen_store_of_ne {j : ι} (h : j ≠ i) : (m.store i x v).seen j = m.seen j := by
  simp [store, h]

theorem clock_le_clock_store (j : ι) : m.clock j ≤ (m.store i x v).clock j := by
  by_cases hj : j = i
  · subst hj
    simp only [store, Function.update_self]
    exact le_update_iff.mpr ⟨Nat.le_succ _, fun _ _ => le_refl _⟩
  · simp [store, hj]

/-- A store adds one value to those that can be read. -/
theorem getElem?_history_store {m : Memory ι α β δ} {i : ι} {x : α} {v : β} {k : ℕ}
    {msg : Message ι α β} (h : ((m.store i x v).history x)[k]? = some msg) :
    (k < (m.history x).length ∧ (m.history x)[k]? = some msg) ∨
      (k = (m.history x).length ∧
        msg = ⟨v, Function.update (m.seen i) x (m.history x).length, m.clock i⟩) := by
  rw [history_store_self] at h
  rcases Nat.lt_or_ge k (m.history x).length with hlt | hge
  · rw [List.getElem?_append_left hlt] at h
    exact Or.inl ⟨hlt, h⟩
  · rw [List.getElem?_append_right hge, List.getElem?_singleton] at h
    obtain ⟨hk, h⟩ := Option.ite_none_right_eq_some.mp h
    exact Or.inr ⟨by omega, (Option.some.inj h).symm⟩

end store

/-! ### Frames -/

/-- What one thread `i` did between `m` and `m'` that stored to locations of `A` only and accessed
plain locations of `D` only. -/
structure Acts (i : ι) (A : Set α) (D : Set δ) (m m' : Memory ι α β δ) : Prop where
  history : ∀ x, x ∉ A → m'.history x = m.history x
  /-- a new store carries the view of the thread -/
  messages : ∀ x k (msg : Message ι α β), (m'.history x)[k]? = some msg →
    (m.history x)[k]? = some msg ∨ (k = m'.seen i x ∧ msg.seen = m'.seen i)
  seen : ∀ j, m.seen j ≤ m'.seen j
  clock : ∀ j, m.clock j ≤ m'.clock j
  writes : ∀ d j, d ∉ D ∨ j ≠ i → m'.writes d j = m.writes d j
  reads : ∀ d j, d ∉ D ∨ j ≠ i → m'.reads d j = m.reads d j

namespace Acts

variable {m m' : Memory ι α β δ} {i : ι} {A A' : Set α} {D D' : Set δ} {x : α} {k : ℕ} {v : β}

omit [DecidableEq ι] [DecidableEq α] in
theorem mono (h : m.Acts i A D m') (hA : A ⊆ A') (hD : D ⊆ D') : m.Acts i A' D' m' where
  history x hx := h.history x (fun hmem => hx (hA hmem))
  messages := h.messages
  seen := h.seen
  clock := h.clock
  writes d j hd := h.writes d j (hd.imp_left (fun hd hmem => hd (hD hmem)))
  reads d j hd := h.reads d j (hd.imp_left (fun hd hmem => hd (hD hmem)))

omit [DecidableEq ι] [DecidableEq α] in
theorem refl (m : Memory ι α β δ) (i : ι) : m.Acts i ∅ ∅ m :=
  ⟨fun _ _ => rfl, fun _ _ _ => Or.inl, fun _ => le_refl _, fun _ => le_refl _, fun _ _ _ => rfl,
    fun _ _ _ => rfl⟩

omit [DecidableEq ι] [DecidableEq α] in
/-- Known accesses stay known when the thread that made them does not touch the location again. -/
theorem covers (h : m.Acts i A D m') {j : ι} {d : δ} {clock clock' : ι → ℕ} (hd : d ∉ D ∨ j ≠ i)
    (hc : m.Covers j d clock) (hle : clock ≤ clock') : m'.Covers j d clock' := by
  unfold Covers
  rw [h.writes d j hd, h.reads d j hd]
  exact ⟨hc.1.trans (hle j), hc.2.trans (hle j)⟩

theorem load_acquire (hl : m.load i x .acquire k = some (v, m')) : m.Acts i ∅ ∅ m' := by
  obtain ⟨hle, msg, -, -, rfl⟩ := load_acquire_eq_some.mp hl
  refine ⟨fun _ _ => rfl, fun _ _ _ => Or.inl, fun j => ?_, fun j => ?_, fun _ _ _ => rfl,
    fun _ _ _ => rfl⟩
  · by_cases hj : j = i
    · subst hj
      simp only [Function.update_self]
      exact (le_update_iff.mpr ⟨hle, fun _ _ => le_refl _⟩).trans le_sup_left
    · simp [hj]
  · by_cases hj : j = i
    · subst hj
      simp
    · simp [hj]

theorem store (hseen : m.seen i x ≤ (m.history x).length) (v : β) :
    m.Acts i {x} ∅ (m.store i x v) := by
  refine ⟨fun y hy => history_store_of_ne _ _ _ _ hy, fun y k msg hmsg => ?_, fun j => ?_,
    m.clock_le_clock_store i x v, fun _ _ _ => rfl, fun _ _ _ => rfl⟩
  · by_cases hy : y = x
    · subst hy
      rcases getElem?_history_store hmsg with ⟨-, hmsg⟩ | ⟨rfl, rfl⟩
      · exact Or.inl hmsg
      · exact Or.inr (by simp)
    · rw [history_store_of_ne _ _ _ _ hy] at hmsg
      exact Or.inl hmsg
  · by_cases hj : j = i
    · subst hj
      rw [seen_store_self]
      exact le_update_iff.mpr ⟨hseen, fun _ _ => le_refl _⟩
    · rw [seen_store_of_ne _ _ _ _ hj]

omit [DecidableEq α] in
theorem read [DecidableEq δ] (m : Memory ι α β δ) (i : ι) (d : δ) : m.Acts i ∅ {d} (m.read i d) := by
  refine ⟨fun _ _ => rfl, fun _ _ _ => Or.inl, fun _ => le_refl _, fun _ => le_refl _, fun _ _ _ => rfl,
    fun e j h => ?_⟩
  rcases h with he | hj
  · have hne : e ≠ d := he
    simp [Memory.read, hne]
  · exact reads_read_of_ne m hj d e

omit [DecidableEq α] in
theorem write [DecidableEq δ] (m : Memory ι α β δ) (i : ι) (d : δ) : m.Acts i ∅ {d} (m.write i d) := by
  refine ⟨fun _ _ => rfl, fun _ _ _ => Or.inl, fun _ => le_refl _, fun _ => le_refl _, fun e j h => ?_,
    fun _ _ _ => rfl⟩
  rcases h with he | hj
  · have hne : e ≠ d := he
    simp [Memory.write, hne]
  · exact writes_write_of_ne m hj d e

end Acts

/-! ### Coherence -/

/-- Whoever has this view of the locations and this clock knows everything that happened before
the stores in its view. -/
def Knows (m : Memory ι α β δ) (seen : α → ℕ) (clock : ι → ℕ) : Prop :=
  ∀ x, seen x < (m.history x).length ∧
    ∀ msg, (m.history x)[seen x]? = some msg → msg.clock ≤ clock ∧ msg.seen ≤ seen

/-- The state of a memory in which only `owner x` stores to `x`, and others load `x` with acquire
order only. -/
structure Coherent (owner : α → ι) (m : Memory ι α β δ) : Prop where
  owned : ∀ x, m.seen (owner x) x + 1 = (m.history x).length
  threads : ∀ i, m.Knows (m.seen i) (m.clock i)
  messages : ∀ x (msg : Message ι α β), msg ∈ m.history x → m.Knows msg.seen msg.clock
  self : ∀ x k (msg : Message ι α β), (m.history x)[k]? = some msg → msg.seen x = k
  stamped : ∀ d i, m.writes d i ≤ m.clock i i ∧ m.reads d i ≤ m.clock i i

namespace Knows

variable {m : Memory ι α β δ} {seen seen' : α → ℕ} {clock clock' : ι → ℕ}

omit [DecidableEq ι] [DecidableEq α]

theorem mono (h : m.Knows seen clock) (hle : clock ≤ clock') : m.Knows seen clock' :=
  fun x => ⟨(h x).1, fun msg hmsg => ⟨((h x).2 msg hmsg).1.trans hle, ((h x).2 msg hmsg).2⟩⟩

/-- Two threads that put together what they know. -/
theorem sup (h : m.Knows seen clock) (h' : m.Knows seen' clock') :
    m.Knows (seen ⊔ seen') (clock ⊔ clock') := by
  intro x
  rw [Pi.sup_apply]
  rcases le_total (seen x) (seen' x) with hle | hle
  · rw [sup_eq_right.mpr hle]
    refine ⟨(h' x).1, fun msg hmsg => ?_⟩
    obtain ⟨hc, hs⟩ := (h' x).2 msg hmsg
    exact ⟨hc.trans le_sup_right, hs.trans le_sup_right⟩
  · rw [sup_eq_left.mpr hle]
    refine ⟨(h x).1, fun msg hmsg => ?_⟩
    obtain ⟨hc, hs⟩ := (h x).2 msg hmsg
    exact ⟨hc.trans le_sup_left, hs.trans le_sup_left⟩

/-- A view stays good when a location gets another store. -/
theorem store [DecidableEq ι] [DecidableEq α] (h : m.Knows seen clock) (i : ι) (x : α) (v : β) :
    (m.store i x v).Knows seen clock := by
  intro y
  by_cases hy : y = x
  · subst hy
    rw [history_store_self, List.getElem?_append_left (h y).1, List.length_append]
    exact ⟨(h y).1.trans_le (Nat.le_add_right _ _), (h y).2⟩
  · rw [history_store_of_ne _ _ _ _ hy]
    exact h y

/-- The view a thread has after its store. -/
theorem store_self [DecidableEq ι] [DecidableEq α] {i : ι} (h : m.Knows (m.seen i) (m.clock i)) (x : α)
    (v : β) : (m.store i x v).Knows (Function.update (m.seen i) x (m.history x).length) (m.clock i) := by
  intro y
  by_cases hy : y = x
  · subst hy
    rw [history_store_self, Function.update_self]
    refine ⟨by simp, fun msg hmsg => ?_⟩
    obtain rfl : _ = msg := by simpa using hmsg
    exact ⟨le_refl _, le_refl _⟩
  · rw [history_store_of_ne _ _ _ _ hy, Function.update_of_ne hy]
    refine ⟨(h y).1, fun msg hmsg => ?_⟩
    obtain ⟨hc, hs⟩ := (h y).2 msg hmsg
    exact ⟨hc, hs.trans (le_update_iff.mpr ⟨(h x).1.le, fun _ _ => le_refl _⟩)⟩

end Knows

namespace Coherent

variable {owner : α → ι} {m m' : Memory ι α β δ} {i : ι} {x : α} {k : ℕ} {v : β}

omit [DecidableEq α] in
theorem init (value : α → β) : (Memory.init value : Memory ι α β δ).Coherent owner where
  owned _ := rfl
  threads i x := by
    refine ⟨Nat.one_pos, fun msg hmsg => ?_⟩
    obtain rfl := Option.some.inj hmsg
    exact ⟨fun _ => Nat.zero_le _, fun _ => Nat.zero_le _⟩
  messages x msg hmsg y := by
    obtain rfl := List.mem_singleton.mp hmsg
    refine ⟨Nat.one_pos, fun msg' hmsg' => ?_⟩
    obtain rfl := Option.some.inj hmsg'
    exact ⟨le_refl _, le_refl _⟩
  self x k msg hmsg := by
    obtain ⟨hk, rfl⟩ := List.getElem?_eq_some_iff.mp hmsg
    have hk0 : k = 0 := Nat.lt_one_iff.mp hk
    simp [Memory.init, hk0]
  stamped _ _ := ⟨Nat.zero_le _, Nat.zero_le _⟩

omit [DecidableEq ι] [DecidableEq α] in
/-- A thread knows what happened before the latest store it knows of. -/
theorem exists_seen (h : m.Coherent owner) (i : ι) (x : α) :
    ∃ msg, (m.history x)[m.seen i x]? = some msg ∧ msg.clock ≤ m.clock i ∧ msg.seen ≤ m.seen i := by
  obtain ⟨hlt, hknows⟩ := h.threads i x
  exact ⟨_, List.getElem?_eq_getElem hlt, hknows _ (List.getElem?_eq_getElem hlt)⟩

/-- A thread reads the last value of its own location, and learns nothing. -/
theorem load_own (h : m.Coherent owner) (hl : m.load (owner x) x .relaxed k = some (v, m')) :
    m' = m ∧ ∃ msg, (m.history x)[m.seen (owner x) x]? = some msg ∧ v = msg.value := by
  obtain ⟨hle, msg, hmsg, rfl, rfl⟩ := load_relaxed_eq_some.mp hl
  have hlt := (List.getElem?_eq_some_iff.mp hmsg).1
  have howned := h.owned x
  obtain rfl : k = m.seen (owner x) x := by omega
  refine ⟨?_, msg, hmsg, rfl⟩
  rw [Function.update_eq_self, Function.update_eq_self]

/-- Every thread may read the last store to a location. -/
theorem exists_load (h : m.Coherent owner) (i : ι) (x : α) (order : Order) :
    ∃ k msg m', (m.history x)[m.seen (owner x) x]? = some msg ∧
      m.load i x order k = some (msg.value, m') := by
  obtain ⟨msg, hmsg, -⟩ := h.exists_seen (owner x) x
  have hlt := (h.threads i x).1
  have howned := h.owned x
  refine ⟨m.seen (owner x) x, msg, ?_⟩
  unfold load
  rw [if_neg (by omega), hmsg]
  cases order <;> exact ⟨_, rfl, rfl⟩

/-- What an acquire load makes known: all that was known to the store it reads from. -/
theorem load_eq (h : m.Coherent owner) (hl : m.load i x .acquire k = some (v, m')) :
    m.seen i x ≤ k ∧ ∃ msg, (m.history x)[k]? = some msg ∧ v = msg.value ∧
      m' = { m with
        seen := Function.update m.seen i (m.seen i ⊔ msg.seen)
        clock := Function.update m.clock i (m.clock i ⊔ msg.clock) } := by
  obtain ⟨hle, msg, hmsg, hv, rfl⟩ := load_acquire_eq_some.mp hl
  refine ⟨hle, msg, hmsg, hv, ?_⟩
  have hview : Function.update (m.seen i) x k ⊔ msg.seen = m.seen i ⊔ msg.seen := by
    funext y
    by_cases hy : y = x
    · subst hy
      simp [h.self y k msg hmsg, hle]
    · simp [hy]
  rw [hview]

/-- After an acquire load the thread knows of the store it read from. -/
theorem seen_load (h : m.Coherent owner) (hl : m.load i x .acquire k = some (v, m')) :
    m'.seen i x = k := by
  obtain ⟨hle, msg, hmsg, -, rfl⟩ := h.load_eq hl
  simp [h.self x k msg hmsg, hle]

theorem load (h : m.Coherent owner) (hl : m.load i x .acquire k = some (v, m')) :
    m'.Coherent owner := by
  have hseen := (Acts.load_acquire hl).seen
  have hclock := (Acts.load_acquire hl).clock
  obtain ⟨hle, msg, hmsg, -, rfl⟩ := h.load_eq hl
  have hthreads : ∀ j, m.Knows (Function.update m.seen i (m.seen i ⊔ msg.seen) j)
      (Function.update m.clock i (m.clock i ⊔ msg.clock) j) := by
    intro j
    by_cases hj : j = i
    · subst hj
      simpa using (h.threads j).sup (h.messages x msg (List.mem_of_getElem? hmsg))
    · simpa [hj] using h.threads j
  refine ⟨fun y => ?_, hthreads, h.messages, h.self, fun d j => ?_⟩
  · -- the owner knows of all its stores already
    have hlt := (hthreads (owner y) y).1
    have hge := hseen (owner y) y
    have howned := h.owned y
    simp only at hge ⊢
    omega
  · exact ⟨(h.stamped d j).1.trans (hclock j j), (h.stamped d j).2.trans (hclock j j)⟩

theorem store (h : m.Coherent owner) (x : α) (v : β) : (m.store (owner x) x v).Coherent owner := by
  have hclock := m.clock_le_clock_store (owner x) x v
  have hself := (h.threads (owner x)).store_self x v
  refine ⟨fun y => ?_, fun j => ?_, fun y msg hmsg => ?_, fun y k msg hmsg => ?_, fun d j => ?_⟩
  · by_cases hy : y = x
    · subst hy
      simp
    · rw [history_store_of_ne _ _ _ _ hy, ← h.owned y]
      by_cases hown : owner y = owner x
      · rw [hown, seen_store_self, Function.update_of_ne hy]
      · rw [seen_store_of_ne _ _ _ _ hown]
  · by_cases hj : j = owner x
    · subst hj
      rw [seen_store_self]
      exact hself.mono (hclock _)
    · rw [seen_store_of_ne _ _ _ _ hj]
      exact ((h.threads j).store _ x v).mono (hclock j)
  · by_cases hy : y = x
    · subst hy
      rw [history_store_self, List.mem_append, List.mem_singleton] at hmsg
      rcases hmsg with hmsg | rfl
      · exact (h.messages y msg hmsg).store _ y v
      · exact hself
    · rw [history_store_of_ne _ _ _ _ hy] at hmsg
      exact (h.messages y msg hmsg).store _ x v
  · by_cases hy : y = x
    · subst hy
      rcases getElem?_history_store hmsg with ⟨-, hmsg⟩ | ⟨rfl, rfl⟩
      · exact h.self y k msg hmsg
      · simp
    · rw [history_store_of_ne _ _ _ _ hy] at hmsg
      exact h.self y k msg hmsg
  · exact ⟨(h.stamped d j).1.trans (hclock j j), (h.stamped d j).2.trans (hclock j j)⟩

omit [DecidableEq α] in
theorem read [DecidableEq δ] (h : m.Coherent owner) (i : ι) (d : δ) : (m.read i d).Coherent owner := by
  refine ⟨h.owned, h.threads, h.messages, h.self, fun e j => ⟨(h.stamped e j).1, ?_⟩⟩
  by_cases he : e = d
  · subst he
    by_cases hj : j = i
    · subst hj
      simp [Memory.read]
    · simpa [Memory.read, hj] using (h.stamped e j).2
  · simpa [Memory.read, he] using (h.stamped e j).2

omit [DecidableEq α] in
theorem write [DecidableEq δ] (h : m.Coherent owner) (i : ι) (d : δ) : (m.write i d).Coherent owner := by
  refine ⟨h.owned, h.threads, h.messages, h.self, fun e j => ⟨?_, (h.stamped e j).2⟩⟩
  by_cases he : e = d
  · subst he
    by_cases hj : j = i
    · subst hj
      simp [Memory.write]
    · simpa [Memory.write, hj] using (h.stamped e j).1
  · simpa [Memory.write, he] using (h.stamped e j).1

end Coherent

end Memory

end ReleaseAcquire
