import EbpfMonitor.Lib.Runs

/-! # Data behind a readers-writer lock

Threads share data of type `D` behind a lock that is taken for writing by one thread at a time
and for reading by any number of threads.  A section is given by its statements: the section of
the writing call `w` executes `writes w` on the data, the section of the reading call `r` carries
local variables of type `A` through `reads r`.  Sections interleave statement by statement as far
as the lock lets them.

The state keeps two records that no section reads: `order`, the writing calls in the order in
which they took the lock, and `results`, what the reading calls returned.

* `State.data_eq` says that between writing sections the data is what the calls of `order` make
  of it, one after the other.
* `State.value_eq` says that a reading call returns what it would return alone, on the data
  after the writing calls that took the lock before it. -/

namespace SharedMutex

variable {D W R A : Type}

/-- The calls and their sections.  `admits r d` says whether the section `r` can be entered on
the data `d`. -/
structure Sections (D W R A : Type) where
  writes : W → List (D → D)
  start : R → A
  reads : R → List (D → A → A)
  admits : R → D → Bool

namespace Sections

variable (S : Sections D W R A)

/-- A writing section from its first to its last statement. -/
def exec (d : D) (w : W) : D := (S.writes w).foldl (fun d f => f d) d

/-- The writing calls one after the other. -/
def after (d : D) (ws : List W) : D := ws.foldl S.exec d

/-- What a reading section returns on data that does not change. -/
def answer (r : R) (d : D) : A := (S.reads r).foldl (fun a f => f d a) (S.start r)

theorem after_concat (d : D) (ws : List W) (w : W) : S.after d (ws ++ [w]) = S.exec (S.after d ws) w := by
  rw [after, List.foldl_append]
  rfl

end Sections

/-- A reading section under way: the call, the statements left and the local variables. -/
structure Reader (D R A : Type) where
  call : R
  left : List (D → A → A)
  locals : A

/-- A reading call that has returned; `seen` writing calls took the lock before it. -/
structure Finished (R A : Type) where
  call : R
  value : A
  seen : ℕ

structure State (D W R A : Type) where
  data : D
  writer : Option (List (D → D)) := none
  readers : List (Reader D R A) := []
  order : List W := []
  results : List (Finished R A) := []

/-- What the threads do: take the lock, execute a statement, release the lock.  A reading section
is named by its place among those under way. -/
inductive Action (W R : Type) where
  | lock (w : W)
  | write
  | unlock
  | lockShared (r : R)
  | read (i : ℕ)
  | unlockShared (i : ℕ)

/-- One action; `none` when it has to wait. -/
def Sections.step (S : Sections D W R A) (s : State D W R A) : Action W R → Option (State D W R A)
  | .lock w =>
      match s.writer, s.readers with
      | none, [] => some { s with writer := some (S.writes w), order := s.order ++ [w] }
      | _, _ => none
  | .write =>
      match s.writer with
      | some (f :: fs) => some { s with data := f s.data, writer := some fs }
      | _ => none
  | .unlock =>
      match s.writer with
      | some [] => some { s with writer := none }
      | _ => none
  | .lockShared r =>
      match s.writer with
      | none =>
          if S.admits r s.data = true then
            some { s with readers := s.readers ++ [⟨r, S.reads r, S.start r⟩] }
          else none
      | some _ => none
  | .read i =>
      match s.readers[i]? with
      | some ⟨r, f :: fs, a⟩ => some { s with readers := s.readers.set i ⟨r, fs, f s.data a⟩ }
      | _ => none
  | .unlockShared i =>
      match s.readers[i]? with
      | some ⟨r, [], a⟩ =>
          some { s with readers := s.readers.eraseIdx i, results := s.results ++ [⟨r, a, s.order.length⟩] }
      | _ => none

namespace State

variable {S : Sections D W R A} {d₀ : D} {s s' : State D W R A}

/-- Nobody has taken the lock yet. -/
def init (d : D) : State D W R A := { data := d }

/-- What holds at every moment: a writing section is alone, what is left of it leads to the data
after the calls of `order`, what is left of a reading section leads to its answer, and the values
returned are answers. -/
structure Consistent (S : Sections D W R A) (d₀ : D) (s : State D W R A) : Prop where
  alone : ∀ fs, s.writer = some fs → s.readers = []
  data : (s.writer.getD []).foldl (fun d f => f d) s.data = S.after d₀ s.order
  reader : ∀ t ∈ s.readers, S.admits t.call s.data = true ∧
    t.left.foldl (fun a f => f s.data a) t.locals = S.answer t.call s.data
  value : ∀ f ∈ s.results, f.seen ≤ s.order.length ∧
    S.admits f.call (S.after d₀ (s.order.take f.seen)) = true ∧
    f.value = S.answer f.call (S.after d₀ (s.order.take f.seen))

theorem consistent_init : (init d₀ : State D W R A).Consistent S d₀ where
  alone fs h := by cases h
  data := rfl
  reader t ht := by cases ht
  value f hf := by cases hf

theorem Consistent.data_of_writer (h : s.Consistent S d₀) (hw : s.writer = none) :
    s.data = S.after d₀ s.order := by
  have hdata := h.data
  rw [hw] at hdata
  exact hdata

/-- Where a reading section is under way, no writing section is. -/
theorem Consistent.writer_of_reader (h : s.Consistent S d₀) {i : ℕ} {t : Reader D R A}
    (ht : s.readers[i]? = some t) : s.writer = none := by
  cases hw : s.writer with
  | none => rfl
  | some fs =>
      rw [h.alone fs hw] at ht
      cases ht

theorem Consistent.lock (h : s.Consistent S d₀) (hw : s.writer = none) (hr : s.readers = []) (w : W) :
    ({ s with writer := some (S.writes w), order := s.order ++ [w] } : State D W R A).Consistent S d₀ where
  alone _ _ := hr
  data := by
    rw [S.after_concat, ← h.data_of_writer hw]
    rfl
  reader := h.reader
  value f hf := by
    obtain ⟨hle, hval⟩ := h.value f hf
    rw [List.take_append_of_le_length hle]
    exact ⟨Nat.le_trans hle (by rw [List.length_append]; exact Nat.le_add_right _ _), hval⟩

/-- A step of a writing section disturbs nobody. -/
theorem Consistent.write (h : s.Consistent S d₀) {f : D → D} {fs : List (D → D)}
    (hw : s.writer = some (f :: fs)) :
    ({ s with data := f s.data, writer := some fs } : State D W R A).Consistent S d₀ where
  alone _ _ := h.alone _ hw
  data := by
    rw [← h.data, hw]
    rfl
  reader t ht := by
    rw [h.alone _ hw] at ht
    cases ht
  value := h.value

theorem Consistent.unlock (h : s.Consistent S d₀) (hw : s.writer = some []) :
    ({ s with writer := none } : State D W R A).Consistent S d₀ where
  alone fs hfs := by cases hfs
  data := by
    rw [← h.data, hw]
    rfl
  reader := h.reader
  value := h.value

theorem Consistent.lockShared (h : s.Consistent S d₀) (hw : s.writer = none) {r : R}
    (hr : S.admits r s.data = true) :
    ({ s with readers := s.readers ++ [⟨r, S.reads r, S.start r⟩] } : State D W R A).Consistent S d₀ where
  alone fs hfs := by
    rw [hw] at hfs
    cases hfs
  data := h.data
  reader t ht := by
    rcases List.mem_append.mp ht with ht | ht
    · exact h.reader t ht
    · obtain rfl := List.mem_singleton.mp ht
      exact ⟨hr, rfl⟩
  value := h.value

theorem Consistent.read (h : s.Consistent S d₀) {i : ℕ} {r : R} {f : D → A → A} {fs : List (D → A → A)}
    {a : A} (ht : s.readers[i]? = some ⟨r, f :: fs, a⟩) :
    ({ s with readers := s.readers.set i ⟨r, fs, f s.data a⟩ } : State D W R A).Consistent S d₀ where
  alone gs hgs := by
    rw [h.writer_of_reader ht] at hgs
    cases hgs
  data := h.data
  reader t ht' := by
    rcases List.mem_or_eq_of_mem_set ht' with ht' | rfl
    · exact h.reader t ht'
    · have hreader := h.reader _ (List.mem_of_getElem? ht)
      exact hreader
  value := h.value

/-- A reading section ends on the data it started on. -/
theorem Consistent.unlockShared (h : s.Consistent S d₀) {i : ℕ} {r : R} {a : A}
    (ht : s.readers[i]? = some ⟨r, [], a⟩) :
    ({ s with
        readers := s.readers.eraseIdx i
        results := s.results ++ [⟨r, a, s.order.length⟩] } : State D W R A).Consistent S d₀ where
  alone gs hgs := by
    rw [h.writer_of_reader ht] at hgs
    cases hgs
  data := h.data
  reader t ht' := h.reader t (List.mem_of_mem_eraseIdx ht')
  value f hf := by
    rcases List.mem_append.mp hf with hf | hf
    · exact h.value f hf
    · obtain rfl := List.mem_singleton.mp hf
      have hreader := h.reader _ (List.mem_of_getElem? ht)
      rw [h.data_of_writer (h.writer_of_reader ht)] at hreader
      rw [List.take_length]
      exact ⟨Nat.le_refl _, hreader⟩

theorem Consistent.step (h : s.Consistent S d₀) {a : Action W R} (hs : S.step s a = some s') :
    s'.Consistent S d₀ := by
  cases a with
  | lock w =>
      simp only [Sections.step] at hs
      split at hs
      next hw hr => exact Option.some.inj hs ▸ h.lock hw hr w
      next => cases hs
  | write =>
      simp only [Sections.step] at hs
      split at hs
      next f fs hw => exact Option.some.inj hs ▸ h.write hw
      next => cases hs
  | unlock =>
      simp only [Sections.step] at hs
      split at hs
      next hw => exact Option.some.inj hs ▸ h.unlock hw
      next => cases hs
  | lockShared r =>
      simp only [Sections.step] at hs
      split at hs
      next hw =>
        split at hs
        next hr => exact Option.some.inj hs ▸ h.lockShared hw hr
        next => cases hs
      next => cases hs
  | read i =>
      simp only [Sections.step] at hs
      split at hs
      next r f fs a ht => exact Option.some.inj hs ▸ h.read ht
      next => cases hs
  | unlockShared i =>
      simp only [Sections.step] at hs
      split at hs
      next r a ht => exact Option.some.inj hs ▸ h.unlockShared ht
      next => cases hs

theorem consistent_of_run {as : List (Action W R)} (h : Runs.run S.step (init d₀) as = some s) :
    s.Consistent S d₀ :=
  Runs.run_invariant (fun _ _ _ hs hstep => Consistent.step hs hstep) consistent_init h

/-- **Between writing sections the data is what the calls make of it**, in the order in which they
took the lock. -/
theorem data_eq {as : List (Action W R)} (h : Runs.run S.step (init d₀) as = some s)
    (hw : s.writer = none) : s.data = S.after d₀ s.order :=
  (consistent_of_run h).data_of_writer hw

/-- **A reading call returns what it would return alone**, on the data after the writing calls that
took the lock before it. -/
theorem value_eq {as : List (Action W R)} (h : Runs.run S.step (init d₀) as = some s)
    {f : Finished R A} (hf : f ∈ s.results) :
    f.seen ≤ s.order.length ∧ S.admits f.call (S.after d₀ (s.order.take f.seen)) = true ∧
      f.value = S.answer f.call (S.after d₀ (s.order.take f.seen)) :=
  (consistent_of_run h).value f hf

end State

end SharedMutex
