import EbpfMonitor.ThreadPool

/-! # The critical sections of `ThreadPool`, statement by statement

`ThreadPool.lean` takes every critical section of `m_mtx` as one step.  Here they are cut into
their statements: a thread locks the mutex, tests, pushes or pops, updates `m_pending` and unlocks,
and between any two of these the other threads run, as far as they do not need the mutex.  The end
of a task body is cut as well: the body returns or throws, then the destructor of `CompletionGuard`
counts it, then `packaged_task` makes the future ready.

* `Mutex` says who holds `m_mtx` and how far that thread has come.
* `FinePool.abs` completes the section in progress: from the push or pop on, the pool counts as if
  the section had been left.  `simulates` shows that each statement is then no step at all or one
  step of the coarse model, so that everything proved there holds of every fine run.
* `threadPool_counts` reads the counters off. -/

namespace EbpfMonitor

namespace ThreadPool

variable {N : ℕ}

/-- Who holds `m_mtx` and which statement is next.  A submitter is a worker's body or, as `none`,
an outside thread. -/
inductive Mutex (N : ℕ) where
  | free
  /-- `submit`, before the test of `m_stop` -/
  | submitting (who : Option (Fin N))
  /-- `submit`, before `++m_pending` -/
  | pushed (who : Option (Fin N))
  /-- `submit`, before the unlock -/
  | counted (who : Option (Fin N))
  /-- `worker_loop`, before the predicate of the wait -/
  | checking (i : Fin N)
  /-- `worker_loop`, before `pop_front` -/
  | taking (i : Fin N) (t : ℕ)
  /-- `worker_loop`, before `--m_pending` -/
  | popped (i : Fin N) (t : ℕ)
  /-- `worker_loop`, before the unlock -/
  | uncounted (i : Fin N) (t : ℕ)
  /-- the destructor, before `m_stop = true` -/
  | stopping
  /-- the destructor, before the unlock -/
  | stopped
deriving DecidableEq

namespace Mutex

/-- The worker whose body is in the critical section of `submit`. -/
def submitter : Mutex N → Option (Fin N)
  | submitting who => who
  | pushed who => who
  | counted who => who
  | _ => none

/-- The worker that is in the critical section of `worker_loop`. -/
def checker : Mutex N → Option (Fin N)
  | checking i => some i
  | taking i _ => some i
  | popped i _ => some i
  | uncounted i _ => some i
  | _ => none

end Mutex

/-- The state of a worker whose body has left the critical section of `submit`. -/
def Worker.submitted : Worker → Worker
  | running t => notifying t
  | w => w

/-- The worker can be in a critical section, of its own or of its body. -/
def Worker.busy : Worker → Bool
  | awake => true
  | running _ => true
  | _ => false

/-- The pool with its mutex and, for every worker, how its body ended if it did and is not counted
yet. -/
structure FinePool (N : ℕ) where
  pool : ThreadPool N
  mutex : Mutex N
  ending : Fin N → Option Outcome

namespace FinePool

def init (N : ℕ) : FinePool N := ⟨ThreadPool.init N, .free, fun _ => none⟩

/-- The next statement of the thread that holds the mutex. -/
def next (s : FinePool N) : Option (FinePool N) :=
  match s.mutex with
  | .free => none
  | .submitting who =>
      -- a set `m_stop` throws, and unwinding unlocks the mutex
      if s.pool.stop then some { s with mutex := .free }
      else some { s with
        pool := { s.pool with
          tasks := s.pool.tasks ++ [s.pool.accepted], accepted := s.pool.accepted + 1 }
        mutex := .pushed who }
  | .pushed who =>
      some { s with pool := { s.pool with pending := s.pool.pending + 1 }, mutex := .counted who }
  | .counted none =>
      some { s with pool := { s.pool with owed := s.pool.owed + 1 }, mutex := .free }
  | .counted (some i) =>
      some { s with pool := s.pool.setWorker i (s.pool.workers i).submitted, mutex := .free }
  | .checking i =>
      if (s.pool.stop || !s.pool.tasks.isEmpty) = false then
        some { s with pool := s.pool.setWorker i .blocked, mutex := .free }
      else
        match s.pool.tasks with
        | [] => some { s with pool := s.pool.setWorker i .exited, mutex := .free }
        | t :: _ => some { s with mutex := .taking i t }
  | .taking i t =>
      some { s with
        pool := { s.pool with tasks := s.pool.tasks.tail, popped := s.pool.popped ++ [t] }
        mutex := .popped i t }
  | .popped i t =>
      some { s with
        pool := { s.pool with pending := s.pool.pending - 1 }, mutex := .uncounted i t }
  | .uncounted i t =>
      some { s with pool := s.pool.setWorker i (.running t), mutex := .free }
  | .stopping =>
      some { s with
        pool := { s.pool with stop := true, destructor := .stopSet }, mutex := .stopped }
  | .stopped => some { s with mutex := .free }

inductive Action (N : ℕ) where
  /-- `submit` locks the mutex -/
  | lockSubmit (who : Option (Fin N))
  /-- `worker_loop` locks the mutex, at its start or in the wait -/
  | lockCheck (i : Fin N)
  /-- the destructor locks the mutex -/
  | lockStop
  /-- the next statement of the thread that holds the mutex -/
  | next
  /-- the body worker `i` runs returns or throws -/
  | bodyEnds (i : Fin N) (outcome : Outcome)
  /-- the destructor of `CompletionGuard` -/
  | finish (i : Fin N)
  /-- a step without the mutex -/
  | outside (a : ThreadPool.Action N)

/-- The steps that do not need the mutex.  The destructor calls `notify_all` after its unlock; for
the other threads the program order is in the state of their worker. -/
def lockless (m : Mutex N) : ThreadPool.Action N → Bool
  | .notify _ => true
  | .taskNotify _ _ => true
  | .spurious _ => true
  | .resolve _ => true
  | .notifyAll => m ≠ .stopped
  | .join => true
  | _ => false

/-- The interleaving of the statements.  Any thread may call `submit` until the destructor has
returned. -/
def step (s : FinePool N) : Action N → Option (FinePool N)
  | .lockSubmit none =>
      if s.mutex = .free ∧ s.pool.destructor ≠ .joining N then
        some { s with mutex := .submitting none }
      else none
  | .lockSubmit (some i) =>
      match s.pool.workers i, s.ending i with
      | .running _, none =>
          if s.mutex = .free then some { s with mutex := .submitting (some i) } else none
      | _, _ => none
  | .lockCheck i =>
      if s.mutex = .free ∧ s.pool.workers i = .awake then some { s with mutex := .checking i }
      else none
  | .lockStop =>
      if s.mutex = .free ∧ s.pool.destructor = .alive then some { s with mutex := .stopping }
      else none
  | .next => s.next
  | .bodyEnds i outcome =>
      match s.pool.workers i, s.ending i with
      | .running _, none =>
          if s.mutex.submitter = some i then none
          else some { s with ending := Function.update s.ending i (some outcome) }
      | _, _ => none
  | .finish i =>
      match s.ending i with
      | some outcome =>
          (s.pool.step (.finish i outcome)).map
            (fun pool => { s with pool := pool, ending := Function.update s.ending i none })
      | none => none
  | .outside a =>
      if lockless s.mutex a then (s.pool.step a).map (fun pool => { s with pool := pool }) else none

/-! ### The section in progress, completed -/

/-- What is left to do of a section after its push or pop: the state of one worker, the change of
`m_pending` and the change of `owed`. -/
structure Patch (N : ℕ) where
  worker : Option (Fin N × Worker)
  pending : BitVec 64
  owed : ℕ

def Patch.workers (P : Patch N) (f : Fin N → Worker) : Fin N → Worker :=
  match P.worker with
  | none => f
  | some (i, w) => Function.update f i w

def Patch.apply (P : Patch N) (s : ThreadPool N) : ThreadPool N :=
  { s with workers := P.workers s.workers, pending := s.pending + P.pending, owed := s.owed + P.owed }

def patch (s : FinePool N) : Patch N :=
  match s.mutex with
  | .pushed none => ⟨none, 1, 1⟩
  | .pushed (some i) => ⟨some (i, (s.pool.workers i).submitted), 1, 0⟩
  | .counted none => ⟨none, 0, 1⟩
  | .counted (some i) => ⟨some (i, (s.pool.workers i).submitted), 0, 0⟩
  | .popped i t => ⟨some (i, .running t), -1, 0⟩
  | .uncounted i t => ⟨some (i, .running t), 0, 0⟩
  | _ => ⟨none, 0, 0⟩

/-- The state of the coarse model a fine state stands for. -/
def abs (s : FinePool N) : ThreadPool N := s.patch.apply s.pool

/-- The submitter, if it is a body, is running. -/
def Submits (s : FinePool N) (who : Option (Fin N)) : Prop :=
  ∀ i, who = some i → (∃ t, s.pool.workers i = .running t) ∧ s.ending i = none

/-- What the holder of the mutex relies on. -/
def Relies (s : FinePool N) : Prop :=
  match s.mutex with
  | .submitting who => s.Submits who
  | .pushed who => s.Submits who ∧ s.pool.tasks ≠ []
  | .counted who => s.Submits who
  | .checking i => s.pool.workers i = .awake
  | .taking i t => s.pool.workers i = .awake ∧ s.pool.tasks.head? = some t
  | .popped i _ => s.pool.workers i = .awake ∧ s.pool.popped ≠ []
  | .uncounted i _ => s.pool.workers i = .awake
  | .stopping => s.pool.destructor = .alive
  | .stopped => True
  | .free => True

structure Inv (s : FinePool N) : Prop where
  holder : s.Relies
  stop : s.pool.stop = true ↔ s.pool.destructor ≠ .alive

/-! ### Steps without the mutex -/

/-- The steps of the coarse model outside of the critical sections. -/
def quiet : ThreadPool.Action N → Bool
  | .finish _ _ => true
  | a => lockless .free a

theorem quiet_of_lockless {m : Mutex N} {a : ThreadPool.Action N} (h : lockless m a = true) :
    quiet a = true := by
  cases a <;> first | rfl | cases h

/-- Between two statements of the holder such a step leaves alone what the holder works on. -/
structure Frame (a : ThreadPool.Action N) (s s' : ThreadPool N) : Prop where
  tasks : s'.tasks = s.tasks
  popped : s'.popped = s.popped
  stop : s'.stop = s.stop
  alive : s'.destructor = .alive ↔ s.destructor = .alive
  workers : ∀ i, (s.workers i).busy = true → (∀ outcome, a ≠ .finish i outcome) →
    s'.workers i = s.workers i

theorem wake_of_ne_blocked {w : Worker} (h : w ≠ .blocked) : w.wake = w := by
  cases w <;> first | rfl | exact absurd rfl h

theorem ne_of_busy {s : ThreadPool N} {i j : Fin N} {w : Worker} (hi : (s.workers i).busy = true)
    (hj : s.workers j = w) (hw : w.busy = false) : i ≠ j := by
  rintro rfl
  rw [hj, hw] at hi
  cases hi

theorem workers_setWorker_of_ne (s : ThreadPool N) {i j : Fin N} (w : Worker) (h : i ≠ j) :
    (s.setWorker j w).workers i = s.workers i := Function.update_of_ne h _ _

theorem frame_notifyOne {s s' : ThreadPool N} {target : Option (Fin N)} (a : ThreadPool.Action N)
    (h : s.notifyOne target = some s') : Frame a s s' ∧ s'.owed = s.owed := by
  rcases notifyOne_eq_some h with ⟨rfl, -⟩ | ⟨j, hj, rfl⟩
  · exact ⟨⟨rfl, rfl, rfl, Iff.rfl, fun _ _ _ => rfl⟩, rfl⟩
  · refine ⟨⟨rfl, rfl, rfl, Iff.rfl, fun i hi _ => ?_⟩, rfl⟩
    exact workers_setWorker_of_ne s _ (ne_of_busy hi hj rfl)

/-- The steps without the mutex leave the queue and the flag alone. -/
theorem frame_of_trans {s s' : ThreadPool N} {a : ThreadPool.Action N} (ha : quiet a = true)
    (h : s.Trans a s') : Frame a s s' := by
  cases h with
  | submit hd hs | taskSubmit hi hs | check hi | setStop hd => cases ha
  | rejected hr => rcases hr with rfl | ⟨i, rfl⟩ <;> cases ha
  | @notify target s1 ho hs =>
      have hf := (frame_notifyOne (.notify target) hs).1
      exact ⟨hf.tasks, hf.popped, hf.stop, hf.alive, hf.workers⟩
  | @taskNotify j t target s1 hj hs =>
      have hf := (frame_notifyOne (.taskNotify j target) hs).1
      refine ⟨hf.tasks, hf.popped, hf.stop, hf.alive, fun i hi hne => ?_⟩
      rw [workers_setWorker_of_ne s1 _ (ne_of_busy hi hj rfl)]
      exact hf.workers i hi hne
  | spurious hj =>
      refine ⟨rfl, rfl, rfl, Iff.rfl, fun i hi _ => ?_⟩
      exact workers_setWorker_of_ne s _ (ne_of_busy hi hj rfl)
  | @finish j t hj outcome =>
      refine ⟨rfl, rfl, rfl, Iff.rfl, fun i _ hne => ?_⟩
      have hij : i ≠ j := fun heq => hne outcome (by rw [heq])
      exact workers_setWorker_of_ne s _ hij
  | resolve hj =>
      refine ⟨rfl, rfl, rfl, Iff.rfl, fun i hi _ => ?_⟩
      exact workers_setWorker_of_ne s _ (ne_of_busy hi hj rfl)
  | notifyAll hd =>
      refine ⟨rfl, rfl, rfl, by simp [hd], fun i hi _ => wake_of_ne_blocked ?_⟩
      intro hblocked
      rw [hblocked] at hi
      cases hi
  | join hd hk hex => exact ⟨rfl, rfl, rfl, by simp [hd], fun _ _ _ => rfl⟩

/-! ### Completing the section commutes with the other threads -/

namespace Patch

/-- The worker of the patch can be in a critical section, and does not block. -/
structure Fits (P : Patch N) (f : Fin N → Worker) : Prop where
  old : ∀ i w, P.worker = some (i, w) → (f i).busy = true
  new : ∀ i w, P.worker = some (i, w) → w ≠ .blocked

/-- Worker `j` is not the one of the patch. -/
def Off (P : Patch N) (j : Fin N) : Prop := ∀ i w, P.worker = some (i, w) → i ≠ j

variable {P : Patch N} {s s' : ThreadPool N} {j : Fin N}

theorem workers_cases (P : Patch N) : (P.worker = none ∧ ∀ f, P.workers f = f) ∨
    ∃ i w, P.worker = some (i, w) ∧ ∀ f, P.workers f = Function.update f i w := by
  rcases P with ⟨_ | ⟨i, w⟩, pending, owed⟩
  · exact Or.inl ⟨rfl, fun _ => rfl⟩
  · exact Or.inr ⟨i, w, rfl, fun _ => rfl⟩

theorem workers_of_off (h : P.Off j) (f : Fin N → Worker) : P.workers f j = f j := by
  rcases P.workers_cases with ⟨-, hf⟩ | ⟨i, w, hP, hf⟩
  · rw [hf]
  · rw [hf, Function.update_of_ne (h i w hP).symm]

theorem apply_setWorker (h : P.Off j) (s : ThreadPool N) (w : Worker) :
    P.apply (s.setWorker j w) = (P.apply s).setWorker j w := by
  have hcomm : P.workers (Function.update s.workers j w) =
      Function.update (P.workers s.workers) j w := by
    rcases P.workers_cases with ⟨-, hf⟩ | ⟨i, v, hP, hf⟩
    · rw [hf, hf]
    · rw [hf, hf, Function.update_comm (h i v hP).symm]
  simp only [apply, setWorker, hcomm]

theorem Fits.off (h : P.Fits s.workers) {w : Worker} (hj : s.workers j = w)
    (hw : w.busy = false) : P.Off j :=
  fun i v hP => ne_of_busy (h.old i v hP) hj hw

theorem Fits.blocked (h : P.Fits s.workers) (hj : (P.apply s).workers j = .blocked) :
    s.workers j = .blocked := by
  simp only [apply] at hj
  rcases P.workers_cases with ⟨-, hf⟩ | ⟨i, w, hP, hf⟩
  · rwa [hf] at hj
  · rw [hf] at hj
    by_cases hji : j = i
    · subst hji
      rw [Function.update_self] at hj
      exact absurd hj (h.new j w hP)
    · rwa [Function.update_of_ne hji] at hj

theorem Fits.wake (h : P.Fits s.workers) :
    P.workers (fun i => (s.workers i).wake) = fun i => (P.workers s.workers i).wake := by
  funext j
  rcases P.workers_cases with ⟨-, hf⟩ | ⟨i, w, hP, hf⟩
  · rw [hf, hf]
  · rw [hf, hf]
    by_cases hji : j = i
    · subst hji
      rw [Function.update_self, Function.update_self, wake_of_ne_blocked (h.new j w hP)]
    · rw [Function.update_of_ne hji, Function.update_of_ne hji]

theorem notifyOne_apply (h : P.Fits s.workers) {target : Option (Fin N)}
    (hs : s.notifyOne target = some s') : (P.apply s).notifyOne target = some (P.apply s') := by
  cases target with
  | none =>
      simp only [notifyOne] at hs ⊢
      split_ifs at hs with hnone
      obtain rfl := Option.some.inj hs
      rw [if_neg]
      rintro ⟨j, hj⟩
      exact hnone ⟨j, h.blocked hj⟩
  | some j =>
      simp only [notifyOne] at hs ⊢
      split_ifs at hs with hj
      obtain rfl := Option.some.inj hs
      have hoff := h.off hj rfl
      have hblocked : (P.apply s).workers j = .blocked := (workers_of_off hoff _).trans hj
      rw [if_pos hblocked, apply_setWorker hoff]

/-- **Steps of other threads commute with the completion of a section.** -/
theorem step_apply (h : P.Fits s.workers) {a : ThreadPool.Action N}
    (hfinish : ∀ i outcome, a = .finish i outcome → P.Off i) (ha : quiet a = true) (hs : s.Trans a s') :
    (P.apply s).step a = some (P.apply s') := by
  cases hs with
  | submit hd hs | taskSubmit hi hs | check hi | setStop hd => cases ha
  | rejected hr => rcases hr with rfl | ⟨i, rfl⟩ <;> cases ha
  | @notify target s1 ho hs1 =>
      have howed : (P.apply s).owed = s.owed + P.owed := rfl
      have hkept := (frame_notifyOne (.notify target) hs1).2
      simp only [ThreadPool.step]
      rw [if_pos (by omega), notifyOne_apply h hs1, Option.map_some]
      have hless : s1.owed + P.owed - 1 = s1.owed - 1 + P.owed := by omega
      simp only [apply, hless]
  | @taskNotify j t target s1 hj hs1 =>
      have hoff := h.off hj rfl
      have hj' : (P.apply s).workers j = .notifying t := (workers_of_off hoff _).trans hj
      simp only [ThreadPool.step, hj', notifyOne_apply h hs1, Option.map_some]
      rw [apply_setWorker hoff]
  | @spurious j hj =>
      have hoff := h.off hj rfl
      have hj' : (P.apply s).workers j = .blocked := (workers_of_off hoff _).trans hj
      simp only [ThreadPool.step, hj']
      rw [apply_setWorker hoff]
  | @finish j t hj outcome =>
      have hoff := hfinish j outcome rfl
      have hj' : (P.apply s).workers j = .running t := (workers_of_off hoff _).trans hj
      have hset := apply_setWorker hoff s (.counted t outcome)
      simp only [ThreadPool.step, hj', ← hset]
      rfl
  | @resolve j t outcome hj =>
      have hoff := h.off hj rfl
      have hj' : (P.apply s).workers j = .counted t outcome := (workers_of_off hoff _).trans hj
      have hset := apply_setWorker hoff s .awake
      simp only [ThreadPool.step, hj', ← hset]
      rfl
  | notifyAll hd =>
      have hd' : (P.apply s).destructor = .stopSet := hd
      simp only [ThreadPool.step, hd']
      simp only [apply, h.wake]
  | @join k hd hk hex =>
      have hd' : (P.apply s).destructor = .joining k := hd
      have hex' : (P.apply s).workers ⟨k, hk⟩ = .exited :=
        (workers_of_off (h.off hex rfl) _).trans hex
      simp only [ThreadPool.step, hd', dif_pos hk, if_pos hex']
      rfl

end Patch

/-! ### Every statement is a step of the coarse model or none -/

section Simulation

variable {s s' : FinePool N}

theorem inv_init : (FinePool.init N).Inv := ⟨trivial, by simp [FinePool.init, ThreadPool.init]⟩

theorem Inv.submitter (h : s.Inv) : s.Submits s.mutex.submitter := by
  obtain ⟨pool, mutex, ending⟩ := s
  have hholder := h.holder
  cases mutex with
  | submitting who => exact hholder
  | pushed who => exact hholder.1
  | counted who => exact hholder
  | _ =>
      intro i hi
      cases hi

theorem Inv.checker (h : s.Inv) {i : Fin N} (hi : s.mutex.checker = some i) :
    s.pool.workers i = .awake := by
  obtain ⟨pool, mutex, ending⟩ := s
  have hholder := h.holder
  cases mutex with
  | checking j =>
      cases hi
      exact hholder
  | taking j t =>
      cases hi
      exact hholder.1
  | popped j t =>
      cases hi
      exact hholder.1
  | uncounted j t =>
      cases hi
      exact hholder
  | _ => cases hi

theorem Patch.apply_zero (s : ThreadPool N) : (⟨none, 0, 0⟩ : Patch N).apply s = s := by
  have hpending : s.pending + 0 = s.pending := BitVec.add_zero _
  simp only [Patch.apply, Patch.workers, hpending, Nat.add_zero]

/-- Without a section in progress the fine state is the coarse one. -/
theorem abs_of_patch (h : s.patch = ⟨none, 0, 0⟩) : s.abs = s.pool := by
  rw [abs, h, Patch.apply_zero]

/-- The worker of the patch holds the mutex. -/
theorem holder_of_patch {i : Fin N} {w : Worker} (hP : s.patch.worker = some (i, w)) :
    s.mutex.submitter = some i ∨ s.mutex.checker = some i := by
  obtain ⟨pool, mutex, ending⟩ := s
  rcases mutex with _ | _ | (_ | i') | (_ | i') | _ | _ | ⟨i', t⟩ | ⟨i', t⟩ | _ | _ <;> cases hP
  · exact Or.inl rfl
  · exact Or.inl rfl
  · exact Or.inr rfl
  · exact Or.inr rfl

theorem Inv.busy (h : s.Inv) {i : Fin N}
    (hi : s.mutex.submitter = some i ∨ s.mutex.checker = some i) :
    (s.pool.workers i).busy = true := by
  rcases hi with hi | hi
  · obtain ⟨⟨t, ht⟩, -⟩ := h.submitter i hi
    rw [ht]
    rfl
  · rw [h.checker hi]
    rfl

theorem Inv.fits (h : s.Inv) : s.patch.Fits s.pool.workers := by
  refine ⟨fun i w hP => h.busy (holder_of_patch hP), ?_⟩
  intro i w hP
  obtain ⟨pool, mutex, ending⟩ := s
  have hsubmitter : mutex.submitter = some i → (pool.workers i).submitted ≠ .blocked := by
    intro hi
    obtain ⟨⟨t, ht⟩, -⟩ := h.submitter i hi
    have ht' : pool.workers i = .running t := ht
    rw [ht']
    rintro ⟨⟩
  rcases mutex with _ | _ | (_ | i') | (_ | i') | _ | _ | ⟨i', t⟩ | ⟨i', t⟩ | _ | _ <;> cases hP
  · exact hsubmitter rfl
  · exact hsubmitter rfl
  · rintro ⟨⟩
  · rintro ⟨⟩

theorem Inv.tasks_of_pushed (h : s.Inv) {who : Option (Fin N)} (hm : s.mutex = .pushed who) :
    s.pool.tasks ≠ [] := by
  have hholder := h.holder
  rw [Relies, hm] at hholder
  exact hholder.2

theorem Inv.popped_of_popped (h : s.Inv) {i : Fin N} {t : ℕ} (hm : s.mutex = .popped i t) :
    s.pool.popped ≠ [] := by
  have hholder := h.holder
  rw [Relies, hm] at hholder
  exact hholder.2

/-- A step without the mutex keeps what the holder relies on, and the patch. -/
theorem Inv.quiet (h : s.Inv) {a : ThreadPool.Action N} {pool : ThreadPool N}
    (ending : Fin N → Option Outcome) (hframe : Frame a s.pool pool)
    (hfinish : ∀ i, s.mutex.submitter = some i ∨ s.mutex.checker = some i →
      ∀ outcome, a ≠ .finish i outcome)
    (hending : ∀ i, s.mutex.submitter = some i → ending i = none) :
    Inv ⟨pool, s.mutex, ending⟩ ∧ patch ⟨pool, s.mutex, ending⟩ = s.patch := by
  have hsame : ∀ i, s.mutex.submitter = some i ∨ s.mutex.checker = some i →
      pool.workers i = s.pool.workers i :=
    fun i hi => hframe.workers i (h.busy hi) (hfinish i hi)
  have hsubmits : ∀ m, s.Submits m → s.mutex.submitter = m →
      Submits ⟨pool, s.mutex, ending⟩ m := by
    rintro m hm rfl i hi
    exact ⟨(hm i hi).1.imp (fun t ht => (hsame i (Or.inl hi)).trans ht), hending i hi⟩
  have hawake : ∀ i, s.pool.workers i = .awake → s.mutex.checker = some i →
      pool.workers i = .awake := fun i hi hm => (hsame i (Or.inr hm)).trans hi
  have hstop : pool.stop = true ↔ pool.destructor ≠ .alive := by
    rw [hframe.stop, h.stop, not_iff_not]
    exact hframe.alive.symm
  refine ⟨⟨?_, hstop⟩, ?_⟩
  · obtain ⟨pool₀, mutex, ending₀⟩ := s
    have hholder := h.holder
    cases mutex with
    | free => trivial
    | submitting who => exact hsubmits who hholder rfl
    | pushed who => exact ⟨hsubmits who hholder.1 rfl, hframe.tasks ▸ hholder.2⟩
    | counted who => exact hsubmits who hholder rfl
    | checking i => exact hawake i hholder rfl
    | taking i t => exact ⟨hawake i hholder.1 rfl, hframe.tasks ▸ hholder.2⟩
    | popped i t => exact ⟨hawake i hholder.1 rfl, hframe.popped ▸ hholder.2⟩
    | uncounted i t => exact hawake i hholder rfl
    | stopping => exact hframe.alive.mpr hholder
    | stopped => trivial
  · obtain ⟨pool₀, mutex, ending₀⟩ := s
    rcases mutex with _ | _ | (_ | i) | (_ | i) | _ | _ | _ | _ | _ | _ <;>
      first
      | rfl
      | exact congrArg (fun w => Patch.mk (some (i, Worker.submitted w)) _ _) (hsame i (Or.inl rfl))

/-- The fine state after a step is the same coarse state, or the one after one step. -/
def Matches (s s' : FinePool N) : Prop :=
  ∃ as, Runs.run ThreadPool.step s.abs as = some s'.abs

theorem Matches.refl_of (h : s'.abs = s.abs) : Matches s s' := ⟨[], by rw [h]; rfl⟩

theorem Matches.one {a : ThreadPool.Action N} (h : s.abs.step a = some s'.abs) : Matches s s' :=
  ⟨[a], Runs.run_cons_eq_some.mpr ⟨_, h, rfl⟩⟩

variable {pool : ThreadPool N} {ending : Fin N → Option Outcome}

theorem inv_of_free (h : pool.stop = true ↔ pool.destructor ≠ .alive) :
    Inv ⟨pool, .free, ending⟩ := ⟨trivial, h⟩

/-- The test of `m_stop` and the push. -/
theorem next_submitting {who : Option (Fin N)} (h : Inv ⟨pool, .submitting who, ending⟩)
    (hs : next ⟨pool, .submitting who, ending⟩ = some s') :
    s'.Inv ∧ Matches ⟨pool, .submitting who, ending⟩ s' := by
  have habs : abs ⟨pool, .submitting who, ending⟩ = pool := abs_of_patch rfl
  simp only [next] at hs
  split_ifs at hs with hstop
  · obtain rfl := Option.some.inj hs
    exact ⟨inv_of_free h.stop, .refl_of (Eq.trans (abs_of_patch rfl) habs.symm)⟩
  · obtain rfl := Option.some.inj hs
    refine ⟨⟨⟨h.holder, ?_⟩, h.stop⟩, ?_⟩
    · exact List.append_ne_nil_of_right_ne_nil _ (List.cons_ne_nil _ _)
    · have halive : pool.destructor = .alive :=
        Classical.not_not.mp (fun hd => hstop (h.stop.mpr hd))
      have hsubmit : pool.submit = .ok { pool with
          tasks := pool.tasks ++ [pool.accepted]
          pending := pool.pending + 1
          accepted := pool.accepted + 1 } := if_neg hstop
      cases who with
      | none =>
          apply Matches.one (a := .submit)
          rw [habs]
          simp only [ThreadPool.step, if_pos halive, hsubmit]
          rfl
      | some i =>
          obtain ⟨⟨t, ht⟩, -⟩ := h.submitter i rfl
          have ht' : pool.workers i = .running t := ht
          apply Matches.one (a := .taskSubmit i)
          rw [habs]
          simp only [ThreadPool.step, ht', hsubmit, abs, patch, Worker.submitted]
          rfl

/-- `++m_pending` and the unlock of `submit`. -/
theorem next_pushed {who : Option (Fin N)} (h : Inv ⟨pool, .pushed who, ending⟩)
    (hs : next ⟨pool, .pushed who, ending⟩ = some s') :
    s'.Inv ∧ Matches ⟨pool, .pushed who, ending⟩ s' := by
  obtain rfl := Option.some.inj hs
  refine ⟨⟨h.holder.1, h.stop⟩, .refl_of ?_⟩
  have hpending : pool.pending + 1 + 0 = pool.pending + 1 := BitVec.add_zero _
  cases who with
  | none => simp only [abs, patch, Patch.apply, Patch.workers, hpending]
  | some i => simp only [abs, patch, Patch.apply, Patch.workers, hpending]

theorem next_counted {who : Option (Fin N)} (h : Inv ⟨pool, .counted who, ending⟩)
    (hs : next ⟨pool, .counted who, ending⟩ = some s') :
    s'.Inv ∧ Matches ⟨pool, .counted who, ending⟩ s' := by
  have hpending : pool.pending + 0 = pool.pending := BitVec.add_zero _
  cases who with
  | none =>
      obtain rfl := Option.some.inj hs
      refine ⟨inv_of_free h.stop, .refl_of ?_⟩
      rw [abs_of_patch rfl]
      simp only [abs, patch, Patch.apply, Patch.workers, hpending]
  | some i =>
      obtain rfl := Option.some.inj hs
      refine ⟨inv_of_free h.stop, .refl_of ?_⟩
      rw [abs_of_patch rfl]
      simp only [abs, patch, Patch.apply, Patch.workers, setWorker, hpending, Nat.add_zero]

/-- The predicate of the wait and the test for shutdown. -/
theorem next_checking {i : Fin N} (h : Inv ⟨pool, .checking i, ending⟩)
    (hs : next ⟨pool, .checking i, ending⟩ = some s') :
    s'.Inv ∧ Matches ⟨pool, .checking i, ending⟩ s' := by
  have habs : abs ⟨pool, .checking i, ending⟩ = pool := abs_of_patch rfl
  have hawake : pool.workers i = .awake := h.checker rfl
  -- leaving the section without a task is one step of the coarse model
  have hleave : ∀ w, pool.check i = pool.setWorker i w →
      Matches ⟨pool, .checking i, ending⟩ ⟨pool.setWorker i w, .free, ending⟩ := by
    intro w hw
    apply Matches.one (a := .check i)
    rw [habs, abs_of_patch rfl]
    simp only [ThreadPool.step, hawake, hw]
  simp only [next] at hs
  split_ifs at hs with hwait
  · obtain rfl := Option.some.inj hs
    exact ⟨inv_of_free h.stop, hleave _ (if_pos hwait)⟩
  · cases hq : pool.tasks with
    | nil =>
        simp only [hq] at hs
        obtain rfl := Option.some.inj hs
        refine ⟨inv_of_free h.stop, hleave _ ?_⟩
        rw [ThreadPool.check, if_neg hwait, hq]
    | cons t rest =>
        simp only [hq] at hs
        obtain rfl := Option.some.inj hs
        exact ⟨⟨⟨hawake, congrArg List.head? hq⟩, h.stop⟩,
          .refl_of (Eq.trans (abs_of_patch rfl) habs.symm)⟩

/-- The pop. -/
theorem next_taking {i : Fin N} {t : ℕ} (h : Inv ⟨pool, .taking i t, ending⟩)
    (hs : next ⟨pool, .taking i t, ending⟩ = some s') :
    s'.Inv ∧ Matches ⟨pool, .taking i t, ending⟩ s' := by
  have habs : abs ⟨pool, .taking i t, ending⟩ = pool := abs_of_patch rfl
  have hawake : pool.workers i = .awake := h.checker rfl
  obtain ⟨rest, hq⟩ : ∃ rest, pool.tasks = t :: rest :=
    List.head?_eq_some_iff.mp h.holder.2
  obtain rfl := Option.some.inj hs
  refine ⟨⟨⟨hawake, ?_⟩, h.stop⟩, ?_⟩
  · exact List.append_ne_nil_of_right_ne_nil _ (List.cons_ne_nil _ _)
  · apply Matches.one (a := .check i)
    have hwait : ¬ (pool.stop || !pool.tasks.isEmpty) = false := by simp [hq]
    have hcheck : pool.check i = { pool.setWorker i (.running t) with
        tasks := rest, pending := pool.pending - 1, popped := pool.popped ++ [t] } := by
      rw [ThreadPool.check, if_neg hwait, hq]
    have hpending : pool.pending - 1 = pool.pending + -1 := BitVec.sub_eq_add_neg _ _
    rw [habs]
    simp only [ThreadPool.step, hawake, hcheck, abs, patch, Patch.apply, Patch.workers, hq,
      List.tail_cons, setWorker, hpending, Nat.add_zero]

/-- `--m_pending` and the unlock of `worker_loop`. -/
theorem next_popped {i : Fin N} {t : ℕ} (h : Inv ⟨pool, .popped i t, ending⟩)
    (hs : next ⟨pool, .popped i t, ending⟩ = some s') :
    s'.Inv ∧ Matches ⟨pool, .popped i t, ending⟩ s' := by
  obtain rfl := Option.some.inj hs
  refine ⟨⟨h.holder.1, h.stop⟩, .refl_of ?_⟩
  have hpending : pool.pending - 1 + 0 = pool.pending + -1 :=
    (BitVec.add_zero _).trans (BitVec.sub_eq_add_neg _ _)
  simp only [abs, patch, Patch.apply, Patch.workers, hpending]

theorem next_uncounted {i : Fin N} {t : ℕ} (h : Inv ⟨pool, .uncounted i t, ending⟩)
    (hs : next ⟨pool, .uncounted i t, ending⟩ = some s') :
    s'.Inv ∧ Matches ⟨pool, .uncounted i t, ending⟩ s' := by
  obtain rfl := Option.some.inj hs
  refine ⟨inv_of_free h.stop, .refl_of ?_⟩
  have hpending : pool.pending + 0 = pool.pending := BitVec.add_zero _
  rw [abs_of_patch rfl]
  simp only [abs, patch, Patch.apply, Patch.workers, setWorker, hpending, Nat.add_zero]

/-- `m_stop = true`. -/
theorem next_stopping (h : Inv ⟨pool, .stopping, ending⟩)
    (hs : next ⟨pool, .stopping, ending⟩ = some s') :
    s'.Inv ∧ Matches ⟨pool, .stopping, ending⟩ s' := by
  have halive : pool.destructor = .alive := h.holder
  obtain rfl := Option.some.inj hs
  refine ⟨⟨trivial, by simp⟩, ?_⟩
  apply Matches.one (a := .setStop)
  rw [abs_of_patch rfl, abs_of_patch rfl]
  simp only [ThreadPool.step, halive]

theorem Inv.next (h : s.Inv) (hs : s.next = some s') : s'.Inv ∧ Matches s s' := by
  obtain ⟨pool, mutex, ending⟩ := s
  cases mutex with
  | free => cases hs
  | submitting who => exact next_submitting h hs
  | pushed who => exact next_pushed h hs
  | counted who => exact next_counted h hs
  | checking i => exact next_checking h hs
  | taking i t => exact next_taking h hs
  | popped i t => exact next_popped h hs
  | uncounted i t => exact next_uncounted h hs
  | stopping => exact next_stopping h hs
  | stopped =>
      obtain rfl := Option.some.inj hs
      exact ⟨inv_of_free h.stop, .refl_of (Eq.trans (abs_of_patch rfl) (abs_of_patch rfl).symm)⟩

theorem matches_of_lock (hfree : s.mutex = .free) {m : Mutex N}
    (hpatch : patch { s with mutex := m } = ⟨none, 0, 0⟩) : Matches s { s with mutex := m } := by
  have hnone : s.patch = ⟨none, 0, 0⟩ := by rw [patch, hfree]
  exact .refl_of ((abs_of_patch hpatch).trans (abs_of_patch hnone).symm)

theorem Inv.bodyEnds (h : s.Inv) {i : Fin N} {outcome : Outcome}
    (hs : s.step (.bodyEnds i outcome) = some s') : s'.Inv ∧ Matches s s' := by
  simp only [step] at hs
  split at hs
  case h_1 t ht hend =>
    split_ifs at hs with hholds
    obtain rfl := Option.some.inj hs
    -- a body in `submit` does not end, so the holder does not notice
    have hsame : Frame (.spurious i) s.pool s.pool :=
      ⟨rfl, rfl, rfl, Iff.rfl, fun _ _ _ => rfl⟩
    refine ⟨(h.quiet _ hsame (by rintro j _ o ⟨⟩) (fun j hj => ?_)).1, .refl_of rfl⟩
    have hji : j ≠ i := fun heq => hholds (heq ▸ hj)
    rw [Function.update_of_ne hji]
    exact (h.submitter j hj).2
  case h_2 => cases hs

/-- The guard of a task counts it. -/
theorem Inv.finish (h : s.Inv) {i : Fin N} (hs : s.step (.finish i) = some s') :
    s'.Inv ∧ Matches s s' := by
  simp only [step] at hs
  split at hs
  case h_1 outcome hend =>
    obtain ⟨pool, hpool, rfl⟩ := Option.map_eq_some_iff.mp hs
    have htrans := trans_of_step hpool
    -- the body has ended, so its worker is neither in `submit` nor at the queue
    obtain ⟨t, ht⟩ : ∃ t, s.pool.workers i = .running t := by
      cases htrans with
      | finish hi => exact ⟨_, hi⟩
      | rejected hr => rcases hr with hr | ⟨j, hr⟩ <;> cases hr
    have hother : ∀ j, s.mutex.submitter = some j ∨ s.mutex.checker = some j → j ≠ i := by
      rintro j (hj | hj) rfl
      · rw [(h.submitter j hj).2] at hend
        cases hend
      · rw [h.checker hj] at ht
        cases ht
    have hquiet := h.quiet (Function.update s.ending i none) (frame_of_trans rfl htrans)
      (fun j hj o heq => hother j hj (by cases heq; rfl))
      (fun j hj => by
        rw [Function.update_of_ne (hother j (Or.inl hj))]
        exact (h.submitter j hj).2)
    refine ⟨hquiet.1, Matches.one (a := .finish i outcome) ?_⟩
    rw [abs, abs, hquiet.2]
    refine Patch.step_apply h.fits ?_ rfl htrans
    rintro j o ⟨⟩ k w hP
    exact hother k (holder_of_patch hP)
  case h_2 => cases hs

theorem Inv.outside (h : s.Inv) {a : ThreadPool.Action N} (hs : s.step (.outside a) = some s') :
    s'.Inv ∧ Matches s s' := by
  simp only [step] at hs
  split_ifs at hs with hlockless
  obtain ⟨pool, hpool, rfl⟩ := Option.map_eq_some_iff.mp hs
  have htrans := trans_of_step hpool
  have hquiet := quiet_of_lockless hlockless
  have hnot : ∀ i outcome, a ≠ .finish i outcome := by
    rintro i outcome rfl
    cases hlockless
  have hinv := h.quiet s.ending (frame_of_trans hquiet htrans)
    (fun i _ outcome => hnot i outcome) (fun i hi => (h.submitter i hi).2)
  refine ⟨hinv.1, Matches.one (a := a) ?_⟩
  rw [abs, abs, hinv.2]
  exact Patch.step_apply h.fits (fun i outcome heq => absurd heq (hnot i outcome)) hquiet htrans

/-- **Each statement of the pool is a step of the coarse model or no step at all.** -/
theorem simulates (h : s.Inv) {a : Action N} (hs : s.step a = some s') : s'.Inv ∧ Matches s s' := by
  cases a with
  | next => exact h.next hs
  | lockSubmit who =>
      cases who with
      | none =>
          simp only [step] at hs
          split_ifs at hs with hlock
          obtain rfl := Option.some.inj hs
          refine ⟨⟨?_, h.stop⟩, matches_of_lock hlock.1 rfl⟩
          intro i hi
          cases hi
      | some i =>
          simp only [step] at hs
          split at hs
          case h_1 t ht hend =>
            split_ifs at hs with hfree
            obtain rfl := Option.some.inj hs
            refine ⟨⟨?_, h.stop⟩, matches_of_lock hfree rfl⟩
            intro j hj
            cases hj
            exact ⟨⟨t, ht⟩, hend⟩
          case h_2 => cases hs
  | lockCheck i =>
      simp only [step] at hs
      split_ifs at hs with hlock
      obtain rfl := Option.some.inj hs
      exact ⟨⟨hlock.2, h.stop⟩, matches_of_lock hlock.1 rfl⟩
  | lockStop =>
      simp only [step] at hs
      split_ifs at hs with hlock
      obtain rfl := Option.some.inj hs
      exact ⟨⟨hlock.2, h.stop⟩, matches_of_lock hlock.1 rfl⟩
  | bodyEnds i outcome => exact h.bodyEnds hs
  | finish i => exact h.finish hs
  | outside a => exact h.outside hs

end Simulation

/-! ### The counters -/

/-- Every fine run is a run of the coarse model. -/
theorem refines {as : List (Action N)} {s : FinePool N}
    (h : Runs.run FinePool.step (FinePool.init N) as = some s) :
    s.Inv ∧ ∃ bs, Runs.run ThreadPool.step (ThreadPool.init N) bs = some s.abs := by
  have hinit : (FinePool.init N).abs = ThreadPool.init N := abs_of_patch rfl
  rw [← hinit]
  exact Runs.run_stuttering (fun _ _ _ hinv hstep => simulates hinv hstep) inv_init h

end FinePool

namespace Ok

variable {s : ThreadPool N}

theorem length_popped (h : s.Ok) : s.popped.length + s.tasks.length = s.accepted := by
  rw [← List.length_append, h.fifo, List.length_range]

/-- A task is counted before its future is ready. -/
theorem finished_subperm (h : s.Ok) : s.finished.Subperm s.executed :=
  List.subperm_iff_count.mpr (fun t => by have := h.ran t; omega)

theorem hasRun_le_holds (t : ℕ) (w : Worker) : (w.hasRun t).toNat ≤ (w.holds t).toNat := by
  cases w <;> first | exact Nat.zero_le _ | exact le_refl _

/-- A counted task has been taken from the queue. -/
theorem executed_subperm (h : s.Ok) : s.executed.Subperm s.popped := by
  rw [List.subperm_iff_count]
  intro t
  have htally : tally (Worker.hasRun t) s.workers ≤ tally (Worker.holds t) s.workers :=
    tally_mono (fun i => hasRun_le_holds t (s.workers i))
  have hran := h.ran t
  have htaken := h.taken t
  omega

end Ok

namespace FinePool

variable {s : FinePool N}

/-- `m_pending` is off by the one task whose section is in progress. -/
theorem pending_of_abs (hinv : s.Inv) (hok : s.abs.Ok) :
    ∃ q ≤ s.pool.accepted, s.pool.pending = BitVec.ofNat 64 q ∧
      (s.mutex = .free → q = s.pool.tasks.length) := by
  have hlength : s.pool.popped.length + s.pool.tasks.length = s.pool.accepted := hok.length_popped
  have hpending : s.pool.pending + s.patch.pending = BitVec.ofNat 64 s.pool.tasks.length :=
    hok.pending
  by_cases hpushed : ∃ who, s.mutex = .pushed who
  · -- the task is in the queue and not counted yet
    obtain ⟨who, hm⟩ := hpushed
    obtain ⟨n, hn⟩ := Nat.exists_eq_succ_of_ne_zero
      (fun hzero => hinv.tasks_of_pushed hm (List.eq_nil_of_length_eq_zero hzero))
    have hpatch : s.patch.pending = 1 := by
      rw [patch, hm]
      cases who <;> rfl
    rw [hpatch, hn, Nat.succ_eq_add_one, ofNat_succ] at hpending
    refine ⟨n, by omega, (BitVec.add_left_inj 1).mp hpending, ?_⟩
    rw [hm]
    rintro ⟨⟩
  by_cases hpopped : ∃ i t, s.mutex = .popped i t
  · -- the task has left the queue and is still counted
    obtain ⟨i, t, hm⟩ := hpopped
    have hpos := List.length_pos_of_ne_nil (hinv.popped_of_popped hm)
    have hpatch : s.patch.pending = -1 := by rw [patch, hm]
    refine ⟨s.pool.tasks.length + 1, by omega, ?_, ?_⟩
    · rw [ofNat_succ, ← hpending, hpatch, BitVec.add_assoc]
      exact (BitVec.add_zero _).symm
    · rw [hm]
      rintro ⟨⟩
  · have hpatch : s.patch.pending = 0 := by
      obtain ⟨pool, mutex, ending⟩ := s
      rcases mutex with _ | _ | who | (_ | i) | _ | _ | ⟨i, t⟩ | _ | _ | _ <;> first
        | rfl
        | exact absurd ⟨_, rfl⟩ hpushed
        | exact absurd ⟨_, _, rfl⟩ hpopped
    refine ⟨s.pool.tasks.length, by omega, ?_, fun _ => rfl⟩
    rw [← hpending, hpatch]
    exact (BitVec.add_zero _).symm

/-- **The counters of the pool are never wrong.**  In every state between any two statements:
`m_completed` counts the tasks in `executed`; these are at least the tasks whose futures are ready
and at most the accepted tasks that have left the queue; and `m_pending` is a number of tasks,
which is the length of the queue whenever the mutex is free. -/
theorem threadPool_counts (as : List (Action N)) (s : FinePool N)
    (h : Runs.run FinePool.step (FinePool.init N) as = some s) :
    s.pool.completed = BitVec.ofNat 64 s.pool.executed.length ∧
    s.pool.futures.length ≤ s.pool.executed.length ∧
    s.pool.executed.length ≤ s.pool.accepted - s.pool.tasks.length ∧
    (s.pool.accepted < 2 ^ 64 → s.pool.futures.length ≤ s.pool.completed.toNat ∧
      s.pool.completed.toNat ≤ s.pool.accepted - s.pool.tasks.length) ∧
    (∀ t ∈ s.pool.finished, t ∈ s.pool.executed) ∧
    (∃ q ≤ s.pool.accepted, s.pool.pending = BitVec.ofNat 64 q ∧
      (s.mutex = .free → q = s.pool.tasks.length)) ∧
    (s.mutex = .free → s.pool.pending = BitVec.ofNat 64 s.pool.tasks.length) := by
  obtain ⟨hinv, bs, hbs⟩ := refines h
  have hok := ok_of_run hbs
  have hcompleted : s.pool.completed = BitVec.ofNat 64 s.pool.executed.length := hok.completed
  have hlength : s.pool.popped.length + s.pool.tasks.length = s.pool.accepted := hok.length_popped
  have hready : s.pool.futures.length ≤ s.pool.executed.length := by
    have hle := hok.finished_subperm.length_le
    rwa [finished, List.length_map] at hle
  have htaken : s.pool.executed.length ≤ s.pool.popped.length := hok.executed_subperm.length_le
  obtain ⟨q, hq, hpending, hfree⟩ := pending_of_abs hinv hok
  refine ⟨hcompleted, hready, by omega, ?_, fun t ht => hok.finished_subperm.subset ht,
    ⟨q, hq, hpending, hfree⟩, fun hm => hfree hm ▸ hpending⟩
  intro hlt
  have hexact : s.pool.completed.toNat = s.pool.executed.length := by
    rw [hcompleted, BitVec.toNat_ofNat, Nat.mod_eq_of_lt (by omega)]
  omega

/-- One worker.  A task is pushed and popped, its body throws, and between the destructor of the
guard and the future an outside thread pushes a second task. -/
def throwSchedule : List (Action 1) :=
  [.lockSubmit none, .next, .next, .next, .outside (.notify none), .lockCheck 0, .next, .next, .next,
    .next, .bodyEnds 0 .threw, .lockSubmit none, .finish 0, .next, .outside (.resolve 0)]

theorem threadPool_counts_throw : ∃ s,
    Runs.run FinePool.step (FinePool.init 1) throwSchedule = some s ∧
    s.mutex = .pushed none ∧ s.pool.finished = [0] ∧ 0 ∈ s.pool.executed ∧
    s.pool.completed = BitVec.ofNat 64 s.pool.executed.length := by
  obtain ⟨s, hs, hm, hf⟩ : ∃ s, Runs.run FinePool.step (FinePool.init 1) throwSchedule = some s ∧
      s.mutex = .pushed none ∧ s.pool.finished = [0] := Runs.exists_run_of_any (by decide)
  obtain ⟨hcompleted, -, -, -, hready, -, -⟩ := threadPool_counts throwSchedule s hs
  exact ⟨s, hs, hm, hf, hready 0 (by rw [hf]; exact List.mem_singleton.mpr rfl), hcompleted⟩

end FinePool

end ThreadPool

end EbpfMonitor
