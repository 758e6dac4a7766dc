import EbpfMonitor.Lib.Runs
import EbpfMonitor.Lib.Tally
import Mathlib.Algebra.GroupWithZero.Nat

/-! # `ThreadPool`

The embedding of `src/http/thread_pool.h` as the interleaving of the threads that use it: any
number of outside threads that call `submit`, the workers with the task bodies they run, and
the thread that runs the destructor.

* **Grain.**  Every critical section of `m_mtx` is one step.  `notify_one`, `notify_all`, the
  end of a task body (with the destructor of `CompletionGuard`), the store of its result by
  `packaged_task` and every `join` are steps of their own.
* **The condition variable** is the set of workers in state `blocked`.  `wait` gives up the
  mutex and blocks in the same step; `notify_one` wakes one blocked worker, any of them, or
  nobody if there is none; a worker may wake up spuriously.  A woken worker is `awake`: its
  next step takes the mutex and tests the predicate again.
* **Tasks** are named by the number of tasks accepted before them.  A body can submit further
  tasks; `notifying t` is a worker whose body has left the critical section of `submit` and
  not called `notify_one` yet, and `owed` counts the outside threads in that position.
* **History.**  `popped`, `executed` and `futures` record the tasks taken from the queue, the
  bodies that ran to their end, and the futures made ready.

`Trans` lists what a step can do.  `threadPool_drains` is the exactly-once and drain
property, from the invariant `Ok`; the one about the condition variable is in
`ThreadPoolWakeup.lean`. -/

namespace EbpfMonitor

namespace ThreadPool

/-- How a task body ends. -/
inductive Outcome where
  | returned
  | threw
deriving DecidableEq

/-- Where a worker is in `worker_loop`. -/
inductive Worker where
  /-- on its way to the mutex, to test the predicate of the wait -/
  | awake
  /-- in `m_cv.wait` -/
  | blocked
  /-- in the body of the task -/
  | running (t : ℕ)
  /-- in the body of the task, in `submit` between the critical section and `notify_one` -/
  | notifying (t : ℕ)
  /-- the body has ended and is counted, its future is not ready yet -/
  | counted (t : ℕ) (outcome : Outcome)
  | exited
deriving DecidableEq

namespace Worker

/-- The worker has taken the task and its future is not ready. -/
def holds (t : ℕ) : Worker → Bool
  | running u => u = t
  | notifying u => u = t
  | counted u _ => u = t
  | _ => false

/-- The worker has run the body of the task and its future is not ready. -/
def hasRun (t : ℕ) : Worker → Bool
  | counted u _ => u = t
  | _ => false

/-- The worker will test the queue or call `notify_one`. -/
def ready : Worker → Bool
  | awake => true
  | notifying _ => true
  | _ => false

/-- The effect of `notify_all`. -/
def wake : Worker → Worker
  | blocked => awake
  | w => w

end Worker

/-- The progress of `~ThreadPool`. -/
inductive Destructor where
  /-- not called yet -/
  | alive
  /-- `m_stop` is set, `notify_all` is still to come -/
  | stopSet
  /-- `notify_all` is done and `k` workers are joined -/
  | joining (k : ℕ)
deriving DecidableEq

/-- The constructor's correction of `thread_count`. -/
def threadCount (n : ℕ) : ℕ := if n = 0 then 1 else n

theorem threadCount_pos (n : ℕ) : 0 < threadCount n := by
  unfold threadCount
  split_ifs <;> omega

instance (n : ℕ) : NeZero (threadCount n) := ⟨(threadCount_pos n).ne'⟩

end ThreadPool

/-- The members of `ThreadPool`, its `N` workers and the threads that use it. -/
structure ThreadPool (N : ℕ) where
  tasks : List ℕ
  stop : Bool
  pending : BitVec 64
  completed : BitVec 64
  workers : Fin N → ThreadPool.Worker
  destructor : ThreadPool.Destructor
  /-- outside threads between the critical section of `submit` and `notify_one` -/
  owed : ℕ
  accepted : ℕ
  popped : List ℕ
  executed : List ℕ
  futures : List (ℕ × ThreadPool.Outcome)

namespace ThreadPool

variable {N : ℕ}

def init (N : ℕ) : ThreadPool N where
  tasks := []
  stop := false
  pending := 0
  completed := 0
  workers := fun _ => .awake
  destructor := .alive
  owed := 0
  accepted := 0
  popped := []
  executed := []
  futures := []

def setWorker (s : ThreadPool N) (i : Fin N) (w : Worker) : ThreadPool N :=
  { s with workers := Function.update s.workers i w }

/-! ### The code -/

/-- The critical section of `submit`. -/
def submit (s : ThreadPool N) : Except String (ThreadPool N) :=
  if s.stop then .error "ThreadPool: submit after shutdown"
  else .ok { s with
    tasks := s.tasks ++ [s.accepted]
    pending := s.pending + 1
    accepted := s.accepted + 1 }

/-- The critical section of `worker_loop`: the predicate of the wait, then the test for
shutdown, then the pop. -/
def check (s : ThreadPool N) (i : Fin N) : ThreadPool N :=
  if (s.stop || !s.tasks.isEmpty) = false then s.setWorker i .blocked
  else
    match s.tasks with
    | [] => s.setWorker i .exited
    | t :: rest =>
        { s.setWorker i (.running t) with
          tasks := rest
          pending := s.pending - 1
          popped := s.popped ++ [t] }

/-- `m_cv.notify_one()` with the worker it wakes. -/
def notifyOne (s : ThreadPool N) : Option (Fin N) → Option (ThreadPool N)
  | some j => if s.workers j = .blocked then some (s.setWorker j .awake) else none
  | none => if ∃ j, s.workers j = .blocked then none else some s

inductive Action (N : ℕ) where
  /-- critical section of `submit` in an outside thread -/
  | submit
  /-- `notify_one` of an outside thread -/
  | notify (target : Option (Fin N))
  /-- critical section of `submit` in the body worker `i` runs -/
  | taskSubmit (i : Fin N)
  | taskNotify (i : Fin N) (target : Option (Fin N))
  | check (i : Fin N)
  | spurious (i : Fin N)
  /-- the body worker `i` runs ends, `CompletionGuard` counts it -/
  | finish (i : Fin N) (outcome : Outcome)
  /-- `packaged_task` makes the future ready -/
  | resolve (i : Fin N)
  | setStop
  | notifyAll
  | join

/-- The interleaving.  Outside threads submit only before the destructor is called; a body
whose `submit` throws goes on. -/
def step (s : ThreadPool N) : Action N → Option (ThreadPool N)
  | .submit =>
      if s.destructor = .alive then
        match s.submit with
        | .ok s' => some { s' with owed := s'.owed + 1 }
        | .error _ => some s
      else none
  | .notify target =>
      if 0 < s.owed then (s.notifyOne target).map (fun s' => { s' with owed := s'.owed - 1 })
      else none
  | .taskSubmit i =>
      match s.workers i with
      | .running t =>
          match s.submit with
          | .ok s' => some (s'.setWorker i (.notifying t))
          | .error _ => some s
      | _ => none
  | .taskNotify i target =>
      match s.workers i with
      | .notifying t => (s.notifyOne target).map (fun s' => s'.setWorker i (.running t))
      | _ => none
  | .check i =>
      match s.workers i with
      | .awake => some (s.check i)
      | _ => none
  | .spurious i =>
      match s.workers i with
      | .blocked => some (s.setWorker i .awake)
      | _ => none
  | .finish i outcome =>
      match s.workers i with
      | .running t =>
          some { s.setWorker i (.counted t outcome) with
            completed := s.completed + 1
            executed := s.executed ++ [t] }
      | _ => none
  | .resolve i =>
      match s.workers i with
      | .counted t outcome =>
          some { s.setWorker i .awake with futures := s.futures ++ [(t, outcome)] }
      | _ => none
  | .setStop =>
      match s.destructor with
      | .alive => some { s with stop := true, destructor := .stopSet }
      | _ => none
  | .notifyAll =>
      match s.destructor with
      | .stopSet => some { s with workers := fun i => (s.workers i).wake, destructor := .joining 0 }
      | _ => none
  | .join =>
      match s.destructor with
      | .joining k =>
          if h : k < N then
            if s.workers ⟨k, h⟩ = .exited then some { s with destructor := .joining (k + 1) } else none
          else none
      | _ => none

/-- `~ThreadPool` has returned: all workers are joined. -/
def Returned (s : ThreadPool N) : Prop := s.destructor = .joining N

/-- The tasks whose futures are ready. -/
def finished (s : ThreadPool N) : List ℕ := s.futures.map Prod.fst

/-! ### What a step can do -/

theorem submit_eq_ok {s s' : ThreadPool N} (h : s.submit = .ok s') : s.stop = false ∧
    s' = { s with
      tasks := s.tasks ++ [s.accepted]
      pending := s.pending + 1
      accepted := s.accepted + 1 } := by
  unfold submit at h
  split_ifs at h with hstop
  exact ⟨Bool.eq_false_iff.mpr hstop, (Except.ok.inj h).symm⟩

theorem notifyOne_eq_some {s s' : ThreadPool N} {target : Option (Fin N)}
    (h : s.notifyOne target = some s') :
    (s' = s ∧ ∀ j, s.workers j ≠ .blocked) ∨
      ∃ j, s.workers j = .blocked ∧ s' = s.setWorker j .awake := by
  cases target with
  | none =>
      simp only [notifyOne] at h
      split_ifs at h with hnone
      exact Or.inl ⟨(Option.some.inj h).symm, fun j hj => hnone ⟨j, hj⟩⟩
  | some j =>
      simp only [notifyOne] at h
      split_ifs at h with hj
      exact Or.inr ⟨j, hj, (Option.some.inj h).symm⟩

/-- `notify_one` leaves alone who is not blocked. -/
theorem workers_notifyOne {s s' : ThreadPool N} {target : Option (Fin N)} {i : Fin N}
    (h : s.notifyOne target = some s') (hi : s.workers i ≠ .blocked) : s'.workers i = s.workers i := by
  rcases notifyOne_eq_some h with ⟨rfl, _⟩ | ⟨j, hj, rfl⟩
  · rfl
  · have hij : i ≠ j := by
      rintro rfl
      exact hi hj
    simp only [setWorker, Function.update_of_ne hij]

/-- The transitions of the pool, one constructor for each way a step can go. -/
inductive Trans (s : ThreadPool N) : Action N → ThreadPool N → Prop
  | submit {s' : ThreadPool N} (hd : s.destructor = .alive) (hs : s.submit = .ok s') :
      Trans s .submit { s' with owed := s'.owed + 1 }
  | rejected {a : Action N} (ha : a = .submit ∨ ∃ i, a = .taskSubmit i) : Trans s a s
  | notify {target : Option (Fin N)} {s' : ThreadPool N} (ho : 0 < s.owed)
      (hs : s.notifyOne target = some s') : Trans s (.notify target) { s' with owed := s'.owed - 1 }
  | taskSubmit {i : Fin N} {t : ℕ} {s' : ThreadPool N} (hi : s.workers i = .running t)
      (hs : s.submit = .ok s') : Trans s (.taskSubmit i) (s'.setWorker i (.notifying t))
  | taskNotify {i : Fin N} {t : ℕ} {target : Option (Fin N)} {s' : ThreadPool N}
      (hi : s.workers i = .notifying t) (hs : s.notifyOne target = some s') :
      Trans s (.taskNotify i target) (s'.setWorker i (.running t))
  | check {i : Fin N} (hi : s.workers i = .awake) : Trans s (.check i) (s.check i)
  | spurious {i : Fin N} (hi : s.workers i = .blocked) : Trans s (.spurious i) (s.setWorker i .awake)
  | finish {i : Fin N} {t : ℕ} (hi : s.workers i = .running t) (outcome : Outcome) :
      Trans s (.finish i outcome) { s.setWorker i (.counted t outcome) with
        completed := s.completed + 1, executed := s.executed ++ [t] }
  | resolve {i : Fin N} {t : ℕ} {outcome : Outcome} (hi : s.workers i = .counted t outcome) :
      Trans s (.resolve i) { s.setWorker i .awake with futures := s.futures ++ [(t, outcome)] }
  | setStop (hd : s.destructor = .alive) :
      Trans s .setStop { s with stop := true, destructor := .stopSet }
  | notifyAll (hd : s.destructor = .stopSet) :
      Trans s .notifyAll { s with workers := fun i => (s.workers i).wake, destructor := .joining 0 }
  | join {k : ℕ} (hd : s.destructor = .joining k) (hk : k < N) (hex : s.workers ⟨k, hk⟩ = .exited) :
      Trans s .join { s with destructor := .joining (k + 1) }

theorem trans_of_step {s s' : ThreadPool N} {a : Action N} (h : s.step a = some s') : s.Trans a s' := by
  cases a with
  | submit =>
      simp only [step] at h
      split_ifs at h with hd
      cases hs : s.submit with
      | ok s1 =>
          rw [hs] at h
          obtain rfl := Option.some.inj h
          exact .submit hd hs
      | error e =>
          rw [hs] at h
          obtain rfl := Option.some.inj h
          exact .rejected (Or.inl rfl)
  | notify target =>
      simp only [step] at h
      split_ifs at h with ho
      obtain ⟨s1, hs, rfl⟩ := Option.map_eq_some_iff.mp h
      exact .notify ho hs
  | taskSubmit i =>
      simp only [step] at h
      split at h
      case h_1 t hi =>
        cases hs : s.submit with
        | ok s1 =>
            rw [hs] at h
            obtain rfl := Option.some.inj h
            exact .taskSubmit hi hs
        | error e =>
            rw [hs] at h
            obtain rfl := Option.some.inj h
            exact .rejected (Or.inr ⟨i, rfl⟩)
      case h_2 => cases h
  | taskNotify i target =>
      simp only [step] at h
      split at h
      case h_1 t hi =>
        obtain ⟨s1, hs, rfl⟩ := Option.map_eq_some_iff.mp h
        exact .taskNotify hi hs
      case h_2 => cases h
  | check i =>
      simp only [step] at h
      split at h
      case h_1 hi =>
        obtain rfl := Option.some.inj h
        exact .check hi
      case h_2 => cases h
  | spurious i =>
      simp only [step] at h
      split at h
      case h_1 hi =>
        obtain rfl := Option.some.inj h
        exact .spurious hi
      case h_2 => cases h
  | finish i outcome =>
      simp only [step] at h
      split at h
      case h_1 t hi =>
        obtain rfl := Option.some.inj h
        exact .finish hi outcome
      case h_2 => cases h
  | resolve i =>
      simp only [step] at h
      split at h
      case h_1 t outcome hi =>
        obtain rfl := Option.some.inj h
        exact .resolve hi
      case h_2 => cases h
  | setStop =>
      simp only [step] at h
      split at h
      case h_1 hd =>
        obtain rfl := Option.some.inj h
        exact .setStop hd
      case h_2 => cases h
  | notifyAll =>
      simp only [step] at h
      split at h
      case h_1 hd =>
        obtain rfl := Option.some.inj h
        exact .notifyAll hd
      case h_2 => cases h
  | join =>
      simp only [step] at h
      split at h
      case h_1 k hd =>
        split_ifs at h with hk hex
        obtain rfl := Option.some.inj h
        exact .join hd hk hex
      case h_2 => cases h

/-! ### The invariant -/

/-- The queue and the history fit together, every popped task is with one worker or finished,
the counters count, and workers leave only an empty queue behind. -/
structure Ok (s : ThreadPool N) : Prop where
  fifo : s.popped ++ s.tasks = List.range s.accepted
  pending : s.pending = BitVec.ofNat 64 s.tasks.length
  completed : s.completed = BitVec.ofNat 64 s.executed.length
  taken : ∀ t, s.popped.count t = tally (Worker.holds t) s.workers + s.finished.count t
  ran : ∀ t, s.executed.count t = tally (Worker.hasRun t) s.workers + s.finished.count t
  stop : s.stop = true ↔ s.destructor ≠ .alive
  exited : ∀ i, s.workers i = .exited → s.stop = true ∧ s.tasks = []
  joined : ∀ k, s.destructor = .joining k → ∀ i : Fin N, i.val < k → s.workers i = .exited

theorem ofNat_succ (n : ℕ) : BitVec.ofNat 64 (n + 1) = BitVec.ofNat 64 n + 1 :=
  BitVec.ofNat_add n 1

theorem count_concat (l : List ℕ) (t u : ℕ) :
    (l ++ [t]).count u = l.count u + (decide (t = u)).toNat := by
  rw [List.count_append, List.count_singleton]
  by_cases h : t = u <;> simp [h]

namespace Ok

variable {s : ThreadPool N} {i : Fin N} {w' : Worker}

theorem init (N : ℕ) : (ThreadPool.init N).Ok where
  fifo := rfl
  pending := rfl
  completed := rfl
  taken := by
    intro t
    rw [tally_eq_zero (fun _ => rfl)]
    rfl
  ran := by
    intro t
    rw [tally_eq_zero (fun _ => rfl)]
    rfl
  stop := by simp [ThreadPool.init]
  exited := by
    intro i h
    cases h
  joined := by
    intro k h
    cases h

theorem exited_setWorker (h : s.Ok) (i : Fin N) (w' : Worker)
    (hw' : w' = .exited → s.stop = true ∧ s.tasks = []) {j : Fin N}
    (hj : (s.setWorker i w').workers j = .exited) : s.stop = true ∧ s.tasks = [] := by
  by_cases hji : j = i
  · subst hji
    simp only [setWorker, Function.update_self] at hj
    exact hw' hj
  · simp only [setWorker, Function.update_of_ne hji] at hj
    exact h.exited j hj

theorem joined_setWorker (h : s.Ok) (hw : s.workers i ≠ .exited) {k : ℕ}
    (hk : s.destructor = .joining k) {j : Fin N} (hj : j.val < k) :
    (s.setWorker i w').workers j = .exited := by
  have hex := h.joined k hk j hj
  have hji : j ≠ i := by
    rintro rfl
    exact hw hex
  simp only [setWorker, Function.update_of_ne hji]
  exact hex

/-- A worker that moves without taking or finishing a task. -/
theorem move (h : s.Ok) (hw : s.workers i ≠ .exited)
    (hw' : w' = .exited → s.stop = true ∧ s.tasks = [])
    (hholds : ∀ t, w'.holds t = (s.workers i).holds t)
    (hran : ∀ t, w'.hasRun t = (s.workers i).hasRun t) : (s.setWorker i w').Ok where
  fifo := h.fifo
  pending := h.pending
  completed := h.completed
  taken := by
    intro t
    have hu := tally_update (Worker.holds t) s.workers i w'
    rw [hholds t] at hu
    have := h.taken t
    simp only [setWorker, finished] at this ⊢
    omega
  ran := by
    intro t
    have hu := tally_update (Worker.hasRun t) s.workers i w'
    rw [hran t] at hu
    have := h.ran t
    simp only [setWorker, finished] at this ⊢
    omega
  stop := h.stop
  exited := fun _ hj => h.exited_setWorker i w' hw' hj
  joined := fun _ hk _ hj => h.joined_setWorker hw hk hj

/-- `submit` queues the task behind all others; nobody has left, since `m_stop` is not set. -/
theorem submit (h : s.Ok) {s' : ThreadPool N} (hs : s.submit = .ok s') : s'.Ok := by
  obtain ⟨hstop, rfl⟩ := submit_eq_ok hs
  refine ⟨?_, ?_, h.completed, h.taken, h.ran, h.stop, ?_, h.joined⟩
  · show s.popped ++ (s.tasks ++ [s.accepted]) = _
    rw [← List.append_assoc, h.fifo, List.range_succ]
  · show s.pending + 1 = BitVec.ofNat 64 (s.tasks ++ [s.accepted]).length
    rw [h.pending, List.length_append, List.length_singleton, ofNat_succ]
  · intro i hi
    have := (h.exited i hi).1
    rw [hstop] at this
    cases this

theorem wake (h : s.Ok) (hi : s.workers i = .blocked) : (s.setWorker i .awake).Ok :=
  h.move (by rw [hi]; nofun) nofun (fun t => by rw [hi]; rfl) (fun t => by rw [hi]; rfl)

theorem notifyOne (h : s.Ok) {target : Option (Fin N)} {s' : ThreadPool N}
    (hs : s.notifyOne target = some s') : s'.Ok := by
  rcases notifyOne_eq_some hs with ⟨rfl, _⟩ | ⟨j, hj, rfl⟩
  · exact h
  · exact h.wake hj

theorem pop (h : s.Ok) (hi : s.workers i = .awake) {t : ℕ} {rest : List ℕ} (hq : s.tasks = t :: rest) :
    Ok { s.setWorker i (.running t) with
      tasks := rest, pending := s.pending - 1, popped := s.popped ++ [t] } := by
  have hne : s.workers i ≠ .exited := by rw [hi]; nofun
  refine ⟨?_, ?_, h.completed, ?_, ?_, h.stop, ?_, fun _ hk _ hj => h.joined_setWorker hne hk hj⟩
  · show s.popped ++ [t] ++ rest = List.range s.accepted
    rw [← h.fifo, hq, List.append_assoc]
    rfl
  · show s.pending - 1 = BitVec.ofNat 64 rest.length
    rw [h.pending, hq, List.length_cons, ofNat_succ, BitVec.add_sub_cancel]
  · intro u
    have hu := tally_update (Worker.holds u) s.workers i (.running t)
    have := h.taken u
    rw [hi] at hu
    simp only [setWorker, finished, Worker.holds, Bool.toNat_false, count_concat] at this hu ⊢
    omega
  · intro u
    have hu := tally_update (Worker.hasRun u) s.workers i (.running t)
    have := h.ran u
    rw [hi] at hu
    simp only [setWorker, finished, Worker.hasRun] at this hu ⊢
    omega
  · intro j hj
    have hempty := (h.exited_setWorker i (.running t) nofun hj).2
    rw [hq] at hempty
    cases hempty

theorem check (h : s.Ok) (hi : s.workers i = .awake) : (s.check i).Ok := by
  have hne : s.workers i ≠ .exited := by rw [hi]; nofun
  unfold ThreadPool.check
  split_ifs with hwait
  · exact h.move hne nofun (fun t => by rw [hi]; rfl) (fun t => by rw [hi]; rfl)
  · cases hq : s.tasks with
    | nil =>
        have hstop : s.stop = true := by simpa [hq] using hwait
        exact h.move hne (fun _ => ⟨hstop, hq⟩) (fun t => by rw [hi]; rfl) (fun t => by rw [hi]; rfl)
    | cons t rest => exact h.pop hi hq

/-- The end of a body is counted once. -/
theorem finish (h : s.Ok) {t : ℕ} (hi : s.workers i = .running t) (outcome : Outcome) :
    Ok { s.setWorker i (.counted t outcome) with
      completed := s.completed + 1, executed := s.executed ++ [t] } := by
  have hne : s.workers i ≠ .exited := by rw [hi]; nofun
  refine ⟨h.fifo, h.pending, ?_, ?_, ?_, h.stop, ?_, fun _ hk _ hj => h.joined_setWorker hne hk hj⟩
  · show s.completed + 1 = BitVec.ofNat 64 (s.executed ++ [t]).length
    rw [h.completed, List.length_append, List.length_singleton, ofNat_succ]
  · intro u
    have hu := tally_update (Worker.holds u) s.workers i (.counted t outcome)
    have := h.taken u
    rw [hi] at hu
    simp only [setWorker, finished, Worker.holds] at this hu ⊢
    omega
  · intro u
    have hu := tally_update (Worker.hasRun u) s.workers i (.counted t outcome)
    have := h.ran u
    rw [hi] at hu
    simp only [setWorker, finished, Worker.hasRun, Bool.toNat_false, count_concat] at this hu ⊢
    omega
  · exact fun _ hj => h.exited_setWorker i (.counted t outcome) nofun hj

theorem resolve (h : s.Ok) {t : ℕ} {outcome : Outcome} (hi : s.workers i = .counted t outcome) :
    Ok { s.setWorker i .awake with futures := s.futures ++ [(t, outcome)] } := by
  have hne : s.workers i ≠ .exited := by rw [hi]; nofun
  have hfin : List.map Prod.fst (s.futures ++ [(t, outcome)]) = s.finished ++ [t] := by
    simp [finished]
  refine ⟨h.fifo, h.pending, h.completed, ?_, ?_, h.stop, ?_,
    fun _ hk _ hj => h.joined_setWorker hne hk hj⟩
  · intro u
    have hu := tally_update (Worker.holds u) s.workers i .awake
    have := h.taken u
    rw [hi] at hu
    rw [finished, hfin, count_concat]
    simp only [setWorker, Worker.holds, Bool.toNat_false] at hu ⊢
    omega
  · intro u
    have hu := tally_update (Worker.hasRun u) s.workers i .awake
    have := h.ran u
    rw [hi] at hu
    rw [finished, hfin, count_concat]
    simp only [setWorker, Worker.hasRun, Bool.toNat_false] at hu ⊢
    omega
  · exact fun _ hj => h.exited_setWorker i .awake nofun hj

theorem setStop (h : s.Ok) : Ok { s with stop := true, destructor := .stopSet } where
  fifo := h.fifo
  pending := h.pending
  completed := h.completed
  taken := h.taken
  ran := h.ran
  stop := by simp
  exited := fun j hj => ⟨rfl, (h.exited j hj).2⟩
  joined := nofun

theorem notifyAll (h : s.Ok) (hd : s.destructor = .stopSet) :
    Ok { s with workers := fun i => (s.workers i).wake, destructor := .joining 0 } where
  fifo := h.fifo
  pending := h.pending
  completed := h.completed
  taken := by
    intro t
    have hwake : ∀ w : Worker, w.wake.holds t = w.holds t := by
      intro w
      cases w <;> rfl
    simp only [tally, hwake]
    exact h.taken t
  ran := by
    intro t
    have hwake : ∀ w : Worker, w.wake.hasRun t = w.hasRun t := by
      intro w
      cases w <;> rfl
    simp only [tally, hwake]
    exact h.ran t
  stop := by simpa using h.stop.mpr (by rw [hd]; nofun)
  exited := by
    intro j hj
    apply h.exited j
    cases hw : s.workers j <;> simp only [hw, Worker.wake, reduceCtorEq] at hj ⊢
  joined := by
    intro k hk j hj
    cases hk
    exact absurd hj (Nat.not_lt_zero _)

theorem join (h : s.Ok) {k : ℕ} (hd : s.destructor = .joining k) (hk : k < N)
    (hex : s.workers ⟨k, hk⟩ = .exited) : Ok { s with destructor := .joining (k + 1) } where
  fifo := h.fifo
  pending := h.pending
  completed := h.completed
  taken := h.taken
  ran := h.ran
  stop := by simpa using h.stop.mpr (by rw [hd]; nofun)
  exited := h.exited
  joined := by
    intro k' hk' j hj
    cases hk'
    by_cases hjk : j.val = k
    · subst hjk
      exact hex
    · exact h.joined k hd j (by omega)

theorem trans (h : s.Ok) {a : Action N} {s' : ThreadPool N} (ht : s.Trans a s') : s'.Ok := by
  cases ht with
  | submit hd hs =>
      have h' := h.submit hs
      exact ⟨h'.fifo, h'.pending, h'.completed, h'.taken, h'.ran, h'.stop, h'.exited, h'.joined⟩
  | rejected => exact h
  | notify ho hs =>
      have h' := h.notifyOne hs
      exact ⟨h'.fifo, h'.pending, h'.completed, h'.taken, h'.ran, h'.stop, h'.exited, h'.joined⟩
  | @taskSubmit i t s1 hi hs =>
      have hi' : s1.workers i = .running t := by
        obtain ⟨_, rfl⟩ := submit_eq_ok hs
        exact hi
      exact (h.submit hs).move (by rw [hi']; nofun) nofun (fun u => by rw [hi']; rfl)
        (fun u => by rw [hi']; rfl)
  | @taskNotify i t target s1 hi hs =>
      have hi' := workers_notifyOne hs (by rw [hi]; nofun) |>.trans hi
      exact (h.notifyOne hs).move (by rw [hi']; nofun) nofun (fun u => by rw [hi']; rfl)
        (fun u => by rw [hi']; rfl)
  | check hi => exact h.check hi
  | spurious hi => exact h.wake hi
  | finish hi outcome => exact h.finish hi outcome
  | resolve hi => exact h.resolve hi
  | setStop hd => exact h.setStop
  | notifyAll hd => exact h.notifyAll hd
  | join hd hk hex => exact h.join hd hk hex

/-- Every accepted task is in one place. -/
theorem placed (h : s.Ok) {t : ℕ} (ht : t < s.accepted) :
    s.tasks.count t + tally (Worker.holds t) s.workers + s.finished.count t = 1 := by
  have hall : (s.popped ++ s.tasks).count t = 1 := by
    rw [h.fifo]
    exact List.count_eq_one_of_mem List.nodup_range (List.mem_range.mpr ht)
  have := h.taken t
  rw [List.count_append] at hall
  omega

/-- When the destructor returns, all workers have left, so nothing is queued or held. -/
theorem drained (h : s.Ok) (hN : 0 < N) (hr : s.Returned) :
    s.tasks = [] ∧ s.pending = 0 ∧ s.executed.Perm (List.range s.accepted) ∧
      s.completed = BitVec.ofNat 64 s.accepted := by
  have hexited : ∀ i, s.workers i = .exited := fun i => h.joined N hr i i.isLt
  have htasks : s.tasks = [] := (h.exited ⟨0, hN⟩ (hexited _)).2
  have hpopped : s.popped = List.range s.accepted := by
    have := h.fifo
    rwa [htasks, List.append_nil] at this
  have hperm : s.executed.Perm (List.range s.accepted) := by
    rw [List.perm_iff_count, ← hpopped]
    intro t
    rw [h.ran t, h.taken t, tally_eq_zero (fun i => by rw [hexited i]; rfl),
      tally_eq_zero (fun i => by rw [hexited i]; rfl)]
  refine ⟨htasks, ?_, hperm, ?_⟩
  · rw [h.pending, htasks]
    rfl
  · rw [h.completed, hperm.length_eq, List.length_range]

end Ok

/-! ### Tasks executed exactly once -/

theorem ok_of_run {as : List (Action N)} {s : ThreadPool N}
    (h : Runs.run ThreadPool.step (ThreadPool.init N) as = some s) : s.Ok :=
  Runs.run_invariant (fun _ _ _ hok hstep => hok.trans (trans_of_step hstep)) (Ok.init N) h

/-- **Every accepted task runs exactly once, in order, and the destructor drains the queue.**
For every number of workers and every schedule: tasks are popped in the order of their
acceptance; an accepted task is queued, with one worker, or finished; a `submit` that finds
`m_stop` set throws and changes nothing; and when the destructor has returned, the queue is
empty and every accepted task has been executed once and counted. -/
theorem threadPool_drains (n : ℕ) (as : List (Action (threadCount n))) (s : ThreadPool (threadCount n))
    (h : Runs.run ThreadPool.step (ThreadPool.init (threadCount n)) as = some s) :
    s.popped ++ s.tasks = List.range s.accepted ∧
    (∀ t < s.accepted, s.tasks.count t + tally (Worker.holds t) s.workers + s.finished.count t = 1) ∧
    (s.stop = true → s.submit = .error "ThreadPool: submit after shutdown" ∧
      ∀ i s', s.step (.taskSubmit i) = some s' →
        s'.tasks = s.tasks ∧ s'.pending = s.pending ∧ s'.completed = s.completed) ∧
    (s.Returned → s.tasks = [] ∧ s.pending = 0 ∧ s.executed.Perm (List.range s.accepted) ∧
      s.completed = BitVec.ofNat 64 s.accepted) := by
  have hok := ok_of_run h
  refine ⟨hok.fifo, fun t ht => hok.placed ht, ?_, hok.drained (threadCount_pos n)⟩
  intro hstop
  have hthrow : s.submit = .error "ThreadPool: submit after shutdown" := by
    unfold ThreadPool.submit
    rw [if_pos hstop]
  refine ⟨hthrow, fun i s' hs' => ?_⟩
  simp only [ThreadPool.step, hthrow] at hs'
  split at hs'
  case h_1 t hi =>
    obtain rfl := Option.some.inj hs'
    exact ⟨rfl, rfl, rfl⟩
  case h_2 => cases hs'

/-- Two workers.  The first task submits the third and throws; the second is still queued when
`m_stop` is set, and the first task's attempt to submit another one is refused. -/
def shutdownSchedule : List (Action (threadCount 2)) :=
  [.submit, .notify none, .submit, .check 0, .taskSubmit 0, .taskNotify 0 none, .setStop,
    .taskSubmit 0, .check 1, .notify none, .notifyAll, .finish 0 .threw, .finish 1 .returned,
    .resolve 1, .check 1, .resolve 0, .check 0, .join, .finish 1 .returned, .resolve 1, .check 1, .join]

/-- Both workers block, two tasks are pushed before the first notification, and the worker it
wakes takes the first task. -/
def overlappingSubmits : List (Action (threadCount 2)) :=
  [.check 0, .check 1, .submit, .submit, .notify (some 0), .check 0]

theorem threadPool_drains_shutdown :
    ∃ s : ThreadPool (threadCount 2),
      Runs.run ThreadPool.step (ThreadPool.init (threadCount 2)) shutdownSchedule = some s ∧
      s.Returned ∧ s.accepted = 3 ∧ s.futures = [(1, .returned), (0, .threw), (2, .returned)] ∧
      s.tasks = [] ∧ s.pending = 0 ∧ s.executed.Perm (List.range 3) ∧ s.completed = 3 := by
  obtain ⟨s, hs, hr, ha, hf⟩ : ∃ s : ThreadPool (threadCount 2),
      Runs.run ThreadPool.step (ThreadPool.init (threadCount 2)) shutdownSchedule = some s ∧
      s.destructor = .joining 2 ∧ s.accepted = 3 ∧
      s.futures = [(1, .returned), (0, .threw), (2, .returned)] :=
    Runs.exists_run_of_any (by decide +kernel)
  obtain ⟨ht, hp, he, hc⟩ := (threadPool_drains 2 shutdownSchedule s hs).2.2.2 hr
  rw [ha] at he hc
  exact ⟨s, hs, hr, ha, hf, ht, hp, he, hc⟩

end ThreadPool

end EbpfMonitor
