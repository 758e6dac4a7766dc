import EbpfMonitor.ThreadPoolWakeup
import Mathlib.Algebra.BigOperators.Ring.List

/-! # `ThreadPool` makes progress

`ThreadPool.lean` says what the pool never does wrong, this module that it does not get stuck.  There
are two parts, and neither needs fairness.

* **No livelock.**  `left` is the number of steps the pool can still take by itself.  Every step of
  the workers, of a notification and of the destructor uses some of it up; only a `submit` and a
  spurious wakeup add to it.  So the number of steps in a run is linear in the number of `submit`
  calls and spurious wakeups, whatever the order (`left_step`, with the potential rule of
  `Lib/Runs.lean`).
* **No deadlock.**  When nothing of the pool's own can move, nothing is left to do: by `Covered` no
  task is queued while all workers sleep, and after `notify_all` a worker that is not joined can move.

`threadPool_live` puts them together. -/

namespace EbpfMonitor

namespace ThreadPool

variable {N : ℕ}

/-! ### Steps still to come -/

/-- The steps that a worker and whoever it wakes can still take before all are blocked again. -/
def Worker.left : Worker → ℕ
  | awake => 1
  | blocked => 0
  | running _ => 3
  | notifying _ => 5
  | counted _ _ => 2
  | exited => 0

section

variable (t : ℕ) (outcome : Outcome)

@[simp] theorem Worker.left_awake : Worker.awake.left = 1 := rfl
@[simp] theorem Worker.left_blocked : Worker.blocked.left = 0 := rfl
@[simp] theorem Worker.left_running : (Worker.running t).left = 3 := rfl
@[simp] theorem Worker.left_notifying : (Worker.notifying t).left = 5 := rfl
@[simp] theorem Worker.left_counted : (Worker.counted t outcome).left = 2 := rfl
@[simp] theorem Worker.left_exited : Worker.exited.left = 0 := rfl

end

/-- The steps of `~ThreadPool`, and of the workers that its `notify_all` wakes. -/
def Destructor.left (N : ℕ) : Destructor → ℕ
  | alive => 2 * N + 2
  | stopSet => 2 * N + 1
  | joining k => N - k

/-- The steps that are left if nobody submits another task and nobody wakes up spuriously. -/
def left (s : ThreadPool N) : ℕ :=
  3 * s.tasks.length + 2 * s.owed + ∑ i, (s.workers i).left + s.destructor.left N

theorem sum_left_update (f : Fin N → Worker) (i : Fin N) (w : Worker) :
    ∑ j, (Function.update f i w j).left + (f i).left = ∑ j, (f j).left + w.left := by
  have hsum := sum_add_of_eq_off (f := fun j => (f j).left)
    (g := fun j => (Function.update f i w j).left) i (fun j hj => by rw [Function.update_of_ne hj])
  rwa [Function.update_self] at hsum

theorem left_setWorker (s : ThreadPool N) (i : Fin N) (w : Worker) :
    (s.setWorker i w).left + (s.workers i).left = s.left + w.left := by
  have hsum := sum_left_update s.workers i w
  simp only [left, setWorker]
  omega

/-- `notify_one` gives one worker something to do. -/
theorem left_notifyOne {s s' : ThreadPool N} {target : Option (Fin N)}
    (h : s.notifyOne target = some s') : s'.left ≤ s.left + 1 ∧ s'.owed = s.owed := by
  rcases notifyOne_eq_some h with ⟨rfl, -⟩ | ⟨j, hj, rfl⟩
  · exact ⟨Nat.le_succ _, rfl⟩
  · have hset := left_setWorker s j .awake
    rw [hj] at hset
    exact ⟨hset.le, rfl⟩

theorem left_check (s : ThreadPool N) (i : Fin N) (hi : s.workers i = .awake) :
    (s.check i).left + 1 ≤ s.left := by
  unfold ThreadPool.check
  split_ifs with hwait
  · have hset := left_setWorker s i .blocked
    rw [hi] at hset
    exact hset.le
  · cases hq : s.tasks with
    | nil =>
        have hset := left_setWorker s i .exited
        rw [hi] at hset
        exact hset.le
    | cons t rest =>
        have hsum := sum_left_update s.workers i (.running t)
        rw [hi, Worker.left_awake, Worker.left_running] at hsum
        simp only [left, setWorker, hq, List.length_cons]
        omega

theorem left_notifyAll (s : ThreadPool N) :
    ∑ i, (s.workers i).wake.left ≤ ∑ i, (s.workers i).left + N := by
  have hwake : ∀ w : Worker, w.wake.left ≤ w.left + 1 := by
    intro w
    cases w <;> simp [Worker.wake, Worker.left]
  calc ∑ i, (s.workers i).wake.left ≤ ∑ i, ((s.workers i).left + 1) :=
        Finset.sum_le_sum (fun i _ => hwake (s.workers i))
    _ = ∑ i, (s.workers i).left + N := by simp [Finset.sum_add_distrib]

/-! ### What a step uses up -/

/-- A call of `submit`, in an outside thread or in the body of a task. -/
def Action.isSubmit : Action N → Bool
  | .submit => true
  | .taskSubmit _ => true
  | _ => false

def Action.isSpurious : Action N → Bool
  | .spurious _ => true
  | _ => false

/-- All other steps: those of the workers, of the notifications and of the destructor. -/
def Action.isWork (a : Action N) : Bool := !a.isSubmit && !a.isSpurious

/-- A call of `submit` adds a task, a notification and the worker that it wakes. -/
theorem left_submit {s s' : ThreadPool N} (h : s.submit = .ok s') :
    s'.left = s.left + 3 ∧ s'.owed = s.owed ∧ s'.workers = s.workers := by
  obtain ⟨-, rfl⟩ := submit_eq_ok h
  refine ⟨?_, rfl, rfl⟩
  simp only [left, List.length_append, List.length_singleton]
  omega

theorem left_step (s : ThreadPool N) (a : Action N) (s' : ThreadPool N) (h : s.step a = some s') :
    s'.left + a.isWork.toNat ≤ s.left + (5 * a.isSubmit.toNat + a.isSpurious.toNat) := by
  cases trans_of_step h with
  | @submit s1 hd hs =>
      show left { s1 with owed := s1.owed + 1 } ≤ s.left + 5
      have hleft := (left_submit hs).1
      simp only [left] at hleft ⊢
      omega
  | rejected ha =>
      rcases ha with rfl | ⟨i, rfl⟩ <;> exact Nat.le_add_right _ _
  | @notify target s1 ho hs =>
      show left { s1 with owed := s1.owed - 1 } + 1 ≤ s.left
      obtain ⟨hleft, howed⟩ := left_notifyOne hs
      simp only [left] at hleft ⊢
      omega
  | @taskSubmit i t s1 hi hs =>
      show (s1.setWorker i (.notifying t)).left ≤ s.left + 5
      obtain ⟨hleft, -, hworkers⟩ := left_submit hs
      have hset := left_setWorker s1 i (.notifying t)
      rw [hworkers, hi, Worker.left_running, Worker.left_notifying] at hset
      omega
  | @taskNotify i t target s1 hi hs =>
      show (s1.setWorker i (.running t)).left + 1 ≤ s.left
      have hleft := (left_notifyOne hs).1
      have hi' := (workers_notifyOne hs (by simp [hi])).trans hi
      have hset := left_setWorker s1 i (.running t)
      rw [hi', Worker.left_running, Worker.left_notifying] at hset
      omega
  | @check i hi => exact left_check s i hi
  | @spurious i hi =>
      have hset := left_setWorker s i .awake
      rw [hi] at hset
      exact hset.le
  | @finish i t hi outcome =>
      show (s.setWorker i (.counted t outcome)).left + 1 ≤ s.left
      have hset := left_setWorker s i (.counted t outcome)
      rw [hi, Worker.left_running, Worker.left_counted] at hset
      omega
  | @resolve i t outcome hi =>
      show (s.setWorker i .awake).left + 1 ≤ s.left
      have hset := left_setWorker s i .awake
      rw [hi, Worker.left_awake, Worker.left_counted] at hset
      omega
  | setStop hd =>
      simp only [left, hd]
      exact le_refl _
  | notifyAll hd =>
      show left { s with workers := fun i => (s.workers i).wake, destructor := .joining 0 } + 1 ≤ s.left
      have hwake := left_notifyAll s
      simp only [left, hd, Destructor.left]
      omega
  | @join k hd hk hex =>
      show left { s with destructor := .joining (k + 1) } + 1 ≤ s.left
      simp only [left, hd, Destructor.left]
      omega

/-! ### When nothing can move -/

/-- What the pool does by itself: all but the calls of its user and spurious wakeups. -/
def Action.isOwn : Action N → Bool
  | .submit => false
  | .taskSubmit _ => false
  | .spurious _ => false
  | .setStop => false
  | _ => true

/-- No thread of the pool, no notification and no destructor can take a step. -/
def Stuck (s : ThreadPool N) : Prop := ∀ a : Action N, a.isOwn = true → s.step a = none

/-- `notify_one` never waits. -/
theorem exists_notifyOne (s : ThreadPool N) : ∃ target s', s.notifyOne target = some s' := by
  by_cases hb : ∃ j, s.workers j = .blocked
  · obtain ⟨j, hj⟩ := hb
    exact ⟨some j, _, by rw [notifyOne, if_pos hj]⟩
  · exact ⟨none, s, by rw [notifyOne, if_neg hb]⟩

namespace Stuck

variable {s : ThreadPool N}

theorem owed_eq_zero (h : s.Stuck) : s.owed = 0 := by
  by_contra hne
  obtain ⟨target, s', hs⟩ := exists_notifyOne s
  have hstep := h (.notify target) rfl
  rw [step, if_pos (Nat.pos_of_ne_zero hne), hs] at hstep
  cases hstep

/-- Every worker sleeps or has left. -/
theorem worker (h : s.Stuck) (i : Fin N) : s.workers i = .blocked ∨ s.workers i = .exited := by
  cases hw : s.workers i with
  | awake =>
      have hstep := h (.check i) rfl
      simp [step, hw] at hstep
  | blocked => exact Or.inl rfl
  | running t =>
      have hstep := h (.finish i .returned) rfl
      simp [step, hw] at hstep
  | notifying t =>
      obtain ⟨target, s', hs⟩ := exists_notifyOne s
      have hstep := h (.taskNotify i target) rfl
      simp [step, hw, hs] at hstep
  | counted t outcome =>
      have hstep := h (.resolve i) rfl
      simp [step, hw] at hstep
  | exited => exact Or.inr rfl

theorem idle (h : s.Stuck) {P : Worker → Bool} (hb : P .blocked = false) (he : P .exited = false) :
    tally P s.workers = 0 := by
  apply tally_eq_zero
  intro i
  rcases h.worker i with hw | hw
  · rw [hw, hb]
  · rw [hw, he]

/-- All accepted tasks are finished once the queue is empty. -/
theorem finished_perm (h : s.Stuck) (hok : s.Ok) (hq : s.tasks = []) :
    s.finished.Perm (List.range s.accepted) := by
  have hpopped : s.popped = List.range s.accepted := by
    have hfifo := hok.fifo
    rwa [hq, List.append_nil] at hfifo
  rw [List.perm_iff_count, ← hpopped]
  intro t
  rw [hok.taken t, h.idle rfl rfl, Nat.zero_add]

/-- While the pool lives, all workers sleep and the queue is empty: otherwise one of them would
have been notified. -/
theorem alive (h : s.Stuck) (hN : 0 < N) (hok : s.Ok) (hcov : s.Covered) (hd : s.destructor = .alive) :
    (∀ i, s.workers i = .blocked) ∧ s.tasks = [] := by
  have hblocked : ∀ i, s.workers i = .blocked := by
    intro i
    rcases h.worker i with hw | hw
    · exact hw
    · exact absurd hd (hok.stop.mp (hok.exited i hw).1)
  have hle := hcov.awaited hd ⟨⟨0, hN⟩, hblocked _⟩
  rw [h.idle rfl rfl, h.owed_eq_zero] at hle
  exact ⟨hblocked, List.length_eq_zero_iff.mp (Nat.le_zero.mp hle)⟩

/-- A destructor that was called has returned. -/
theorem stopping (h : s.Stuck) (hN : 0 < N) (hok : s.Ok) (hcov : s.Covered)
    (hjoined : ∀ k, s.destructor = .joining k → k ≤ N) (hd : s.destructor ≠ .alive) :
    s.Returned ∧ s.tasks = [] := by
  cases hcase : s.destructor with
  | alive => exact absurd hcase hd
  | stopSet =>
      have hstep := h .notifyAll rfl
      simp [step, hcase] at hstep
  | joining k =>
      have hexited : ∀ i, s.workers i = .exited :=
        fun i => (h.worker i).resolve_left (hcov.woken k hcase i)
      have hk : k = N := by
        by_contra hne
        have hlt : k < N := lt_of_le_of_ne (hjoined k hcase) hne
        have hstep := h .join rfl
        simp [step, hcase, hlt, hexited] at hstep
      subst hk
      exact ⟨hcase, (hok.exited ⟨0, hN⟩ (hexited _)).2⟩

end Stuck

/-- Nothing moves after the destructor has returned and all notifications are made. -/
theorem Ok.stuck_of_returned {s : ThreadPool N} (h : s.Ok) (hr : s.Returned) (ho : s.owed = 0) :
    s.Stuck := by
  have hexited : ∀ i, s.workers i = .exited := fun i => h.joined N hr i i.isLt
  have hd : s.destructor = .joining N := hr
  intro a hown
  cases a <;> cases hown <;> simp [step, hexited, hd, ho]

/-! ### Progress -/

theorem joined_le_init (k : ℕ) (h : (ThreadPool.init N).destructor = .joining k) : k ≤ N := by
  cases h

/-- The destructor joins each worker once. -/
theorem joined_le_trans {s s' : ThreadPool N} {a : Action N} (h : ∀ k, s.destructor = .joining k → k ≤ N)
    (ht : s.Trans a s') : ∀ k, s'.destructor = .joining k → k ≤ N := by
  have hnotify : ∀ {s1 : ThreadPool N} {target : Option (Fin N)}, s.notifyOne target = some s1 →
      s1.destructor = s.destructor := by
    intro s1 target hs
    rcases notifyOne_eq_some hs with ⟨rfl, -⟩ | ⟨j, -, rfl⟩ <;> rfl
  cases ht with
  | submit hd hs =>
      obtain ⟨-, rfl⟩ := submit_eq_ok hs
      exact h
  | rejected => exact h
  | notify ho hs =>
      intro k hk
      exact h k ((hnotify hs).symm.trans hk)
  | taskSubmit hi hs =>
      obtain ⟨-, rfl⟩ := submit_eq_ok hs
      exact h
  | taskNotify hi hs =>
      intro k hk
      exact h k ((hnotify hs).symm.trans hk)
  | @check i hi =>
      intro k hk
      refine h k (Eq.trans ?_ hk)
      unfold ThreadPool.check
      split_ifs
      · rfl
      · cases s.tasks <;> rfl
  | spurious hi => exact h
  | finish hi outcome => exact h
  | resolve hi => exact h
  | setStop hd =>
      intro k hk
      cases hk
  | notifyAll hd =>
      rintro k hk
      cases hk
      exact Nat.zero_le _
  | join hd hk hex =>
      rintro k' hk'
      cases hk'
      exact hk

/-- **The pool neither loops nor gets stuck.**  In every run, the steps of the workers, of the
notifications and of the destructor are at most five for each `submit`, one for each spurious wakeup
and three for each worker, plus two.  And when no such step is possible any more, the queue is empty,
every accepted task is finished, and either all workers sleep, or the destructor was called and has
returned. -/
theorem threadPool_live (n : ℕ) (as : List (Action (threadCount n))) (s : ThreadPool (threadCount n))
    (h : Runs.run ThreadPool.step (ThreadPool.init (threadCount n)) as = some s) :
    as.countP Action.isWork ≤
        3 * threadCount n + 2 + 5 * as.countP Action.isSubmit + as.countP Action.isSpurious ∧
      (s.Stuck → s.tasks = [] ∧ s.finished.Perm (List.range s.accepted) ∧
        (s.destructor = .alive → ∀ i, s.workers i = .blocked) ∧ (s.destructor ≠ .alive → s.Returned)) := by
  constructor
  · have hpotential := Runs.run_potential (P := fun _ => True) (fun _ _ _ _ _ => trivial)
      (fun s a s' _ hstep => left_step s a s' hstep) trivial h
    have hinit : (ThreadPool.init (threadCount n)).left = 3 * threadCount n + 2 := by
      simp [left, ThreadPool.init, Destructor.left]
      omega
    rw [hinit, Runs.sum_map_toNat] at hpotential
    simp only [List.sum_map_add, List.sum_map_mul_left, Runs.sum_map_toNat] at hpotential
    omega
  · intro hstuck
    obtain ⟨hok, hcov, hjoined⟩ := Runs.run_invariant
      (P := fun s : ThreadPool (threadCount n) => s.Ok ∧ s.Covered ∧
        ∀ k, s.destructor = .joining k → k ≤ threadCount n)
      (fun _ _ _ hinv hstep => ⟨hinv.1.trans (trans_of_step hstep),
        hinv.2.1.trans hinv.1 (trans_of_step hstep), joined_le_trans hinv.2.2 (trans_of_step hstep)⟩)
      ⟨Ok.init _, Covered.init _, joined_le_init⟩ h
    have hpos := threadCount_pos n
    have hq : s.tasks = [] := by
      by_cases hd : s.destructor = .alive
      · exact (hstuck.alive hpos hok hcov hd).2
      · exact (hstuck.stopping hpos hok hcov hjoined hd).2
    exact ⟨hq, hstuck.finished_perm hok hq, fun hd => (hstuck.alive hpos hok hcov hd).1,
      fun hd => (hstuck.stopping hpos hok hcov hjoined hd).1⟩

theorem threadPool_live_shutdown :
    ∃ s : ThreadPool (threadCount 2),
      Runs.run ThreadPool.step (ThreadPool.init (threadCount 2)) shutdownSchedule = some s ∧
      s.Stuck ∧ s.Returned ∧ s.finished.Perm (List.range 3) := by
  obtain ⟨s, hs, hr, ho, ha⟩ : ∃ s : ThreadPool (threadCount 2),
      Runs.run ThreadPool.step (ThreadPool.init (threadCount 2)) shutdownSchedule = some s ∧
      s.destructor = .joining 2 ∧ s.owed = 0 ∧ s.accepted = 3 := Runs.exists_run_of_any (by decide +kernel)
  have hstuck := (ok_of_run hs).stuck_of_returned hr ho
  obtain ⟨-, hperm, -, hreturned⟩ := (threadPool_live 2 shutdownSchedule s hs).2 hstuck
  rw [ha] at hperm
  exact ⟨s, hs, hstuck, hreturned (by simp [hr]), hperm⟩

end ThreadPool

end EbpfMonitor
