import EbpfMonitor.ThreadPool

/-! # The condition variable of `ThreadPool`

`submit` calls `notify_one` after it has left the critical section, and the destructor calls
`notify_all` after it has set `m_stop`.  In between, other threads run: a notification can
reach a worker whose task has already been taken by another one, or find nobody to wake.

The invariant `Covered` counts: while some worker is blocked, there are at most as many queued
tasks as workers on their way to the queue and notifications still to come.  Each push brings
a notification, each notification that meets a blocked worker turns it into one on its way,
and a worker gives up its place only by taking a task or by finding the queue empty.  With
`m_stop` set nobody blocks any more, so `notify_all` leaves nobody behind. -/

namespace EbpfMonitor

namespace ThreadPool

variable {N : ℕ}

theorem blocked_of_setWorker (s : ThreadPool N) (i : Fin N) (w : Worker) (hw : w ≠ .blocked)
    {j : Fin N} (hj : (s.setWorker i w).workers j = .blocked) : s.workers j = .blocked := by
  by_cases hji : j = i
  · subst hji
    simp only [setWorker, Function.update_self] at hj
    exact absurd hj hw
  · simpa only [setWorker, Function.update_of_ne hji] using hj

/-- While the pool is alive and a worker is blocked, every queued task has a worker or a
notification on its way to it; after `notify_all` nobody is blocked. -/
structure Covered (s : ThreadPool N) : Prop where
  awaited : s.destructor = .alive → (∃ i, s.workers i = .blocked) →
    s.tasks.length ≤ tally Worker.ready s.workers + s.owed
  woken : ∀ k, s.destructor = .joining k → ∀ i, s.workers i ≠ .blocked

namespace Covered

variable {s : ThreadPool N} {i : Fin N} {w' : Worker}

theorem init (N : ℕ) : (ThreadPool.init N).Covered where
  awaited := fun _ _ => Nat.zero_le _
  woken := nofun

/-- A worker that moves without blocking and stays as ready as it was. -/
theorem move (h : s.Covered) (hw' : w' ≠ .blocked) (hready : (s.workers i).ready.toNat ≤ w'.ready.toNat) :
    (s.setWorker i w').Covered where
  awaited := by
    rintro hd ⟨j, hj⟩
    have hle := h.awaited hd ⟨j, blocked_of_setWorker s i w' hw' hj⟩
    have hu := tally_update Worker.ready s.workers i w'
    simp only [setWorker]
    omega
  woken := fun k hk j hj => h.woken k hk j (blocked_of_setWorker s i w' hw' hj)

/-- A push and the notification it brings. -/
theorem submit (h : s.Covered) {s' : ThreadPool N} (hs : s.submit = .ok s') :
    Covered { s' with owed := s'.owed + 1 } := by
  obtain ⟨_, rfl⟩ := submit_eq_ok hs
  refine ⟨?_, h.woken⟩
  intro hd hb
  have hle := h.awaited hd hb
  simp only [List.length_append, List.length_singleton]
  omega

/-- The notification of an outside thread: with nobody blocked there is nothing to cover. -/
theorem notify (h : s.Covered) {target : Option (Fin N)} {s' : ThreadPool N}
    (hs : s.notifyOne target = some s') : Covered { s' with owed := s'.owed - 1 } := by
  rcases notifyOne_eq_some hs with ⟨rfl, hnone⟩ | ⟨j, hj, rfl⟩
  · exact ⟨fun _ ⟨j, hj⟩ => absurd hj (hnone j), h.woken⟩
  · refine ⟨?_, fun k hk => absurd hj (h.woken k hk j)⟩
    rintro hd ⟨l, hl⟩
    have hle := h.awaited hd ⟨j, hj⟩
    have hu := tally_update Worker.ready s.workers j .awake
    rw [hj] at hu
    simp only [setWorker, Worker.ready, Bool.toNat_true, Bool.toNat_false] at hu ⊢
    omega

theorem taskSubmit (h : s.Covered) {t : ℕ} (hi : s.workers i = .running t) {s' : ThreadPool N}
    (hs : s.submit = .ok s') : (s'.setWorker i (.notifying t)).Covered := by
  obtain ⟨_, rfl⟩ := submit_eq_ok hs
  refine ⟨?_, fun k hk j hj => h.woken k hk j (blocked_of_setWorker s i (.notifying t) nofun hj)⟩
  rintro hd ⟨j, hj⟩
  have hle := h.awaited hd ⟨j, blocked_of_setWorker s i (.notifying t) nofun hj⟩
  have hu := tally_update Worker.ready s.workers i (.notifying t)
  rw [hi] at hu
  simp only [setWorker, Worker.ready, Bool.toNat_true, Bool.toNat_false, List.length_append,
    List.length_singleton] at hu ⊢
  omega

/-- The notification of a task body: the worker it wakes takes over its place in the count. -/
theorem taskNotify (h : s.Covered) {t : ℕ} (hi : s.workers i = .notifying t)
    {target : Option (Fin N)} {s' : ThreadPool N} (hs : s.notifyOne target = some s') :
    (s'.setWorker i (.running t)).Covered := by
  have hi' : s'.workers i = .notifying t := (workers_notifyOne hs (by rw [hi]; nofun)).trans hi
  rcases notifyOne_eq_some hs with ⟨rfl, hnone⟩ | ⟨j, hj, rfl⟩
  · exact ⟨fun _ ⟨j, hj⟩ => absurd (blocked_of_setWorker _ i (.running t) nofun hj) (hnone j),
      fun k hk j hj => h.woken k hk j (blocked_of_setWorker _ i (.running t) nofun hj)⟩
  · refine ⟨?_, fun k hk => absurd hj (h.woken k hk j)⟩
    rintro hd -
    have hle := h.awaited hd ⟨j, hj⟩
    have hwoken := tally_update Worker.ready s.workers j .awake
    have hnotified := tally_update Worker.ready (s.setWorker j .awake).workers i (.running t)
    rw [hj] at hwoken
    rw [hi'] at hnotified
    simp only [setWorker, Worker.ready, Bool.toNat_true, Bool.toNat_false] at hwoken hnotified ⊢
    omega

theorem check (h : s.Covered) (hok : s.Ok) (hi : s.workers i = .awake) : (s.check i).Covered := by
  unfold ThreadPool.check
  split_ifs with hwait
  · -- the worker blocks: the queue is empty and `m_stop` is not set
    obtain ⟨hstop, hq⟩ : s.stop = false ∧ s.tasks = [] := by simpa using hwait
    refine ⟨fun _ _ => ?_, fun k hk => ?_⟩
    · show s.tasks.length ≤ _
      rw [hq]
      exact Nat.zero_le _
    · have hset : s.stop = true := hok.stop.mpr (by rw [show s.destructor = _ from hk]; nofun)
      rw [hstop] at hset
      cases hset
  · cases hq : s.tasks with
    | nil =>
        have hstop : s.stop = true := by simpa [hq] using hwait
        exact ⟨fun hd => absurd hd (hok.stop.mp hstop),
          fun k hk j hj => h.woken k hk j (blocked_of_setWorker s i .exited nofun hj)⟩
    | cons t rest =>
        refine ⟨?_, fun k hk j hj => h.woken k hk j (blocked_of_setWorker s i (.running t) nofun hj)⟩
        rintro hd ⟨j, hj⟩
        have hle := h.awaited hd ⟨j, blocked_of_setWorker s i (.running t) nofun hj⟩
        have hu := tally_update Worker.ready s.workers i (.running t)
        rw [hi] at hu
        rw [hq, List.length_cons] at hle
        simp only [setWorker, Worker.ready, Bool.toNat_true, Bool.toNat_false] at hu ⊢
        omega

theorem notifyAll (s : ThreadPool N) :
    Covered { s with workers := fun i => (s.workers i).wake, destructor := .joining 0 } where
  awaited := nofun
  woken := by
    intro k _ i
    cases hw : s.workers i <;> simp only [hw, Worker.wake, ne_eq, reduceCtorEq, not_false_eq_true]

theorem trans (h : s.Covered) (hok : s.Ok) {a : Action N} {s' : ThreadPool N} (ht : s.Trans a s') :
    s'.Covered := by
  cases ht with
  | submit hd hs => exact h.submit hs
  | rejected => exact h
  | notify ho hs => exact h.notify hs
  | taskSubmit hi hs => exact h.taskSubmit hi hs
  | taskNotify hi hs => exact h.taskNotify hi hs
  | check hi => exact h.check hok hi
  | spurious hi => exact h.move nofun (by rw [hi]; decide)
  | @finish i t hi outcome =>
      have h' : (s.setWorker i (.counted t outcome)).Covered := h.move nofun (by rw [hi]; exact le_refl _)
      exact ⟨h'.awaited, h'.woken⟩
  | @resolve i t outcome hi =>
      have h' : (s.setWorker i .awake).Covered := h.move nofun (by rw [hi]; exact Nat.zero_le _)
      exact ⟨h'.awaited, h'.woken⟩
  | setStop hd => exact ⟨nofun, nofun⟩
  | notifyAll hd => exact Covered.notifyAll s
  | join hd hk hex => exact ⟨nofun, fun _ _ => h.woken _ hd⟩

end Covered

/-- **No wakeup is lost.**  In every reachable state with a queued task and a blocked worker,
another worker is on its way to the queue or a notification is still to come; and after
`notify_all` no worker is blocked. -/
theorem threadPool_no_lost_wakeup (n : ℕ) (as : List (Action (threadCount n)))
    (s : ThreadPool (threadCount n))
    (h : Runs.run ThreadPool.step (ThreadPool.init (threadCount n)) as = some s) :
    (s.tasks ≠ [] → (∃ i, s.workers i = .blocked) →
      (∃ j, s.workers j = .awake) ∨
      (0 < s.owed ∨ (∃ j t, s.workers j = .notifying t) ∨ s.destructor = .stopSet)) ∧
    ∀ k, s.destructor = .joining k → ∀ i, s.workers i ≠ .blocked := by
  obtain ⟨_, hcov⟩ := Runs.run_invariant (P := fun s : ThreadPool (threadCount n) => s.Ok ∧ s.Covered)
    (fun _ _ _ hinv hstep => ⟨hinv.1.trans (trans_of_step hstep), hinv.2.trans hinv.1 (trans_of_step hstep)⟩)
    ⟨Ok.init _, Covered.init _⟩ h
  refine ⟨?_, hcov.woken⟩
  rintro hq ⟨i, hi⟩
  cases hd : s.destructor with
  | stopSet => exact Or.inr (Or.inr (Or.inr rfl))
  | joining k => exact absurd hi (hcov.woken k hd i)
  | alive =>
      have hle := hcov.awaited hd ⟨i, hi⟩
      have hpos := List.length_pos_iff.mpr hq
      by_cases ho : 0 < s.owed
      · exact Or.inr (Or.inl ho)
      · obtain ⟨j, hj⟩ := exists_of_tally_pos (show 0 < tally Worker.ready s.workers by omega)
        cases hw : s.workers j with
        | awake => exact Or.inl ⟨j, hw⟩
        | notifying t => exact Or.inr (Or.inr (Or.inl ⟨j, t, hw⟩))
        | _ =>
            rw [hw] at hj
            cases hj

theorem threadPool_no_lost_wakeup_overlapping :
    ∃ s : ThreadPool (threadCount 2),
      Runs.run ThreadPool.step (ThreadPool.init (threadCount 2)) overlappingSubmits = some s ∧
      s.tasks = [1] ∧ s.workers 1 = .blocked ∧
      ((∃ j, s.workers j = .awake) ∨
        (0 < s.owed ∨ (∃ j t, s.workers j = .notifying t) ∨ s.destructor = .stopSet)) := by
  obtain ⟨s, hs, hq, hw⟩ : ∃ s : ThreadPool (threadCount 2),
      Runs.run ThreadPool.step (ThreadPool.init (threadCount 2)) overlappingSubmits = some s ∧
      s.tasks = [1] ∧ s.workers 1 = .blocked :=
    Runs.exists_run_of_any (by decide +kernel)
  exact ⟨s, hs, hq, hw,
    (threadPool_no_lost_wakeup 2 overlappingSubmits s hs).1 (by rw [hq]; nofun) ⟨1, hw⟩⟩

end ThreadPool

end EbpfMonitor
