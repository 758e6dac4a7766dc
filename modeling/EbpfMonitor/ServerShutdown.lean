import EbpfMonitor.EventLoop
import Mathlib.Logic.Function.Basic

/-! # The server's own descriptors

`EventLoop` takes `start`, `stop`, the end of `run` and the destructor as one step each.  Here they are
cut into their accesses: `start` may fail at each of its system calls, with the descriptors opened before
left behind in the members; `stop` reads `stop_fd_`, then `running_`, then `stop_fd_` once more for `write`;
`run` closes a member and sets it to `-1` afterwards.  Any number of threads may be inside `stop` while
`run` goes on.

* `own_descriptors_closed_once`: if `stop` is called at most once before `run` returns, no system call is
  made on a descriptor that the server has closed, and when the destructor is through every descriptor has
  been closed once.
* `second_stop_writes_closed`: a second call of `stop` breaks this.
* `stop_takes_effect_at_once`: every interleaving, also with many calls of `stop`, is a run of `EventLoop`. -/

namespace EbpfMonitor

open Text Throw

namespace AsyncHttpServer

/-- The members that hold the descriptors of the server's own. -/
inductive Member where
  | listen
  | epoll
  | stop
deriving DecidableEq

/-! ### `start`, call by call -/

/-- The members, `none` for `-1`, and the system calls that were made on them. -/
structure Own where
  fds : Member → Option ℕ
  calls : List (Lifetime.Event ℕ)

/-- The constructor. -/
def Own.init : Own := ⟨fun _ => none, []⟩

/-- An exception leaves behind what was done before it. -/
abbrev StartM := ExceptT Text (StateM Own)

/-- A system call that opens a descriptor for `m`. -/
def openFd (m : Member) (what : Text) (fd : Option ℕ) : StartM Unit := do
  modify fun o => ⟨Function.update o.fds m fd, o.calls ++ fd.toList.map .acquire⟩
  discard (MonadExcept.ofExcept (orThrow what fd))

/-- A system call on the descriptors of `ms`. -/
def callOn (ms : List Member) : StartM Unit :=
  modify fun o => { o with calls := o.calls ++ (ms.filterMap o.fds).map .use }

/-- `start()`. -/
def startCalls (r : Startup) : StartM Unit := do
  openFd .listen "socket() failed".toList r.socket
  callOn [.listen] -- setsockopt
  callOn [.listen] -- bind
  MonadExcept.ofExcept (throwOn ("bind() failed: ".toList ++ ·) r.bindError)
  callOn [.listen] -- listen
  MonadExcept.ofExcept (orThrow "listen() failed".toList (if r.listens then some () else none))
  openFd .epoll "epoll_create1() failed".toList r.epollCreate
  callOn [.epoll, .listen] -- epoll_ctl
  MonadExcept.ofExcept (throwOn Loop.addError r.addListenError)
  openFd .stop "eventfd() failed".toList r.eventfd
  callOn [.epoll, .stop] -- epoll_ctl
  MonadExcept.ofExcept (throwOn Loop.addError r.addStopError)

/-- The outcome of `start` and what it leaves behind. -/
def startOwn (r : Startup) : Except Text Unit × Own := (startCalls r).run.run Own.init

/-- The system calls of `~AsyncHttpServer`: `stop`, and the members in the order of the source. -/
def destructorCalls (fds : Member → Option ℕ) (running : Bool) : List (Lifetime.Event ℕ) :=
  (if running then (fds .stop).toList else []).map .use ++
    ([.listen, .epoll, .stop].filterMap fds).map .release

namespace Loop

def member (s : Loop) : Member → Option ℕ
  | .listen => s.listenFd
  | .epoll => s.epollFd
  | .stop => s.stopFd

end Loop

/-- The calls were possible, and the members hold what is open. -/
structure Own.Ok (o : Own) : Prop where
  legal : Lifetime.Legal [] o.calls
  live : Lifetime.live o.calls = [.stop, .epoll, .listen].filterMap o.fds

/-- `startOwn` fails where `start` does, with the same text. -/
theorem startOwn_outcome (server : AsyncHttpServer) (r : Startup) :
    (startOwn r).1 = (server.start r).map (fun _ => ()) := by
  obtain ⟨socket, bindError, listens, epollCreate, addListenError, eventfd, addStopError, arrived, _⟩ := r
  cases socket with
  | none => rfl
  | some l =>
  cases bindError with
  | some e => rfl
  | none =>
  cases listens with
  | false => rfl
  | true =>
  cases epollCreate with
  | none => rfl
  | some e =>
  cases addListenError with
  | some e => rfl
  | none =>
  cases eventfd with
  | none => rfl
  | some t =>
  cases addStopError with
  | some e => rfl
  | none => rfl

/-- The calls of a `start` that succeeds; one that fails makes the first of them. -/
def allCalls (l e t : ℕ) : List (Lifetime.Event ℕ) :=
  [.acquire l, .use l, .use l, .use l] ++ [.acquire e, .use e, .use l] ++ [.acquire t, .use e, .use t]

theorem legal_allCalls {l e t : ℕ} (h : [l, e, t].Nodup) : Lifetime.Legal [] (allCalls l e t) := by
  obtain ⟨⟨hle, hlt⟩, het⟩ : (l ≠ e ∧ l ≠ t) ∧ e ≠ t := by simpa using h
  simp [allCalls, Lifetime.Legal, Lifetime.Allowed, Lifetime.after, hle.symm, hlt.symm, het.symm]

theorem startOwn_ok (r : Startup) : (startOwn r).2.Ok := by
  obtain ⟨socket, bindError, listens, epollCreate, addListenError, eventfd, addStopError, arrived, hne⟩ := r
  cases socket with
  | none => exact ⟨trivial, rfl⟩
  | some l =>
  have hlisten : Lifetime.Legal [] [.acquire l, .use l, .use l, .use l] := by
    simp [Lifetime.Legal, Lifetime.Allowed, Lifetime.after]
  cases bindError with
  | some _ =>
      have hbind : Lifetime.Legal [] ([.acquire l, .use l, .use l] ++ [.use l]) := hlisten
      exact ⟨(Lifetime.legal_append.mp hbind).1, rfl⟩
  | none =>
  cases listens with
  | false => exact ⟨hlisten, rfl⟩
  | true =>
  cases epollCreate with
  | none => exact ⟨hlisten, rfl⟩
  | some e =>
  have hepoll : Lifetime.Legal [] ([.acquire l, .use l, .use l, .use l] ++ [.acquire e, .use e, .use l]) := by
    have hle : e ≠ l := by
      rintro rfl
      cases eventfd with
      | none => exact absurd (show [e, e].Nodup from hne) (by simp)
      | some t => exact absurd (show [e, e, t].Nodup from hne) (by simp)
    simp [Lifetime.Legal, Lifetime.Allowed, Lifetime.after, hle]
  cases addListenError with
  | some _ => exact ⟨hepoll, rfl⟩
  | none =>
  cases eventfd with
  | none => exact ⟨hepoll, rfl⟩
  | some t =>
  cases addStopError with
  | some _ => exact ⟨legal_allCalls hne, rfl⟩
  | none => exact ⟨legal_allCalls hne, rfl⟩

theorem startOwn_fds {server : AsyncHttpServer} {r : Startup} {s : Loop} (h : server.start r = .ok s) :
    (startOwn r).2.fds = s.member ∧ ∃ fd : Member → ℕ, s.member = fun m => some (fd m) := by
  obtain ⟨socket, bindError, listens, epollCreate, addListenError, eventfd, addStopError, arrived, _⟩ := r
  unfold start at h
  obtain ⟨l, hl, h⟩ := bind_eq_ok.mp h
  obtain ⟨_, hbind, h⟩ := bind_eq_ok.mp h
  obtain ⟨_, hlisten, h⟩ := bind_eq_ok.mp h
  obtain ⟨e, he, h⟩ := bind_eq_ok.mp h
  obtain ⟨_, hadd, h⟩ := bind_eq_ok.mp h
  obtain ⟨t, ht, h⟩ := bind_eq_ok.mp h
  obtain ⟨_, hstop, h⟩ := bind_eq_ok.mp h
  obtain rfl := Except.ok.inj h
  obtain rfl := orThrow_eq_ok.mp hl
  obtain rfl := throwOn_eq_ok.mp hbind
  obtain rfl : listens = true := by simpa using orThrow_eq_ok.mp hlisten
  obtain rfl := orThrow_eq_ok.mp he
  obtain rfl := throwOn_eq_ok.mp hadd
  obtain rfl := orThrow_eq_ok.mp ht
  obtain rfl := throwOn_eq_ok.mp hstop
  refine ⟨?_, fun m => match m with | .listen => l | .epoll => e | .stop => t, ?_⟩
  · funext m
    cases m <;> rfl
  · funext m
    cases m <;> rfl

/-! ### The threads -/

/-- A step of the end of `run`. -/
inductive CloseOp where
  /-- `close` of the member, if it is not `-1` -/
  | close (m : Member)
  /-- the member is set to `-1` -/
  | clear (m : Member)
deriving DecidableEq

/-- The end of `run`. -/
def closeOps : List CloseOp :=
  [.close .listen, .clear .listen, .close .epoll, .clear .epoll, .close .stop, .clear .stop]

/-- The place of a call of `stop`. -/
inductive StopCall where
  /-- before `stop_fd_ >= 0` -/
  | checkFd
  /-- before `running_.load()` -/
  | checkRunning
  /-- before `stop_fd_` is read for `write` -/
  | readFd
  /-- before `write`, with the descriptor that was read -/
  | write (fd : Option ℕ)
  | returned
deriving DecidableEq

/-- The thread of `run` and those that call `stop`. -/
structure Threads where
  loop : Loop
  /-- what is left of the end of `run`, once it has begun -/
  closing : List CloseOp
  /-- the calls of `stop`, in the order in which they began -/
  stops : List StopCall
  /-- the system calls on the descriptors of the server's own -/
  calls : List (Lifetime.Event ℕ)

/-- `run` begins after `start`. -/
def Threads.init (s : Loop) (r : Startup) : Threads := ⟨s, [], [], (startOwn r).2.calls⟩

inductive Access where
  /-- a connection arrives at the listener -/
  | arrive
  /-- a step of the loop of `run` -/
  | server (a : Action)
  /-- the loop of `run` ends -/
  | leave
  /-- a step of the end of `run` -/
  | close
  /-- another thread calls `stop` -/
  | callStop
  /-- the `i`-th call of `stop` goes on -/
  | stop (i : ℕ)
  /-- `~AsyncHttpServer`, when the other threads are through -/
  | destroy

/-- The steps that the loop of `run` takes. -/
def Action.ofRun : Action → Bool
  | .wait _ | .next | .client _ _ | .accept _ | .add _ => true
  | .arrive | .stop | .leave | .destroy => false

/-- The descriptors of the server's own that a step of the loop uses.  `close_client` takes the client off
`epoll_fd_`. -/
def Loop.ownUses (s : Loop) : Action → List ℕ
  | .wait _ | .client _ _ | .add _ => s.epollFd.toList
  | .accept _ => s.listenFd.toList
  | _ => []

/-- The kernel takes a closed descriptor off the interest list, and drops the list with `epoll_fd_`. -/
def Loop.unwatch (s : Loop) (m : Member) : Loop :=
  { s with interest := if m = .epoll then [] else s.interest.filter (some · ≠ s.member m) }

/-- The member is set to `-1`. -/
def Loop.clear (s : Loop) : Member → Loop
  | .listen => { s with listenFd := none }
  | .epoll => { s with epollFd := none }
  | .stop => { s with stopFd := none }

namespace Threads

/-- The descriptor is open. -/
def isOpen (s : Threads) (fd : Option ℕ) : Bool := fd.any (Lifetime.live s.calls).contains

/-- A step of the end of `run`, with `ops` still to come. -/
def closeStep (s : Threads) (ops : List CloseOp) : CloseOp → Threads
  | .close m =>
      { s with loop := s.loop.unwatch m, closing := ops
               calls := s.calls ++ (s.loop.member m).toList.map .release }
  | .clear m =>
      -- the last one lets `run` return
      let loop := s.loop.clear m
      { s with loop := if ops.isEmpty then { loop with pc := .exited } else loop, closing := ops }

/-- A step of the `i`-th call of `stop`. -/
def stopStep (s : Threads) (i : ℕ) : StopCall → Option Threads
  | .checkFd =>
      some { s with stops := s.stops.set i (if s.loop.stopFd.isSome then .checkRunning else .returned) }
  | .checkRunning => some { s with stops := s.stops.set i (if s.loop.running then .readFd else .returned) }
  | .readFd => some { s with stops := s.stops.set i (.write s.loop.stopFd) }
  | .write fd =>
      some { s with loop := { s.loop with stopWritten := s.loop.stopWritten || s.isOpen fd }
                    stops := s.stops.set i .returned
                    calls := s.calls ++ fd.toList.map .use }
  | .returned => none

def step (s : Threads) : Access → Option Threads
  | .arrive =>
      if s.isOpen s.loop.listenFd then (s.loop.step .arrive).map fun l => { s with loop := l } else none
  | .server a =>
      if a.ofRun then
        (s.loop.step a).map fun l => { s with loop := l, calls := s.calls ++ (s.loop.ownUses a).map .use }
      else none
  | .leave =>
      if s.loop.pc = .top ∧ s.loop.running = false ∧ s.closing.isEmpty then some { s with closing := closeOps }
      else none
  | .close =>
      match s.closing with
      | [] => none
      | op :: ops => some (s.closeStep ops op)
  | .callStop => if s.loop.pc = .destroyed then none else some { s with stops := s.stops ++ [.checkFd] }
  | .stop i => s.stops[i]?.bind (s.stopStep i)
  | .destroy =>
      if s.stops.all (· == .returned) then
        (s.loop.step .destroy).map fun l =>
          { s with loop := l, calls := s.calls ++ destructorCalls s.loop.member s.loop.running }
      else none

/-! ### What a step does -/

/-- What a step does, one case for each way through the source. -/
inductive Move (s : Threads) : Access → Threads → Prop where
  | arrive {l : Loop} (hopen : s.isOpen s.loop.listenFd = true) (hl : s.loop.step .arrive = some l) :
      Move s .arrive { s with loop := l }
  | server {a : Action} {l : Loop} (ha : a.ofRun = true) (hl : s.loop.step a = some l) :
      Move s (.server a) { s with loop := l, calls := s.calls ++ (s.loop.ownUses a).map .use }
  | leave (hpc : s.loop.pc = .top) (hrun : s.loop.running = false) (h : s.closing = []) :
      Move s .leave { s with closing := closeOps }
  | close {op : CloseOp} {ops : List CloseOp} (h : s.closing = op :: ops) : Move s .close (s.closeStep ops op)
  | callStop (h : s.loop.pc ≠ .destroyed) : Move s .callStop { s with stops := s.stops ++ [.checkFd] }
  | stop {i : ℕ} {c : StopCall} {s' : Threads} (h : s.stops[i]? = some c) (hs : s.stopStep i c = some s') :
      Move s (.stop i) s'
  | destroy {l : Loop} (h : ∀ c ∈ s.stops, c = .returned) (hl : s.loop.step .destroy = some l) :
      Move s .destroy
        { s with loop := l, calls := s.calls ++ destructorCalls s.loop.member s.loop.running }

theorem move_of_step {s s' : Threads} {a : Access} (h : s.step a = some s') : Move s a s' := by
  cases a with
  | arrive =>
      obtain ⟨hopen, h⟩ := Option.ite_none_right_eq_some.mp h
      obtain ⟨l, hl, rfl⟩ := Option.map_eq_some_iff.mp h
      exact .arrive hopen hl
  | server a =>
      obtain ⟨ha, h⟩ := Option.ite_none_right_eq_some.mp h
      obtain ⟨l, hl, rfl⟩ := Option.map_eq_some_iff.mp h
      exact .server ha hl
  | leave =>
      obtain ⟨⟨hpc, hrun, hclosing⟩, h⟩ := Option.ite_none_right_eq_some.mp h
      obtain rfl := Option.some.inj h
      exact .leave hpc hrun (List.isEmpty_iff.mp hclosing)
  | close =>
      simp only [step] at h
      split at h
      next => cases h
      next op ops hclosing =>
        obtain rfl := Option.some.inj h
        exact .close hclosing
  | callStop =>
      obtain ⟨hpc, h⟩ := Option.ite_none_left_eq_some.mp h
      obtain rfl := Option.some.inj h
      exact .callStop hpc
  | stop i =>
      obtain ⟨c, hc, h⟩ := Option.bind_eq_some_iff.mp h
      exact .stop hc h
  | destroy =>
      obtain ⟨hall, h⟩ := Option.ite_none_right_eq_some.mp h
      obtain ⟨l, hl, rfl⟩ := Option.map_eq_some_iff.mp h
      exact .destroy (by simpa using hall) hl

end Threads

/-- `run` has returned or the server is gone. -/
def Pc.ended : Pc → Bool
  | .exited | .destroyed => true
  | _ => false

namespace Loop

/-- The stop event is reported, and the loop stopped, only after `stop_fd_` was written. -/
structure Seen (s : Loop) : Prop where
  running : s.running = false → s.stopWritten = true
  pending : ∀ fd ∈ s.pc.events, some fd = s.stopFd → s.stopWritten = true

theorem Seen.of_events {s s' : Loop} (h : s.Seen) (hrun : s'.running = s.running)
    (hwritten : s'.stopWritten = s.stopWritten) (hfd : s'.stopFd = s.stopFd)
    (hevents : s'.pc.events ⊆ s.pc.events) : s'.Seen := by
  constructor
  · rw [hrun, hwritten]
    exact h.running
  · rw [hfd, hwritten]
    exact fun fd hmem => h.pending fd (hevents hmem)

theorem Seen.step {s s' : Loop} {a : Action} (h : s.Seen) (hm : Move s a s') : s'.Seen := by
  have hwritten := hm.stopWritten_of
  cases hm with
  | stop hpc => exact ⟨fun hr => hwritten (h.running hr), fun fd hfd heq => hwritten (h.pending fd hfd heq)⟩
  | wait hpc hrun hrep => exact ⟨h.running, fun fd hfd => (hrep.2.2 fd hfd).2.2⟩
  | stopEvent hpc hfd =>
      refine ⟨fun _ => h.pending _ ?_ hfd, fun fd hfd => absurd hfd List.not_mem_nil⟩
      rw [hpc]
      exact List.mem_cons_self ..
  | leave hpc hrun => exact ⟨h.running, fun fd hfd => absurd hfd List.not_mem_nil⟩
  | destroy hpc => exact ⟨fun hr => hwritten (h.running hr), fun fd hfd => absurd hfd List.not_mem_nil⟩
  | _ => exact h.of_events rfl rfl rfl (by simp [*, handle, Pc.events])

/-- A step of the loop of `run` leaves the members and `stop_fd_` alone. -/
theorem Move.ofRun {s s' : Loop} {a : Action} (hm : Move s a s') (ha : a.ofRun = true) :
    s'.member = s.member ∧ s'.stopWritten = s.stopWritten ∧ s.pc.ended = false ∧ s'.pc.ended = false ∧
      (s.pc = .top → s.running = true) := by
  cases hm with
  | arrive hl => cases ha
  | stop hpc => cases ha
  | leave hpc hrun => cases ha
  | destroy hpc => cases ha
  | _ => exact ⟨rfl, rfl, by simp [*, Pc.ended], rfl, by simp [*]⟩

end Loop

/-! ### The end of `run` -/

theorem suffix_closeOps {op : CloseOp} {ops : List CloseOp} (h : op :: ops <:+ closeOps) :
    (op, ops) ∈ [(CloseOp.close .listen, closeOps.drop 1), (.clear .listen, closeOps.drop 2),
      (.close .epoll, closeOps.drop 3), (.clear .epoll, closeOps.drop 4), (.close .stop, closeOps.drop 5),
      (.clear .stop, [])] := by
  simpa [closeOps, List.suffix_cons_iff] using h

/-- The descriptors that are still to be closed, the last one opened first. -/
def heldFds (fd : Member → ℕ) (ops : List CloseOp) : List ℕ :=
  ([.stop, .epoll, .listen].filter fun m => ops.contains (.close m)).map fd

theorem close_cases {m : Member} {ops : List CloseOp} (h : .close m :: ops <:+ closeOps) :
    (m = .listen ∧ ops = closeOps.drop 1) ∨ (m = .epoll ∧ ops = closeOps.drop 3) ∨
      (m = .stop ∧ ops = closeOps.drop 5) := by
  simpa only [List.mem_cons, Prod.mk.injEq, CloseOp.close.injEq, reduceCtorEq, false_and, or_false, false_or,
    List.not_mem_nil] using suffix_closeOps h

theorem clear_cases {m : Member} {ops : List CloseOp} (h : .clear m :: ops <:+ closeOps) :
    (m = .listen ∧ ops = closeOps.drop 2) ∨ (m = .epoll ∧ ops = closeOps.drop 4) ∨ (m = .stop ∧ ops = []) := by
  simpa only [List.mem_cons, Prod.mk.injEq, CloseOp.clear.injEq, reduceCtorEq, false_and, or_false, false_or,
    List.not_mem_nil] using suffix_closeOps h

/-- A member is closed before it is set to `-1`. -/
theorem contains_clear_of_close {m : Member} {ops : List CloseOp} (h : .close m :: ops <:+ closeOps) :
    ops.contains (.clear m) = true := by
  obtain ⟨rfl, rfl⟩ | ⟨rfl, rfl⟩ | ⟨rfl, rfl⟩ := close_cases h <;> rfl

/-- A member is set to `-1` once. -/
theorem contains_clear {m : Member} {ops : List CloseOp} (h : .clear m :: ops <:+ closeOps) :
    ops.contains (.clear m) = false := by
  obtain ⟨rfl, rfl⟩ | ⟨rfl, rfl⟩ | ⟨rfl, rfl⟩ := clear_cases h <;> rfl

/-- Closing a member takes its descriptor off those that are held. -/
theorem heldFds_close {fd : Member → ℕ} (hfd : fd.Injective) {m : Member} {ops : List CloseOp}
    (h : .close m :: ops <:+ closeOps) :
    fd m ∈ heldFds fd (.close m :: ops) ∧ (heldFds fd (.close m :: ops)).erase (fd m) = heldFds fd ops := by
  have hne : ∀ m m', fd m = fd m' ↔ m = m' := fun m m' => hfd.eq_iff
  obtain ⟨rfl, rfl⟩ | ⟨rfl, rfl⟩ | ⟨rfl, rfl⟩ := close_cases h
  · simp [heldFds, closeOps, hne]
  · simp [heldFds, closeOps, hne]
  · simp [heldFds, closeOps]

theorem heldFds_clear (fd : Member → ℕ) (m : Member) (ops : List CloseOp) :
    heldFds fd (.clear m :: ops) = heldFds fd ops := by
  simp [heldFds]

theorem Loop.member_clear (s : Loop) (m m' : Member) :
    (s.clear m).member m' = if m' = m then none else s.member m' := by
  cases m <;> cases m' <;> rfl

namespace Threads

/-- What is left of the end of `run`. -/
def left (s : Threads) : List CloseOp :=
  if s.loop.pc.ended then [] else if s.closing.isEmpty then closeOps else s.closing

/-- The members and the open descriptors, by what is left of the end of `run`; `fd` are the descriptors that
`start` has opened. -/
structure Shape (fd : Member → ℕ) (s : Threads) : Prop where
  suffix : s.closing <:+ closeOps
  closing : s.closing ≠ [] → s.loop.pc = .top ∧ s.loop.running = false
  member : ∀ m, s.loop.member m = if s.left.contains (.clear m) then some (fd m) else none
  live : Lifetime.live s.calls = heldFds fd s.left
  interest : s.left.contains (.close .epoll) = false → s.loop.interest = []
  seen : s.loop.Seen

theorem left_of_closing {s : Threads} {op : CloseOp} {ops : List CloseOp} (h : s.closing = op :: ops)
    (hpc : s.loop.pc = .top) : s.left = op :: ops := by
  simp [left, h, hpc, Pc.ended]

theorem left_of_serving {s : Threads} (h : s.closing = []) (hpc : s.loop.pc.ended = false) :
    s.left = closeOps := by
  simp [left, h, hpc]

theorem left_of_ended {s : Threads} (hpc : s.loop.pc.ended = true) : s.left = [] := by
  simp [left, hpc]

variable {fd : Member → ℕ} {s s' : Threads}

theorem Shape.suffix_cons (h : Shape fd s) {op : CloseOp} {ops : List CloseOp} (hops : s.closing = op :: ops) :
    op :: ops <:+ closeOps := by
  rw [← hops]
  exact h.suffix

/-- A member that is closed next holds its descriptor. -/
theorem Shape.member_of_close (h : Shape fd s) {m : Member} {ops : List CloseOp}
    (hops : s.closing = .close m :: ops) : s.loop.member m = some (fd m) := by
  have hpc := (h.closing (by simp [hops])).1
  rw [h.member, left_of_closing hops hpc, List.contains_cons, contains_clear_of_close (h.suffix_cons hops),
    Bool.or_true]
  rfl

/-- The loop takes no step at the end of `run`. -/
theorem Shape.closing_of_ofRun (h : Shape fd s) {a : Action} {l : Loop} (ha : a.ofRun = true)
    (hm : Loop.Move s.loop a l) : s.closing = [] := by
  obtain ⟨-, -, -, -, htop⟩ := hm.ofRun ha
  by_contra hne
  obtain ⟨hpc, hrun⟩ := h.closing hne
  rw [htop hpc] at hrun
  cases hrun

theorem Shape.closing_of_destroy (h : Shape fd s)
    (hpc : s.loop.pc = .exited ∨ ∃ what, s.loop.pc = .threw what) : s.closing = [] := by
  by_contra hne
  simp [(h.closing hne).1] at hpc

theorem Shape.server (h : Shape fd s) {a : Action} {l : Loop} (ha : a.ofRun = true)
    (hm : Loop.Move s.loop a l) :
    Shape fd { s with loop := l, calls := s.calls ++ (s.loop.ownUses a).map .use } := by
  obtain ⟨hmem, -, hpc, hpc', htop⟩ := hm.ofRun ha
  have hclosing := h.closing_of_ofRun ha hm
  have hleft := left_of_serving hclosing hpc
  have hleft' : left { s with loop := l, calls := s.calls ++ (s.loop.ownUses a).map .use } = closeOps :=
    left_of_serving hclosing hpc'
  refine ⟨h.suffix, fun hne => absurd hclosing hne, ?_, ?_, ?_, h.seen.step hm⟩
  · rw [hleft', ← hleft]
    exact fun m => (congrFun hmem m).trans (h.member m)
  · rw [hleft', ← hleft, ← h.live]
    exact Lifetime.live_append_uses _ _
  · rw [hleft']
    exact nofun

theorem Shape.closeMember (hfd : fd.Injective) (h : Shape fd s) {m : Member} {ops : List CloseOp}
    (hops : s.closing = .close m :: ops) : Shape fd (s.closeStep ops (.close m)) := by
  obtain ⟨hpc, hrun⟩ := h.closing (by simp [hops])
  have hleft := left_of_closing hops hpc
  have hsuffix := h.suffix_cons hops
  have hleft' : (s.closeStep ops (.close m)).left = ops := by
    cases ops with
    | nil => cases contains_clear_of_close hsuffix
    | cons op' ops => exact left_of_closing rfl hpc
  refine ⟨(List.suffix_cons _ ops).trans hsuffix, fun _ => ⟨hpc, hrun⟩, fun m' => ?_, ?_, fun hno => ?_, ?_⟩
  · refine (h.member m').trans ?_
    rw [hleft, hleft']
    simp
  · rw [hleft', ← (heldFds_close hfd hsuffix).2, ← hleft, ← h.live]
    simp [closeStep, h.member_of_close hops, Lifetime.live_append, Lifetime.after]
  · rw [hleft'] at hno
    by_cases hepoll : m = .epoll
    · simp [closeStep, Loop.unwatch, hepoll]
    · have hnone : s.loop.interest = [] := by
        apply h.interest
        rw [hleft]
        simpa [Ne.symm hepoll] using hno
      simp [closeStep, Loop.unwatch, hnone]
  · exact h.seen.of_events rfl rfl rfl (List.Subset.refl _)

theorem Shape.clearMember (h : Shape fd s) {m : Member} {ops : List CloseOp}
    (hops : s.closing = .clear m :: ops) : Shape fd (s.closeStep ops (.clear m)) := by
  obtain ⟨hpc, hrun⟩ := h.closing (by simp [hops])
  have hleft := left_of_closing hops hpc
  have hsuffix := h.suffix_cons hops
  have hleft' : (s.closeStep ops (.clear m)).left = ops := by
    cases ops with
    | nil => exact left_of_ended rfl
    | cons op' ops => exact left_of_closing rfl (by cases m <;> exact hpc)
  have hkeep : (s.closeStep ops (.clear m)).loop.member = (s.loop.clear m).member ∧
      (s.closeStep ops (.clear m)).loop.interest = s.loop.interest := by
    cases ops <;> cases m <;> exact ⟨rfl, rfl⟩
  refine ⟨(List.suffix_cons _ ops).trans hsuffix, fun hne => ?_, fun m' => ?_, ?_, fun hno => ?_, ?_⟩
  · cases ops with
    | nil => exact absurd rfl hne
    | cons op' ops => cases m <;> exact ⟨hpc, hrun⟩
  · rw [hkeep.1, hleft', Loop.member_clear]
    split_ifs with heq hop hop
    · subst heq
      rw [contains_clear hsuffix] at hop
      cases hop
    · rfl
    · rw [h.member, hleft, if_pos]
      simpa [heq] using hop
    · rw [h.member, hleft, if_neg]
      simpa [heq] using hop
  · rw [hleft', ← heldFds_clear fd m ops, ← hleft]
    exact h.live
  · rw [hleft'] at hno
    rw [hkeep.2]
    apply h.interest
    rw [hleft]
    simpa using hno
  · constructor
    · cases ops <;> cases m <;> exact h.seen.running
    · cases ops <;> cases m <;> simp [closeStep, Loop.clear, hpc, Pc.events]

theorem Shape.setStops (h : Shape fd s) (stops : List StopCall) : Shape fd { s with stops := stops } :=
  ⟨h.suffix, h.closing, h.member, h.live, h.interest, h.seen⟩

theorem Shape.stop (h : Shape fd s) {i : ℕ} {c : StopCall} (hs : s.stopStep i c = some s') : Shape fd s' := by
  cases c with
  | returned => cases hs
  | write fd' =>
      obtain rfl := Option.some.inj hs
      refine ⟨h.suffix, h.closing, h.member, ?_, h.interest, ?_⟩
      · exact (Lifetime.live_append_uses _ _).trans h.live
      · constructor
        · intro hrun
          simp [h.seen.running hrun]
        · intro fd hfd heq
          simp [h.seen.pending fd hfd heq]
  | _ =>
      obtain rfl := Option.some.inj hs
      exact h.setStops _

/-- The destructor finds the members as they are. -/
theorem Shape.live_eq_member (h : Shape fd s) (hclosing : s.closing = []) :
    Lifetime.live s.calls = [.stop, .epoll, .listen].filterMap s.loop.member := by
  rw [h.live]
  cases hpc : s.loop.pc.ended with
  | true =>
      have hleft := left_of_ended hpc
      have hnone : s.loop.member = fun _ => none := by
        funext m
        rw [h.member, hleft]
        rfl
      rw [hleft, hnone]
      rfl
  | false =>
      have hleft := left_of_serving hclosing hpc
      have hsome : s.loop.member = fun m => some (fd m) := by
        funext m
        rw [h.member, hleft]
        cases m <;> rfl
      rw [hleft, hsome]
      rfl

end Threads

/-- The destructor closes what the members hold. -/
theorem destructorCalls_releases {h : List (Lifetime.Event ℕ)} {fds : Member → Option ℕ} (running : Bool)
    (hlive : Lifetime.live h = [.stop, .epoll, .listen].filterMap fds) :
    Lifetime.live (h ++ destructorCalls fds running) = [] ∧
      (Lifetime.Legal [] h → Lifetime.Legal [] (h ++ destructorCalls fds running)) := by
  have hperm : ([.listen, .epoll, .stop].filterMap fds).Perm (Lifetime.live h) := by
    rw [hlive]
    exact (List.reverse_perm [.stop, .epoll, .listen]).filterMap fds
  have hstop : ∀ k ∈ (if running then (fds .stop).toList else []), k ∈ Lifetime.live h := by
    intro k hk
    rw [hlive]
    cases running with
    | false => cases hk
    | true => exact List.mem_filterMap.mpr ⟨.stop, List.mem_cons_self .., by simpa using hk⟩
  unfold destructorCalls
  rw [← List.append_assoc]
  generalize (if running then (fds .stop).toList else []) = uses at hstop
  rw [← Lifetime.live_append_uses h uses] at hperm
  rw [Lifetime.live_append, Lifetime.legal_append]
  obtain ⟨hrel, hnone⟩ := Lifetime.legal_releases hperm
  exact ⟨hnone, fun hlegal => ⟨hlegal.append_uses hstop, hrel⟩⟩

namespace Threads

variable {fd : Member → ℕ} {s s' : Threads}

/-- **One step keeps the members in order**, however many calls of `stop` there are. -/
theorem Shape.step (hfd : fd.Injective) (h : Shape fd s) {a : Access} (hm : Move s a s') : Shape fd s' := by
  cases hm with
  | arrive hopen hl =>
      cases Loop.move_of_step hl with
      | arrive hl => exact ⟨h.suffix, h.closing, h.member, h.live, h.interest, ⟨h.seen.running, h.seen.pending⟩⟩
  | server ha hl => exact h.server ha (Loop.move_of_step hl)
  | leave hpc hrun hclosing =>
      have hleft : left { s with closing := closeOps } = s.left := by
        rw [left_of_serving hclosing (by rw [hpc]; rfl)]
        exact left_of_closing rfl hpc
      refine ⟨List.suffix_rfl, fun _ => ⟨hpc, hrun⟩, ?_, ?_, ?_, h.seen⟩
      · rw [hleft]
        exact h.member
      · rw [hleft]
        exact h.live
      · rw [hleft]
        exact h.interest
  | @close op ops hops =>
      cases op with
      | close m => exact h.closeMember hfd hops
      | clear m => exact h.clearMember hops
  | callStop hpc => exact h.setStops _
  | stop hc hs => exact h.stop hs
  | destroy hall hl =>
      have hm := Loop.move_of_step hl
      have hseen := h.seen.step hm
      cases hm with
      | destroy hpc =>
          have hclosing := h.closing_of_destroy hpc
          refine ⟨h.suffix, fun hne => absurd hclosing hne, ?_, ?_, fun _ => rfl, hseen⟩
          · intro m
            cases m <;> rfl
          · exact (destructorCalls_releases _ (h.live_eq_member hclosing)).1

theorem shape_init {server : AsyncHttpServer} {r : Startup} {s₀ : Loop} (hstart : server.start r = .ok s₀) :
    ∃ fd : Member → ℕ, fd.Injective ∧ Shape fd (init s₀ r) := by
  obtain ⟨hfds, fd, hfd⟩ := startOwn_fds hstart
  obtain ⟨hlegal, hlive⟩ := startOwn_ok r
  have hstarted := started_of_start hstart
  have hleft : (init s₀ r).left = closeOps := left_of_serving rfl (by rw [init, hstarted.pc]; rfl)
  rw [hfds, hfd] at hlive
  have hheld : Lifetime.live (startOwn r).2.calls = [fd .stop, fd .epoll, fd .listen] := hlive
  have hnodup : [fd .stop, fd .epoll, fd .listen].Nodup := by
    rw [← hheld]
    exact hlegal.nodup_foldl List.nodup_nil
  refine ⟨fd, fun m m' heq => ?_, List.nil_suffix, fun hne => absurd rfl hne, ?_, ?_, ?_, ?_, ?_⟩
  · simp at hnodup
    cases m <;> cases m' <;> simp_all
  · intro m
    rw [hleft]
    refine (congrFun hfd m).trans ?_
    cases m <;> rfl
  · rw [hleft]
    exact hheld
  · rw [hleft]
    intro hno
    cases hno
  · intro hrun
    rw [init, hstarted.running] at hrun
    cases hrun
  · rw [init, hstarted.pc]
    intro fd hfd
    cases hfd

/-! ### One call of `stop` -/

/-- `stop` is called once before `run` returns. -/
def CallsOnce (s : Threads) : Access → Prop
  | .callStop => s.stops = [] ∨ s.loop.pc = .exited
  | _ => True

instance (s : Threads) : ∀ a, Decidable (s.CallsOnce a)
  | .callStop => inferInstanceAs (Decidable (s.stops = [] ∨ s.loop.pc = .exited))
  | .arrive | .server _ | .leave | .close | .stop _ | .destroy => isTrue trivial

/-- While `run` goes on there is one call of `stop`, which has returned when `stop_fd_` is written. -/
structure Serving (fd : Member → ℕ) (s : Threads) : Prop where
  one : s.stops.length ≤ 1
  none : s.stops = [] → s.loop.stopWritten = false
  before : s.loop.stopWritten = false → ∀ c ∈ s.stops, c ≠ .returned ∧ ∀ fd', c = .write fd' → fd' = some (fd .stop)
  after : s.loop.stopWritten = true → ∀ c ∈ s.stops, c = .returned

/-- What holds when `stop` is called at most once before `run` returns. -/
structure Quiet (fd : Member → ℕ) (s : Threads) : Prop where
  legal : Lifetime.Legal [] s.calls
  serving : s.loop.pc.ended = false → Serving fd s
  ended : s.loop.pc.ended = true → ∀ c ∈ s.stops, c = .checkFd ∨ c = .returned

theorem Serving.congr (h : Serving fd s) (hstops : s'.stops = s.stops)
    (hwritten : s'.loop.stopWritten = s.loop.stopWritten) : Serving fd s' := by
  constructor
  · rw [hstops]
    exact h.one
  · rw [hstops, hwritten]
    exact h.none
  · rw [hstops, hwritten]
    exact h.before
  · rw [hstops, hwritten]
    exact h.after

/-- The steps of the loop are made on open descriptors. -/
theorem Shape.mem_live_of_ownUses (h : Shape fd s) (hclosing : s.closing = []) (a : Action) :
    ∀ k ∈ s.loop.ownUses a, k ∈ Lifetime.live s.calls := by
  intro k hk
  rw [h.live_eq_member hclosing]
  obtain ⟨m, hm⟩ : ∃ m, s.loop.member m = some k := by
    cases a with
    | wait events => exact ⟨.epoll, Option.mem_toList.mp hk⟩
    | client fd reads => exact ⟨.epoll, Option.mem_toList.mp hk⟩
    | add error => exact ⟨.epoll, Option.mem_toList.mp hk⟩
    | accept result => exact ⟨.listen, Option.mem_toList.mp hk⟩
    | _ => cases hk
  exact List.mem_filterMap.mpr ⟨m, by cases m <;> simp, hm⟩

theorem Quiet.server (hs : Shape fd s) (h : Quiet fd s) {a : Action} {l : Loop} (ha : a.ofRun = true)
    (hm : Loop.Move s.loop a l) :
    Quiet fd { s with loop := l, calls := s.calls ++ (s.loop.ownUses a).map .use } := by
  obtain ⟨-, hwritten, hpc, hpc', htop⟩ := hm.ofRun ha
  have hclosing := hs.closing_of_ofRun ha hm
  refine ⟨h.legal.append_uses (hs.mem_live_of_ownUses hclosing a), fun _ => ?_, fun hover => ?_⟩
  · exact (h.serving hpc).congr rfl hwritten
  · rw [hpc'] at hover
    cases hover

theorem Quiet.close (hfd : fd.Injective) (hs : Shape fd s) (h : Quiet fd s) {op : CloseOp} {ops : List CloseOp}
    (hops : s.closing = op :: ops) : Quiet fd (s.closeStep ops op) := by
  obtain ⟨hpc, hrun⟩ := hs.closing (by simp [hops])
  have hserving := h.serving (by rw [hpc]; rfl)
  have hreturned := hserving.after (hs.seen.running hrun)
  refine ⟨?_, fun _ => hserving.congr ?_ ?_, fun _ c hc => Or.inr (hreturned c ?_)⟩
  · cases op with
    | clear m => exact h.legal
    | close m =>
        have hheld := (heldFds_close hfd (hs.suffix_cons hops)).1
        rw [← left_of_closing hops hpc, ← hs.live] at hheld
        simp only [closeStep, hs.member_of_close hops]
        exact Lifetime.legal_append.mpr ⟨h.legal, hheld, trivial⟩
  · cases op <;> rfl
  · cases op with
    | close m => rfl
    | clear m => cases ops <;> cases m <;> rfl
  · cases op <;> exact hc

theorem Quiet.callStop (h : Quiet fd s) (honce : s.CallsOnce .callStop) :
    Quiet fd { s with stops := s.stops ++ [.checkFd] } := by
  refine ⟨h.legal, fun hover => ?_, fun hover c hc => ?_⟩
  · obtain hnil | hexited := honce
    · have hwritten := (h.serving hover).none hnil
      rw [hnil, List.nil_append]
      refine ⟨Nat.le_refl 1, fun hne => absurd hne (List.cons_ne_nil _ _), fun _ c hc => ?_, fun hw => ?_⟩
      · rw [List.mem_singleton.mp hc]
        exact ⟨by simp, by simp⟩
      · rw [hwritten] at hw
        cases hw
    · rw [show s.loop.pc.ended = true by rw [hexited]; rfl] at hover
      cases hover
  · obtain hc | hc := List.mem_append.mp hc
    · exact h.ended hover c hc
    · exact Or.inl (List.mem_singleton.mp hc)

theorem Serving.of_pending {c : StopCall} (hstops : s.stops = [c]) (hwritten : s.loop.stopWritten = false)
    (hc : c ≠ .returned) (hwrite : ∀ fd', c = .write fd' → fd' = some (fd .stop)) : Serving fd s := by
  constructor
  · simp [hstops]
  · simp [hstops]
  · intro _ c' hc'
    rw [hstops] at hc'
    obtain rfl := List.mem_singleton.mp hc'
    exact ⟨hc, hwrite⟩
  · simp [hwritten]

/-- As long as the call of `stop` has not returned, `run` goes on and `stop_fd_` is open. -/
theorem Serving.pending_call (hs : Shape fd s) (h : Serving fd s) (hover : s.loop.pc.ended = false) {i : ℕ}
    {c : StopCall} (hc : s.stops[i]? = some c) (hne : c ≠ .returned) :
    i = 0 ∧ s.stops = [c] ∧ s.loop.stopWritten = false ∧ s.loop.running = true ∧
      s.loop.stopFd = some (fd .stop) ∧ fd .stop ∈ Lifetime.live s.calls := by
  obtain ⟨hi, hci⟩ := List.getElem?_eq_some_iff.mp hc
  have hone := h.one
  have hwritten : s.loop.stopWritten = false := by
    rw [← Bool.not_eq_true]
    exact fun hw => hne (h.after hw c (List.mem_of_getElem? hc))
  have hrun : s.loop.running = true := by
    rw [← Bool.not_eq_false]
    intro hrun
    rw [hs.seen.running hrun] at hwritten
    cases hwritten
  have hclosing : s.closing = [] := by
    by_contra hne
    rw [(hs.closing hne).2] at hrun
    cases hrun
  have hleft := left_of_serving hclosing hover
  have hstop : s.loop.member .stop = some (fd .stop) := by
    rw [hs.member, hleft]
    rfl
  obtain rfl : i = 0 := by omega
  refine ⟨rfl, ?_, hwritten, hrun, hstop, ?_⟩
  · obtain ⟨c', hc'⟩ := List.length_eq_one_iff.mp (show s.stops.length = 1 by omega)
    simp only [hc'] at hci ⊢
    rw [← hci]
    rfl
  · rw [hs.live, hleft]
    exact List.mem_cons_self ..

theorem Quiet.stop (hs : Shape fd s) (h : Quiet fd s) {i : ℕ} {c : StopCall} (hc : s.stops[i]? = some c)
    (hstep : s.stopStep i c = some s') : Quiet fd s' := by
  cases hover : s.loop.pc.ended with
  | true =>
      -- the call began after `run` had returned, and finds `-1`
      have hfd : s.loop.stopFd = none := by
        refine (hs.member .stop).trans ?_
        rw [left_of_ended hover]
        rfl
      obtain rfl | rfl := h.ended hover c (List.mem_of_getElem? hc)
      · obtain rfl := Option.some.inj hstep
        rw [hfd]
        refine ⟨h.legal, fun hno => ?_, fun _ c hc => ?_⟩
        · rw [hover] at hno
          cases hno
        · obtain hc | rfl := List.mem_or_eq_of_mem_set hc
          · exact h.ended hover c hc
          · exact Or.inr rfl
      · cases hstep
  | false =>
      have hne : c ≠ .returned := by
        rintro rfl
        cases hstep
      have hserving := h.serving hover
      obtain ⟨rfl, hstops, hwritten, hrun, hfd, hlive⟩ := hserving.pending_call hs hover hc hne
      have hover' : ∀ {s' : Threads}, s'.loop.pc = s.loop.pc → s'.loop.pc.ended = true →
          ∀ c ∈ s'.stops, c = .checkFd ∨ c = .returned := by
        intro s' hpc hno
        rw [hpc, hover] at hno
        cases hno
      cases c with
      | returned => cases hstep
      | checkFd =>
          obtain rfl := Option.some.inj hstep
          refine ⟨h.legal, fun _ => ?_, hover' rfl⟩
          refine Serving.of_pending (c := .checkRunning) ?_ hwritten (by simp) (by simp)
          simp [hstops, hfd]
      | checkRunning =>
          obtain rfl := Option.some.inj hstep
          refine ⟨h.legal, fun _ => ?_, hover' rfl⟩
          refine Serving.of_pending (c := .readFd) ?_ hwritten (by simp) (by simp)
          simp [hstops, hrun]
      | readFd =>
          obtain rfl := Option.some.inj hstep
          refine ⟨h.legal, fun _ => ?_, hover' rfl⟩
          refine Serving.of_pending (c := .write s.loop.stopFd) ?_ hwritten (by simp) ?_
          · simp [hstops]
          · rintro fd' heq
            rw [← StopCall.write.inj heq, hfd]
      | write fd' =>
          obtain rfl := Option.some.inj hstep
          obtain rfl := (hserving.before hwritten _ (List.mem_of_getElem? hc)).2 fd' rfl
          refine ⟨h.legal.append_uses (by simpa using hlive), fun _ => ?_, hover' rfl⟩
          have hopen : s.isOpen (some (fd .stop)) = true := by simpa [isOpen] using hlive
          constructor
          · simp [hstops]
          · simp [hstops]
          · simp [hopen]
          · simp [hstops]

/-- **One step keeps the calls on open descriptors**, if `stop` is called once before `run` returns. -/
theorem Quiet.step (hfd : fd.Injective) (hs : Shape fd s) (h : Quiet fd s) {a : Access} (honce : s.CallsOnce a)
    (hm : Move s a s') : Quiet fd s' := by
  cases hm with
  | arrive hopen hl =>
      cases Loop.move_of_step hl with
      | arrive hl => exact ⟨h.legal, fun hover => (h.serving hover).congr rfl rfl, h.ended⟩
  | server ha hl => exact h.server hs ha (Loop.move_of_step hl)
  | leave hpc hrun hclosing => exact ⟨h.legal, fun hover => (h.serving hover).congr rfl rfl, h.ended⟩
  | close hops => exact h.close hfd hs hops
  | callStop hpc => exact h.callStop honce
  | stop hc hstep => exact h.stop hs hc hstep
  | destroy hall hl =>
      cases Loop.move_of_step hl with
      | destroy hpc =>
          have hclosing := hs.closing_of_destroy hpc
          refine ⟨(destructorCalls_releases _ (hs.live_eq_member hclosing)).2 h.legal, fun hno => ?_,
            fun _ c hc => Or.inr (hall c hc)⟩
          cases hno

theorem quiet_init {server : AsyncHttpServer} {r : Startup} {s₀ : Loop} (hstart : server.start r = .ok s₀)
    (fd : Member → ℕ) : Quiet fd (init s₀ r) := by
  have hstarted := started_of_start hstart
  have hwritten : (init s₀ r).loop.stopWritten = false := hstarted.stopWritten
  refine ⟨(startOwn_ok r).legal, fun _ => ⟨Nat.zero_le 1, fun _ => hwritten, ?_, ?_⟩, ?_⟩
  · exact fun _ c hc => absurd hc List.not_mem_nil
  · exact fun _ c hc => absurd hc List.not_mem_nil
  · exact fun _ c hc => absurd hc List.not_mem_nil

/-- **The server closes each descriptor of its own once and uses none after that.**  If `start` fails at one
of its calls, or `run` is never called, the destructor closes what has been opened.  If `run` is called, so
it is in every interleaving with other threads that call `stop` once before `run` returns, and as often as
they like afterwards. -/
theorem own_descriptors_closed_once (server : AsyncHttpServer) (r : Startup) :
    ((startOwn r).1 = (server.start r).map (fun _ => ()) ∧
      Lifetime.ReleasedOnce
        ((startOwn r).2.calls ++ destructorCalls (startOwn r).2.fds (startOwn r).1.isOk)) ∧
    ∀ s₀, server.start r = .ok s₀ → ∀ as s, Runs.run step (init s₀ r) as = some s →
      Runs.Meets step CallsOnce (init s₀ r) as →
      Lifetime.Legal [] s.calls ∧ (s.loop.pc = .destroyed → Lifetime.ReleasedOnce s.calls) := by
  refine ⟨⟨startOwn_outcome server r, ?_⟩, fun s₀ hstart as s hrun hmeets => ?_⟩
  · obtain ⟨hlegal, hlive⟩ := startOwn_ok r
    obtain ⟨hnone, hdestroy⟩ := destructorCalls_releases (startOwn r).1.isOk hlive
    exact (Lifetime.releasedOnce_iff (hdestroy hlegal)).mpr hnone
  · obtain ⟨fd, hfd, hshape⟩ := shape_init hstart
    obtain ⟨hs, hquiet⟩ := Runs.run_invariant_of_meets (P := fun s => Shape fd s ∧ Quiet fd s)
      (fun s a s' h honce hstep =>
        have hm := move_of_step hstep
        ⟨h.1.step hfd hm, h.2.step hfd h.1 honce hm⟩)
      as _ s ⟨hshape, quiet_init hstart fd⟩ hmeets hrun
    refine ⟨hquiet.legal, fun hpc => (Lifetime.releasedOnce_iff hquiet.legal).mpr ?_⟩
    rw [hs.live, left_of_ended (by rw [hpc]; rfl)]
    rfl

theorem nodup_booted : [some 3, some 4, some 5].reduceOption.Nodup := by decide

/-- What the system calls of `start` return for `booted`. -/
def bootedCalls : Startup := ⟨some 3, none, true, some 4, none, some 5, none, 0, nodup_booted⟩

/-- A call of `stop`, after which `run` returns; the first four accesses are those of the call. -/
def oneStop : List Access :=
  .callStop :: List.replicate 4 (.stop 0) ++ [.server (.wait [5]), .server .next, .leave] ++
    List.replicate 6 .close ++ [.callStop, .stop 1, .destroy]

theorem own_descriptors_closed_once_stopped :
    ∃ s, Runs.run step (init Loop.booted bootedCalls) oneStop = some s ∧ s.loop.pc = .destroyed ∧
      Lifetime.ReleasedOnce s.calls := by
  obtain ⟨s, hrun, hpc⟩ : ∃ s, Runs.run step (init Loop.booted bootedCalls) oneStop = some s ∧
      s.loop.pc = .destroyed :=
    Runs.exists_run_of_any (by decide +kernel)
  have hmeets : Runs.Meets step CallsOnce (init Loop.booted bootedCalls) oneStop := by decide +kernel
  obtain ⟨-, hall⟩ := own_descriptors_closed_once ⟨none, ∅⟩ bootedCalls
  exact ⟨s, hrun, hpc, (hall Loop.booted Loop.start_booted oneStop s hrun hmeets).2 hpc⟩

/-- The first call of `stop` makes `run` return while a second one is between `running_.load()` and `write`. -/
def twoStops : List Access :=
  .callStop :: List.replicate 4 (.stop 0) ++ [.server (.wait [5]), .callStop, .stop 1, .stop 1, .server .next,
    .leave] ++ List.replicate 5 .close ++ [.stop 1]

/-- **A second call of `stop` may write to a descriptor that `run` has closed**, whoever has got its number
meanwhile. -/
theorem second_stop_writes_closed :
    ∃ s s', Runs.run step (init Loop.booted bootedCalls) twoStops = some s ∧ s.step (.stop 1) = some s' ∧
      s'.calls = s.calls ++ [.use 5] ∧ ¬ Lifetime.Legal [] s'.calls := by
  obtain ⟨s, hrun, hcall, hclosed⟩ : ∃ s, Runs.run step (init Loop.booted bootedCalls) twoStops = some s ∧
      s.stops[1]? = some (.write (some 5)) ∧ (Lifetime.live s.calls).contains 5 = false :=
    Runs.exists_run_of_any (by decide +kernel)
  obtain ⟨s', hstep, hcalls⟩ : ∃ s', s.step (.stop 1) = some s' ∧ s'.calls = s.calls ++ [.use 5] := by
    simp [step, hcall, stopStep]
  refine ⟨s, s', hrun, hstep, hcalls, fun hlegal => ?_⟩
  rw [hcalls] at hlegal
  have hlive : 5 ∈ Lifetime.live s.calls := hlegal.allowed
  simp [hlive] at hclosed

/-! ### `stop` and the end of `run` as one step each -/

/-- The server as `EventLoop` sees it: the end of `run` is over as soon as the listener is closed. -/
def abs (s : Threads) : Loop :=
  if s.closing.isEmpty || s.closing == closeOps then s.loop else { s.loop.closeFds with pc := .exited }

end Threads

/-- What is seen of an access when `stop` and the end of `run` are one step each. -/
def Access.visible : Access → List Action
  | .arrive => [.arrive]
  | .server a => [a]
  | .destroy => [.destroy]
  | .leave | .close | .callStop | .stop _ => []

/-- The steps of `EventLoop` other than `stop` and the end of `run`. -/
def Action.visible : Action → List Action
  | .stop | .leave => []
  | a => [a]

theorem Action.visible_of_ofRun {a : Action} (h : a.ofRun = true) : a.visible = [a] := by
  cases a with
  | stop => cases h
  | leave => cases h
  | _ => rfl

namespace Threads

variable {fd : Member → ℕ} {s s' : Threads}

theorem abs_of_nil (h : s.closing = []) : s.abs = s.loop := by
  simp [abs, h]

theorem abs_of_closeOps (h : s.closing = closeOps) : s.abs = s.loop := by
  simp [abs, h]

theorem abs_of_closing (hne : s.closing ≠ []) (h : s.closing ≠ closeOps) :
    s.abs = { s.loop.closeFds with pc := .exited } := by
  simp [abs, hne, h]

/-- The listener is open until `run` closes it. -/
theorem Shape.closing_of_listening (hfd : fd.Injective) (h : Shape fd s)
    (hopen : s.isOpen s.loop.listenFd = true) : s.closing = [] ∨ s.closing = closeOps := by
  cases hclosing : s.closing with
  | nil => exact Or.inl rfl
  | cons op ops =>
      have hsuffix := h.suffix_cons hclosing
      have hleft := left_of_closing hclosing (h.closing (by simp [hclosing])).1
      have hmember : s.loop.listenFd = _ := h.member .listen
      rw [isOpen, hmember, h.live, hleft] at hopen
      have := suffix_closeOps hsuffix
      simp only [List.mem_cons, Prod.mk.injEq, List.not_mem_nil, or_false] at this
      obtain ⟨rfl, rfl⟩ | ⟨rfl, rfl⟩ | ⟨rfl, rfl⟩ | ⟨rfl, rfl⟩ | ⟨rfl, rfl⟩ | ⟨rfl, rfl⟩ := this
      · exact Or.inr rfl
      · simp [closeOps, heldFds, hfd.eq_iff] at hopen
      all_goals simp [closeOps] at hopen

/-- A step of the end of `run` is the whole end of `run`, if it closes the listener, or is not seen. -/
theorem simulates_close (h : Shape fd s) {op : CloseOp} {ops : List CloseOp} (hops : s.closing = op :: ops) :
    ∃ bs, Runs.run Loop.step s.abs bs = some (s.closeStep ops op).abs ∧ bs.flatMap Action.visible = [] := by
  obtain ⟨hpc, hrun⟩ := h.closing (by simp [hops])
  have hleft := left_of_closing hops hpc
  have hsuffix := h.suffix_cons hops
  have hshort : ops ≠ closeOps := by
    rintro rfl
    have hlen := hsuffix.length_le
    rw [List.length_cons] at hlen
    omega
  -- closing and clearing a member are not seen once the end of `run` is over
  have hclosed : ops ≠ [] → (s.closeStep ops op).abs = { s.loop.closeFds with pc := .exited } := by
    intro hne
    have hclosing : (s.closeStep ops op).closing = ops := by cases op <;> rfl
    rw [abs_of_closing (by rwa [hclosing]) (by rwa [hclosing])]
    cases op with
    | close m => rfl
    | clear m => cases m <;> simp [closeStep, hne, Loop.clear, Loop.closeFds]
  by_cases hfirst : s.closing = closeOps
  · -- the listener is closed
    refine ⟨[.leave], ?_, rfl⟩
    rw [abs_of_closeOps hfirst, hclosed]
    · simp [Runs.run, Loop.step, hpc, hrun]
    · rw [hops] at hfirst
      rw [(List.cons.inj hfirst).2]
      simp
  · refine ⟨[], ?_, rfl⟩
    rw [abs_of_closing (by simp [hops]) hfirst]
    by_cases hlast : ops = []
    · subst hlast
      obtain rfl : op = .clear .stop := by simpa [closeOps] using suffix_closeOps hsuffix
      have hlisten : s.loop.listenFd = none := by
        refine (h.member .listen).trans ?_
        rw [hleft]
        rfl
      have hepoll : s.loop.epollFd = none := by
        refine (h.member .epoll).trans ?_
        rw [hleft]
        rfl
      have hinterest : s.loop.interest = [] := h.interest (by rw [hleft]; rfl)
      simp [Runs.run, abs, closeStep, Loop.clear, Loop.closeFds, hlisten, hepoll, hinterest]
    · rw [hclosed hlast]
      rfl

/-- A write to the open `stop_fd_` is the call of `stop`; the other accesses of the call are not seen. -/
theorem simulates_stop (h : Shape fd s) {i : ℕ} {c : StopCall} (hs : s.stopStep i c = some s') :
    ∃ bs, Runs.run Loop.step s.abs bs = some s'.abs ∧ bs.flatMap Action.visible = [] := by
  cases c with
  | returned => cases hs
  | write fd' =>
      obtain rfl := Option.some.inj hs
      cases hopen : s.isOpen fd' with
      | false => exact ⟨[], by simp [Runs.run, abs, Loop.closeFds], rfl⟩
      | true =>
          have hended : s.loop.pc.ended = false := by
            rw [← Bool.not_eq_true]
            intro hended
            rw [isOpen, h.live, left_of_ended hended] at hopen
            cases fd' <;> simp [heldFds] at hopen
          have hpc : s.loop.pc ≠ .destroyed := by
            intro hpc
            rw [hpc] at hended
            cases hended
          refine ⟨[.stop], ?_, rfl⟩
          by_cases hnil : s.closing = []
          · -- if the loop has stopped, an earlier call has written
            have hstop : s.loop.stopFd = some (fd .stop) := by
              refine (h.member .stop).trans ?_
              rw [left_of_serving hnil hended]
              rfl
            rw [abs_of_nil hnil, abs_of_nil (by exact hnil)]
            cases hrun : s.loop.running with
            | true => simp [Runs.run, Loop.step, hpc, Loop.stop, hstop, hrun]
            | false => simp [Runs.run, Loop.step, hpc, Loop.stop, hrun, h.seen.running hrun]
          · have hrun := (h.closing hnil).2
            have hwritten := h.seen.running hrun
            by_cases hall : s.closing = closeOps
            · rw [abs_of_closeOps hall, abs_of_closeOps (by exact hall)]
              simp [Runs.run, Loop.step, hpc, Loop.stop, hrun, hwritten]
            · rw [abs_of_closing hnil hall, abs_of_closing (by exact hnil) (by exact hall)]
              simp [Runs.run, Loop.step, Loop.stop, Loop.closeFds, hwritten]
  | _ =>
      obtain rfl := Option.some.inj hs
      exact ⟨[], rfl, rfl⟩

/-- **Every access is a step of `EventLoop`, or none.** -/
theorem simulates (hfd : fd.Injective) (h : Shape fd s) {a : Access} (hm : Move s a s') :
    ∃ bs, Runs.run Loop.step s.abs bs = some s'.abs ∧ bs.flatMap Action.visible = a.visible := by
  cases hm with
  | arrive hopen hl =>
      refine ⟨[.arrive], ?_, rfl⟩
      obtain hnil | hall := h.closing_of_listening hfd hopen
      · rw [abs_of_nil hnil, abs_of_nil (by exact hnil)]
        simp [Runs.run, hl]
      · rw [abs_of_closeOps hall, abs_of_closeOps (by exact hall)]
        simp [Runs.run, hl]
  | @server a l ha hl =>
      have hnil := h.closing_of_ofRun ha (Loop.move_of_step hl)
      refine ⟨[a], ?_, by simp [Action.visible_of_ofRun ha, Access.visible]⟩
      rw [abs_of_nil hnil, abs_of_nil (by exact hnil)]
      simp [Runs.run, hl]
  | leave hpc hrun hnil =>
      refine ⟨[], ?_, rfl⟩
      rw [abs_of_nil hnil, abs_of_closeOps rfl]
      rfl
  | close hops => exact simulates_close h hops
  | callStop hpc => exact ⟨[], rfl, rfl⟩
  | stop hc hs => exact simulates_stop h hs
  | destroy hall hl =>
      have hm := Loop.move_of_step hl
      have hnil : s.closing = [] := by
        cases hm with
        | destroy hpc => exact h.closing_of_destroy hpc
      refine ⟨[.destroy], ?_, rfl⟩
      rw [abs_of_nil hnil, abs_of_nil (by exact hnil)]
      simp [Runs.run, hl]

end Threads

end AsyncHttpServer

end EbpfMonitor
