import EbpfMonitor.HttpServer
import EbpfMonitor.Lib.Lifetime
import EbpfMonitor.Lib.Runs
import EbpfMonitor.Lib.Throw

/-! # `AsyncHttpServer`: the event loop

The embedding of the rest of `src/http/async_server.h`: `start`, `run` with `accept_clients`
and `epoll_add`, `stop` and the destructor.  The thread of the server and what it uses of the
kernel are one step function.

* **The thread.**  `Pc` is the place of the thread in `run`: about to wait, in the middle of a
  batch of events, about to call `accept4`, or about to register a client.  A call of
  `handle_client` is one step: it makes the system calls `clientCalls`.
* **The kernel.**  The listener has a backlog and an edge flag, set when a connection arrives
  and cleared when `epoll_wait` reports the listener.  A batch is a list of different
  registered descriptors.  `accept4` gives any number that is not open, or an error, and
  `EAGAIN` exactly when the backlog is empty.
* **The others.**  Connections arrive and `stop` is called at any time.

`trace` records the system calls on client descriptors.  A client is closed by the event that
handles it and by nothing else: `closed_once_iff` says that all of them are closed once exactly
when each one has had its event, which `stop` and a failure of `epoll_ctl` can prevent.  The
accept loop is left at any error, and `edge_of_backlog` says what an error must not leave
behind. -/

namespace EbpfMonitor

open Text Throw

namespace AsyncHttpServer

/-- `MAX_EVENTS`. -/
def maxEvents : ℕ := 64

/-! ### The system calls of `handle_client` -/

/-- A system call on a client descriptor. -/
inductive Syscall where
  | accept (fd : ℕ)
  | read (fd : ℕ) (result : ReadResult)
  | write (fd : ℕ) (bytes : Text)
  | close (fd : ℕ)

/-- What the call does to the descriptor. -/
def Syscall.event : Syscall → Lifetime.Event ℕ
  | .accept fd => .acquire fd
  | .read fd _ => .use fd
  | .write fd _ => .use fd
  | .close fd => .release fd

/-- The results of the `read` calls that the loop makes. -/
def readCalls : Text → List ReadResult → List ReadResult
  | _, [] => [.again]
  | buf, .data bytes :: reads =>
      .data bytes :: (if headerComplete (buf ++ bytes) then [] else readCalls (buf ++ bytes) reads)
  | _, r :: _ => [r]

/-- The system calls of `handle_client`: the reads, the answer if there is one, and `close`. -/
def clientCalls (s : AsyncHttpServer) (fd : ℕ) (reads : List ReadResult) : List Syscall :=
  (readCalls (s.buf fd) reads).map (.read fd) ++
    (if (s.parsed fd reads).isSome then [.write fd (s.handleInPlace fd reads).written] else []) ++
    [.close fd]

/-! ### The loop -/

/-- The place of the server's thread. -/
inductive Pc where
  /-- at the condition of the loop of `run` -/
  | top
  /-- before the first of the remaining events of the batch -/
  | batch (events : List ℕ)
  /-- in `accept_clients`, before `accept4` -/
  | accepting (events : List ℕ)
  /-- in `accept_clients`, before `epoll_add` of an accepted client -/
  | adding (client : ℕ) (events : List ℕ)
  /-- `run` has returned -/
  | exited
  /-- an exception has left `run` -/
  | threw (what : Text)
  /-- the destructor has finished -/
  | destroyed
deriving DecidableEq

/-- The events of the batch that are still to be handled. -/
def Pc.events : Pc → List ℕ
  | .batch events => events
  | .accepting events => events
  | .adding _ events => events
  | _ => []

/-- The server, its thread, and the part of the kernel it uses.  A descriptor that is `-1` in
the source is `none`. -/
structure Loop where
  server : AsyncHttpServer
  listenFd : Option ℕ
  epollFd : Option ℕ
  stopFd : Option ℕ
  running : Bool
  pc : Pc
  /-- connections that wait for `accept4` -/
  backlog : ℕ
  /-- the listener is still to be reported -/
  edge : Bool
  /-- `stop_fd_` has been written -/
  stopWritten : Bool
  /-- the open descriptors that `accept4` has returned -/
  clients : List ℕ
  /-- the descriptors registered with `epoll_fd_` -/
  interest : List ℕ
  trace : List Syscall

/-- What `accept4` returns: a descriptor, `EAGAIN`, or another error, which may or may not have
taken the connection off the backlog. -/
inductive AcceptResult where
  | ok (fd : ℕ)
  | again
  | failed (taken : Bool)

inductive Action where
  /-- a connection arrives at the listener -/
  | arrive
  /-- another thread calls `stop` -/
  | stop
  /-- `epoll_wait` returns these events, none at a timeout or an error -/
  | wait (events : List ℕ)
  /-- the loop goes to the next event: the end of the batch, the stop event or the listener -/
  | next
  /-- the next event is that of a client, which is handled -/
  | client (fd : ℕ) (reads : List ReadResult)
  /-- `accept4` returns -/
  | accept (result : AcceptResult)
  /-- `epoll_ctl` returns; the argument is the text of its error -/
  | add (error : Option Text)
  /-- the loop ends and `run` returns -/
  | leave
  /-- `~AsyncHttpServer` -/
  | destroy

namespace Loop

/-- The number is not an open descriptor. -/
def Fresh (s : Loop) (fd : ℕ) : Prop :=
  fd ∉ s.clients ∧ some fd ≠ s.listenFd ∧ some fd ≠ s.epollFd ∧ some fd ≠ s.stopFd

instance (s : Loop) (fd : ℕ) : Decidable (s.Fresh fd) := by unfold Fresh; infer_instance

/-- `epoll_wait` can return these events. -/
def Reports (s : Loop) (events : List ℕ) : Prop :=
  events.length ≤ maxEvents ∧ events.Nodup ∧ ∀ fd ∈ events, fd ∈ s.interest ∧
    (some fd = s.listenFd → s.edge = true) ∧ (some fd = s.stopFd → s.stopWritten = true)

instance (s : Loop) (events : List ℕ) : Decidable (s.Reports events) := by
  unfold Reports; infer_instance

/-- The message of the exception that `epoll_add` throws. -/
def addError (strerror : Text) : Text := "epoll_ctl ADD: ".toList ++ strerror

/-- `stop()`. -/
def stop (s : Loop) : Loop :=
  { s with stopWritten := s.stopWritten || (s.stopFd.isSome && s.running) }

/-- `run` and the destructor close the server's own descriptors. -/
def closeFds (s : Loop) : Loop :=
  { s with listenFd := none, epollFd := none, stopFd := none, interest := [] }

/-- `~AsyncHttpServer`. -/
def destroyed (s : Loop) : Loop := { s.stop.closeFds with pc := .destroyed }

/-- `handle_client(fd)`, with `events` still to come. -/
def handle (s : Loop) (fd : ℕ) (reads : List ReadResult) (events : List ℕ) : Loop :=
  { s with
    server := (s.server.handleInPlace fd reads).server
    pc := .batch events
    clients := s.clients.erase fd
    interest := s.interest.filter (· ≠ fd)
    trace := s.trace ++ s.server.clientCalls fd reads }

/-- `accept4` in `accept_clients`, with `events` still to come. -/
def accept (s : Loop) (events : List ℕ) : AcceptResult → Option Loop
  | .ok fd =>
      if 0 < s.backlog ∧ s.Fresh fd then
        some { s with backlog := s.backlog - 1, clients := fd :: s.clients, pc := .adding fd events,
                      trace := s.trace ++ [.accept fd] }
      else none
  | .again => if s.backlog = 0 then some { s with pc := .batch events } else none
  | .failed taken =>
      if 0 < s.backlog then some { s with backlog := s.backlog - taken.toNat, pc := .batch events }
      else none

def step (s : Loop) : Action → Option Loop
  | .arrive => if s.listenFd.isSome then some { s with backlog := s.backlog + 1, edge := true } else none
  | .stop => if s.pc = .destroyed then none else some s.stop
  | .wait events =>
      if s.pc = .top ∧ s.running = true ∧ s.Reports events then
        some { s with pc := .batch events, edge := s.edge && !events.any (some · = s.listenFd) }
      else none
  | .next =>
      match s.pc with
      | .batch [] => some { s with pc := .top }
      | .batch (fd :: events) =>
          if some fd = s.stopFd then some { s with running := false, pc := .top }
          else if some fd = s.listenFd then some { s with pc := .accepting events }
          else none
      | _ => none
  | .client fd reads =>
      match s.pc with
      | .batch (fd' :: events) =>
          if fd' = fd ∧ some fd ≠ s.stopFd ∧ some fd ≠ s.listenFd then some (s.handle fd reads events)
          else none
      | _ => none
  | .accept result =>
      match s.pc with
      | .accepting events => s.accept events result
      | _ => none
  | .add error =>
      match s.pc, error with
      | .adding fd events, none => some { s with pc := .accepting events, interest := fd :: s.interest }
      | .adding _ _, some strerror => some { s with pc := .threw (addError strerror) }
      | _, _ => none
  | .leave =>
      if s.pc = .top ∧ s.running = false then some { s.closeFds with pc := .exited } else none
  | .destroy =>
      match s.pc with
      | .exited | .threw _ => some s.destroyed
      | _ => none

end Loop

/-! ### `start` -/

/-- What the system calls of `start` return: the descriptors, the texts of the errors, and the
number of connections that have arrived since `listen`. -/
structure Startup where
  socket : Option ℕ
  bindError : Option Text
  listens : Bool
  epollCreate : Option ℕ
  addListenError : Option Text
  eventfd : Option ℕ
  addStopError : Option Text
  arrived : ℕ
  /-- the kernel gives open descriptors different numbers -/
  distinct : [socket, epollCreate, eventfd].reduceOption.Nodup

/-- `start()`: the text of the exception it throws, or the state in which `run` begins. -/
def start (s : AsyncHttpServer) (r : Startup) : Except Text Loop := do
  let listenFd ← orThrow "socket() failed".toList r.socket
  throwOn ("bind() failed: ".toList ++ ·) r.bindError
  orThrow "listen() failed".toList (if r.listens then some () else none)
  let epollFd ← orThrow "epoll_create1() failed".toList r.epollCreate
  throwOn Loop.addError r.addListenError
  let stopFd ← orThrow "eventfd() failed".toList r.eventfd
  throwOn Loop.addError r.addStopError
  return { server := s, listenFd := listenFd, epollFd := epollFd, stopFd := stopFd, running := true,
           pc := .top, backlog := r.arrived, edge := decide (0 < r.arrived), stopWritten := false,
           clients := [], interest := [stopFd, listenFd], trace := [] }

/-- What holds of the state in which `run` begins. -/
structure Started (server : AsyncHttpServer) (s : Loop) : Prop where
  server : s.server = server
  fds : ∃ listenFd stopFd, s.listenFd = some listenFd ∧ s.stopFd = some stopFd ∧
    s.interest = [stopFd, listenFd]
  running : s.running = true
  pc : s.pc = .top
  edge : s.edge = decide (0 < s.backlog)
  stopWritten : s.stopWritten = false
  clients : s.clients = []
  trace : s.trace = []

theorem started_of_start {server : AsyncHttpServer} {r : Startup} {s : Loop}
    (h : server.start r = .ok s) : Started server s := by
  unfold start at h
  obtain ⟨l, _, h⟩ := bind_eq_ok.mp h
  obtain ⟨_, _, h⟩ := bind_eq_ok.mp h
  obtain ⟨_, _, h⟩ := bind_eq_ok.mp h
  obtain ⟨e, _, h⟩ := bind_eq_ok.mp h
  obtain ⟨_, _, h⟩ := bind_eq_ok.mp h
  obtain ⟨t, _, h⟩ := bind_eq_ok.mp h
  obtain ⟨_, _, h⟩ := bind_eq_ok.mp h
  obtain rfl := Except.ok.inj h
  exact ⟨rfl, ⟨l, t, rfl, rfl, rfl⟩, rfl, rfl, rfl, rfl, rfl, rfl⟩

namespace Loop

/-! ### The steps -/

/-- What a step does, one case for each way through the source. -/
inductive Move (s : Loop) : Action → Loop → Prop where
  | arrive (h : s.listenFd.isSome) :
      Move s .arrive { s with backlog := s.backlog + 1, edge := true }
  | stop (h : s.pc ≠ .destroyed) : Move s .stop s.stop
  | wait {events : List ℕ} (h : s.pc = .top) (hrun : s.running = true) (hrep : s.Reports events) :
      Move s (.wait events)
        { s with pc := .batch events, edge := s.edge && !events.any (some · = s.listenFd) }
  | endBatch (h : s.pc = .batch []) : Move s .next { s with pc := .top }
  | stopEvent {fd : ℕ} {events : List ℕ} (h : s.pc = .batch (fd :: events))
      (hfd : some fd = s.stopFd) : Move s .next { s with running := false, pc := .top }
  | listener {fd : ℕ} {events : List ℕ} (h : s.pc = .batch (fd :: events))
      (hfd : some fd = s.listenFd) : Move s .next { s with pc := .accepting events }
  | client {fd : ℕ} {events : List ℕ} (reads : List ReadResult) (h : s.pc = .batch (fd :: events))
      (hstop : some fd ≠ s.stopFd) (hlisten : some fd ≠ s.listenFd) :
      Move s (.client fd reads) (s.handle fd reads events)
  | accepted {fd : ℕ} {events : List ℕ} (h : s.pc = .accepting events) (hback : 0 < s.backlog)
      (hfresh : s.Fresh fd) :
      Move s (.accept (.ok fd))
        { s with backlog := s.backlog - 1, clients := fd :: s.clients, pc := .adding fd events,
                 trace := s.trace ++ [.accept fd] }
  | again {events : List ℕ} (h : s.pc = .accepting events) (hback : s.backlog = 0) :
      Move s (.accept .again) { s with pc := .batch events }
  | failed {events : List ℕ} (taken : Bool) (h : s.pc = .accepting events) (hback : 0 < s.backlog) :
      Move s (.accept (.failed taken))
        { s with backlog := s.backlog - taken.toNat, pc := .batch events }
  | added {fd : ℕ} {events : List ℕ} (h : s.pc = .adding fd events) :
      Move s (.add none) { s with pc := .accepting events, interest := fd :: s.interest }
  | addFailed {fd : ℕ} {events : List ℕ} (strerror : Text) (h : s.pc = .adding fd events) :
      Move s (.add (some strerror)) { s with pc := .threw (addError strerror) }
  | leave (h : s.pc = .top) (hrun : s.running = false) :
      Move s .leave { s.closeFds with pc := .exited }
  | destroy (h : s.pc = .exited ∨ ∃ what, s.pc = .threw what) :
      Move s .destroy s.destroyed

theorem move_of_accept {s s' : Loop} {events : List ℕ} {result : AcceptResult}
    (hpc : s.pc = .accepting events) (h : s.accept events result = some s') :
    Move s (.accept result) s' := by
  cases result with
  | ok fd =>
      obtain ⟨⟨hback, hfresh⟩, h⟩ := Option.ite_none_right_eq_some.mp h
      obtain rfl := Option.some.inj h
      exact .accepted hpc hback hfresh
  | again =>
      obtain ⟨hback, h⟩ := Option.ite_none_right_eq_some.mp h
      obtain rfl := Option.some.inj h
      exact .again hpc hback
  | failed taken =>
      obtain ⟨hback, h⟩ := Option.ite_none_right_eq_some.mp h
      obtain rfl := Option.some.inj h
      exact .failed taken hpc hback

theorem move_of_next {s s' : Loop} (h : s.step .next = some s') : Move s .next s' := by
  simp only [step] at h
  split at h
  next hpc =>
    obtain rfl := Option.some.inj h
    exact .endBatch hpc
  next fd events hpc =>
    split at h
    next hfd =>
      obtain rfl := Option.some.inj h
      exact .stopEvent hpc hfd
    next hstop =>
      obtain ⟨hfd, h⟩ := Option.ite_none_right_eq_some.mp h
      obtain rfl := Option.some.inj h
      exact .listener hpc hfd
  next => cases h

theorem move_of_step {s s' : Loop} {a : Action} (h : s.step a = some s') : Move s a s' := by
  cases a with
  | arrive =>
      obtain ⟨hl, h⟩ := Option.ite_none_right_eq_some.mp h
      obtain rfl := Option.some.inj h
      exact .arrive hl
  | stop =>
      obtain ⟨hpc, h⟩ := Option.ite_none_left_eq_some.mp h
      obtain rfl := Option.some.inj h
      exact .stop hpc
  | wait events =>
      obtain ⟨⟨hpc, hrun, hrep⟩, h⟩ := Option.ite_none_right_eq_some.mp h
      obtain rfl := Option.some.inj h
      exact .wait hpc hrun hrep
  | next => exact move_of_next h
  | client fd reads =>
      simp only [step] at h
      split at h
      next fd' events hpc =>
        obtain ⟨⟨rfl, hstop, hlisten⟩, h⟩ := Option.ite_none_right_eq_some.mp h
        obtain rfl := Option.some.inj h
        exact .client reads hpc hstop hlisten
      next => cases h
  | accept result =>
      simp only [step] at h
      split at h
      next events hpc => exact move_of_accept hpc h
      next => cases h
  | add error =>
      simp only [step] at h
      split at h
      next fd events hpc =>
        obtain rfl := Option.some.inj h
        exact .added hpc
      next fd events strerror hpc =>
        obtain rfl := Option.some.inj h
        exact .addFailed strerror hpc
      next => cases h
  | leave =>
      obtain ⟨⟨hpc, hrun⟩, h⟩ := Option.ite_none_right_eq_some.mp h
      obtain rfl := Option.some.inj h
      exact .leave hpc hrun
  | destroy =>
      simp only [step] at h
      split at h
      next hpc =>
        obtain rfl := Option.some.inj h
        exact .destroy (Or.inl hpc)
      next what hpc =>
        obtain rfl := Option.some.inj h
        exact .destroy (Or.inr ⟨what, hpc⟩)
      next => cases h

/-! ### What a step does to `running_` and `stop_fd_` -/

/-- The loop never starts again. -/
theorem Move.running_of {s s' : Loop} {a : Action} (hm : Move s a s') (h : s'.running = true) :
    s.running = true := by
  cases hm with
  | stopEvent hpc hfd => cases h
  | _ => exact h

theorem Move.stopWritten_of {s s' : Loop} {a : Action} (hm : Move s a s') (h : s.stopWritten = true) :
    s'.stopWritten = true := by
  cases hm with
  | stop hpc => simp [Loop.stop, h]
  | destroy hpc => simp [Loop.destroyed, Loop.closeFds, Loop.stop, h]
  | _ => exact h

/-- `stop_fd_` is closed by the destructor, or when the loop is over. -/
theorem Move.isSome_stopFd {s s' : Loop} {a : Action} (hm : Move s a s') (ha : a ≠ .destroy)
    (hrun : s'.running = true) (h : s.stopFd.isSome = true) : s'.stopFd.isSome = true := by
  cases hm with
  | leave hpc hstopped =>
      rw [show s.running = true from hrun] at hstopped
      cases hstopped
  | destroy hpc => exact absurd rfl ha
  | _ => exact h

/-! ### Descriptors -/

/-- The descriptor is one of those the loop watches. -/
def Known (s : Loop) (fd : ℕ) : Prop := some fd = s.listenFd ∨ some fd = s.stopFd ∨ fd ∈ s.clients

/-- The trace says which clients are open, and whatever is registered or still to be handled is
one of the server's descriptors. -/
structure Ok (s : Loop) : Prop where
  live : Lifetime.live (s.trace.map Syscall.event) = s.clients
  legal : Lifetime.Legal [] (s.trace.map Syscall.event)
  registered : ∀ fd ∈ s.interest, s.Known fd
  nodup : s.pc.events.Nodup
  pending : ∀ fd ∈ s.pc.events, s.Known fd
  adding : ∀ fd events, s.pc = .adding fd events → fd ∈ s.clients

theorem Ok.nodup_clients {s : Loop} (h : s.Ok) : s.clients.Nodup := by
  rw [← h.live]
  exact h.legal.nodup_foldl List.nodup_nil

/-- An event that is neither that of `stop` nor the listener's is the event of an open client. -/
theorem Ok.mem_clients {s : Loop} {fd : ℕ} {events : List ℕ} (h : s.Ok)
    (hpc : s.pc = .batch (fd :: events)) (hstop : some fd ≠ s.stopFd) (hlisten : some fd ≠ s.listenFd) :
    fd ∈ s.clients := by
  have hknown : s.Known fd := h.pending fd (by simp [hpc, Pc.events])
  obtain hl | ht | hc := hknown
  · exact absurd hl hlisten
  · exact absurd ht hstop
  · exact hc

/-- `handle_client` uses an open descriptor and closes it. -/
theorem legal_clientCalls (server : AsyncHttpServer) {held : List ℕ} {fd : ℕ}
    (reads : List ReadResult) (hfd : fd ∈ held) :
    Lifetime.Legal held ((server.clientCalls fd reads).map Syscall.event) ∧
      ((server.clientCalls fd reads).map Syscall.event).foldl Lifetime.after held = held.erase fd := by
  unfold clientCalls
  rw [List.map_append]
  generalize hcalls : List.map Syscall.event (_ ++ _) = uses
  have huse : ∀ e ∈ uses, e = .use fd := by
    subst hcalls
    intro e he
    simp only [List.map_append, List.map_map, List.mem_append, List.mem_map, Function.comp_apply] at he
    obtain ⟨r, _, rfl⟩ | ⟨c, hc, rfl⟩ := he
    · rfl
    · split at hc
      · obtain rfl := List.mem_singleton.mp hc
        rfl
      · cases hc
  obtain ⟨hlegal, hheld⟩ := Lifetime.legal_uses hfd huse
  rw [Lifetime.legal_append, List.foldl_append, hheld]
  exact ⟨⟨hlegal, hfd, trivial⟩, rfl⟩

theorem Ok.start {server : AsyncHttpServer} {r : Startup} {s : Loop}
    (h : server.start r = .ok s) : s.Ok := by
  have h := started_of_start h
  obtain ⟨l, t, hl, ht, hinterest⟩ := h.fds
  refine ⟨?_, ?_, fun fd hfd => ?_, ?_, ?_, ?_⟩
  · rw [h.trace, h.clients]
    rfl
  · rw [h.trace]
    trivial
  · rw [hinterest, List.mem_pair] at hfd
    obtain rfl | rfl := hfd
    · exact Or.inr (Or.inl ht.symm)
    · exact Or.inl hl.symm
  · rw [h.pc]
    exact List.nodup_nil
  · rw [h.pc]
    simp [Pc.events]
  · simp [h.pc]

/-- A descriptor other than the client that is closed stays watched. -/
theorem Known.handle {s : Loop} {fd fd' : ℕ} {reads : List ReadResult} {events : List ℕ}
    (h : s.Known fd') (hne : fd' ≠ fd) : (s.handle fd reads events).Known fd' := by
  obtain h | h | h := h
  · exact Or.inl h
  · exact Or.inr (Or.inl h)
  · exact Or.inr (Or.inr ((List.mem_erase_of_ne hne).mpr h))

theorem Ok.handle {s : Loop} {fd : ℕ} {events : List ℕ} (h : s.Ok) (reads : List ReadResult)
    (hpc : s.pc = .batch (fd :: events)) (hstop : some fd ≠ s.stopFd) (hlisten : some fd ≠ s.listenFd) :
    (s.handle fd reads events).Ok := by
  have hnodup := h.nodup
  have hpending := h.pending
  rw [hpc] at hnodup hpending
  obtain ⟨hfd, hevents⟩ := List.nodup_cons.mp hnodup
  have hcalls := legal_clientCalls s.server reads (h.mem_clients hpc hstop hlisten)
  refine ⟨?_, ?_, ?_, hevents, ?_, ?_⟩
  · rw [Loop.handle, List.map_append, Lifetime.live_append, h.live]
    exact hcalls.2
  · rw [Loop.handle, List.map_append, Lifetime.legal_append]
    refine ⟨h.legal, ?_⟩
    rw [← h.live] at hcalls
    exact hcalls.1
  · intro fd' hfd'
    obtain ⟨hmem, hne⟩ := List.mem_filter.mp hfd'
    exact (h.registered fd' hmem).handle (of_decide_eq_true hne)
  · intro fd' hfd'
    refine (hpending fd' (List.mem_cons_of_mem _ hfd')).handle ?_
    rintro rfl
    exact hfd hfd'
  · intro fd' events' hpc'
    cases hpc'

theorem Known.accepted {s : Loop} {fd fd' : ℕ} {s' : Loop} (h : s.Known fd')
    (hlisten : s'.listenFd = s.listenFd) (hstop : s'.stopFd = s.stopFd)
    (hclients : s'.clients = fd :: s.clients) : s'.Known fd' := by
  unfold Known
  rw [hlisten, hstop, hclients]
  obtain h | h | h := h
  · exact Or.inl h
  · exact Or.inr (Or.inl h)
  · exact Or.inr (Or.inr (List.mem_cons_of_mem _ h))

theorem Ok.accepted {s : Loop} {fd : ℕ} {events : List ℕ} (h : s.Ok) (hpc : s.pc = .accepting events)
    (hfresh : s.Fresh fd) :
    Ok { s with backlog := s.backlog - 1, clients := fd :: s.clients, pc := .adding fd events,
                trace := s.trace ++ [.accept fd] } := by
  have hnodup := h.nodup
  have hpending := h.pending
  rw [hpc] at hnodup hpending
  refine ⟨?_, ?_, ?_, hnodup, ?_, ?_⟩
  · simp only [List.map_append, Lifetime.live_append, h.live]
    rfl
  · rw [List.map_append, Lifetime.legal_append]
    refine ⟨h.legal, ?_, trivial⟩
    have hlive := h.live
    unfold Lifetime.live at hlive
    rw [hlive]
    exact hfresh.1
  · intro fd' hfd'
    exact (h.registered fd' hfd').accepted rfl rfl rfl
  · intro fd' hfd'
    exact (hpending fd' hfd').accepted rfl rfl rfl
  · intro fd' events' hpc'
    obtain ⟨rfl, _⟩ := Pc.adding.inj hpc'
    exact List.mem_cons_self ..

/-- One step keeps the accounts of the descriptors. -/
theorem Ok.move {s s' : Loop} {a : Action} (h : s.Ok) (hm : Move s a s') : s'.Ok := by
  cases hm with
  | arrive => exact ⟨h.live, h.legal, h.registered, h.nodup, h.pending, h.adding⟩
  | stop => exact ⟨h.live, h.legal, h.registered, h.nodup, h.pending, h.adding⟩
  | wait hpc hrun hrep =>
      exact ⟨h.live, h.legal, h.registered, hrep.2.1,
        fun fd hfd => h.registered fd (hrep.2.2 fd hfd).1, nofun⟩
  | endBatch hpc => exact ⟨h.live, h.legal, h.registered, List.nodup_nil, nofun, nofun⟩
  | stopEvent hpc hfd => exact ⟨h.live, h.legal, h.registered, List.nodup_nil, nofun, nofun⟩
  | listener hpc hfd =>
      have hnodup := h.nodup
      have hpending := h.pending
      rw [hpc] at hnodup hpending
      exact ⟨h.live, h.legal, h.registered, (List.nodup_cons.mp hnodup).2,
        fun fd hfd => hpending fd (List.mem_cons_of_mem _ hfd), nofun⟩
  | client reads hpc hstop hlisten => exact h.handle reads hpc hstop hlisten
  | accepted hpc hback hfresh => exact h.accepted hpc hfresh
  | again hpc hback =>
      have hnodup := h.nodup
      have hpending := h.pending
      rw [hpc] at hnodup hpending
      exact ⟨h.live, h.legal, h.registered, hnodup, hpending, nofun⟩
  | failed taken hpc hback =>
      have hnodup := h.nodup
      have hpending := h.pending
      rw [hpc] at hnodup hpending
      exact ⟨h.live, h.legal, h.registered, hnodup, hpending, nofun⟩
  | @added fd events hpc =>
      have hnodup := h.nodup
      have hpending := h.pending
      rw [hpc] at hnodup hpending
      refine ⟨h.live, h.legal, fun fd' hfd' => ?_, hnodup, hpending, nofun⟩
      obtain rfl | hfd' := List.mem_cons.mp hfd'
      · exact Or.inr (Or.inr (h.adding fd' events hpc))
      · exact h.registered fd' hfd'
  | addFailed strerror hpc => exact ⟨h.live, h.legal, h.registered, List.nodup_nil, nofun, nofun⟩
  | leave hpc hrun => exact ⟨h.live, h.legal, nofun, List.nodup_nil, nofun, nofun⟩
  | destroy hpc => exact ⟨h.live, h.legal, nofun, List.nodup_nil, nofun, nofun⟩

theorem Ok.releasedOnce_iff {s : Loop} (h : s.Ok) :
    Lifetime.ReleasedOnce (s.trace.map Syscall.event) ↔ s.clients = [] := by
  rw [Lifetime.releasedOnce_iff h.legal, h.live]

theorem Ok.run {server : AsyncHttpServer} {r : Startup} {s₀ s : Loop} {as : List Action}
    (hstart : server.start r = .ok s₀) (hrun : Runs.run step s₀ as = some s) : s.Ok :=
  Runs.run_invariant (fun _ _ _ h hstep => h.move (move_of_step hstep)) (Ok.start hstart) hrun

/-! ### Clients that are never handled -/

/-- Only the event of a client closes it. -/
theorem Move.mem_clients {s s' : Loop} {a : Action} {fd : ℕ} (hm : Move s a s')
    (hfd : fd ∈ s.clients) (ha : ∀ reads, a ≠ .client fd reads) : fd ∈ s'.clients := by
  cases hm with
  | client reads hpc hstop hlisten =>
      refine (List.mem_erase_of_ne ?_).mpr hfd
      rintro rfl
      exact ha reads rfl
  | accepted hpc hback hfresh => exact List.mem_cons_of_mem _ hfd
  | _ => exact hfd

/-- An open client has just been accepted, or it was open before and its event has not come. -/
theorem Move.mem_clients_cases {s s' : Loop} {a : Action} {fd : ℕ} (hm : Move s a s') (h : s.Ok)
    (hfd : fd ∈ s'.clients) :
    a = .accept (.ok fd) ∨ (fd ∈ s.clients ∧ ∀ reads, a ≠ .client fd reads) := by
  cases hm with
  | client reads hpc hstop hlisten =>
      obtain ⟨hne, hfd⟩ := h.nodup_clients.mem_erase_iff.mp hfd
      refine Or.inr ⟨hfd, fun reads' heq => hne ?_⟩
      exact (Action.client.inj heq).1.symm
  | accepted hpc hback hfresh =>
      obtain rfl | hfd := List.mem_cons.mp hfd
      · exact Or.inl rfl
      · exact Or.inr ⟨hfd, nofun⟩
  | _ => exact Or.inr ⟨hfd, nofun⟩

theorem mem_clients_of_run {s s' : Loop} {as : List Action} {fd : ℕ}
    (hrun : Runs.run step s as = some s') (hfd : fd ∈ s.clients)
    (has : ∀ reads, .client fd reads ∉ as) : fd ∈ s'.clients := by
  induction as generalizing s with
  | nil => exact Option.some.inj hrun ▸ hfd
  | cons a as ih =>
      obtain ⟨t, hstep, hrun⟩ := Runs.run_cons_eq_some.mp hrun
      refine ih hrun ?_ (fun reads hmem => has reads (List.mem_cons_of_mem _ hmem))
      refine (move_of_step hstep).mem_clients hfd ?_
      rintro reads rfl
      exact has reads (List.mem_cons_self ..)

/-- A client that is open after a run was accepted in it and has had no event since. -/
theorem accepted_of_mem_clients {s₀ s : Loop} {as : List Action} {fd : ℕ} (h₀ : s₀.Ok)
    (hnone : s₀.clients = []) (hrun : Runs.run step s₀ as = some s) (hfd : fd ∈ s.clients) :
    ∃ pre post, as = pre ++ .accept (.ok fd) :: post ∧ ∀ reads, .client fd reads ∉ post := by
  have hhistory : s.Ok ∧ ∀ fd ∈ s.clients,
      ∃ pre post, as = pre ++ .accept (.ok fd) :: post ∧ ∀ reads, .client fd reads ∉ post := by
    refine Runs.run_history (P := fun as s => s.Ok ∧ ∀ fd ∈ s.clients,
      ∃ pre post, as = pre ++ .accept (.ok fd) :: post ∧ ∀ reads, .client fd reads ∉ post) ?_ ?_ hrun
    · refine ⟨h₀, fun fd hfd => ?_⟩
      rw [hnone] at hfd
      cases hfd
    · rintro as t a s' ⟨ht, hclients⟩ hstep
      refine ⟨ht.move (move_of_step hstep), fun fd hfd => ?_⟩
      obtain rfl | ⟨hfd, ha⟩ := (move_of_step hstep).mem_clients_cases ht hfd
      · exact ⟨as, [], rfl, fun _ hmem => by cases hmem⟩
      · obtain ⟨pre, post, rfl, hpost⟩ := hclients fd hfd
        refine ⟨pre, post ++ [a], by simp, fun reads hmem => ?_⟩
        obtain hmem | hmem := List.mem_append.mp hmem
        · exact hpost reads hmem
        · exact ha reads (List.mem_singleton.mp hmem).symm
  exact hhistory.2 fd hfd

/-- **No call is made on a descriptor that is not open, and the clients are all closed, each
once, exactly when each one that is accepted has its event handled later.**  A client that has
sent nothing when the loop stops, or whose `epoll_ctl` fails, is never closed. -/
theorem closed_once_iff {server : AsyncHttpServer} {r : Startup} {s₀ s : Loop} {as : List Action}
    (hstart : server.start r = .ok s₀) (hrun : Runs.run step s₀ as = some s) :
    (∀ pre call post, s.trace = pre ++ call :: post →
      Lifetime.Allowed (Lifetime.live (pre.map Syscall.event)) call.event) ∧
    (Lifetime.ReleasedOnce (s.trace.map Syscall.event) ↔
      ∀ pre fd post, as = pre ++ .accept (.ok fd) :: post → ∃ reads, .client fd reads ∈ post) := by
  have hok := Ok.run hstart hrun
  have hnone := (started_of_start hstart).clients
  refine ⟨fun pre call post hsplit => ?_, ?_⟩
  · have hlegal := hok.legal
    rw [hsplit, List.map_append, List.map_cons] at hlegal
    exact hlegal.allowed
  rw [hok.releasedOnce_iff]
  constructor
  · rintro hempty pre fd post rfl
    by_contra hno
    obtain ⟨t, _, hrest⟩ := Runs.run_append_eq_some.mp hrun
    obtain ⟨t', hstep, hrest⟩ := Runs.run_cons_eq_some.mp hrest
    have hopen : fd ∈ t'.clients := by
      cases move_of_step hstep with
      | accepted hpc hback hfresh => exact List.mem_cons_self ..
    have hleft := mem_clients_of_run hrest hopen (fun reads hmem => hno ⟨reads, hmem⟩)
    rw [hempty] at hleft
    cases hleft
  · intro hall
    apply List.eq_nil_iff_forall_not_mem.mpr
    intro fd hfd
    obtain ⟨pre, post, hsplit, hpost⟩ := accepted_of_mem_clients (Ok.start hstart) hnone hrun hfd
    obtain ⟨reads, hmem⟩ := hall pre fd post hsplit
    exact hpost reads hmem

/-- A server without a handler whose `start` succeeds, with the descriptors 3, 4 and 5. -/
def booted : Loop :=
  { server := ⟨none, ∅⟩, listenFd := some 3, epollFd := some 4, stopFd := some 5, running := true,
    pc := .top, backlog := 0, edge := false, stopWritten := false, clients := [],
    interest := [5, 3], trace := [] }

theorem start_booted :
    start ⟨none, ∅⟩ ⟨some 3, none, true, some 4, none, some 5, none, 0, by decide⟩ = .ok booted :=
  rfl

/-- A client sends a request and is answered before the server stops. -/
theorem closed_once_iff_answered :
    ∃ s, Runs.run step booted [.arrive, .wait [3], .next, .accept (.ok 9), .add none, .accept .again,
        .next, .wait [9], .client 9 [.data "GET / HTTP/1.1\r\n\r\n".toList], .next, .stop, .wait [5],
        .next, .leave, .destroy] = some s ∧ s.pc = .destroyed ∧
      Lifetime.ReleasedOnce (s.trace.map Syscall.event) := by
  obtain ⟨s, hrun, hpc⟩ : ∃ s, Runs.run step booted [.arrive, .wait [3], .next, .accept (.ok 9),
      .add none, .accept .again, .next, .wait [9], .client 9 [.data "GET / HTTP/1.1\r\n\r\n".toList],
      .next, .stop, .wait [5], .next, .leave, .destroy] = some s ∧ s.pc = .destroyed :=
    Runs.exists_run_of_any (by decide +kernel)
  refine ⟨s, hrun, hpc, (closed_once_iff start_booted hrun).2.mpr ?_⟩
  intro pre fd post hsplit
  obtain ⟨_, rfl, rfl⟩ : pre = _ ∧ fd = 9 ∧ post = _ := by
    simpa [List.cons_eq_append_iff] using hsplit
  simp

/-- A client connects and sends nothing; the server stops, and the descriptor stays open. -/
theorem idle_client_left_open :
    ∃ s, Runs.run step booted [.arrive, .wait [3], .next, .accept (.ok 9), .add none, .accept .again,
        .next, .stop, .wait [5], .next, .leave, .destroy] = some s ∧ s.pc = .destroyed ∧
      ¬ Lifetime.ReleasedOnce (s.trace.map Syscall.event) := by
  obtain ⟨s, hrun, hpc, hopen⟩ : ∃ s, Runs.run step booted [.arrive, .wait [3], .next,
      .accept (.ok 9), .add none, .accept .again, .next, .stop, .wait [5], .next, .leave, .destroy] =
        some s ∧ s.pc = .destroyed ∧ s.clients = [9] :=
    Runs.exists_run_of_any (by decide +kernel)
  refine ⟨s, hrun, hpc, ?_⟩
  rw [(Ok.run start_booted hrun).releasedOnce_iff, hopen]
  exact List.cons_ne_nil _ _

/-! ### The edge of the listener -/

/-- The accept loop is not left by an error that leaves a connection in the backlog while no
other has arrived since the listener was reported. -/
def Drains (s : Loop) : Action → Prop
  | .accept (.failed taken) => s.backlog ≤ taken.toNat ∨ s.edge = true
  | _ => True

instance (s : Loop) : ∀ a, Decidable (s.Drains a)
  | .accept (.failed taken) => inferInstanceAs (Decidable (s.backlog ≤ taken.toNat ∨ s.edge = true))
  | .accept (.ok _) | .accept .again | .arrive | .stop | .wait _ | .next | .client _ _ | .add _
  | .leave | .destroy => isTrue trivial

/-- A pending connection is still to be reported, or the batch still has the listener. -/
structure Watched (s : Loop) : Prop where
  top : s.pc = .top → s.running = true → 0 < s.backlog → s.edge = true
  batch : ∀ events, s.pc = .batch events → 0 < s.backlog →
    s.edge = true ∨ ∃ fd ∈ events, some fd = s.listenFd

theorem Watched.start {server : AsyncHttpServer} {r : Startup} {s : Loop}
    (h : server.start r = .ok s) : s.Watched := by
  have h := started_of_start h
  refine ⟨fun _ _ hback => ?_, fun events hbatch => ?_⟩
  · rw [h.edge]
    exact decide_eq_true hback
  · rw [h.pc] at hbatch
    cases hbatch

/-- One step keeps a pending connection watched. -/
theorem Watched.move {s s' : Loop} {a : Action} (h : s.Watched) (hd : s.Drains a) (hm : Move s a s') :
    s'.Watched := by
  cases hm with
  | arrive => exact ⟨fun _ _ _ => rfl, fun _ _ _ => Or.inl rfl⟩
  | stop => exact ⟨h.top, h.batch⟩
  | @wait events hpc hrun hrep =>
      refine ⟨nofun, fun events' heq hback => ?_⟩
      obtain rfl := Pc.batch.inj heq
      have hedge := h.top hpc hrun hback
      cases hany : events.any (some · = s.listenFd) with
      | false => exact Or.inl (by simp [hedge])
      | true =>
          obtain ⟨fd, hfd, heq⟩ := List.any_eq_true.mp hany
          exact Or.inr ⟨fd, hfd, of_decide_eq_true heq⟩
  | endBatch hpc =>
      refine ⟨fun _ _ hback => ?_, nofun⟩
      obtain hedge | ⟨fd, hfd, _⟩ := h.batch [] hpc hback
      · exact hedge
      · cases hfd
  | stopEvent hpc hfd => exact ⟨fun _ hrun => absurd hrun Bool.false_ne_true, nofun⟩
  | listener hpc hfd => exact ⟨nofun, nofun⟩
  | @client fd events reads hpc hstop hlisten =>
      refine ⟨nofun, fun events' heq hback => ?_⟩
      obtain rfl := Pc.batch.inj heq
      obtain hedge | ⟨fd', hfd', hl⟩ := h.batch _ hpc hback
      · exact Or.inl hedge
      · obtain rfl | hfd' := List.mem_cons.mp hfd'
        · exact absurd hl hlisten
        · exact Or.inr ⟨fd', hfd', hl⟩
  | accepted hpc hback hfresh => exact ⟨nofun, nofun⟩
  | again hpc hback => exact ⟨nofun, fun _ _ hpos => absurd hpos (by simp [hback])⟩
  | failed taken hpc hback =>
      refine ⟨nofun, fun _ _ hpos => ?_⟩
      obtain hnone | hedge := hd
      · exact absurd hpos (by simp [Nat.sub_eq_zero_of_le hnone])
      · exact Or.inl hedge
  | added hpc => exact ⟨nofun, nofun⟩
  | addFailed strerror hpc => exact ⟨nofun, nofun⟩
  | leave hpc hrun => exact ⟨nofun, nofun⟩
  | destroy hpc => exact ⟨nofun, nofun⟩

/-- **Whenever `run` is about to wait, a connection in the backlog is still to be reported**, in
every run in which no error of `accept4` other than `EAGAIN` leaves a connection behind without
a new edge. -/
theorem edge_of_backlog {server : AsyncHttpServer} {r : Startup} {s₀ s : Loop} {as : List Action}
    (hstart : server.start r = .ok s₀) (hrun : Runs.run step s₀ as = some s)
    (hdrains : Runs.Meets step Drains s₀ as) (hpc : s.pc = .top) (hrunning : s.running = true)
    (hback : 0 < s.backlog) : s.edge = true :=
  have hwatched : s.Watched := Runs.run_invariant_of_meets
    (fun _ _ _ h hd hstep => h.move hd (move_of_step hstep)) as s₀ s (Watched.start hstart) hdrains hrun
  hwatched.top hpc hrunning hback

/-- A connection is aborted before it is accepted, and another one arrives while the batch is
handled. -/
theorem edge_of_backlog_aborted :
    ∃ s, Runs.run step booted [.arrive, .wait [3], .next, .accept (.failed true), .arrive, .next] =
      some s ∧ s.pc = .top ∧ s.running = true ∧ s.backlog = 1 ∧ s.edge = true := by
  obtain ⟨s, hrun, hpc, hrunning, hback⟩ : ∃ s, Runs.run step booted [.arrive, .wait [3], .next,
      .accept (.failed true), .arrive, .next] = some s ∧ s.pc = .top ∧ s.running = true ∧
        s.backlog = 1 := Runs.exists_run_of_any (by decide +kernel)
  refine ⟨s, hrun, hpc, hrunning, hback, ?_⟩
  exact edge_of_backlog start_booted hrun (by decide +kernel) hpc hrunning (by omega)

/-- Two connections arrive and the first is aborted: `accept4` fails once, the loop goes back to
`epoll_wait`, and the second connection is not reported. -/
theorem accept_error_strands_connection :
    ∃ s, Runs.run step booted [.arrive, .arrive, .wait [3], .next, .accept (.failed true), .next] =
      some s ∧ s.pc = .top ∧ s.running = true ∧ 0 < s.backlog ∧ s.edge = false :=
  Runs.exists_run_of_any (by decide +kernel)

end Loop

end AsyncHttpServer

end EbpfMonitor
