import EbpfMonitor.EventLoop

/-! # `run_monitor`

The embedding of `run_monitor` in `src/monitor.cpp` with the wrappers of `src/ebpf_loader.h`.

* **The main thread.**  `body` is the list of its statements.  A statement that throws, or the
  end of the body, makes the thread leave: the locals are destroyed in the reverse order of
  their construction.  A constructor that throws leaves no local behind.
* **Failures.**  `Env` says which of the library calls fail and what the system calls of
  `start` return, so that `Env.error` is the exception of each statement.
* **The HTTP thread.**  Once `http_thread` is constructed, the event loop of `http_srv` takes
  its steps between those of the main thread.  An exception that leaves `run` ends the process.
* **Joining.**  The destructor of `http_thread` waits for `run` to return, and nothing tells
  `run` to return but a write to `stop_fd_`.

`stop` is called at the end of the body and by the destructor of `http_srv`, which runs after
that of `http_thread`.  `never_stuck_iff` says when the main thread can be caught in the join. -/

namespace EbpfMonitor

open Text AsyncHttpServer

namespace RunMonitor

structure Config where
  filterPid : BitVec 32 := 0
  filterPort : BitVec 32 := 0
  httpPort : BitVec 16 := 9090

/-! ### The library -/

/-- The two objects. -/
inductive Obj where
  | tcp
  | audit
deriving DecidableEq

def Obj.path : Obj → Text
  | .tcp => "bpf/tcp_tracer.bpf.o".toList
  | .audit => "bpf/syscall_audit.bpf.o".toList

/-- The three links. -/
inductive Link where
  | tcpConnect
  | tcpClose
  | audit
deriving DecidableEq

/-- The object whose program is attached. -/
def Link.obj : Link → Obj
  | .tcpConnect => .tcp
  | .tcpClose => .tcp
  | .audit => .audit

def Link.program : Link → Text
  | .tcpConnect => "trace_tcp_connect".toList
  | .tcpClose => "trace_tcp_close".toList
  | .audit => "audit_syscall".toList

/-- The message of `attach_kprobe` and of `attach_tracepoint`. -/
def Link.attachError : Link → Text
  | .tcpConnect => "attach_kprobe failed for ".toList ++ "tcp_connect".toList
  | .tcpClose => "attach_kprobe failed for ".toList ++ "tcp_close".toList
  | .audit => "attach_tracepoint failed".toList

/-- The two ring buffers. -/
inductive Ring where
  | tcp
  | audit
deriving DecidableEq

def Ring.map : Ring → Text
  | .tcp => "tcp_events".toList
  | .audit => "syscall_events".toList

/-- The calls that can fail, apart from the system calls of `start`. -/
inductive Call where
  | open (o : Obj)
  | load (o : Obj)
  | findFilters
  | findProgram (l : Link)
  | attach (l : Link)
  | createThread
  | findMap (r : Ring)
  | ringBufferNew (r : Ring)

/-- What the library gives out and takes back. -/
inductive Resource where
  | object (o : Obj)
  | link (l : Link)
  | ring (r : Ring)
deriving DecidableEq

/-! ### The statements -/

inductive Stmt where
  | object (o : Obj)
  | filters
  | link (l : Link)
  | reporter
  | httpSrv
  | start
  | httpThread
  | ringBuffer (r : Ring)
  | loop
  | stopHttp
deriving DecidableEq

/-- The statements of `run_monitor` up to the one that constructs `http_thread`. -/
def untilThread : List Stmt :=
  [.object .tcp, .object .audit, .filters, .link .tcpConnect, .link .tcpClose, .link .audit, .reporter,
    .httpSrv, .start, .httpThread]

def body : List Stmt := untilThread ++ [.ringBuffer .tcp, .ringBuffer .audit, .loop, .stopHttp]

inductive Local where
  | object (o : Obj)
  | link (l : Link)
  | reporter
  | httpSrv
  | httpThread
  | ringBuffer (r : Ring)
deriving DecidableEq

/-- The local that the statement declares. -/
def Stmt.decl : Stmt → Option Local
  | .object o => some (.object o)
  | .link l => some (.link l)
  | .reporter => some .reporter
  | .httpSrv => some .httpSrv
  | .httpThread => some .httpThread
  | .ringBuffer r => some (.ringBuffer r)
  | .filters | .start | .loop | .stopHttp => none

/-- What an execution meets: the configuration, the route handler, the calls that fail, the text
of a system error, and the results of the system calls of `start`. -/
structure Env where
  cfg : Config
  handler : Text → Text
  fails : Call → Bool
  strerror : Text
  startup : Startup

/-- `http_srv` as constructed. -/
def Env.server (env : Env) : AsyncHttpServer := ⟨some env.handler, ∅⟩

/-- The message of the exception that the statement throws, if it throws. -/
def Env.error (env : Env) : Stmt → Option Text
  | .object o =>
      if env.fails (.open o) then some ("bpf_object__open(\"".toList ++ o.path ++ "\") failed".toList)
      else if env.fails (.load o) then some ("bpf_object__load failed: ".toList ++ env.strerror)
      else none
  | .filters =>
      if (env.cfg.filterPid ≠ 0 ∨ env.cfg.filterPort ≠ 0) ∧ env.fails .findFilters = true then
        some ("Map not found: ".toList ++ "filters".toList)
      else none
  | .link l =>
      if env.fails (.findProgram l) then some ("Program not found: ".toList ++ l.program)
      else if env.fails (.attach l) then some l.attachError
      else none
  | .start =>
      match env.server.start env.startup with
      | .error what => some what
      | .ok _ => none
  | .httpThread => if env.fails .createThread then some env.strerror else none
  | .ringBuffer r =>
      if env.fails (.findMap r) then some ("Map not found: ".toList ++ r.map)
      else if env.fails (.ringBufferNew r) then some "ring_buffer__new failed".toList
      else none
  | .reporter | .httpSrv | .loop | .stopHttp => none

/-- What the statement acquires, also when it throws: the object is opened before it is loaded. -/
def Env.acquired (env : Env) : Stmt → List (Lifetime.Event Resource)
  | .object o => if env.fails (.open o) then [] else [.acquire (.object o)]
  | .link l => if env.fails (.findProgram l) || env.fails (.attach l) then [] else [.acquire (.link l)]
  | .ringBuffer r =>
      if env.fails (.findMap r) || env.fails (.ringBufferNew r) then [] else [.acquire (.ring r)]
  | .filters | .reporter | .httpSrv | .start | .httpThread | .loop | .stopHttp => []

/-- What the statement does to the server. -/
def Env.httpAfter (env : Env) (http : Option Loop) : Stmt → Option Loop
  | .start => (env.server.start env.startup).toOption
  | .stopHttp => http.map Loop.stop
  | _ => http

/-- What the destructor of the local gives back. -/
def Local.released : Local → List (Lifetime.Event Resource)
  | .object o => [.release (.object o)]
  | .link l => [.release (.link l)]
  | .ringBuffer r => [.release (.ring r)]
  | .reporter | .httpSrv | .httpThread => []

/-! ### The process -/

/-- The place of the main thread: before the remaining statements, or leaving the scope with or
without an exception. -/
inductive Main where
  | body (rest : List Stmt)
  | leaving (what : Option Text)
deriving DecidableEq

structure State where
  main : Main
  /-- the constructed locals, the last one first -/
  locals : List Local
  /-- `http_srv` once it is started -/
  http : Option Loop
  gStop : Bool
  trace : List (Lifetime.Event Resource)

def init : State := ⟨.body body, [], none, false, []⟩

/-- An exception has left `run`. -/
def threw : Pc → Bool
  | .threw _ => true
  | _ => false

inductive Action where
  /-- the main thread takes a step -/
  | main
  /-- `SIGINT` or `SIGTERM` arrives -/
  | signal
  /-- the HTTP thread takes a step, or a connection arrives -/
  | http (a : AsyncHttpServer.Action)

namespace State

/-- `std::terminate` has been called for the exception of the HTTP thread. -/
def terminated (s : State) : Bool := s.http.any (fun l => threw l.pc)

/-- The HTTP thread has finished. -/
def finished (s : State) : Bool := s.http.any (fun l => l.pc = .exited)

/-- The statement has not thrown. -/
def pass (s : State) (env : Env) (st : Stmt) (rest : List Stmt) : State :=
  { s with
    main := .body rest
    locals := st.decl.toList ++ s.locals
    http := env.httpAfter s.http st
    trace := s.trace ++ env.acquired st }

/-- The destructor of the last local. -/
def destroy (s : State) (x : Local) (rest : List Local) : State :=
  { s with
    locals := rest
    http := if x = .httpSrv then s.http.map Loop.destroyed else s.http
    trace := s.trace ++ x.released }

/-- A step of the main thread.  `poll` is left and entered again until a signal has come, and
the destructor of `http_thread` waits for the thread. -/
def mainStep (env : Env) (s : State) : Option State :=
  match s.main, s.locals with
  | .body [], _ => some { s with main := .leaving none }
  | .body (st :: rest), _ =>
      if st = .loop ∧ s.gStop = false then some s
      else
        match env.error st with
        | some what => some { s with main := .leaving (some what), trace := s.trace ++ env.acquired st }
        | none => some (s.pass env st rest)
  | .leaving _, [] => none
  | .leaving _, x :: rest => if x = .httpThread ∧ s.finished = false then none else some (s.destroy x rest)

/-- The action is one of the HTTP thread while it exists, or of the network. -/
def allows (s : State) : AsyncHttpServer.Action → Bool
  | .arrive => true
  | .stop | .destroy => false
  | _ => decide (Local.httpThread ∈ s.locals)

def step (env : Env) (s : State) (a : Action) : Option State :=
  if s.terminated then none
  else
    match a with
    | .main => s.mainStep env
    | .signal => some { s with gStop := true }
    | .http a =>
        if s.allows a then
          s.http.bind (fun l => (l.step a).map (fun l' => { s with http := some l' }))
        else none

/-- The main thread is in the destructor of `http_thread`. -/
def joining (s : State) : Bool :=
  match s.main, s.locals with
  | .leaving _, .httpThread :: _ => true
  | _, _ => false

/-- The main thread waits for a thread that nothing has told to stop. -/
def Stuck (s : State) : Prop :=
  s.joining = true ∧ ∃ l ∈ s.http, l.pc ≠ .exited ∧ l.running = true ∧ l.stopWritten = false

instance (s : State) : Decidable s.Stuck := by unfold Stuck; infer_instance

/-! ### The steps -/

/-- What a step does. -/
inductive Move (env : Env) (s : State) : State → Prop where
  | signal : Move env s { s with gStop := true }
  | poll : Move env s s
  | throws {st : Stmt} {rest : List Stmt} {what : Text} (h : s.main = .body (st :: rest))
      (herr : env.error st = some what) :
      Move env s { s with main := .leaving (some what), trace := s.trace ++ env.acquired st }
  | pass {st : Stmt} {rest : List Stmt} (h : s.main = .body (st :: rest)) (herr : env.error st = none) :
      Move env s (s.pass env st rest)
  | returns (h : s.main = .body []) : Move env s { s with main := .leaving none }
  | destroy {what : Option Text} {x : Local} {rest : List Local} (h : s.main = .leaving what)
      (hlocals : s.locals = x :: rest) (hjoin : x = .httpThread → s.finished = true) :
      Move env s (s.destroy x rest)
  | http {l l' : Loop} {a : AsyncHttpServer.Action} (h : s.http = some l) (ha : a ≠ .destroy)
      (hstep : l.step a = some l') : Move env s { s with http := some l' }

theorem move_of_mainStep {env : Env} {s s' : State} (h : s.mainStep env = some s') : Move env s s' := by
  unfold mainStep at h
  split at h
  next hmain =>
    obtain rfl := Option.some.inj h
    exact .returns hmain
  next st rest hmain =>
    split at h
    next =>
      obtain rfl := Option.some.inj h
      exact .poll
    next =>
      split at h
      next what herr =>
        obtain rfl := Option.some.inj h
        exact .throws hmain herr
      next herr =>
        obtain rfl := Option.some.inj h
        exact .pass hmain herr
  next => cases h
  next what x rest hmain hlocals =>
    obtain ⟨hjoin, h⟩ := Option.ite_none_left_eq_some.mp h
    obtain rfl := Option.some.inj h
    refine .destroy hmain hlocals (fun hx => ?_)
    by_contra hfin
    exact hjoin ⟨hx, Bool.eq_false_iff.mpr hfin⟩

theorem move_of_step {env : Env} {s s' : State} {a : Action} (h : s.step env a = some s') :
    Move env s s' := by
  obtain ⟨_, h⟩ := Option.ite_none_left_eq_some.mp h
  cases a with
  | main => exact move_of_mainStep h
  | signal =>
      obtain rfl := Option.some.inj h
      exact .signal
  | http a =>
      obtain ⟨hallows, h⟩ := Option.ite_none_right_eq_some.mp h
      obtain ⟨l, hl, h⟩ := Option.bind_eq_some_iff.mp h
      obtain ⟨l', hstep, rfl⟩ := Option.map_eq_some_iff.mp h
      refine .http hl ?_ hstep
      rintro rfl
      cases hallows

/-! ### Being told to stop -/

/-- The server is told to stop, or it has stopped. -/
def Told (s : State) : Prop := ∀ l, s.http = some l → l.running = true → l.stopWritten = true

/-- While `run` goes on, `stop` has a descriptor to write to. -/
def Alive (s : State) : Prop := ∀ l, s.http = some l → l.running = true → l.stopFd.isSome = true

theorem Told.loop {s : State} {l l' : Loop} {a : AsyncHttpServer.Action} (h : s.Told)
    (hl : s.http = some l) (hm : l.Move a l') : Told { s with http := some l' } := by
  rintro _ ⟨⟩ hrun
  exact hm.stopWritten_of (h l hl (hm.running_of hrun))

theorem Alive.loop {s : State} {l l' : Loop} {a : AsyncHttpServer.Action} (h : s.Alive)
    (hl : s.http = some l) (hm : l.Move a l') (ha : a ≠ .destroy) : Alive { s with http := some l' } := by
  rintro _ ⟨⟩ hrun
  exact hm.isSome_stopFd ha hrun (h l hl (hm.running_of hrun))

theorem Told.destroy {s : State} (h : s.Told) (x : Local) (rest : List Local) : (s.destroy x rest).Told := by
  intro l hl hrun
  unfold State.destroy at hl
  split at hl
  · obtain ⟨l₀, hl₀, rfl⟩ := Option.map_eq_some_iff.mp hl
    simp [Loop.destroyed, Loop.closeFds, Loop.stop, h l₀ hl₀ hrun]
  · exact h l hl hrun

/-- The last statement tells the server to stop. -/
theorem Alive.told_pass {s : State} (h : s.Alive) (env : Env) (rest : List Stmt) :
    (s.pass env .stopHttp rest).Told := by
  intro l hl hrun
  obtain ⟨l₀, hl₀, rfl⟩ := Option.map_eq_some_iff.mp hl
  have hfd := h l₀ hl₀ hrun
  have hrun : l₀.running = true := hrun
  simp [Loop.stop, hfd, hrun]

theorem exists_started {env : Env} {l : Loop} (h : env.httpAfter none .start = some l) :
    Started env.server l := by
  unfold Env.httpAfter at h
  cases hstart : env.server.start env.startup with
  | error what =>
      rw [hstart] at h
      cases h
  | ok l' =>
      rw [hstart] at h
      obtain rfl := Option.some.inj h
      exact started_of_start hstart

theorem Alive.pass {s : State} (h : s.Alive) (env : Env) (st : Stmt) (rest : List Stmt) :
    (s.pass env st rest).Alive := by
  intro l hl hrun
  cases st with
  | start =>
      obtain ⟨_, t, _, ht, _⟩ := (exists_started hl).fds
      rw [ht]
      rfl
  | stopHttp =>
      obtain ⟨l₀, hl₀, rfl⟩ := Option.map_eq_some_iff.mp hl
      exact h l₀ hl₀ hrun
  | _ => exact h l hl hrun

/-! ### The order of the statements -/

theorem nodup_body : body.Nodup := by decide

/-- `http_srv.stop()` comes last. -/
theorem stopHttp_mem_of_suffix {st : Stmt} {rest : List Stmt} (h : st :: rest <:+ body) :
    .stopHttp ∈ st :: rest := by
  have hall : ∀ r ∈ body.tails, r ≠ [] → Stmt.stopHttp ∈ r := by decide
  exact hall _ ((List.mem_tails _ _).mpr h) (List.cons_ne_nil _ _)

/-- After `http_thread` only the two ring buffers can throw. -/
theorem ringBuffer_of_suffix {env : Env} {st : Stmt} {rest : List Stmt} {what : Text}
    (h : st :: rest <:+ body) (hthread : .httpThread ∉ st :: rest) (herr : env.error st = some what) :
    ∃ r, st = .ringBuffer r := by
  have hall : ∀ r ∈ body.tails, Stmt.httpThread ∉ r →
      ∀ st ∈ r, st ∈ [Stmt.ringBuffer .tcp, .ringBuffer .audit, .loop, .stopHttp] := by decide
  have hst := hall _ ((List.mem_tails _ _).mpr h) hthread st (List.mem_cons_self ..)
  simp only [List.mem_cons, List.not_mem_nil, or_false] at hst
  obtain rfl | rfl | rfl | rfl := hst
  · exact ⟨_, rfl⟩
  · exact ⟨_, rfl⟩
  · cases herr
  · cases herr

/-- When `http_thread` is not still to come, nothing before it is. -/
theorem not_mem_of_suffix {st : Stmt} {rest : List Stmt} (h : rest <:+ body)
    (hthread : .httpThread ∉ rest) (hst : st ∈ untilThread) : st ∉ rest := by
  have hall : ∀ r ∈ body.tails, Stmt.httpThread ∉ r → ∀ st ∈ untilThread, st ∉ r := by decide
  exact hall _ ((List.mem_tails _ _).mpr h) hthread st hst

theorem decl_eq_httpThread {st : Stmt} : .httpThread ∈ st.decl.toList ↔ st = .httpThread := by
  cases st <;> simp [Stmt.decl]

/-! ### The invariant -/

/-- The main thread is in the body, with `rest` to come. -/
structure Inside (env : Env) (s : State) (rest : List Stmt) : Prop where
  suffix : rest <:+ body
  passed : ∀ st ∈ body, st ∉ rest → env.error st = none
  thread : .httpThread ∈ s.locals ↔ .httpThread ∉ rest
  told : .stopHttp ∉ rest → s.Told
  alive : s.Alive

/-- The main thread leaves while `http_thread` still exists: the server is told to stop, or a
ring buffer has thrown. -/
structure Left (env : Env) (s : State) (what : Option Text) : Prop where
  before : ∀ st ∈ untilThread, env.error st = none
  told : what = none → s.Told
  threw : what ≠ none → ∃ r, env.error (.ringBuffer r) ≠ none

structure Inv (env : Env) (s : State) : Prop where
  inside : ∀ rest, s.main = .body rest → Inside env s rest
  left : ∀ what, s.main = .leaving what → .httpThread ∈ s.locals → Left env s what

theorem inv_init (env : Env) : Inv env init := by
  refine ⟨?_, nofun⟩
  rintro _ ⟨⟩
  refine ⟨List.suffix_rfl, fun st hst hno => absurd hst hno, ?_, ?_, fun l hl => ?_⟩
  · constructor
    · nofun
    · intro h
      exact absurd (by decide) h
  · intro h
    exact absurd (by decide) h
  · cases hl

theorem Inside.before {env : Env} {s : State} {rest : List Stmt} (h : Inside env s rest)
    (hthread : .httpThread ∈ s.locals) : ∀ st ∈ untilThread, env.error st = none := by
  intro st hst
  refine h.passed st (List.mem_append_left _ hst) ?_
  exact not_mem_of_suffix h.suffix (h.thread.mp hthread) hst

theorem Inside.pass {env : Env} {s : State} {st : Stmt} {rest : List Stmt}
    (h : Inside env s (st :: rest)) (herr : env.error st = none) :
    Inside env (s.pass env st rest) rest := by
  have hst : st ∉ rest := (List.nodup_cons.mp (h.suffix.sublist.nodup nodup_body)).1
  refine ⟨(List.suffix_cons st rest).trans h.suffix, fun st' hst' hno => ?_, ?_, fun hno => ?_, ?_⟩
  · by_cases heq : st' = st
    · exact heq ▸ herr
    · exact h.passed st' hst' (by simp [heq, hno])
  · rw [State.pass, List.mem_append, decl_eq_httpThread, h.thread]
    constructor
    · rintro (rfl | hno)
      · exact hst
      · exact fun hmem => hno (List.mem_cons_of_mem _ hmem)
    · intro hno
      by_cases heq : st = .httpThread
      · exact Or.inl heq
      · exact Or.inr (by simp [Ne.symm heq, hno])
  · obtain rfl | hmem := List.mem_cons.mp (stopHttp_mem_of_suffix h.suffix)
    · exact h.alive.told_pass env rest
    · exact absurd hmem hno
  · exact h.alive.pass env st rest

theorem Inside.throws {env : Env} {s : State} {st : Stmt} {rest : List Stmt} {what : Text}
    (h : Inside env s (st :: rest)) (herr : env.error st = some what)
    (hthread : .httpThread ∈ s.locals) {s' : State} : Left env s' (some what) := by
  obtain ⟨r, rfl⟩ := ringBuffer_of_suffix h.suffix (h.thread.mp hthread) herr
  refine ⟨h.before hthread, nofun, fun _ => ⟨r, ?_⟩⟩
  rw [herr]
  exact Option.some_ne_none _

/-- One step keeps the invariant. -/
theorem Inv.move {env : Env} {s s' : State} (h : Inv env s) (hm : Move env s s') : Inv env s' := by
  cases hm with
  | signal =>
      refine ⟨fun rest hmain => ?_, fun what hmain hthread => ?_⟩
      · obtain ⟨h₁, h₂, h₃, h₄, h₅⟩ := h.inside rest hmain
        exact ⟨h₁, h₂, h₃, h₄, h₅⟩
      · obtain ⟨h₁, h₂, h₃⟩ := h.left what hmain hthread
        exact ⟨h₁, h₂, h₃⟩
  | poll => exact h
  | throws hmain herr =>
      refine ⟨nofun, ?_⟩
      rintro _ ⟨⟩ hthread
      exact (h.inside _ hmain).throws herr hthread
  | pass hmain herr =>
      refine ⟨?_, nofun⟩
      rintro _ ⟨⟩
      exact (h.inside _ hmain).pass herr
  | returns hmain =>
      refine ⟨nofun, ?_⟩
      rintro _ ⟨⟩ hthread
      have hin := h.inside _ hmain
      exact ⟨hin.before hthread, fun _ => hin.told List.not_mem_nil, fun hne => absurd rfl hne⟩
  | destroy hmain hlocals hjoin =>
      refine ⟨fun rest hbody => ?_, fun what hleaving hthread => ?_⟩
      · rw [State.destroy, hmain] at hbody
        cases hbody
      · have hleft := h.left what hleaving (by rw [hlocals]; exact List.mem_cons_of_mem _ hthread)
        exact ⟨hleft.before, fun hnone => (hleft.told hnone).destroy _ _, hleft.threw⟩
  | http hl ha hstep =>
      have hm := Loop.move_of_step hstep
      refine ⟨fun rest hmain => ?_, fun what hmain hthread => ?_⟩
      · have hin := h.inside rest hmain
        exact ⟨hin.suffix, hin.passed, hin.thread, fun hno => (hin.told hno).loop hl hm,
          hin.alive.loop hl hm ha⟩
      · have hleft := h.left what hmain hthread
        exact ⟨hleft.before, fun hnone => (hleft.told hnone).loop hl hm, hleft.threw⟩

theorem Inv.run {env : Env} {s : State} {as : List Action} (h : Runs.run (step env) init as = some s) :
    Inv env s :=
  Runs.run_invariant (fun _ _ _ hinv hstep => hinv.move (move_of_step hstep)) (inv_init env) h

theorem joining_iff {s : State} :
    s.joining = true ↔ ∃ what rest, s.main = .leaving what ∧ s.locals = .httpThread :: rest := by
  unfold joining
  constructor
  · intro h
    split at h
    next what rest hmain hlocals => exact ⟨what, rest, hmain, hlocals⟩
    next => cases h
  · rintro ⟨what, rest, hmain, hlocals⟩
    rw [hmain, hlocals]

/-- The main thread is caught in the join only if `http_thread` was reached and a ring buffer
has thrown. -/
theorem Inv.of_stuck {env : Env} {s : State} (h : Inv env s) (hstuck : s.Stuck) :
    (∀ st ∈ untilThread, env.error st = none) ∧ ∃ r, env.error (.ringBuffer r) ≠ none := by
  obtain ⟨hjoin, l, hl, _, hrun, hunwritten⟩ := hstuck
  obtain ⟨what, rest, hmain, hlocals⟩ := joining_iff.mp hjoin
  have hleft := h.left what hmain (by simp [hlocals])
  refine ⟨hleft.before, hleft.threw ?_⟩
  rintro rfl
  rw [hleft.told rfl l hl hrun] at hunwritten
  cases hunwritten

/-! ### Running into the join -/

theorem mainStep_pass {env : Env} {s : State} {st : Stmt} {rest : List Stmt}
    (hmain : s.main = .body (st :: rest)) (hloop : st ≠ .loop) (hterm : s.terminated = false)
    (herr : env.error st = none) : s.step env .main = some (s.pass env st rest) := by
  simp [step, mainStep, hterm, hmain, hloop, herr]

theorem mainStep_throws {env : Env} {s : State} {st : Stmt} {rest : List Stmt} {what : Text}
    (hmain : s.main = .body (st :: rest)) (hterm : s.terminated = false)
    (herr : env.error st = some what) :
    s.step env .main =
      some { s with main := .leaving (some what), trace := s.trace ++ env.acquired st } := by
  have hloop : st ≠ .loop := by
    rintro rfl
    cases herr
  simp [step, mainStep, hterm, hmain, hloop, herr]

/-- No statement makes the HTTP thread throw. -/
theorem terminated_pass {env : Env} {s : State} (h : s.terminated = false) (st : Stmt)
    (rest : List Stmt) : (s.pass env st rest).terminated = false := by
  cases st with
  | start =>
      unfold terminated
      cases hl : (s.pass env .start rest).http with
      | none => rfl
      | some l =>
          have hpc : l.pc = .top := (exists_started hl).pc
          simp [hpc, threw]
  | stopHttp =>
      unfold terminated at h ⊢
      rw [State.pass, Env.httpAfter, Option.any_map]
      exact h
  | _ => exact h

/-- The main thread alone passes the statements that do not throw. -/
theorem exists_run_pass {env : Env} {sts rest : List Stmt} {s : State}
    (hmain : s.main = .body (sts ++ rest)) (hterm : s.terminated = false)
    (hpass : ∀ st ∈ sts, st ≠ .loop ∧ env.error st = none) :
    ∃ s', Runs.run (step env) s (List.replicate sts.length .main) = some s' ∧ s'.main = .body rest ∧
      s'.locals = (sts.filterMap Stmt.decl).reverse ++ s.locals ∧
      s'.http = sts.foldl env.httpAfter s.http ∧ s'.terminated = false := by
  induction sts generalizing s with
  | nil => exact ⟨s, rfl, hmain, rfl, rfl, hterm⟩
  | cons st sts ih =>
      obtain ⟨hloop, herr⟩ := hpass st (List.mem_cons_self ..)
      obtain ⟨s', hrun, hmain', hlocals, hhttp, hterm'⟩ :=
        ih (s := s.pass env st (sts ++ rest)) rfl (terminated_pass hterm st _)
          (fun st' hst' => hpass st' (List.mem_cons_of_mem _ hst'))
      refine ⟨s', ?_, hmain', ?_, hhttp, hterm'⟩
      · exact Runs.run_cons_eq_some.mpr ⟨_, mainStep_pass hmain hloop hterm herr, hrun⟩
      · rw [hlocals]
        cases hdecl : st.decl <;> simp [State.pass, hdecl]

/-- The main thread alone runs up to the statement that throws. -/
theorem exists_run_throws {env : Env} (sts : List Stmt) {rest : List Stmt} {st : Stmt} {s : State}
    {what : Text} (hmain : s.main = .body (sts ++ st :: rest)) (hterm : s.terminated = false)
    (hpass : ∀ st ∈ sts, st ≠ .loop ∧ env.error st = none) (herr : env.error st = some what) :
    ∃ as s', Runs.run (step env) s as = some s' ∧ s'.main = .leaving (some what) ∧
      s'.locals = (sts.filterMap Stmt.decl).reverse ++ s.locals ∧
      s'.http = sts.foldl env.httpAfter s.http ∧ s'.terminated = false := by
  obtain ⟨t, hrun, hmain', hlocals, hhttp, hterm'⟩ := exists_run_pass hmain hterm hpass
  have hstep := mainStep_throws hmain' hterm' herr
  exact ⟨_, _, Runs.run_concat hrun hstep, rfl, hlocals, hhttp, hterm'⟩

theorem mainStep_destroy (env : Env) {s : State} {what : Option Text} {x : Local} {rest : List Local}
    (hmain : s.main = .leaving what) (hlocals : s.locals = x :: rest) (hx : x ≠ .httpThread)
    (hterm : s.terminated = false) : s.step env .main = some (s.destroy x rest) := by
  simp [step, mainStep, hterm, hmain, hlocals, hx]

theorem exists_httpAfter {env : Env} (h : env.error .start = none) :
    ∃ l, env.httpAfter none .start = some l := by
  unfold Env.error at h
  unfold Env.httpAfter
  cases hstart : env.server.start env.startup with
  | error what =>
      rw [hstart] at h
      cases h
  | ok l => exact ⟨l, rfl⟩

theorem stuck_of_started {env : Env} {s : State} {l : Loop} {what : Option Text} {rest : List Local}
    (hmain : s.main = .leaving what) (hlocals : s.locals = .httpThread :: rest)
    (hhttp : s.http = some l) (hl : Started env.server l) : s.Stuck := by
  refine ⟨joining_iff.mpr ⟨what, rest, hmain, hlocals⟩, l, hhttp, ?_, hl.running, hl.stopWritten⟩
  rw [hl.pc]
  nofun

/-- The exception of a ring buffer leads into the join, past the ring buffer that may have been
constructed before. -/
theorem exists_stuck {env : Env} (hpass : ∀ st ∈ untilThread, env.error st = none)
    (hring : ∃ r, env.error (.ringBuffer r) ≠ none) :
    ∃ as s, Runs.run (step env) init as = some s ∧ s.Stuck := by
  obtain ⟨l, hl⟩ := exists_httpAfter (hpass .start (by decide))
  have huntil : ∀ st ∈ untilThread, st ≠ .loop ∧ env.error st = none := by
    have hno : ∀ st ∈ untilThread, st ≠ .loop := by decide
    exact fun st hst => ⟨hno st hst, hpass st hst⟩
  cases htcp : env.error (.ringBuffer .tcp) with
  | some what =>
      obtain ⟨as, s, hrun, hmain, hlocals, hhttp, _⟩ :=
        exists_run_throws (s := init) untilThread rfl rfl huntil htcp
      exact ⟨as, s, hrun, stuck_of_started hmain hlocals (hhttp.trans hl) (exists_started hl)⟩
  | none =>
      obtain ⟨what, haudit⟩ : ∃ what, env.error (.ringBuffer .audit) = some what := by
        obtain ⟨r, hr⟩ := hring
        cases r with
        | tcp => exact absurd htcp hr
        | audit => exact Option.ne_none_iff_exists'.mp hr
      have hbody : init.main =
          .body ((untilThread ++ [.ringBuffer .tcp]) ++ .ringBuffer .audit :: [.loop, .stopHttp]) := rfl
      have hpassed : ∀ st ∈ untilThread ++ [.ringBuffer .tcp], st ≠ .loop ∧ env.error st = none := by
        simp only [List.forall_mem_append, List.forall_mem_singleton]
        exact ⟨huntil, by decide, htcp⟩
      obtain ⟨as, s, hrun, hmain, hlocals, hhttp, hterm⟩ :=
        exists_run_throws _ hbody rfl hpassed haudit
      have hstep := mainStep_destroy env hmain hlocals (by decide) hterm
      refine ⟨_, _, Runs.run_concat hrun hstep, ?_⟩
      exact stuck_of_started hmain rfl (hhttp.trans hl) (exists_started hl)

/-- **The main thread is never caught in the join of `http_thread` exactly when, once
`http_thread` is constructed, no ring buffer throws.**  The exception of a ring buffer destroys
`http_thread` before `http_srv`, whose destructor is the only other place that calls `stop`. -/
theorem never_stuck_iff (env : Env) :
    (∀ as s, Runs.run (step env) init as = some s → ¬ s.Stuck) ↔
      ((∀ st ∈ untilThread, env.error st = none) → ∀ r, env.error (.ringBuffer r) = none) := by
  constructor
  · intro hnever hpass r
    by_contra hr
    obtain ⟨as, s, hrun, hstuck⟩ := exists_stuck hpass ⟨r, hr⟩
    exact hnever as s hrun hstuck
  · intro hcond as s hrun hstuck
    obtain ⟨hpass, r, hr⟩ := (Inv.run hrun).of_stuck hstuck
    exact hr (hcond hpass r)

/-- The map `tcp_events` is missing: `run_monitor` throws, and the process hangs. -/
theorem missing_map_hangs :
    ∃ s, Runs.run
        (step ⟨{}, fun _ => [], fun c => match c with | .findMap .tcp => true | _ => false, [],
          ⟨some 3, none, true, some 4, none, some 5, none, 0, by decide⟩⟩)
        init (List.replicate 11 .main) = some s ∧ s.main = .leaving (some "Map not found: tcp_events".toList) ∧
      s.Stuck :=
  Runs.exists_run_of_any (by decide +kernel)

end State

end RunMonitor

end EbpfMonitor
